import Ffilesystem.Copy

/-!
# Copying a file

`copy_file` first turns away sources that are not regular files, and a
destination that is the source already. The C backend then opens both files,
compares their inodes, truncates the destination and moves the bytes. The other
backend removes an existing destination and calls `std::filesystem::copy_file`.

Neither backend undoes a step it has taken. A result therefore says, besides
the state left behind, which of the steps that change the destination were
taken.
-/

namespace Ffilesystem

open FileTree Lexical

/-- What the environment decides: which calls fail that could have succeeded,
and the answers to the transfer calls. -/
structure CopyEnv where
  haveCopyFileRange : Bool
  /-- `equivalent` could not look at one of the two paths. -/
  equivalentFails : Bool
  openSource : Option Errno
  fstatSource : Option Errno
  openDest : Option Errno
  fstatDest : Option Errno
  ftruncate : Option Errno
  schedule : List Outcome
  closeDest : Option Errno
  closeSource : Option Errno
  remove : Option Errno
  stdCopyFile : Option Errno

/-- The result of a copy, with the steps that were taken: the inode that
`open` of the destination gave, and whether `ftruncate` and `remove` succeeded. -/
structure Copied where
  ok : Bool
  sys : System
  opened : Option Nat
  truncated : Bool
  removed : Bool

def Copied.early (sys : System) : Copied := ⟨false, sys, none, false, false⟩

/-- `fs_copy_file_range_or_loop`. A source that is no regular file has been turned
away by its only caller. A device, a pipe or a socket is not truncated. -/
def fsCopyFileRangeOrLoop (env : CopyEnv) (sys : System) (source dest : Str)
    (overwrite : Bool) : Copied :=
  match sys.stat source with
  | .error _ => .early sys
  | .ok (.dir _) => .early sys
  | .ok (.file _ _ rino) =>
      if sys.isSpecial rino then .early sys
      else if env.openSource.isSome || env.fstatSource.isSome || env.openDest.isSome then
        .early sys
      else
        match sys.openCreate dest (!overwrite) with
        | .error _ => .early sys
        | .ok (sys, wino) =>
            if env.fstatDest.isSome || decide (rino = wino) then
              ⟨false, sys, some wino, false, false⟩
            else if sys.isSpecial wino || env.ftruncate.isSome then
              ⟨false, sys, some wino, false, false⟩
            else
              let len := (sys.data rino).length
              let moved := fsCopyData env.haveCopyFileRange len
                ⟨sys.data rino, [], 0, 0, none, env.schedule⟩
              ⟨moved.1 && env.closeDest.isNone && env.closeSource.isNone,
                sys.withData wino moved.2.dest, some wino, true, false⟩

/-- `std::filesystem::copy_file` where nothing outside the tree makes it fail:
links are followed, only a regular file is replaced, and the destination is left
alone on failure. -/
def stdCopyFile (sys : System) (source dest : Str) (overwrite : Bool) : Option System :=
  match sys.stat source with
  | .ok (.file _ _ rino) =>
      if sys.isSpecial rino || sys.equivalent source dest then none
      else
        match sys.openCreate dest (!overwrite) with
        | .ok (sys, wino) =>
            if sys.isSpecial wino then none else some (sys.withData wino (sys.data rino))
        | .error _ => none
  | _ => none

/-- The removal of an existing destination in the `<filesystem>` backend. -/
def removeDest (env : CopyEnv) (sys : System) (dest : Str) (overwrite : Bool) : Option System :=
  if overwrite && sys.isFile dest && env.remove.isNone then (sys.removeCall dest).toOption
  else none

def copyFile (b : Backend) (env : CopyEnv) (sys : System) (source dest : Str)
    (overwrite : Bool) : Copied :=
  if !sys.isFile source then .early sys
  else if !env.equivalentFails && sys.equivalent source dest then .early sys
  else if sys.isDirectory source then .early sys
  else
    match b with
    | .c => fsCopyFileRangeOrLoop env sys source dest overwrite
    | .cxxFilesystem =>
        let cleared := removeDest env sys dest overwrite
        let sys := cleared.getD sys
        match (if env.stdCopyFile.isSome then none else stdCopyFile sys source dest overwrite) with
        | some sys => ⟨true, sys, none, false, cleared.isSome⟩
        | none => ⟨false, sys, none, false, cleared.isSome⟩

/-- One byte can be moved; after it every transfer call fails, as does the copy
of the `<filesystem>` library. -/
def fullDisk : CopyEnv where
  haveCopyFileRange := true
  equivalentFails := false
  openSource := none
  fstatSource := none
  openDest := none
  fstatDest := none
  ftruncate := none
  schedule := [.count 1]
  closeDest := none
  closeSource := none
  remove := none
  stdCopyFile := some (.other 28)

section Cases

variable {env : CopyEnv} {sys : System} {source dest : Str} {overwrite : Bool}

/-- What `fs_copy_file_range_or_loop` can do: nothing, open the destination
only, or open and truncate it and move bytes. -/
theorem fsCopyFileRangeOrLoop_cases (env : CopyEnv) (sys : System) (source dest : Str)
    (overwrite : Bool) :
    fsCopyFileRangeOrLoop env sys source dest overwrite = .early sys ∨
      ∃ R name rino opened wino, sys.stat source = .ok (.file R name rino) ∧
        sys.isSpecial rino = false ∧ sys.openCreate dest (!overwrite) = .ok (opened, wino) ∧
        (fsCopyFileRangeOrLoop env sys source dest overwrite =
            ⟨false, opened, some wino, false, false⟩ ∨
          rino ≠ wino ∧ opened.isSpecial wino = false ∧ ∃ moved,
            moved = fsCopyData env.haveCopyFileRange (opened.data rino).length
              ⟨opened.data rino, [], 0, 0, none, env.schedule⟩ ∧
            fsCopyFileRangeOrLoop env sys source dest overwrite =
              ⟨moved.1 && env.closeDest.isNone && env.closeSource.isNone,
                opened.withData wino moved.2.dest, some wino, true, false⟩) := by
  rw [fsCopyFileRangeOrLoop]
  split
  · exact .inl rfl
  · exact .inl rfl
  rename_i R name rino hsource
  split
  · exact .inl rfl
  rename_i hregular
  split
  · exact .inl rfl
  split
  · exact .inl rfl
  rename_i opened wino hopen
  refine .inr ⟨R, name, rino, opened, wino, hsource, by simpa using hregular, hopen, ?_⟩
  split
  · exact .inl rfl
  rename_i hdest
  split
  · exact .inl rfl
  · rename_i htruncate
    have hplain : opened.isSpecial wino = false := by
      cases hspecial : opened.isSpecial wino with
      | false => rfl
      | true => exact absurd (by rw [hspecial, Bool.true_or]) htruncate
    refine .inr ⟨?_, hplain, _, rfl, rfl⟩
    intro heq
    exact hdest (by simp [heq])

/-- What the open destination is: a file that was there, whose content is still
unchanged, or a new file of its own. -/
theorem opened_cases {opened : System} {wino : Nat} {excl : Bool}
    (h : sys.openCreate dest excl = .ok (opened, wino)) :
    sys.Grows opened ∧ (∃ R name, opened.stat dest = .ok (.file R name wino)) ∧
      ∀ path R name ino, sys.stat path = .ok (.file R name ino) →
        opened.data ino = sys.data ino := by
  cases System.openCreate_cases h with
  | inl hsame =>
      obtain ⟨-, rfl, R, name, hstat⟩ := hsame
      exact ⟨.refl _, ⟨R, name, hstat⟩, fun _ _ _ _ _ => rfl⟩
  | inr hnew =>
      obtain ⟨hino, -, hgrows, hstat, hdata⟩ := hnew
      refine ⟨hgrows, hstat, ?_⟩
      intro path R name ino hpath
      rw [hdata, hino]
      exact Function.update_of_ne (System.ne_freshIno_of_stat hpath) _ _

theorem readFile_eq_some {path : Str} {bytes : List UInt8} :
    sys.readFile path = some bytes ↔ ∃ R name ino, sys.stat path = .ok (.file R name ino) ∧
      sys.isSpecial ino = false ∧ sys.data ino = bytes := by
  rw [System.readFile]
  constructor
  · intro h
    split at h
    · rename_i R name ino hstat
      split at h
      · cases h
      · rename_i hplain
        exact ⟨R, name, ino, hstat, Bool.eq_false_iff.mpr hplain, Option.some.inj h⟩
    · cases h
  · rintro ⟨R, name, ino, hstat, hplain, rfl⟩
    rw [hstat]
    exact if_neg (Bool.eq_false_iff.mp hplain)

theorem readFile_withData_self {path : Str} {R : List FileName} {name : FileName} {ino : Nat}
    (h : sys.stat path = .ok (.file R name ino)) (hplain : sys.isSpecial ino = false)
    (bytes : List UInt8) : (sys.withData ino bytes).readFile path = some bytes :=
  readFile_eq_some.mpr ⟨R, name, ino, (System.grows_withData ino bytes).stat h, hplain,
    Function.update_self _ _ _⟩

/-- A copy in the C backend that reports success has opened both files, which are not one,
and has moved all bytes. -/
theorem fsCopyFileRangeOrLoop_of_ok {env : CopyEnv} {source dest : Str} {overwrite : Bool}
    (hok : (fsCopyFileRangeOrLoop env sys source dest overwrite).ok = true) :
    ∃ R name rino opened wino, sys.stat source = .ok (.file R name rino) ∧
      sys.isSpecial rino = false ∧ sys.openCreate dest (!overwrite) = .ok (opened, wino) ∧
      rino ≠ wino ∧ opened.isSpecial wino = false ∧
      (fsCopyFileRangeOrLoop env sys source dest overwrite).sys =
        opened.withData wino (opened.data rino) := by
  cases fsCopyFileRangeOrLoop_cases env sys source dest overwrite with
  | inl hearly =>
      rw [hearly] at hok
      cases hok
  | inr hopened =>
      obtain ⟨R, name, rino, opened, wino, hsource, hregular, hopen, hresult⟩ := hopened
      refine ⟨R, name, rino, opened, wino, hsource, hregular, hopen, ?_⟩
      cases hresult with
      | inl hstopped =>
          rw [hstopped] at hok
          cases hok
      | inr hmoved =>
          obtain ⟨hne, hplain, moved, hmove, hresult⟩ := hmoved
          rw [hresult] at hok ⊢
          have hspec := fsCopyData_spec env.haveCopyFileRange
            (tracks_start (opened.data rino) env.schedule) rfl rfl rfl
          rw [← hmove] at hspec
          have hdone : moved.1 = true := by
            simp only [Bool.and_eq_true] at hok
            exact hok.1.1
          refine ⟨hne, hplain, ?_⟩
          rw [← hspec.2.2 hdone]

/-- A copy in the C backend that reports success is exact: the destination holds
the bytes of the source, and the source still holds them. -/
theorem fsCopyFileRangeOrLoop_exact (env : CopyEnv) (sys : System) (source dest : Str)
    (overwrite : Bool) (hok : (fsCopyFileRangeOrLoop env sys source dest overwrite).ok = true) :
    ∃ bytes, sys.readFile source = some bytes ∧
      (fsCopyFileRangeOrLoop env sys source dest overwrite).sys.readFile dest = some bytes ∧
      (fsCopyFileRangeOrLoop env sys source dest overwrite).sys.readFile source = some bytes := by
  obtain ⟨R, name, rino, opened, wino, hsource, hregular, hopen, hne, hplain, hresult⟩ :=
    fsCopyFileRangeOrLoop_of_ok hok
  obtain ⟨hgrows, ⟨R', name', hdest⟩, hdata⟩ := opened_cases hopen
  have hbytes : opened.data rino = sys.data rino := hdata _ _ _ _ hsource
  have hgrows' := hgrows.trans (System.grows_withData wino (sys.data rino))
  rw [hresult, hbytes]
  refine ⟨sys.data rino, readFile_eq_some.mpr ⟨_, _, _, hsource, hregular, rfl⟩, ?_, ?_⟩
  · exact readFile_withData_self hdest hplain _
  · refine readFile_eq_some.mpr ⟨R, name, rino, hgrows'.stat hsource, ?_, ?_⟩
    · rw [hgrows'.isSpecial_eq, hregular]
    · exact (Function.update_of_ne hne _ _).trans hbytes

theorem fsCopyFileRangeOrLoop_exact_at :
    ∃ bytes, twoFiles.readFile ['a'] = some bytes ∧
      (fsCopyFileRangeOrLoop { fullDisk with schedule := [.count 2] } twoFiles ['a'] ['b']
        true).sys.readFile ['b'] = some bytes ∧
      (fsCopyFileRangeOrLoop { fullDisk with schedule := [.count 2] } twoFiles ['a'] ['b']
        true).sys.readFile ['a'] = some bytes :=
  fsCopyFileRangeOrLoop_exact { fullDisk with schedule := [.count 2] } twoFiles ['a'] ['b'] true
    (by decide +kernel)

end Cases

section Failure

/-- A copy that fails and leaves the destination as it was: there exactly if it
was there, with the content that it had. -/
def FailureKeepsDest (b : Backend) (env : CopyEnv) (sys : System) (source dest : Str)
    (overwrite : Bool) : Prop :=
  (copyFile b env sys source dest overwrite).ok = false →
    ((∃ spot, (copyFile b env sys source dest overwrite).sys.stat dest = .ok spot) ↔
      ∃ spot, sys.stat dest = .ok spot) ∧
    ∀ bytes, sys.readFile dest = some bytes →
      (copyFile b env sys source dest overwrite).sys.readFile dest = some bytes

/-- What a failed copy of the C backend leaves behind. -/
structure LeavesPrefix (sys : System) (source dest : Str) (r : Copied) : Prop where
  /-- No entry is lost, so a destination that was there still is. -/
  grows : sys.Grows r.sys
  unopened : r.opened = none → r.sys = sys
  opened : ∀ wino, r.opened = some wino → ∃ R name, r.sys.stat dest = .ok (.file R name wino)
  others : ∀ ino, r.opened ≠ some ino → r.sys.data ino = sys.data ino
  kept : r.truncated = false → ∀ bytes, sys.readFile dest = some bytes →
    r.sys.readFile dest = some bytes
  filled : r.truncated = true → ∃ bytes m, sys.readFile source = some bytes ∧
    r.sys.readFile dest = some (bytes.take m)

/-- What a failed copy of the `<filesystem>` backend leaves behind. -/
structure LeavesRemoved (sys : System) (dest : Str) (overwrite : Bool) (r : Copied) : Prop where
  unremoved : r.removed = false → r.sys = sys
  removed : r.removed = true → overwrite = true ∧ sys.isFile dest = true ∧
    ∃ R name e, sys.locate dest = .ok (R, .down name) ∧ sys.tree.lookup R name = some e ∧
      r.sys.tree.entries = sys.tree.entries.filter (· ≠ e) ∧ r.sys.data = sys.data

/-- What a failed copy leaves behind in either backend. -/
def Leaves (b : Backend) (sys : System) (source dest : Str) (overwrite : Bool)
    (r : Copied) : Prop :=
  match b with
  | .c => LeavesPrefix sys source dest r
  | .cxxFilesystem => LeavesRemoved sys dest overwrite r

variable {env : CopyEnv} {sys : System} {source dest : Str} {overwrite : Bool}

theorem leavesPrefix_early : LeavesPrefix sys source dest (.early sys) where
  grows := .refl sys
  unopened _ := rfl
  opened _ h := nomatch h
  others _ _ := rfl
  kept _ _ h := h
  filled h := nomatch h

theorem leavesRemoved_early : LeavesRemoved sys dest overwrite (.early sys) where
  unremoved _ := rfl
  removed h := nomatch h

theorem data_of_not_opened {opened : System} {wino : Nat} {excl : Bool}
    (h : sys.openCreate dest excl = .ok (opened, wino)) {ino : Nat} (hne : ino ≠ wino) :
    opened.data ino = sys.data ino := by
  cases System.openCreate_cases h with
  | inl hsame =>
      obtain ⟨-, rfl, -⟩ := hsame
      rfl
  | inr hnew =>
      obtain ⟨-, -, -, -, hdata⟩ := hnew
      rw [hdata]
      exact Function.update_of_ne hne _ _

/-- Every way the C backend can end, successfully or not, is one of these. -/
theorem fsCopyFileRangeOrLoop_leaves (env : CopyEnv) (sys : System) (source dest : Str)
    (overwrite : Bool) :
    LeavesPrefix sys source dest (fsCopyFileRangeOrLoop env sys source dest overwrite) := by
  cases fsCopyFileRangeOrLoop_cases env sys source dest overwrite with
  | inl hearly =>
      rw [hearly]
      exact leavesPrefix_early
  | inr hopened =>
      obtain ⟨R, name, rino, opened, wino, hsource, hregular, hopen, hresult⟩ := hopened
      obtain ⟨hgrows, hdest, hdata⟩ := opened_cases hopen
      cases hresult with
      | inl hstopped =>
          rw [hstopped]
          refine ⟨hgrows, fun h => (nomatch h), ?_, ?_, ?_, fun h => (nomatch h)⟩
          · intro wino' heq
            obtain rfl := Option.some.inj heq
            exact hdest
          · intro ino hne
            exact data_of_not_opened hopen (fun heq => hne (heq ▸ rfl))
          · intro _ bytes hread
            obtain ⟨R', name', ino, hstat, hplain, rfl⟩ := readFile_eq_some.mp hread
            exact readFile_eq_some.mpr ⟨R', name', ino, hgrows.stat hstat,
              (hgrows.isSpecial_eq ino).trans hplain, hdata dest R' name' ino hstat⟩
      | inr hmoved =>
          obtain ⟨hne, hplain, moved, hmove, hresult⟩ := hmoved
          rw [hresult]
          have hgrows' : opened.Grows (opened.withData wino moved.2.dest) :=
            System.grows_withData _ _
          have hspec := fsCopyData_spec env.haveCopyFileRange
            (tracks_start (opened.data rino) env.schedule) rfl rfl rfl
          rw [← hmove] at hspec
          refine ⟨hgrows.trans hgrows', fun h => (nomatch h), ?_, ?_, fun h => (nomatch h), ?_⟩
          · intro wino' heq
            obtain rfl := Option.some.inj heq
            obtain ⟨R', name', hstat⟩ := hdest
            exact ⟨R', name', hgrows'.stat hstat⟩
          · intro ino hino
            have hino' : ino ≠ wino := fun heq => hino (heq ▸ rfl)
            exact (Function.update_of_ne hino' _ _).trans (data_of_not_opened hopen hino')
          · intro _
            obtain ⟨m, hm⟩ := hspec.1
            obtain ⟨R', name', hstat⟩ := hdest
            refine ⟨sys.data rino, m, readFile_eq_some.mpr ⟨_, _, _, hsource, hregular, rfl⟩, ?_⟩
            rw [hm, hdata _ _ _ _ hsource]
            exact readFile_withData_self hstat hplain _

theorem removeCall_cases {path : Str} {sys' : System} (h : sys.removeCall path = .ok sys') :
    ∃ R name e, sys.locate path = .ok (R, .down name) ∧ sys.tree.lookup R name = some e ∧
      sys'.tree.entries = sys.tree.entries.filter (· ≠ e) ∧ sys'.data = sys.data := by
  rw [System.removeCall] at h
  split at h
  · rename_i R name hlocate
    split at h
    · rename_i e hfind
      split at h
      · cases h
      · rw [System.removeEntry] at h
        split at h
        · split at h
          · cases h
            exact ⟨R, name, e, hlocate, hfind, rfl, rfl⟩
          · cases h
        · cases h
    · cases h
  · cases h
  · cases h

theorem removeDest_cases {sys' : System} (h : removeDest env sys dest overwrite = some sys') :
    overwrite = true ∧ sys.isFile dest = true ∧ sys.removeCall dest = .ok sys' := by
  rw [removeDest] at h
  split at h
  · rename_i hcond
    simp only [Bool.and_eq_true] at hcond
    refine ⟨hcond.1.1, hcond.1.2, ?_⟩
    cases hremove : sys.removeCall dest with
    | error e =>
        rw [hremove] at h
        cases h
    | ok sys'' =>
        rw [hremove] at h
        exact congrArg Except.ok (Option.some.inj h)
  · cases h

/-- A failed copy leaves everything as it was, but for the steps that it took
itself: in the C backend the destination that was opened, which holds a prefix
of the source once it was truncated, and in the other backend the destination
that was removed. -/
theorem copyFile_failure_leaves (b : Backend) (env : CopyEnv) (sys : System) (source dest : Str)
    (overwrite : Bool) (hfail : (copyFile b env sys source dest overwrite).ok = false) :
    Leaves b sys source dest overwrite (copyFile b env sys source dest overwrite) := by
  have hearly : Leaves b sys source dest overwrite (.early sys) := by
    cases b with
    | c => exact leavesPrefix_early
    | cxxFilesystem => exact leavesRemoved_early
  unfold copyFile at hfail ⊢
  split
  · exact hearly
  split
  · exact hearly
  split
  · exact hearly
  rename_i hfile hequiv hdir
  rw [if_neg hfile, if_neg hequiv, if_neg hdir] at hfail
  cases b with
  | c => exact fsCopyFileRangeOrLoop_leaves env sys source dest overwrite
  | cxxFilesystem =>
      simp only [Leaves] at hfail ⊢
      split at hfail
      · cases hfail
      · cases hcleared : removeDest env sys dest overwrite with
        | none => exact ⟨fun _ => rfl, fun h => (nomatch h)⟩
        | some cleared =>
            obtain ⟨hover, hisFile, hremove⟩ := removeDest_cases hcleared
            exact ⟨fun h => (nomatch h), fun _ => ⟨hover, hisFile, removeCall_cases hremove⟩⟩

theorem copyFile_failure_leaves_at :
    Leaves .c twoFiles ['a'] ['b'] true (copyFile .c fullDisk twoFiles ['a'] ['b'] true) :=
  copyFile_failure_leaves .c fullDisk twoFiles ['a'] ['b'] true (by decide +kernel)

/-- A copy of `a` to `b` on a full disk cuts `b` down to the first byte of `a` in
the C backend, and removes it in the other. -/
theorem copyFile_failure_changes_dest :
    ¬ FailureKeepsDest .c fullDisk twoFiles ['a'] ['b'] true ∧
      ¬ FailureKeepsDest .cxxFilesystem fullDisk twoFiles ['a'] ['b'] true := by
  constructor
  · intro h
    have hkept := (h (by decide +kernel)).2 [9] (by decide +kernel)
    exact absurd hkept (by decide +kernel)
  · intro h
    have hkept := (h (by decide +kernel)).2 [9] (by decide +kernel)
    exact absurd hkept (by decide +kernel)

end Failure

end Ffilesystem
