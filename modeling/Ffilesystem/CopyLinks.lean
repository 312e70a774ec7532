import Ffilesystem.CopyFile
import Ffilesystem.Library.Removal

/-!
# Copying between names of one file, and through links

Two paths can name one inode by hard links, by symbolic links, or by being
spelled differently. The C backend compares the inodes of the two files that it
has open before it truncates anything, so a copy of a file to itself changes
nothing, whatever the earlier check has answered.

A destination that is a link is followed by `open`. The removal in the other
backend does not follow it, so that the copy after it makes a new file where the
link was. That the copy still finds its source is a fact about walks: none that
ends at another file has followed the link.
-/

namespace Ffilesystem

open FileTree Lexical

section Aliases

/-- The two paths lead to one inode. -/
def Aliased (sys : System) (source dest : Str) : Prop :=
  ∃ spot spot', sys.stat source = .ok spot ∧ sys.stat dest = .ok spot' ∧
    System.sameInode spot spot' = true

/-- A path is taken when it leads somewhere, or when an entry has its name,
which may be a link that leads nowhere. -/
def Taken (sys : System) (path : Str) : Prop :=
  (∃ spot, sys.stat path = .ok spot) ∨
    ∃ R name e, sys.locate path = .ok (R, .down name) ∧ sys.tree.lookup R name = some e

variable {sys : System} {source dest : Str} {overwrite : Bool}

/-- `O_EXCL` opens nothing that is there. -/
theorem openCreate_excl_of_taken {r : System × Nat} (h : Taken sys dest) :
    sys.openCreate dest true ≠ .ok r := by
  intro hopen
  rcases h with ⟨spot, hstat⟩ | ⟨R, name, e, hlocate, hfind⟩
  · obtain ⟨hexcl, -⟩ | ⟨-, hnone, -⟩ := System.openCreate_cases hopen
    · cases hexcl
    · rw [hstat] at hnone
      cases hnone
  · obtain ⟨hne, -⟩ := System.locate_eq_ok hlocate
    simp only [System.openCreate, if_neg hne, if_true, hlocate, hfind, Option.isSome_some] at hopen
    split at hopen <;> cases hopen

/-- The comparison of the inodes comes before the first change. -/
theorem fsCopyFileRangeOrLoop_harmless (env : CopyEnv)
    (h : Aliased sys source dest ∨ (overwrite = false ∧ Taken sys dest)) :
    (fsCopyFileRangeOrLoop env sys source dest overwrite).ok = false ∧
      (fsCopyFileRangeOrLoop env sys source dest overwrite).sys = sys := by
  cases fsCopyFileRangeOrLoop_cases env sys source dest overwrite with
  | inl hearly =>
      rw [hearly]
      exact ⟨rfl, rfl⟩
  | inr hopened =>
      obtain ⟨R, name, rino, opened, wino, hsource, -, hopen, hresult⟩ := hopened
      rcases h with ⟨spot, spot', hspot, hspot', hsame⟩ | ⟨rfl, htaken⟩
      · rw [hsource] at hspot
        cases hspot
        obtain ⟨-, rfl, R', name', hdest⟩ | ⟨-, hnone, -⟩ := System.openCreate_cases hopen
        · rw [hdest] at hspot'
          cases hspot'
          obtain rfl : rino = wino := of_decide_eq_true hsame
          rcases hresult with hstopped | ⟨hne, -⟩
          · rw [hstopped]
            exact ⟨rfl, rfl⟩
          · exact absurd rfl hne
        · rw [hspot'] at hnone
          cases hnone
      · exact absurd hopen (openCreate_excl_of_taken htaken)

/-- A copy of a file to itself, and a copy without permission to overwrite, fail
and change nothing. -/
theorem copyFile_harmless (env : CopyEnv) (sys : System) (source dest : Str) (overwrite : Bool)
    (h : Aliased sys source dest ∨ (overwrite = false ∧ Taken sys dest)) :
    (copyFile .c env sys source dest overwrite).ok = false ∧
      (copyFile .c env sys source dest overwrite).sys = sys := by
  rw [copyFile]
  split
  · exact ⟨rfl, rfl⟩
  split
  · exact ⟨rfl, rfl⟩
  split
  · exact ⟨rfl, rfl⟩
  exact fsCopyFileRangeOrLoop_harmless env h

theorem copyFile_harmless_at :
    (copyFile .c { fullDisk with equivalentFails := true } twoFiles ['a'] "./a".toList
        true).ok = false ∧
      (copyFile .c { fullDisk with equivalentFails := true } twoFiles ['a'] "./a".toList
        true).sys = twoFiles :=
  copyFile_harmless { fullDisk with equivalentFails := true } twoFiles ['a'] "./a".toList true
    (.inl ⟨.file [] ⟨['a'], by decide⟩ 0, .file [] ⟨['a'], by decide⟩ 0, by decide +kernel,
      by decide +kernel, rfl⟩)

end Aliases

section Links

/-- A destination that is a link, and leads to a regular file of another inode
than the regular file that the source leads to. -/
structure LinkedDest (sys : System) (source dest : Str) where
  sourceDir : List FileName
  sourceName : FileName
  rino : Nat
  stat_source : sys.stat source = .ok (.file sourceDir sourceName rino)
  regular_source : sys.isSpecial rino = false
  dir : List FileName
  name : FileName
  link : Entry FileName
  target : Target FileName
  locate_dest : sys.locate dest = .ok (dir, .down name)
  lookup_dest : sys.tree.lookup dir name = some link
  node_eq : link.node = .link target
  fileDir : List FileName
  fileName : FileName
  tino : Nat
  stat_dest : sys.stat dest = .ok (.file fileDir fileName tino)
  regular_dest : sys.isSpecial tino = false
  different : rino ≠ tino

theorem isFileName_a : IsFileName ['a'] := by decide

theorem isFileName_b : IsFileName ['b'] := by decide

/-- A link `l` to `b` in the root directory. -/
def linkEntry : Entry FileName :=
  ⟨[], ⟨['l'], by decide⟩, .link ⟨false, [.down ⟨['b'], isFileName_b⟩]⟩⟩

def linkedFiles : System where
  tree :=
    { entries := twoFiles.tree.entries ++ [linkEntry]
      fold := id
      distinct := by decide
      housed := by decide }
  data := twoFiles.data
  cwd := []
  maxLinks := 40
  cwd_isDir := .inl rfl

/-- A copy that succeeds leaves every entry as it is, the link among them, and
gives the file that the link leads to the content of the source. -/
def OverwritesThrough (b : Backend) (env : CopyEnv) (sys : System) (source dest : Str)
    (rino tino : Nat) : Prop :=
  (copyFile b env sys source dest true).ok = true →
    (copyFile b env sys source dest true).sys.tree = sys.tree ∧
      (copyFile b env sys source dest true).sys.data =
        Function.update sys.data tino (sys.data rino)

namespace LinkedDest

variable {sys : System} {source dest : Str}

theorem endMove_dest (h : LinkedDest sys source dest) : endMove (cStr dest) = [] :=
  System.endMove_of_stat_file h.stat_dest

theorem walk_target (h : LinkedDest sys source dest) : ∃ b l,
    sys.tree.walk b (.dir (if h.target.rooted then [] else h.link.dir)) h.target.moves =
      .ok (l, .file h.fileDir h.fileName h.tino) := by
  obtain ⟨-, left, hwalk⟩ := System.stat_eq_ok h.stat_dest
  obtain ⟨-, -, left', hfront⟩ := System.locate_eq_ok h.locate_dest
  obtain ⟨-, hdir, -⟩ := Tree.lookup_eq_some_iff.mp h.lookup_dest
  rw [h.endMove_dest, List.append_nil, System.trail_of_locate h.locate_dest,
    System.walkFrom, Tree.walk_append_of_ok hfront] at hwalk
  cases left' with
  | zero =>
      rw [Tree.walk_down_of_link_zero h.lookup_dest h.node_eq] at hwalk
      cases hwalk
  | succ b =>
      rw [Tree.walk_down_of_link_succ h.lookup_dest h.node_eq, List.append_nil, ← hdir] at hwalk
      exact ⟨b, left, hwalk⟩

theorem not_equivalent (h : LinkedDest sys source dest) : sys.equivalent source dest = false := by
  simp [System.equivalent, h.stat_source, h.stat_dest, System.sameInode, h.different]

/-- The link is removed, and no walk that does not end at its file has used it. -/
theorem removeCall_eq (h : LinkedDest sys source dest) :
    ∃ cleared, sys.removeCall dest = .ok cleared ∧ cleared.specials = sys.specials ∧
      cleared.tree.lookup h.dir h.name = none ∧ ∀ p moves r,
        sys.walkFrom p moves = .ok r → r.2 ≠ .file h.fileDir h.fileName h.tino →
          cleared.walkFrom p moves = .ok r := by
  have hnode : h.link.node ≠ .dir := by
    rw [h.node_eq]
    exact fun heq => nomatch heq
  have hmem := (Tree.lookup_eq_some_iff.mp h.lookup_dest).1
  have hempty : ∀ e' ∈ sys.tree.entries, e'.dir ≠ h.link.path :=
    fun e' he' => Tree.dir_ne_path hmem hnode he'
  have hcwd : (sys.tree.remove h.link hempty).IsDir sys.cwd :=
    Tree.isDir_remove hempty hnode sys.cwd_isDir
  obtain ⟨b, l, htarget⟩ := h.walk_target
  refine ⟨{ sys with tree := sys.tree.remove h.link hempty, cwd_isDir := hcwd }, ?_, rfl,
    Tree.lookup_remove_self hempty h.lookup_dest, ?_⟩
  · simp only [System.removeCall, h.locate_dest, h.lookup_dest, h.endMove_dest,
      System.removeEntry, dif_pos hempty, dif_pos hcwd]
    rfl
  · intro p moves r hwalk hr
    exact Tree.walk_remove hempty h.node_eq htarget hwalk hr

/-- The copy after the removal makes a new file in the place of the link. -/
theorem stdCopyFile_of_cleared (h : LinkedDest sys source dest) {cleared : System}
    (hspecials : cleared.specials = sys.specials)
    (hlookup : cleared.tree.lookup h.dir h.name = none)
    (hwalks : ∀ p moves r, sys.walkFrom p moves = .ok r →
      r.2 ≠ .file h.fileDir h.fileName h.tino → cleared.walkFrom p moves = .ok r) :
    ∃ copied ino, stdCopyFile cleared source dest true = some copied ∧
      copied.tree.lookup h.dir h.name = some ⟨h.dir, h.name, .file ino⟩ := by
  have hsource : cleared.stat source = .ok (.file h.sourceDir h.sourceName h.rino) := by
    obtain ⟨hne, left, hwalk⟩ := System.stat_eq_ok h.stat_source
    refine System.stat_of_walkFrom left hne (hwalks _ _ _ hwalk ?_)
    exact fun heq => h.different (Spot.file.inj heq).2.2
  obtain ⟨hne, hlast, left, hwalk⟩ := System.locate_eq_ok h.locate_dest
  have hfront := hwalks _ _ _ hwalk (fun heq => nomatch heq)
  have hmissing : cleared.walkFrom (cStr dest) (trail (cStr dest) ++ endMove (cStr dest)) =
      .error (.missing h.dir h.name []) := by
    rw [h.endMove_dest, List.append_nil, System.trail_of_locate h.locate_dest, System.walkFrom,
      Tree.walk_append_of_ok hfront, Tree.walk_down_of_none hlookup]
  have hdest := System.stat_of_walkFrom_error _ hne hmissing
  have hdir : cleared.tree.IsDir h.dir :=
    Tree.walk_stands (cleared.origin_stands (cStr dest)) hfront
  have hequiv : cleared.equivalent source dest = false := by
    simp [System.equivalent, hsource, hdest]
  obtain ⟨created, hcreate⟩ : ∃ created,
      cleared.createFile h.dir h.name = .ok (created, cleared.freshIno) :=
    ⟨_, dif_pos ⟨hdir, hlookup⟩⟩
  have hopen : cleared.openCreate dest (!true) = .ok (created, cleared.freshIno) := by
    simp only [System.openCreate, if_neg hne, Bool.not_true, Bool.false_eq_true, if_false,
      hmissing, hcreate]
  obtain ⟨-, -, hgrows, hfound, -⟩ := System.createFile_cases hcreate
  have hregular : cleared.isSpecial h.rino = false := by
    rw [System.isSpecial, hspecials]
    exact h.regular_source
  have hnew : created.isSpecial cleared.freshIno = false := by
    rw [hgrows.isSpecial_eq, System.isSpecial_freshIno]
  refine ⟨created.withData cleared.freshIno (created.data h.rino), cleared.freshIno, ?_, hfound⟩
  simp only [stdCopyFile, hsource, hregular, hequiv, Bool.or_self, Bool.false_eq_true, if_false,
    hopen, hnew]

theorem stdCopyFile_eq (h : LinkedDest sys source dest) :
    stdCopyFile sys source dest true = some (sys.withData h.tino (sys.data h.rino)) := by
  obtain ⟨hne, left, hwalk⟩ := System.stat_eq_ok h.stat_dest
  have hopen : sys.openCreate dest (!true) = .ok (sys, h.tino) := by
    simp only [System.openCreate, if_neg hne, Bool.not_true, Bool.false_eq_true, if_false, hwalk]
  simp only [stdCopyFile, h.stat_source, h.regular_source, h.not_equivalent, Bool.or_self,
    Bool.false_eq_true, if_false, hopen, h.regular_dest]

theorem isFile_dest (h : LinkedDest sys source dest) : sys.isFile dest = true := by
  simp [System.isFile, h.stat_dest, h.regular_dest]

/-- The first checks of `copy_file` let such a copy pass. -/
theorem copyFile_eq (h : LinkedDest sys source dest) (b : Backend) (env : CopyEnv) :
    copyFile b env sys source dest true =
      match b with
      | .c => fsCopyFileRangeOrLoop env sys source dest true
      | .cxxFilesystem =>
          let cleared := removeDest env sys dest true
          match (if env.stdCopyFile.isSome then none
              else stdCopyFile (cleared.getD sys) source dest true) with
          | some copied => ⟨true, copied, none, false, cleared.isSome⟩
          | none => ⟨false, cleared.getD sys, none, false, cleared.isSome⟩ := by
  have hfile : sys.isFile source = true := by
    simp [System.isFile, h.stat_source, h.regular_source]
  have hdir : sys.isDirectory source = false := by
    simp [System.isDirectory, h.stat_source, Spot.isDir]
  unfold copyFile
  rw [hfile, hdir, h.not_equivalent, Bool.and_false]
  cases b <;> rfl

theorem overwritesThrough_c (h : LinkedDest sys source dest) (env : CopyEnv) :
    OverwritesThrough .c env sys source dest h.rino h.tino := by
  rw [OverwritesThrough, h.copyFile_eq]
  dsimp only
  intro hok
  obtain ⟨R, name, rino, opened, wino, hsource, -, hopen, -, -, hresult⟩ :=
    fsCopyFileRangeOrLoop_of_ok hok
  obtain ⟨-, rfl, R', name', hdest⟩ | ⟨-, hnone, -⟩ := System.openCreate_cases hopen
  · rw [h.stat_source] at hsource
    cases hsource
    rw [h.stat_dest] at hdest
    cases hdest
    rw [hresult]
    exact ⟨rfl, rfl⟩
  · rw [h.stat_dest] at hnone
    cases hnone

end LinkedDest

/-- Overwriting through a link is safe in the C backend. In the other backend the
link is replaced whenever it can be removed and the copy then succeeds. -/
theorem overwritesThrough_iff {sys : System} {source dest : Str}
    (h : LinkedDest sys source dest) (b : Backend) (env : CopyEnv) :
    OverwritesThrough b env sys source dest h.rino h.tino ↔
      b = .c ∨ env.remove ≠ none ∨ env.stdCopyFile ≠ none := by
  cases b with
  | c => exact iff_of_true (h.overwritesThrough_c env) (.inl rfl)
  | cxxFilesystem =>
      rw [or_iff_right (fun hc => nomatch hc), OverwritesThrough, h.copyFile_eq]
      dsimp only
      cases hstd : env.stdCopyFile with
      | some e =>
          rw [Option.isSome_some, if_pos rfl]
          exact iff_of_true (fun hok => nomatch hok) (.inr (fun hnone => nomatch hnone))
      | none =>
          rw [Option.isSome_none, if_neg Bool.false_ne_true, removeDest, h.isFile_dest]
          cases hremove : env.remove with
          | some e =>
              simp only [Option.isNone_some, Bool.and_false, Bool.false_eq_true, if_false,
                Option.getD_none, h.stdCopyFile_eq]
              exact iff_of_true (fun _ => ⟨rfl, rfl⟩) (.inl (fun hnone => nomatch hnone))
          | none =>
              obtain ⟨cleared, hcall, hspecials, hlookup, hwalks⟩ := h.removeCall_eq
              obtain ⟨copied, ino, hcopy, hfound⟩ :=
                h.stdCopyFile_of_cleared hspecials hlookup hwalks
              simp only [Option.isNone_none, Bool.and_self, if_true, hcall, Except.toOption,
                Option.getD_some, hcopy]
              refine iff_of_false (fun hkept => ?_) (fun hor => ?_)
              · rw [(hkept trivial).1, h.lookup_dest] at hfound
                have hfile := congrArg Entry.node (Option.some.inj hfound)
                rw [h.node_eq] at hfile
                cases hfile
              · exact hor.elim (fun hne => hne rfl) (fun hne => hne rfl)

def linkedDest : LinkedDest linkedFiles ['a'] ['l'] where
  sourceDir := []
  sourceName := ⟨['a'], isFileName_a⟩
  rino := 0
  stat_source := by decide +kernel
  regular_source := rfl
  dir := []
  name := linkEntry.name
  link := linkEntry
  target := ⟨false, [.down ⟨['b'], isFileName_b⟩]⟩
  locate_dest := by decide +kernel
  lookup_dest := by decide +kernel
  node_eq := rfl
  fileDir := []
  fileName := ⟨['b'], isFileName_b⟩
  tino := 1
  stat_dest := by decide +kernel
  regular_dest := rfl
  different := by decide

theorem overwritesThrough_linkedFiles :
    OverwritesThrough .c { fullDisk with schedule := [.count 2] } linkedFiles ['a'] ['l'] 0 1 :=
  (overwritesThrough_iff linkedDest .c { fullDisk with schedule := [.count 2] }).mpr (.inl rfl)

/-- The other backend makes `l` a file of its own. -/
theorem not_overwritesThrough_linkedFiles :
    ¬ ∀ (b : Backend) (env : CopyEnv) (sys : System) (source dest : Str)
      (h : LinkedDest sys source dest),
      OverwritesThrough b env sys source dest h.rino h.tino := by
  intro h
  have htree := (h .cxxFilesystem { fullDisk with stdCopyFile := none } linkedFiles ['a'] ['l']
    linkedDest (by decide +kernel)).1
  exact absurd (congrArg (fun t : FileTree.Tree FileName => t.entries) htree) (by decide +kernel)

end Links

end Ffilesystem
