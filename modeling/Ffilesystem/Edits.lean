import Ffilesystem.CaseSensitive
import Ffilesystem.Rename
import Mathlib.Logic.Relation

/-!
# What the functions of the library do to a system

Whatever a function does to the tree and to the contents is a series of edits: an
entry comes, goes or is moved, bytes are written, or the current directory changes.
The edits carry which inodes may get another content and whether a name may lose
what it named, so that what a function leaves alone can be read off its series. An
edit of the last kind is one that the state has no words for, such as that of modes.

No edit gives an inode a second entry. In a system without hard links the inode of
a file therefore says as much as its canonical path (`equivalent_iff_canonical`).
-/

namespace Ffilesystem

open FileTree Lexical

/-- One edit, where the inodes in `W` may get another content, only with `S` a path
may come to name something else, and only with `U` anything but the contents may be
another one. -/
inductive Edit (W : Nat → Prop) (S U : Prop) : System → System → Prop
  | add {sys : System} {e : Entry FileName} (hdir : sys.tree.IsDir e.dir)
      (hnew : sys.tree.lookup e.dir e.name = none) (hnode : ∀ ino, e.node ≠ .file ino) :
      Edit W S U sys (sys.addEntry e hdir hnew)
  | create {sys sys' : System} {R : List FileName} {name : FileName} {ino : Nat}
      (h : sys.createFile R name = .ok (sys', ino)) (hino : W ino) : Edit W S U sys sys'
  | write {sys : System} {ino : Nat} (bytes : List UInt8) (hino : W ino) :
      Edit W S U sys (sys.withData ino bytes)
  | remove {sys sys' : System} {e : Entry FileName} (h : sys.removeEntry e = .ok sys')
      (shrinks : S) : Edit W S U sys sys'
  | move {sys sys' : System} {e : Entry FileName} {R : List FileName} {name : FileName}
      (h : sys.moveEntry e R name = .ok sys') (shrinks : S) : Edit W S U sys sys'
  | chdir {sys sys' : System} (htree : sys'.tree = sys.tree) (hdata : sys'.data = sys.data)
      (shrinks : S) : Edit W S U sys sys'
  | unseen {sys sys' : System} (hdata : sys'.data = sys.data) (unsettles : U) :
      Edit W S U sys sys'

/-- A series of edits. -/
abbrev Edits (W : Nat → Prop) (S U : Prop) : System → System → Prop :=
  Relation.ReflTransGen (Edit W S U)

/-- Some entry is a name of the file. -/
def HasInode (sys : System) (ino : Nat) : Prop :=
  ∃ e ∈ sys.tree.entries, e.node = .file ino

instance (sys : System) (ino : Nat) : Decidable (HasInode sys ino) := by
  unfold HasInode
  infer_instance

section Invariants

variable {W : Nat → Prop} {S U : Prop} {sys sys' : System}

theorem not_hasInode_freshIno (sys : System) : ¬ HasInode sys sys.freshIno := by
  rintro ⟨e, he, hnode⟩
  exact Nat.lt_irrefl _ (System.lt_freshIno he hnode)

/-- What `createFile` adds. -/
theorem createFile_entries {R : List FileName} {name : FileName} {ino : Nat}
    (h : sys.createFile R name = .ok (sys', ino)) :
    ino = sys.freshIno ∧ sys'.tree.entries = ⟨R, name, .file ino⟩ :: sys.tree.entries := by
  rw [System.createFile] at h
  split at h
  · cases h
    exact ⟨rfl, rfl⟩
  · cases h

/-- The content of an inode that may not be written stays. -/
theorem Edit.data_eq (h : Edit W S U sys sys') {ino : Nat} (hino : ¬ W ino) :
    sys'.data ino = sys.data ino := by
  cases h with
  | add hdir hnew hnode => rfl
  | create h hw =>
      obtain ⟨-, -, -, -, hdata⟩ := System.createFile_cases h
      rw [hdata]
      apply Function.update_of_ne
      rintro rfl
      exact hino hw
  | write bytes hw =>
      apply Function.update_of_ne
      rintro rfl
      exact hino hw
  | remove h hs => rw [(removeEntry_cases h).2.1]
  | move h hs =>
      obtain ⟨hdir, hout, hnew, rfl⟩ := moveEntry_cases h
      rfl
  | chdir htree hdata hs => rw [hdata]
  | unseen hdata hu => rw [hdata]

theorem Edits.data_eq (h : Edits W S U sys sys') {ino : Nat} (hino : ¬ W ino) :
    sys'.data ino = sys.data ino := by
  induction h with
  | refl => rfl
  | tail _ hlast ih => exact (hlast.data_eq hino).trans ih

theorem Edits.mono {W' : Nat → Prop} {S' U' : Prop} (h : Edits W S U sys sys')
    (hwrite : ∀ ino, W ino → W' ino) (hshrink : S → S') (hunsettle : U → U') :
    Edits W' S' U' sys sys' := by
  refine Relation.ReflTransGen.mono (fun s s' hedit => ?_) _ _ h
  cases hedit with
  | add hdir hnew hnode => exact .add hdir hnew hnode
  | create h hw => exact .create h (hwrite _ hw)
  | write bytes hw => exact .write bytes (hwrite _ hw)
  | remove h hs => exact .remove h (hshrink hs)
  | move h hs => exact .move h (hshrink hs)
  | chdir htree hdata hs => exact .chdir htree hdata (hshrink hs)
  | unseen hdata hu => exact .unseen hdata (hunsettle hu)

/-- Where no path may come to name something else, the system only grows. -/
theorem Edits.grows (h : Edits W S U sys sys') (hkeeps : ¬ S) (hseen : ¬ U) :
    sys.Grows sys' := by
  induction h with
  | refl => exact .refl sys
  | tail _ hlast ih =>
      refine ih.trans ?_
      cases hlast with
      | add hdir hnew hnode => exact System.grows_addEntry hdir hnew
      | create h hw =>
          obtain ⟨-, -, hgrows, -⟩ := System.createFile_cases h
          exact hgrows
      | write bytes hw => exact System.grows_withData _ bytes
      | remove h hs => exact absurd hs hkeeps
      | move h hs => exact absurd hs hkeeps
      | chdir htree hdata hs => exact absurd hs hkeeps
      | unseen hdata hu => exact absurd hu hseen

end Invariants

section Functions

variable {W : Nat → Prop} {S U : Prop} {sys sys' : System}

theorem Edit.edits (h : Edit W S U sys sys') : Edits W S U sys sys' := .single h

/-- What `open` with `O_CREAT` does: it opens the file that the path names, or it
makes one. -/
theorem openCreate_eq_ok {path : Str} {excl : Bool} {ino : Nat}
    (h : sys.openCreate path excl = .ok (sys', ino)) :
    (excl = false ∧ sys' = sys ∧ ∃ R name, sys.stat path = .ok (.file R name ino)) ∨
      ∃ R name, sys.createFile R name = .ok (sys', ino) := by
  simp only [System.openCreate] at h
  split at h
  · cases h
  rename_i hne
  cases excl with
  | true =>
      rw [if_pos rfl] at h
      split at h
      · split at h
        · cases h
        split at h
        · cases h
        exact .inr ⟨_, _, h⟩
      · cases h
      · cases h
  | false =>
      rw [if_neg (by decide)] at h
      split at h
      · rename_i left R name ino' hwalk
        cases h
        exact .inl ⟨rfl, rfl, R, name, System.stat_of_walkFrom left hne hwalk⟩
      · cases h
      · exact .inr ⟨_, _, h⟩
      · cases h

theorem edits_openCreate {path : Str} {excl : Bool} {ino : Nat}
    (h : sys.openCreate path excl = .ok (sys', ino)) (hino : W ino) : Edits W S U sys sys' := by
  rcases openCreate_eq_ok h with ⟨-, rfl, -⟩ | ⟨R, name, hcreate⟩
  · exact .refl
  · exact (Edit.create hcreate hino).edits

/-- A file that `open` made has the number of no file there was. -/
theorem not_hasInode_or_stat_of_openCreate {path : Str} {excl : Bool} {ino : Nat}
    (h : sys.openCreate path excl = .ok (sys', ino)) :
    ¬ HasInode sys ino ∨
      (excl = false ∧ ∃ R name, sys.stat path = .ok (.file R name ino)) := by
  rcases openCreate_eq_ok h with ⟨hexcl, -, hstat⟩ | ⟨R, name, hcreate⟩
  · exact .inr ⟨hexcl, hstat⟩
  · rw [(createFile_entries hcreate).1]
    exact .inl (not_hasInode_freshIno sys)

/-- `mkdir` writes to no file. -/
theorem edits_mkdirLoop {call : System → Str → Except Errno System} {last : Option Str}
    (hcall : ∀ s buf s', call s buf = .ok s' → Edits W S U s s') (parts : List Str) (buf : Str)
    (ok : Bool) (s : System) : Edits W S U s (mkdirLoop call last parts buf ok s).2 := by
  induction parts generalizing buf ok s with
  | nil => exact .refl
  | cons part rest ih =>
      simp only [mkdirLoop]
      split
      · rename_i s' hok
        exact (hcall _ _ _ hok).trans (ih _ _ _)
      · split
        · exact ih _ _ _
        · exact .refl

theorem edits_mkdir (refuse : Refusals) (sys : System) (path : Str) :
    Edits W S U sys (mkdir refuse sys path).2 := by
  have hcall : ∀ s buf s', s.mkdirCall refuse buf = .ok s' → Edits W S U s s' := by
    intro s buf s' h
    rw [System.mkdirCall] at h
    split at h
    · split at h
      · rename_i hfree
        split at h
        · cases h
        · cases h
          exact (Edit.add hfree.1 hfree.2 (by intro ino h; cases h)).edits
      · cases h
    · cases h
    · cases h
  rw [mkdir]
  split
  · exact .refl
  · exact edits_mkdirLoop hcall _ _ _ _

/-- `touch` writes to the file that it opens, and to a file that it makes. -/
theorem edits_touch (b : Backend) (env : TouchEnv) (sys : System) (path : View) :
    Edits (fun ino => ¬ HasInode sys ino ∨
      (setModtime b env sys path.text = false ∧ Opens env sys path.fromData ino))
      S U sys (touch b env sys path).2 := by
  rw [touch]
  split
  · exact .refl
  rename_i hset
  rw [openTruncate]
  split
  · rename_i hcond
    rw [Bool.and_eq_true, Option.isNone_iff_eq_none] at hcond
    split
    · rename_i sys' ino hopen
      have hino : ¬ HasInode sys ino ∨
          (setModtime b env sys path.text = false ∧ Opens env sys path.fromData ino) := by
        refine (not_hasInode_or_stat_of_openCreate hopen).imp_right ?_
        rintro ⟨-, R, name, hstat⟩
        have hwrite := hcond.2
        rw [mayOpen, hstat] at hwrite
        exact ⟨Bool.eq_false_iff.mpr hset, hcond.1, R, name, hstat, hwrite⟩
      exact (edits_openCreate hopen hino).tail (.write [] hino)
    · exact .refl
  · exact .refl

/-- In the C backend `copy_file` writes to a file that it makes and, where it may
overwrite, to the one that the destination names. -/
theorem edits_copyFile (env : CopyEnv) (sys : System) (source dest : Str) (overwrite : Bool) :
    Edits (fun ino => ¬ HasInode sys ino ∨
      (overwrite = true ∧ ∃ R name, sys.stat dest = .ok (.file R name ino)))
      S U sys (copyFile .c env sys source dest overwrite).sys := by
  rw [copyFile]
  split
  · exact .refl
  split
  · exact .refl
  split
  · exact .refl
  rcases fsCopyFileRangeOrLoop_cases env sys source dest overwrite with
    hearly | ⟨R, name, rino, opened, wino, -, -, hopen, hresult⟩
  · rw [hearly]
    exact .refl
  · have hino : ¬ HasInode sys wino ∨
        (overwrite = true ∧ ∃ R name, sys.stat dest = .ok (.file R name wino)) := by
      refine (not_hasInode_or_stat_of_openCreate hopen).imp_right ?_
      rintro ⟨hexcl, hstat⟩
      exact ⟨by simpa using hexcl, hstat⟩
    rcases hresult with hend | ⟨-, -, moved, -, hend⟩
    · rw [hend]
      exact edits_openCreate hopen hino
    · rw [hend]
      exact (edits_openCreate hopen hino).tail (.write _ hino)

theorem edits_createSymlink (refused : Bool) (sys : System) (target link : Str) :
    Edits W S U sys (sys.createSymlink refused target link).2 := by
  rw [System.createSymlink]
  split
  · exact .refl
  split
  · rename_i sys' hcall
    obtain ⟨R, name, -, -, -, -, ⟨hdir, hnew⟩, rfl⟩ := System.symlinkCall_cases hcall
    exact (Edit.add hdir hnew (by intro ino h; cases h)).edits
  · exact .refl

theorem edits_removeCall {path : Str} (h : sys.removeCall path = .ok sys') :
    Edits W True U sys sys' := by
  rw [System.removeCall] at h
  split at h
  · split at h
    · split at h
      · cases h
      · exact (Edit.remove h trivial).edits
    · cases h
  · cases h
  · cases h

theorem edits_remove (refused : Bool) (sys : System) (path : Str) :
    Edits W True U sys (remove refused sys path).2 := by
  rw [remove]
  split
  · rename_i sys' hcall
    split
    · exact .refl
    · exact edits_removeCall hcall
  · exact .refl

/-- The probe writes to the file that its `touch` opens, and removes what has the
random name. -/
theorem edits_isCaseSensitive (b : Backend) (env : ProbeEnv) (sys : System) (path : Str) :
    Edits (fun ino => ¬ HasInode sys ino ∨
      (setModtime b env.toTouchEnv sys (joinOf b path (mixedName env.random)) = false ∧
        Opens env.toTouchEnv sys (joinOf b path (mixedName env.random)) ino))
      True U sys (isCaseSensitive b env sys path).2 := by
  have htouch := edits_touch (S := True) (U := U) b env.toTouchEnv sys
    (.ofStr (joinOf b path (mixedName env.random)))
  rw [View.text_ofStr, View.fromData_ofStr] at htouch
  rw [isCaseSensitive]
  split
  · exact .refl
  dsimp only
  split
  · exact .refl
  split
  · rename_i sys' hfailed
    rwa [hfailed] at htouch
  · rename_i sys' hdone
    rw [hdone] at htouch
    refine htouch.trans ?_
    dsimp only
    rw [removeOnExit]
    split
    · exact .refl
    · split
      · rename_i sys'' hcall
        exact edits_removeCall hcall
      · exact .refl

theorem edits_rename (refused : Bool) (sys : System) (old new : Str) :
    Edits W True U sys (rename refused sys old new).2 := by
  rw [rename]
  split
  · rename_i sys' hcall
    split
    · exact .refl
    · obtain ⟨R, name, e, R', name', -, -, -, hcases⟩ := renameCall_cases hcall
      rcases hcases with ⟨rfl, -⟩ | ⟨-, hmove⟩ | ⟨e', cleared, -, -, -, hclear, hmove⟩
      · exact .refl
      · exact (Edit.move hmove trivial).edits
      · exact (Edit.remove hclear trivial).edits.tail (.move hmove trivial)
  · exact .refl

theorem edits_setCwd (denied : Bool) (sys : System) (path : Str) :
    Edits W True U sys (setCwd denied sys path).2 := by
  rw [setCwd]
  split
  · split
    · exact .refl
    · apply Edit.edits
      exact .chdir rfl rfl trivial
  · exact .refl

end Functions

end Ffilesystem
