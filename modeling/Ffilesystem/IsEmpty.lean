import Ffilesystem.Inquire

/-!
# Empty directories in the C backend

`is_empty` reads a directory entry by entry and stops at the first one that it
does not skip. It asks for the type of an entry before it looks at the name,
and only the entries that are directories can be skipped.

The type comes from `readdir` where the entries have one, and otherwise from
another query of the entry's path.
-/

namespace Ffilesystem

/-- The values of `d_type`. -/
inductive DType
  | unknown
  | fifo
  | chr
  | dir
  | blk
  | reg
  | lnk
  | sock
  deriving DecidableEq, Repr

structure DirEntry where
  name : Str
  dType : DType

structure DirEnv extends StatEnv where
  /-- Whether `_DIRENT_HAVE_D_TYPE` is defined. -/
  haveDType : Bool
  /-- The entries of a directory, in the order of `readdir`. -/
  opendir : Str → Except Errno (List DirEntry)

namespace DirEnv

variable (env : DirEnv)

/-- The condition of the loop body on the type of an entry. -/
def entryIsDirectory (path : Str) (entry : DirEntry) (p : Process) : Bool × Process :=
  if env.haveDType then (decide (entry.dType = .dir), p)
  else env.isDirectory (path ++ '/' :: entry.name) p

def isEmptyLoop (path : Str) : List DirEntry → Process → Bool × Process
  | [], p => (true, p)
  | entry :: entries, p =>
      match env.entryIsDirectory path entry p with
      | (true, p) =>
          if entry.name = dot ∨ entry.name = dotdot then isEmptyLoop path entries p
          else (false, p)
      | (false, p) => (false, p)

def isEmpty (path : Str) (p : Process) : Bool × Process :=
  match env.isDirectory path p with
  | (false, p) =>
      match env.isFile path p with
      | (false, p) => (false, p)
      | (true, p) =>
          let (size, p) := env.fileSize path p
          (decide (size = 0), p)
  | (true, p) =>
      match env.opendir (cStr path) with
      | .ok entries => env.isEmptyLoop path entries p
      | .error e => (false, (p.setErrno e).fsErrorCallback [path])

/-- An entry is reported as a directory: by its type, or by the query that stands in for it. -/
def ReportsDirectory (path : Str) (entry : DirEntry) : Prop :=
  if env.haveDType then entry.dType = .dir
  else sIsDir (env.fsStMode (path ++ '/' :: entry.name) ⟨none, []⟩).1 = true

end DirEnv

def IsDots (name : Str) : Prop := name = dot ∨ name = dotdot

section Listing

variable {env : DirEnv} {path : Str}

theorem entryIsDirectory_iff (entry : DirEntry) (p : Process) :
    (env.entryIsDirectory path entry p).1 = true ↔ env.ReportsDirectory path entry := by
  rw [DirEnv.entryIsDirectory, DirEnv.ReportsDirectory]
  split
  · exact decide_eq_true_iff
  · rw [StatEnv.isDirectory, queryMode_fst, fsStMode_fst env.toStatEnv _ p ⟨none, []⟩]

/-- The loop gets through a listing when every entry is reported as a directory and is
one of the two that every directory has. -/
theorem isEmptyLoop_iff (entries : List DirEntry) (p : Process) :
    (env.isEmptyLoop path entries p).1 = true ↔
      ∀ entry ∈ entries, env.ReportsDirectory path entry ∧ IsDots entry.name := by
  induction entries generalizing p with
  | nil => exact iff_of_true rfl (fun entry h => absurd h List.not_mem_nil)
  | cons entry entries ih =>
      have hentry : (env.entryIsDirectory path entry p).1 = true ↔
          env.ReportsDirectory path entry := entryIsDirectory_iff entry p
      rw [List.forall_mem_cons, DirEnv.isEmptyLoop, ← hentry]
      split
      · rename_i p' hdir
        rw [hdir]
        split
        · rename_i hdots
          rw [ih, and_iff_right ⟨rfl, hdots⟩]
        · rename_i hdots
          exact iff_of_false Bool.false_ne_true (fun h => hdots h.1.2)
      · rename_i p' hdir
        rw [hdir]
        exact iff_of_false Bool.false_ne_true (fun h => Bool.false_ne_true h.1.1)

theorem isEmpty_of_opens {a : Attributes} {entries : List DirEntry} (hstat : env.Answers path a)
    (hdir : sIsDir a.mode = true) (hopen : env.opendir (cStr path) = .ok entries) (p : Process) :
    (env.isEmpty path p).1 = true ↔
      ∀ entry ∈ entries, env.ReportsDirectory path entry ∧ IsDots entry.name := by
  have hquery : (env.isDirectory path p).1 = true :=
    (queryMode_of_answers hstat sIsDir p).1.trans hdir
  rw [DirEnv.isEmpty]
  split
  · rename_i p' hfalse
    rw [hfalse] at hquery
    cases hquery
  · rw [hopen]
    exact isEmptyLoop_iff entries _

/-- A directory that can be opened is found empty exactly when it has no entry of its
own, provided that it has one or all its entries are reported as directories. -/
theorem isEmpty_iff_listing_iff (env : DirEnv) (path : Str) (a : Attributes)
    (entries : List DirEntry) (p : Process) (hstat : env.Answers path a)
    (hdir : sIsDir a.mode = true) (hopen : env.opendir (cStr path) = .ok entries) :
    ((env.isEmpty path p).1 = true ↔ ∀ entry ∈ entries, IsDots entry.name) ↔
      (∃ entry ∈ entries, ¬ IsDots entry.name) ∨
        ∀ entry ∈ entries, env.ReportsDirectory path entry := by
  rw [isEmpty_of_opens hstat hdir hopen p]
  by_cases hdots : ∀ entry ∈ entries, IsDots entry.name
  · have hother : ¬ ∃ entry ∈ entries, ¬ IsDots entry.name := by
      rintro ⟨entry, hmem, hnot⟩
      exact hnot (hdots entry hmem)
    rw [iff_true_right hdots, or_iff_right hother]
    exact forall₂_congr (fun entry hmem => and_iff_left (hdots entry hmem))
  · refine iff_of_true (iff_of_false (fun h => ?_) hdots) (.inl (by simpa using hdots))
    exact hdots (fun entry hmem => (h entry hmem).2)

/-- An empty directory, and what its file system reports of the entries. -/
def emptyDirectory (dType : DType) : DirEnv where
  haveStatx := false
  statx := fun _ => .error .nosys
  stat := fun _ => .ok ⟨0o040755, 4096⟩
  haveDType := true
  opendir := fun _ => .ok [⟨dot, dType⟩, ⟨dotdot, dType⟩]

theorem isEmpty_iff_listing_dir :
    (((emptyDirectory .dir).isEmpty "d".toList ⟨none, []⟩).1 = true ↔
      ∀ entry ∈ [DirEntry.mk dot .dir, DirEntry.mk dotdot .dir], IsDots entry.name) :=
  (isEmpty_iff_listing_iff (emptyDirectory .dir) "d".toList _ _ ⟨none, []⟩ (.older rfl rfl) rfl
    rfl).mpr (.inr (fun entry hmem => by
      obtain rfl | rfl := List.mem_pair.mp hmem
      · rfl
      · rfl))

/-- File systems need not report a type. -/
theorem not_isEmpty_iff_listing_unknown :
    ¬ ∀ (env : DirEnv) (path : Str) (a : Attributes) (entries : List DirEntry) (p : Process),
      env.Answers path a → sIsDir a.mode = true → env.opendir (cStr path) = .ok entries →
      ((env.isEmpty path p).1 = true ↔ ∀ entry ∈ entries, IsDots entry.name) := by
  intro h
  have hfound := (h (emptyDirectory .unknown) "d".toList _ _ ⟨none, []⟩ (.older rfl rfl) rfl
    rfl).mpr
  refine absurd (hfound (fun entry hmem => ?_)) (by decide)
  obtain rfl | rfl := List.mem_pair.mp hmem
  · exact .inl rfl
  · exact .inr rfl

end Listing

end Ffilesystem
