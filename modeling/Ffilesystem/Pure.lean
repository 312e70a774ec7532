import Ffilesystem.Library.Scan
import Ffilesystem.Platform

/-!
# Roots and joins in the C backend

These operations look at the characters of a path and at nothing else. Where the
source reads `front()` of a path that may be empty, an empty path counts as one
that does not start with a separator.
-/

namespace Ffilesystem

variable (pl : Platform)

def rootDirectory (path : Str) : Str :=
  if pl.isWindows then
    let i := if 2 ≤ path.length ∧ path[1]? = some ':' then 2 else 0
    (path[i]?.filter pl.isFileSeparator).toList
  else (path.head?.filter pl.isFileSeparator).toList

def hasRootDirectory (path : Str) : Bool := !(rootDirectory pl path).isEmpty

def rootName (path : Str) : Str :=
  if pl.isWindows ∧ 2 ≤ path.length ∧ path[1]? = some ':' then path.take 2 else []

def hasRootName (path : Str) : Bool := !(rootName pl path).isEmpty

def root (path : Str) : Str := rootName pl path ++ rootDirectory pl path

def isAbsolute (path : Str) : Bool :=
  if pl.isWindows then hasRootName pl path && hasRootDirectory pl path
  else hasRootDirectory pl path

def join (path other : Str) : Str :=
  if isAbsolute pl other || (hasRootName pl other && rootName pl other ≠ rootName pl path) then
    other
  else if hasRootDirectory pl other then rootName pl path ++ other
  else if !path.isEmpty && !path.getLast?.any pl.isFileSeparator then path ++ '/' :: other
  else path ++ other

/-- Paths whose root is a separator or a drive, which is a letter and a colon.
Two separators in front are left to the names of servers and devices. -/
def DrivePath (path : Str) : Prop :=
  pl.isWindows → (path[1]? = some ':' → path.head?.any Char.isAlpha) ∧
    ¬ (path.head?.any pl.isFileSeparator ∧ path[1]?.any pl.isFileSeparator)

instance (path : Str) : Decidable (DrivePath pl path) := by
  unfold DrivePath
  infer_instance

/-- `operator/` of `std::filesystem::path` on POSIX systems. -/
def stdJoin (path other : Str) : Str :=
  if other.head? = some '/' then other
  else if !path.isEmpty && path.getLast? ≠ some '/' then path ++ '/' :: other
  else path ++ other

/-- `generic_string` of libstdc++ on POSIX systems, which writes one separator where
there were several. That of libc++ changes nothing, so there `join` is that of the
C backend. -/
def genericString (path : Str) : Str := Scan.squeeze '/' path

/-- `join` on POSIX systems. -/
def joinOf (b : Backend) (path other : Str) : Str :=
  match b with
  | .c => join .posix path other
  | .cxxFilesystem => genericString (stdJoin path other)

theorem rootName_cases (path : Str) :
    (pl.isWindows ∧ path[1]? = some ':' ∧ rootName pl path = path.take 2 ∧
      (rootName pl path).length = 2) ∨
    (¬ (pl.isWindows ∧ path[1]? = some ':') ∧ rootName pl path = []) := by
  by_cases h : pl.isWindows ∧ path[1]? = some ':'
  · obtain ⟨hlen, _⟩ := List.getElem?_eq_some_iff.mp h.2
    have hname : rootName pl path = path.take 2 := if_pos ⟨h.1, hlen, h.2⟩
    refine .inl ⟨h.1, h.2, hname, ?_⟩
    rw [hname, List.length_take]
    omega
  · exact .inr ⟨h, if_neg (fun hname => h ⟨hname.1, hname.2.2⟩)⟩

/-- A path is its root name followed by the rest. -/
theorem rootName_append_drop (path : Str) :
    rootName pl path ++ path.drop (rootName pl path).length = path := by
  obtain ⟨_, _, hname, hlen⟩ | ⟨_, hname⟩ := rootName_cases pl path
  · rw [hlen, hname, List.take_append_drop]
  · rw [hname]
    rfl

/-- The root directory is the separator right after the root name. -/
theorem rootDirectory_eq (path : Str) :
    rootDirectory pl path =
      ((path.drop (rootName pl path).length).head?.filter pl.isFileSeparator).toList := by
  rw [rootDirectory]
  obtain ⟨hwin, hcolon, _, hlen⟩ | ⟨hnot, hname⟩ := rootName_cases pl path
  · obtain ⟨hlt, _⟩ := List.getElem?_eq_some_iff.mp hcolon
    rw [if_pos hwin, if_pos ⟨hlt, hcolon⟩, hlen, List.head?_drop]
  · rw [hname, List.length_nil, List.drop_zero]
    by_cases hwin : pl.isWindows
    · rw [if_pos hwin, if_neg (fun h => hnot ⟨hwin, h.2⟩), List.head?_eq_getElem?]
    · rw [if_neg hwin]

theorem hasRootDirectory_eq (path : Str) :
    hasRootDirectory pl path =
      (path.drop (rootName pl path).length).head?.any pl.isFileSeparator := by
  rw [hasRootDirectory, rootDirectory_eq]
  cases (path.drop (rootName pl path).length).head? with
  | none => rfl
  | some c =>
      cases hc : pl.isFileSeparator c with
      | true => simp [hc]
      | false => simp [hc]

/-- A root name ends in a colon, which separates nothing. -/
theorem getLast?_rootName (path : Str) :
    (rootName pl path).getLast?.any pl.isFileSeparator = false := by
  obtain ⟨hwin, hcolon, hname, _⟩ | ⟨_, hname⟩ := rootName_cases pl path
  · obtain ⟨hlt, hat⟩ := List.getElem?_eq_some_iff.mp hcolon
    have hlast : (path.take 2).getLast? = some ':' := by
      rw [List.getLast?_take, if_neg (by omega), hcolon]
      rfl
    rw [hname, hlast]
    cases pl with
    | posix => rfl
    | windows => rfl
  · rw [hname]
    rfl

theorem hasRootDirectory_of_isAbsolute {path : Str} (h : isAbsolute pl path = true) :
    hasRootDirectory pl path = true := by
  rw [isAbsolute] at h
  split at h
  · exact (Bool.and_eq_true_iff.mp h).2
  · exact h

/-- A root directory makes a path absolute, except that on Windows the drive may be missing. -/
theorem rootName_eq_nil_of_not_isAbsolute {path : Str} (hroot : hasRootDirectory pl path = true)
    (habs : isAbsolute pl path = false) : rootName pl path = [] := by
  rw [isAbsolute, hroot] at habs
  split at habs
  · simpa [hasRootName] using habs
  · exact Bool.noConfusion habs

@[simp] theorem rootName_posix (path : Str) : rootName .posix path = [] := by
  simp [rootName]

theorem hasRootDirectory_posix (path : Str) :
    hasRootDirectory .posix path = (path.head? == some '/') := by
  cases path with
  | nil => rfl
  | cons c path =>
      by_cases hc : c = '/'
      · simp [hasRootDirectory, rootDirectory, hc, Option.filter]
      · simp [hasRootDirectory, rootDirectory, hc, Option.filter]

theorem isAbsolute_posix (path : Str) : isAbsolute .posix path = (path.head? == some '/') := by
  rw [isAbsolute, if_neg (by decide), hasRootDirectory_posix]

/-- On POSIX systems the two backends join alike. -/
theorem join_posix (path other : Str) : join .posix path other = stdJoin path other := by
  by_cases h : other.head? = some '/'
  · simp [join, stdJoin, isAbsolute_posix, h]
  · simp [join, stdJoin, isAbsolute_posix, hasRootDirectory_posix, h,
      Platform.any_isFileSeparator_posix]

/-- What takes a run of separators for one reads the same from both backends. -/
theorem apply_joinOf {α : Type*} {f : Str → α} (h : ∀ s, f (genericString s) = f s) (b : Backend)
    (path other : Str) : f (joinOf b path other) = f (stdJoin path other) := by
  cases b with
  | c => rw [joinOf, join_posix]
  | cxxFilesystem => rw [joinOf, h]

end Ffilesystem
