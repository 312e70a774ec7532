import Ffilesystem.Join
import Ffilesystem.Resolve

/-!
# Absolute paths in the POSIX C backend

The two forms of `absolute` build their result by themselves. The first always
writes a slash behind the current directory, the second only where there is none
yet. The current directory is a string here, and empty where it cannot be
determined.

Up to normal form the second form is two joins in a row.
-/

namespace Ffilesystem

open Lexical

/-- `absolute` with one argument. -/
def absoluteFrom (cwd path : Str) : Str :=
  if path.isEmpty then cwd
  else if isAbsolute .posix path then path
  else if cwd.isEmpty then []
  else cwd ++ '/' :: path

/-- `absolute` with two arguments. -/
def absoluteBase (cwd path base : Str) : Str :=
  if isAbsolute .posix path then path
  else
    let b := absoluteFrom cwd base
    if b.isEmpty then []
    else if path.isEmpty then b
    else (if !b.getLast?.any (Platform.isFileSeparator .posix) then b ++ ['/'] else b) ++ path

theorem absoluteFrom_getCwd (sys : System) (path : Str) :
    absoluteFrom sys.getCwd path = absolute sys path := rfl

section Forms

variable {cwd path base : Str}

theorem isAbsolute_eq_isRooted (path : Str) : isAbsolute .posix path = isRooted path := by
  rw [isAbsolute_posix, isRooted]

theorem absoluteFrom_of_rooted (h : isRooted path = true) : absoluteFrom cwd path = path := by
  have hne : ¬ path.isEmpty = true := by simpa using ne_nil_of_isRooted h
  rw [absoluteFrom, if_neg hne, isAbsolute_eq_isRooted, if_pos h]

theorem absoluteFrom_of_not_rooted (hcwd : isRooted cwd = true) (hne : path ≠ [])
    (h : isRooted path = false) : absoluteFrom cwd path = cwd ++ '/' :: path := by
  have hcwd' : ¬ cwd.isEmpty = true := by simpa using ne_nil_of_isRooted hcwd
  rw [absoluteFrom, if_neg (by simpa using hne), isAbsolute_eq_isRooted, h,
    if_neg Bool.false_ne_true, if_neg hcwd']

/-- Only a relative path without a current directory has no absolute path. -/
theorem absoluteFrom_eq_nil_iff (hne : path ≠ []) :
    absoluteFrom cwd path = [] ↔ isRooted path = false ∧ cwd = [] := by
  rw [absoluteFrom, if_neg (by simpa using hne), isAbsolute_eq_isRooted]
  cases h : isRooted path with
  | true => simp [hne]
  | false => simp

theorem isRooted_absoluteFrom (hcwd : isRooted cwd = true) (path : Str) :
    isRooted (absoluteFrom cwd path) = true := by
  by_cases hne : path = []
  · rw [hne]
    exact hcwd
  cases h : isRooted path with
  | true => rw [absoluteFrom_of_rooted h, h]
  | false => rw [absoluteFrom_of_not_rooted hcwd hne h,
      isRooted_append (ne_nil_of_isRooted hcwd), hcwd]

theorem absoluteBase_of_rooted (h : isRooted path = true) : absoluteBase cwd path base = path := by
  rw [absoluteBase, isAbsolute_eq_isRooted, if_pos h]

/-- Without a path the base is made absolute. -/
theorem absoluteBase_nil (cwd base : Str) : absoluteBase cwd [] base = absoluteFrom cwd base := by
  rw [absoluteBase, if_neg (by decide)]
  by_cases h : absoluteFrom cwd base = []
  · simp [h]
  · simp [h]

/-- Any other relative path is joined to the absolute base. -/
theorem absoluteBase_of_not_rooted (hcwd : isRooted cwd = true) (hne : path ≠ [])
    (h : isRooted path = false) :
    absoluteBase cwd path base = stdJoin (absoluteFrom cwd base) path := by
  have hb : absoluteFrom cwd base ≠ [] := ne_nil_of_isRooted (isRooted_absoluteFrom hcwd base)
  rw [absoluteBase, isAbsolute_eq_isRooted, h, if_neg Bool.false_ne_true,
    stdJoin_of_not_rooted h, joinSep]
  dsimp only
  rw [if_neg (by simpa using hb), if_neg (by simpa using hne), Platform.any_isFileSeparator_posix]
  by_cases hlast : (absoluteFrom cwd base).getLast? = some '/'
  · simp [hlast]
  · simp [hlast, hb]

theorem isRooted_absoluteBase (hcwd : isRooted cwd = true) (path base : Str) :
    isRooted (absoluteBase cwd path base) = true := by
  have hbase := isRooted_absoluteFrom hcwd base
  cases h : isRooted path with
  | true => rw [absoluteBase_of_rooted h, h]
  | false =>
      by_cases hne : path = []
      · rw [hne, absoluteBase_nil, hbase]
      · rw [absoluteBase_of_not_rooted hcwd hne h, isRooted_stdJoin, hbase, Bool.true_or]

/-- The two forms agree for every path that nothing is written behind, and where
the current directory does not end in a slash. -/
theorem absoluteFrom_eq_absoluteBase_iff (hcwd : isRooted cwd = true) (path : Str) :
    absoluteFrom cwd path = absoluteBase cwd path [] ↔
      path = [] ∨ isRooted path = true ∨ cwd.getLast? ≠ some '/' := by
  by_cases hne : path = []
  · rw [hne, absoluteBase_nil]
    exact iff_of_true rfl (.inl rfl)
  cases h : isRooted path with
  | true =>
      rw [absoluteFrom_of_rooted h, absoluteBase_of_rooted h]
      exact iff_of_true rfl (.inr (.inl rfl))
  | false =>
      have hcwd' : cwd ≠ [] := ne_nil_of_isRooted hcwd
      have hbase : absoluteFrom cwd [] = cwd := rfl
      rw [absoluteFrom_of_not_rooted hcwd hne h, absoluteBase_of_not_rooted hcwd hne h, hbase,
        stdJoin_of_not_rooted h, joinSep]
      by_cases hlast : cwd.getLast? = some '/'
      · simp [hlast, hne]
      · simp [hlast, hcwd']

theorem absoluteFrom_eq_absoluteBase_home :
    absoluteFrom "/home".toList "rel".toList = absoluteBase "/home".toList "rel".toList [] :=
  (absoluteFrom_eq_absoluteBase_iff (by decide) _).mpr (.inr (.inr (by decide)))

/-- In the root directory the first form writes two slashes. -/
theorem absoluteFrom_ne_absoluteBase_root :
    ¬ ∀ cwd path : Str, isRooted cwd = true →
      absoluteFrom cwd path = absoluteBase cwd path [] := by
  intro h
  exact absurd (h "/".toList "rel".toList (by decide)) (by decide)

end Forms

section Rebase

variable {cwd : Str}

/-- An absolute path means what the join of the current directory with it means. -/
theorem place_absoluteFrom (hcwd : isRooted cwd = true) (path : Str) :
    place (absoluteFrom cwd path) = place (join .posix cwd path) := by
  rw [place_join]
  cases h : isRooted path with
  | true => rw [absoluteFrom_of_rooted h, if_pos rfl]
  | false =>
      rw [if_neg Bool.false_ne_true]
      by_cases hne : path = []
      · rw [hne, movesOf_nil, Place.walk_nil]
        rfl
      · rw [absoluteFrom_of_not_rooted hcwd hne h, place_append_slash (ne_nil_of_isRooted hcwd)]

theorem place_absoluteBase (hcwd : isRooted cwd = true) (path base : Str) :
    place (absoluteBase cwd path base) =
      place (join .posix (join .posix cwd base) path) := by
  rw [place_join, ← place_absoluteFrom hcwd base]
  cases h : isRooted path with
  | true => rw [absoluteBase_of_rooted h, if_pos rfl]
  | false =>
      rw [if_neg Bool.false_ne_true]
      by_cases hne : path = []
      · rw [hne, absoluteBase_nil, movesOf_nil, Place.walk_nil]
      · rw [absoluteBase_of_not_rooted hcwd hne h, place_stdJoin, h, if_neg Bool.false_ne_true]

/-- The second form rebases: its result is absolute, means two joins in a row,
and is left alone by another rebasing. -/
theorem absoluteBase_rebases (hcwd : isRooted cwd = true) (path base : Str) :
    isAbsolute .posix (absoluteBase cwd path base) = true ∧
      normal .posix (absoluteBase cwd path base) =
        normal .posix (join .posix (join .posix cwd base) path) ∧
      ∀ base', absoluteBase cwd (absoluteBase cwd path base) base' =
        absoluteBase cwd path base := by
  have hrooted := isRooted_absoluteBase hcwd path base
  refine ⟨?_, ?_, ?_⟩
  · rw [isAbsolute_eq_isRooted, hrooted]
  · rw [normal_eq_normal_iff, place_absoluteBase hcwd]
  · intro base'
    exact absoluteBase_of_rooted hrooted

theorem absoluteBase_rebases_root :
    isAbsolute .posix (absoluteBase "/".toList "a".toList "../b/".toList) = true ∧
      normal .posix (absoluteBase "/".toList "a".toList "../b/".toList) =
        normal .posix (join .posix (join .posix "/".toList "../b/".toList) "a".toList) ∧
      ∀ base', absoluteBase "/".toList (absoluteBase "/".toList "a".toList "../b/".toList) base' =
        absoluteBase "/".toList "a".toList "../b/".toList :=
  absoluteBase_rebases (by decide) "a".toList "../b/".toList

end Rebase

end Ffilesystem
