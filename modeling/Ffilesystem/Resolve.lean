import Ffilesystem.Pure
import Ffilesystem.System

/-!
# Resolving a path in the POSIX C backend

`resolve` is the real path of the absolute path where that names something, and
its normal form where it does not. Either way the result is absolute, and its
components are plain names.

For the system the absolute path is the path itself: walking from the root
through the names of the current directory arrives there.
-/

namespace Ffilesystem

open FileTree Lexical

def absolute (sys : System) (path : Str) : Str :=
  if path.isEmpty then sys.getCwd
  else if isAbsolute .posix path then path
  else if sys.getCwd.isEmpty then []
  else sys.getCwd ++ '/' :: path

def canonical (sys : System) (path : Str) (strict : Bool) : Str :=
  if path.isEmpty then []
  else if !(sys.realPath path).isEmpty then sys.realPath path
  else if !strict then normal .posix path
  else []

def resolve (sys : System) (path : Str) (strict : Bool) : Str :=
  canonical sys (absolute sys path) strict

section Names

theorem trail_cons_slash (s : Str) : trail ('/' :: s) = trail s := by
  simpa using trail_append_slash [] s

/-- The trail of an absolute path is made of the names it was written from. -/
theorem trail_absString (R : List FileName) : trail (absString R) = R.map .down := by
  have hpieces : ∀ s ∈ R.map Subtype.val, s ≠ [] ∧ '/' ∉ s := by
    intro s hs
    obtain ⟨name, -, rfl⟩ := List.mem_map.mp hs
    exact ⟨name.2.1.1, name.2.1.2.2.2⟩
  rw [absString, trail_cons_slash, trail, Scan.components_intercalate hpieces, List.map_map]
  exact List.map_congr_left fun name _ => entryMove_name name

theorem nul_not_mem_absString (R : List FileName) : '\x00' ∉ absString R := by
  have hjoin : ∀ names : List FileName, '\x00' ∉ ['/'].intercalate (names.map Subtype.val) := by
    intro names
    induction names with
    | nil => exact List.not_mem_nil
    | cons name names ih =>
        cases names with
        | nil => simpa [List.intercalate] using name.2.2
        | cons next names =>
            intro hmem
            rw [List.map_cons, List.intercalate_cons_of_ne_nil (by simp)] at hmem
            simp only [List.mem_append, List.mem_singleton] at hmem
            rcases hmem with (h | h) | h
            · exact name.2.2 h
            · exact absurd h (by decide)
            · exact ih h
  intro hmem
  cases List.mem_cons.mp hmem with
  | inl h => exact absurd h (by decide)
  | inr h => exact hjoin R h

/-- Only the root directory is written as one slash. -/
theorem absString_eq_root_iff {R : List FileName} : absString R = ['/'] ↔ R = [] := by
  constructor
  · intro hroot
    have htrail := trail_absString R
    rw [hroot, trail_cons_slash, trail_nil] at htrail
    exact List.map_eq_nil_iff.mp htrail.symm
  · rintro rfl
    rfl

/-- The components of a rooted normal form are plain names. -/
theorem splitFilesep_absolute {texts : List Str} (h : ∀ t ∈ texts, IsName t) :
    splitFilesep .posix ('/' :: ['/'].intercalate texts) = texts := by
  rw [splitFilesep_eq, asPosix_posix, Scan.components_cons_self]
  exact Scan.components_intercalate (fun t ht => ⟨(h t ht).1, (h t ht).2.2.2⟩)

theorem splitFilesep_root : splitFilesep .posix ['/'] = [] := by
  rw [splitFilesep_eq, asPosix_posix, Scan.components_cons_self, Scan.components_nil]

theorem ne_nil_of_isRooted {path : Str} (h : isRooted path = true) : path ≠ [] := by
  intro hnil
  rw [hnil] at h
  cases h

end Names

section Absolute

variable {sys : System} {path : Str}

theorem absolute_of_rooted (h : isRooted path = true) : absolute sys path = path := by
  have hhead : path.head? = some '/' := by simpa [isRooted] using h
  have hne : path ≠ [] := by
    rintro rfl
    cases hhead
  simp [absolute, isAbsolute_posix, hhead, hne]

theorem absolute_of_not_rooted (hne : path ≠ []) (h : isRooted path = false) :
    absolute sys path = sys.getCwd ++ '/' :: path := by
  have hhead : path.head? ≠ some '/' := by simpa [isRooted] using h
  simp [absolute, isAbsolute_posix, hhead, hne, System.getCwd, absString]

/-- The absolute path starts with a slash. -/
theorem isRooted_absolute (sys : System) (hne : path ≠ []) :
    isRooted (absolute sys path) = true := by
  cases h : isRooted path with
  | true => rw [absolute_of_rooted h, h]
  | false =>
      rw [absolute_of_not_rooted hne h]
      rfl

/-- A path names what its absolute path names. -/
theorem stat_absolute (hne : cStr path ≠ []) : sys.stat (absolute sys path) = sys.stat path := by
  have hpath : path ≠ [] := by
    rintro rfl
    exact hne rfl
  cases h : isRooted path with
  | true => rw [absolute_of_rooted h]
  | false =>
      have hrooted : isRooted (cStr path) = false := by
        obtain ⟨c, rest, rfl⟩ := List.exists_cons_of_ne_nil hpath
        by_cases hc : c = '\x00'
        · exact absurd (by rw [hc, cStr_cons_nul]) hne
        · rw [cStr_cons_of_ne hc]
          exact h
      have hcstr : cStr (absolute sys path) = sys.getCwd ++ '/' :: cStr path := by
        rw [absolute_of_not_rooted hpath h, System.getCwd,
          cStr_append_of_not_mem (nul_not_mem_absString sys.cwd), cStr_cons_of_ne (by decide)]
      have hend : endMove (sys.getCwd ++ '/' :: cStr path) = endMove (cStr path) := by
        rw [List.append_cons, endMove_append hne]
      have hwalk : sys.walkFrom (sys.getCwd ++ '/' :: cStr path)
            (trail (sys.getCwd ++ '/' :: cStr path) ++ endMove (cStr path)) =
          sys.walkFrom (cStr path) (trail (cStr path) ++ endMove (cStr path)) := by
        rw [trail_append_slash, System.getCwd, trail_absString, System.walkFrom, System.walkFrom,
          System.origin, System.origin, hrooted, List.append_assoc]
        exact Tree.walk_names sys.cwd_isDir sys.maxLinks _
      simp only [System.stat, hcstr, hend, hwalk, if_neg hne]
      rw [if_neg (by simp)]

/-- A path that names something resolves to the way there. -/
theorem resolve_of_stat {spot : Spot FileName} (hne : path ≠ [])
    (hstat : sys.stat (absolute sys path) = .ok spot) :
    resolve sys path false = absString spot.path := by
  have habs := ne_nil_of_isRooted (isRooted_absolute sys hne)
  have hreal : sys.realPath (absolute sys path) = absString spot.path := by
    rw [System.realPath, hstat]
  rw [resolve, canonical, if_neg (by simpa using habs), hreal, if_pos (by simp [absString])]

/-- A path that names nothing is put in normal form. -/
theorem resolve_of_stat_error {e : Errno} (hne : path ≠ [])
    (hstat : sys.stat (absolute sys path) = .error e) :
    resolve sys path false = normal .posix (absolute sys path) := by
  have habs := ne_nil_of_isRooted (isRooted_absolute sys hne)
  have hreal : sys.realPath (absolute sys path) = [] := by
    rw [System.realPath, hstat]
  rw [resolve, canonical, if_neg (by simpa using habs), hreal]
  rfl

/-- What `resolve` hands to its caller: an absolute path whose components are
names. Where the path names something these are the names of the way there;
otherwise they are what is left of its components in the normal form. -/
theorem resolve_eq (sys : System) (hne : path ≠ []) :
    ∃ texts : List Str, (∀ t ∈ texts, IsName t) ∧
      resolve sys path false = '/' :: ['/'].intercalate texts ∧
      ((∃ spot, sys.stat (absolute sys path) = .ok spot ∧
          texts = spot.path.map Subtype.val) ∨
        ((∃ e, sys.stat (absolute sys path) = .error e) ∧
          texts = parts (place (absolute sys path)))) := by
  have hrooted := isRooted_absolute sys hne
  cases hstat : sys.stat (absolute sys path) with
  | ok spot =>
      refine ⟨spot.path.map Subtype.val, ?_, resolve_of_stat hne hstat, .inl ⟨spot, rfl, rfl⟩⟩
      intro t ht
      obtain ⟨name, -, rfl⟩ := List.mem_map.mp ht
      exact name.2.1
  | error e =>
      have hroot : (place (absolute sys path)).rooted = true := by
        rw [place_rooted, hrooted]
      refine ⟨parts (place (absolute sys path)), ?_, ?_, .inr ⟨⟨e, rfl⟩, rfl⟩⟩
      · intro t ht
        rw [parts_eq, (place (absolute sys path)).ups_of_rooted hroot] at ht
        rw [List.replicate_zero, List.nil_append] at ht
        obtain ⟨name, -, rfl⟩ := List.mem_map.mp ht
        exact name.2
      · rw [resolve_of_stat_error hne hstat]
        simp [normal_eq_render, render, hrooted]

end Absolute

end Ffilesystem
