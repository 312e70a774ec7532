import Ffilesystem.LexicallyNormal
import Ffilesystem.WindowsNormal

/-!
# Dropping superfluous slashes on POSIX systems

`drop_slash` pops the separators at the end of a path, all but a lone first
character, and then merges the runs of slashes that are left. Both steps only
take slashes away from beside a slash or from the end, so the pieces between
slashes stay, and so does the first character.

A path with slashes only in front and between its components is given by these
components and by whether it is rooted. This makes `drop_slash` the function
that writes `slashForm`.
-/

namespace Ffilesystem

section Loops

/-- The loop of `drop_trailing_slash`. -/
def popSeparators (pl : Platform) (p : Str) : Str :=
  if 1 < p.length ∧ p.getLast?.any pl.isFileSeparator then popSeparators pl p.dropLast else p
termination_by p.length
decreasing_by
  rw [List.length_dropLast]
  omega

theorem popSeparators_nil (pl : Platform) : popSeparators pl [] = [] := by
  rw [popSeparators]
  rfl

/-- The guard keeps the first character, and nothing else stops the loop. -/
theorem popSeparators_cons (pl : Platform) (c : Char) (rest : Str) :
    popSeparators pl (c :: rest) = c :: rest.rdropWhile pl.isFileSeparator := by
  induction rest using List.reverseRecOn with
  | nil =>
      rw [popSeparators]
      rfl
  | append_singleton rest d ih =>
      have hlast : (c :: (rest ++ [d])).getLast? = some d := by
        rw [← List.cons_append, List.getLast?_concat]
      have hlen : 1 < (c :: (rest ++ [d])).length := by simp
      rw [popSeparators, hlast, Option.any_some]
      by_cases hd : pl.isFileSeparator d
      · have hfront : (c :: (rest ++ [d])).dropLast = c :: rest := by
          rw [← List.cons_append, List.dropLast_concat]
        rw [if_pos ⟨hlen, hd⟩, hfront, ih, List.rdropWhile_concat_pos _ _ _ hd]
      · rw [if_neg (fun h => hd h.2), List.rdropWhile_concat_neg _ _ _ hd]

/-- `drop_trailing_slash`, with its loop. -/
def popTrailingSlash (pl : Platform) (path : Str) : Str :=
  let p := popSeparators pl path
  if pl.isWindows ∧ p ≠ [] ∧ p = rootName pl p then p ++ ['/'] else p

theorem dropTrailingSlashOn_eq_popTrailingSlash (pl : Platform) (p : Str) :
    dropTrailingSlashOn pl p = popTrailingSlash pl p := by
  rw [popTrailingSlash]
  cases p with
  | nil => rw [popSeparators_nil, dropTrailingSlashOn]
  | cons c rest => rw [popSeparators_cons, dropTrailingSlashOn]

/-- `drop_slash` with its two loops as the source runs them. -/
theorem dropSlash_eq_loops {pl : Platform} {path : Str} (hne : path ≠ [])
    (hserver : ¬ (pl.isWindows ∧ path.head? = some '\\' ∧ path[1]? = some '\\')) :
    dropSlash pl path =
      Ends.unique (fun a b => a == '/' && b == '/') (popTrailingSlash pl (asPosix pl path)) := by
  rw [dropSlash, if_neg (by simpa using hne), if_neg hserver, Ends.unique_eq_destutter,
    dropTrailingSlashOn_eq_popTrailingSlash]
  congr
  funext a b
  simp

end Loops

section Canonical

open Lexical

/-- A path with a slash at its end only where it is the root, and never with two
in a row. -/
structure SlashCanonical (r : Str) : Prop where
  no_pair : ∀ front back, r ≠ front ++ '/' :: '/' :: back
  no_end : r.getLast? = some '/' → r = ['/']

/-- Components written with the slashes that are needed. -/
def slashForm (rooted : Bool) (components : List Str) : Str :=
  (if rooted then ['/'] else []) ++ ['/'].intercalate components

/-- Where a path does not start with a slash, an empty piece between two slashes
would be a pair of slashes or a slash at the end. -/
theorem SlashCanonical.ne_nil_of_mem_splitOn {r : Str} (h : SlashCanonical r) (hr : r ≠ [])
    (hroot : r.head? ≠ some '/') {piece : Str} (hmem : piece ∈ r.splitOn '/') : piece ≠ [] := by
  rintro rfl
  have hjoin : ['/'].intercalate (r.splitOn '/') = r := List.intercalate_splitOn '/'
  obtain ⟨before, after, hcut⟩ := List.append_of_mem hmem
  rw [hcut] at hjoin
  by_cases hbefore : before = []
  · rw [hbefore, List.nil_append] at hjoin
    cases after with
    | nil => exact hr (hjoin.symm.trans (by simp [List.intercalate]))
    | cons next after =>
        rw [List.intercalate_cons_of_ne_nil (List.cons_ne_nil _ _)] at hjoin
        exact hroot (by rw [← hjoin]; rfl)
  · rw [Scan.intercalate_append hbefore (List.cons_ne_nil _ _)] at hjoin
    cases after with
    | nil =>
        have hend : ['/'].intercalate before ++ ['/'] = r := by
          simpa [List.intercalate] using hjoin
        have hone := h.no_end (by rw [← hend, List.getLast?_concat])
        exact hroot (by rw [hone]; rfl)
    | cons next after =>
        rw [List.intercalate_cons_of_ne_nil (List.cons_ne_nil _ _)] at hjoin
        exact h.no_pair _ _ hjoin.symm

theorem SlashCanonical.eq_intercalate {r : Str} (h : SlashCanonical r)
    (hroot : r.head? ≠ some '/') : r = ['/'].intercalate (Scan.components '/' r) := by
  by_cases hr : r = []
  · rw [hr, Scan.components_nil]
    rfl
  have hkept : Scan.components '/' r = r.splitOn '/' := by
    apply List.filter_eq_self.mpr
    intro piece hmem
    simpa using h.ne_nil_of_mem_splitOn hr hroot hmem
  rw [hkept, List.intercalate_splitOn]

/-- A canonical path is given by its components and by whether it is rooted. -/
theorem SlashCanonical.eq_slashForm {r : Str} (h : SlashCanonical r) :
    r = slashForm (isRooted r) (Scan.components '/' r) := by
  by_cases hroot : r.head? = some '/'
  · obtain ⟨rest, rfl⟩ := List.head?_eq_some_iff.mp hroot
    have hrest : SlashCanonical rest := by
      refine ⟨fun front back heq => h.no_pair ('/' :: front) back (by rw [heq]; rfl), ?_⟩
      intro hlast
      have hwhole := h.no_end (by rw [List.getLast?_cons, hlast]; rfl)
      rw [List.tail_eq_of_cons_eq hwhole] at hlast
      cases hlast
    have hhead : rest.head? ≠ some '/' := by
      intro hhead
      obtain ⟨back, rfl⟩ := List.head?_eq_some_iff.mp hhead
      exact h.no_pair [] back rfl
    have hrooted : isRooted ('/' :: rest) = true := rfl
    rw [slashForm, hrooted, if_pos rfl, Scan.components_cons_self, ← hrest.eq_intercalate hhead]
    rfl
  · have hrooted : isRooted r = false := beq_eq_false_iff_ne.mpr hroot
    rw [slashForm, hrooted, if_neg Bool.false_ne_true, List.nil_append]
    exact h.eq_intercalate hroot

end Canonical

section Posix

open Lexical

variable (p : Str)

theorem dropSlash_posix :
    dropSlash .posix p = (dropTrailingSlash p).destutter fun a b => ¬ (a = '/' ∧ b = '/') := by
  cases p with
  | nil => rfl
  | cons c rest =>
      rw [← dropTrailingSlashOn_posix, dropSlash, if_neg (by simp), if_neg (by simp),
        asPosix_posix]

theorem head?_dropTrailingSlash : (dropTrailingSlash p).head? = p.head? := by
  cases p with
  | nil => rfl
  | cons c rest => rfl

theorem components_dropTrailingSlash :
    Scan.components '/' (dropTrailingSlash p) = Scan.components '/' p := by
  cases p with
  | nil => rfl
  | cons c rest =>
      have hcut : c :: rest = (c :: rest.rdropWhile (· = '/')) ++ rest.rtakeWhile (· = '/') := by
        rw [List.cons_append, List.rdropWhile_append_rtakeWhile]
      rw [dropTrailingSlash, hcut]
      symm
      apply Ends.components_append_of_all
      intro x hx
      have htaken := List.mem_rtakeWhile_imp hx
      exact of_decide_eq_true htaken

/-- A slash at the end is all that is left. -/
theorem dropTrailingSlash_of_getLast? (h : (dropTrailingSlash p).getLast? = some '/') :
    dropTrailingSlash p = ['/'] := by
  cases p with
  | nil => cases h
  | cons c rest =>
      rw [dropTrailingSlash] at h ⊢
      by_cases hrest : rest.rdropWhile (· = '/') = []
      · rw [hrest] at h ⊢
        simpa using h
      · rw [List.getLast?_cons, List.getLast?_eq_some_getLast hrest] at h
        have hlast := List.rdropWhile_last_not _ _ hrest
        exact absurd (decide_eq_true (by simpa using h)) hlast

theorem head?_dropSlash : (dropSlash .posix p).head? = p.head? := by
  rw [dropSlash_posix, Ends.head?_destutter, head?_dropTrailingSlash]

theorem components_dropSlash :
    Scan.components '/' (dropSlash .posix p) = Scan.components '/' p := by
  rw [dropSlash_posix, Ends.components_destutter (fun a b h => not_not.mp h),
    components_dropTrailingSlash]

theorem slashCanonical_dropSlash : SlashCanonical (dropSlash .posix p) := by
  rw [dropSlash_posix]
  constructor
  · intro front back heq
    have hchain := List.isChain_destutter (fun a b : Char => ¬ (a = '/' ∧ b = '/'))
      (dropTrailingSlash p)
    rw [heq] at hchain
    exact (List.isChain_append_cons_cons.mp hchain).2.1 ⟨rfl, rfl⟩
  · intro hlast
    have hdrop : ∀ a b : Char, ¬ ¬ (a = '/' ∧ b = '/') → a = b := fun a b h =>
      (not_not.mp h).1.trans (not_not.mp h).2.symm
    rw [Ends.getLast?_destutter hdrop] at hlast
    rw [dropTrailingSlash_of_getLast? p hlast, List.destutter_singleton]

theorem isRooted_dropSlash : isRooted (dropSlash .posix p) = isRooted p := by
  rw [isRooted, head?_dropSlash, isRooted]

theorem splitFilesep_posix : splitFilesep .posix p = Scan.components '/' p :=
  splitFilesep_eq .posix p

theorem splitFilesep_dropSlash :
    splitFilesep .posix (dropSlash .posix p) = splitFilesep .posix p := by
  rw [splitFilesep_posix, splitFilesep_posix, components_dropSlash]

/-- `drop_slash` writes the slash form of its path. -/
theorem dropSlash_eq_slashForm :
    dropSlash .posix p = slashForm (isRooted p) (splitFilesep .posix p) := by
  have h := (slashCanonical_dropSlash p).eq_slashForm
  rwa [isRooted_dropSlash, components_dropSlash, ← splitFilesep_posix] at h

theorem place_dropSlash : place (dropSlash .posix p) = place p := by
  rw [place, place, isRooted_dropSlash, components_dropSlash]

end Posix

section Results

variable {p : Str}

/-- `drop_slash` leaves no superfluous slash and loses nothing: neither the first
slash nor a component nor, in either backend, the normal form. -/
theorem dropSlash_canonical (p : Str) :
    SlashCanonical (dropSlash .posix p) ∧
      (dropSlash .posix p = [] → p = []) ∧
      ((dropSlash .posix p).head? = some '/' ↔ p.head? = some '/') ∧
      splitFilesep .posix (dropSlash .posix p) = splitFilesep .posix p ∧
      (normal .posix (dropSlash .posix p) = normal .posix p ∧
        ∀ r r', LexicallyNormal (dropSlash .posix p) r → LexicallyNormal p r' →
          normalEnd .posix r = normalEnd .posix r') ∧
      dropSlash .posix (dropSlash .posix p) = dropSlash .posix p := by
  refine ⟨slashCanonical_dropSlash p, ?_, ?_, splitFilesep_dropSlash p, ⟨?_, ?_⟩, ?_⟩
  · intro hnil
    rw [← List.head?_eq_none_iff, ← head?_dropSlash, hnil, List.head?_nil]
  · rw [head?_dropSlash]
  · rw [normal_eq_normal_iff, place_dropSlash]
  · intro r r' hr hr'
    rw [normalEnd_of_lexicallyNormal hr, normalEnd_of_lexicallyNormal hr', place_dropSlash]
  · rw [dropSlash_eq_slashForm (dropSlash .posix p), isRooted_dropSlash, splitFilesep_dropSlash,
      ← dropSlash_eq_slashForm]

example : dropSlash .posix "//a///b//".toList = "/a/b".toList := by decide

end Results

end Ffilesystem
