import Ffilesystem.Library.Scan
import Mathlib.Data.List.Destutter
import Mathlib.Data.List.DropRight

/-!
# Cutting a list from its end

What `rdropWhile` and `rtakeWhile` do to a list that is given as a front and a
back, and what they and `destutter` leave in first place. A back in which the
scan stops hides the front from it.

Separators that are cut off at the end, or merged with the one before, are in
none of the pieces between separators, so the pieces stay.
-/

namespace Ends

variable {α : Type*} {p : α → Bool}

theorem rdropWhile_cons_of_not {c : α} (hc : p c = false) (l : List α) :
    (c :: l).rdropWhile p = c :: l.rdropWhile p := by
  rw [List.rdropWhile, List.rdropWhile, List.reverse_cons, List.dropWhile_append]
  split
  · rename_i hnil
    simp [hc, List.isEmpty_iff.mp hnil]
  · simp

theorem head?_rdropWhile {l : List α} (h : l.rdropWhile p ≠ []) :
    (l.rdropWhile p).head? = l.head? := by
  obtain ⟨t, ht⟩ := List.rdropWhile_prefix p l
  conv_rhs => rw [← ht]
  exact (List.head?_append_of_ne_nil _ h).symm

/-- What the scan takes at the end hides nothing in front of it. -/
theorem rdropWhile_append_of_all {b : List α} (h : ∀ c ∈ b, p c) (a : List α) :
    (a ++ b).rdropWhile p = a.rdropWhile p := by
  have hall : ∀ c ∈ b.reverse, p c := fun c hc => h c (List.mem_reverse.mp hc)
  rw [List.rdropWhile, List.rdropWhile, List.reverse_append, List.dropWhile_append_of_pos hall]

/-- The scan does not get past a symbol that it does not take. -/
theorem rtakeWhile_append_of_mem {c : α} {b : List α} (hmem : c ∈ b) (hc : p c = false)
    (a : List α) : (a ++ b).rtakeWhile p = b.rtakeWhile p := by
  have hlen : (b.reverse.takeWhile p).length ≠ b.reverse.length := by
    intro heq
    have hall := List.takeWhile_eq_self_iff.mp ((List.takeWhile_prefix _).eq_of_length heq)
    have htaken := hall c (List.mem_reverse.mpr hmem)
    rw [hc] at htaken
    cases htaken
  rw [List.rtakeWhile, List.rtakeWhile, List.reverse_append, List.takeWhile_append, if_neg hlen]

theorem rtakeWhile_append_of_all {b : List α} (h : ∀ c ∈ b, p c) (a : List α) :
    (a ++ b).rtakeWhile p = a.rtakeWhile p ++ b := by
  have hall : ∀ c ∈ b.reverse, p c := fun c hc => h c (List.mem_reverse.mp hc)
  rw [List.rtakeWhile, List.rtakeWhile, List.reverse_append, List.takeWhile_append_of_pos hall,
    List.reverse_append, List.reverse_reverse]

/-- A front and a back that do not overlap leave a middle part. -/
theorem exists_middle {front back l : List α} (hfront : front <+: l) (hback : back <:+ l)
    (hlen : front.length + back.length ≤ l.length) :
    ∃ middle, l = front ++ middle ++ back := by
  obtain ⟨rest, rfl⟩ := hfront
  rw [List.length_append] at hlen
  obtain ⟨middle, rfl⟩ := List.suffix_of_suffix_length_le hback (List.suffix_append front rest)
    (by omega)
  exact ⟨middle, (List.append_assoc _ _ _).symm⟩

section Destutter

variable {R : α → α → Prop} [DecidableRel R]

theorem head?_destutter' (c : α) (l : List α) : (l.destutter' R c).head? = some c := by
  induction l with
  | nil => rfl
  | cons d l ih =>
      by_cases h : R c d
      · rw [List.destutter'_cons_pos _ h]
        rfl
      · rw [List.destutter'_cons_neg _ h, ih]

theorem head?_destutter (l : List α) : (l.destutter R).head? = l.head? := by
  cases l with
  | nil => rfl
  | cons c l => exact head?_destutter' c l

/-- A symbol is only dropped behind one that equals it, so the last one stays. -/
theorem getLast?_destutter' (hdrop : ∀ a b, ¬ R a b → a = b) (c : α) (l : List α) :
    (l.destutter' R c).getLast? = (c :: l).getLast? := by
  induction l generalizing c with
  | nil => rfl
  | cons d l ih =>
      by_cases h : R c d
      · rw [List.destutter'_cons_pos _ h, List.getLast?_cons, ih, ← List.getLast?_cons]
      · obtain rfl := hdrop c d h
        rw [List.destutter'_cons_neg _ h, ih, List.getLast?_cons_cons]

theorem getLast?_destutter (hdrop : ∀ a b, ¬ R a b → a = b) (l : List α) :
    (l.destutter R).getLast? = l.getLast? := by
  cases l with
  | nil => rfl
  | cons c l => exact getLast?_destutter' hdrop c l

/-- Removal of neighbours in place: a symbol is kept unless `same` finds it equal
to the last one kept. -/
def unique (same : α → α → Bool) (s : List α) : List α :=
  s.foldl (fun kept c => if kept.getLast?.any (same · c) then kept else kept ++ [c]) []

/-- The compaction is `destutter`: the invariant of its loop is the kept list, of
which only the last symbol is looked at. -/
theorem unique_eq_destutter (same : α → α → Bool) (s : List α) :
    unique same s = s.destutter fun a b => ¬ same a b := by
  have hloop : ∀ (front : List α) (b : α) (l : List α),
      l.foldl (fun kept c => if kept.getLast?.any (same · c) then kept else kept ++ [c])
        (front ++ [b]) = front ++ l.destutter' (fun a b => ¬ same a b) b := by
    intro front b l
    induction l generalizing front b with
    | nil => rfl
    | cons c l ih =>
        rw [List.foldl_cons, List.getLast?_concat, Option.any_some]
        by_cases h : same b c
        · rw [if_pos h, ih, List.destutter'_cons_neg _ (not_not_intro h)]
        · rw [if_neg h, ih, List.destutter'_cons_pos _ h, List.append_assoc, List.singleton_append]
  cases s with
  | nil => rfl
  | cons c s => exact hloop [] c s

end Destutter

section Components

variable [DecidableEq α] {c : α}

theorem components_append_of_all {b : List α} (h : ∀ x ∈ b, x = c) (a : List α) :
    Scan.components c (a ++ b) = Scan.components c a := by
  induction b generalizing a with
  | nil => rw [List.append_nil]
  | cons x b ih =>
      obtain rfl := h x List.mem_cons_self
      have hrest := ih (fun y hy => h y (List.mem_cons_of_mem _ hy)) []
      rw [List.nil_append, Scan.components_nil] at hrest
      rw [Scan.components_append_cons, hrest, List.append_nil]

/-- Two lists that start alike keep the same pieces behind a common first symbol. -/
theorem components_cons_congr {a b : List α} (hhead : a.head? = b.head?)
    (h : Scan.components c a = Scan.components c b) (x : α) :
    Scan.components c (x :: a) = Scan.components c (x :: b) := by
  by_cases hx : x = c
  · rw [hx, Scan.components_cons_self, Scan.components_cons_self, h]
  · have hnil : a = [] ↔ b = [] := by
      rw [← List.head?_eq_none_iff, hhead, List.head?_eq_none_iff]
    rw [Scan.components_cons_of_ne hx, Scan.components_cons_of_ne hx, hhead, h]
    simp only [hnil]

/-- Merging separators loses none of the pieces between them. -/
theorem components_destutter {R : α → α → Prop} [DecidableRel R]
    (hdrop : ∀ a b, ¬ R a b → a = c ∧ b = c) (s : List α) :
    Scan.components c (s.destutter R) = Scan.components c s := by
  have hrest : ∀ (x : α) (l : List α),
      Scan.components c (l.destutter' R x) = Scan.components c (x :: l) := by
    intro x l
    induction l generalizing x with
    | nil => rfl
    | cons y l ih =>
        by_cases h : R x y
        · rw [List.destutter'_cons_pos _ h]
          exact components_cons_congr (head?_destutter' y l) (ih y) x
        · obtain ⟨hx, hy⟩ := hdrop x y h
          rw [List.destutter'_cons_neg _ h, ih, hx, hy, Scan.components_cons_self c (c :: l)]
  cases s with
  | nil => rfl
  | cons x l => exact hrest x l

end Components

end Ends
