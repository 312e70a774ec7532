import Mathlib.Data.List.Lex
import Mathlib.Data.List.Pairwise
import Mathlib.Order.Lattice

/-!
# Searching a list by halving

The lower bound is the end of the front part that a test takes. Halving finds it
in every list that the test cuts in two, sorted or not, and looking an element
up only asks of its own list that it is cut in two by that element.
-/

namespace Bisect

variable {α : Type*}

/-- Halve the `len` elements from position `first` on, until none is left. -/
def lowerBoundLoop (s : List α) (before : α → Bool) (first len : Nat) : Nat :=
  if 0 < len then
    let half := len / 2
    match s[first + half]? with
    | some x =>
        if before x then lowerBoundLoop s before (first + half + 1) (len - half - 1)
        else lowerBoundLoop s before first half
    | none => first
  else first
termination_by len

def lowerBound (s : List α) (before : α → Bool) : Nat := lowerBoundLoop s before 0 s.length

/-- What the test takes comes first. -/
def Cuts (before : α → Bool) (s : List α) : Prop :=
  s.Pairwise (fun a b => before b = true → before a = true)

/-- The elements in front of `first` are taken, those from `first + len` on are not. -/
structure Encloses (s : List α) (before : α → Bool) (first len : Nat) : Prop where
  le : first + len ≤ s.length
  front : ∀ x ∈ s.take first, before x = true
  back : ∀ x ∈ s.drop (first + len), before x = false

section Halving

variable {s : List α} {before : α → Bool} {first len m : Nat} {x : α}

theorem Cuts.take_of_getElem (h : Cuts before s) (hx : s[m]? = some x)
    (hbefore : before x = true) : ∀ y ∈ s.take (m + 1), before y = true := by
  obtain ⟨hm, rfl⟩ := List.getElem?_eq_some_iff.mp hx
  rw [List.take_add_one, hx]
  have hcut : s.take m ++ s[m] :: s.drop (m + 1) = s := by
    rw [List.getElem_cons_drop, List.take_append_drop]
  have hpair := (List.pairwise_append.mp (hcut.symm ▸ h : List.Pairwise _ _)).2.2
  intro y hy
  obtain hy | hy := List.mem_append.mp hy
  · exact hpair y hy s[m] List.mem_cons_self hbefore
  · rwa [List.mem_singleton.mp hy]

theorem Cuts.drop_of_getElem (h : Cuts before s) (hx : s[m]? = some x)
    (hbefore : before x = false) : ∀ y ∈ s.drop m, before y = false := by
  obtain ⟨hm, rfl⟩ := List.getElem?_eq_some_iff.mp hx
  have hback : List.Pairwise (fun a b => before b = true → before a = true) (s.drop m) :=
    List.Pairwise.drop h
  rw [← List.getElem_cons_drop hm] at hback ⊢
  intro y hy
  obtain rfl | hy := List.mem_cons.mp hy
  · exact hbefore
  · by_contra hnot
    have hfirst := (List.pairwise_cons.mp hback).1 y hy (Bool.not_eq_false _ ▸ hnot)
    rw [hbefore] at hfirst
    cases hfirst

/-- The loop ends where the list is cut. -/
theorem encloses_lowerBoundLoop (h : Cuts before s) (hin : Encloses s before first len) :
    Encloses s before (lowerBoundLoop s before first len) 0 := by
  induction len using Nat.strongRecOn generalizing first with
  | ind len ih =>
      rw [lowerBoundLoop]
      split
      · rename_i hpos
        have hmid : first + len / 2 < s.length := by
          have := hin.le
          omega
        have hx : s[first + len / 2]? = some s[first + len / 2] := List.getElem?_eq_getElem hmid
        dsimp only
        rw [hx]
        dsimp only
        split
        · rename_i hbefore
          have hend : first + len / 2 + 1 + (len - len / 2 - 1) = first + len := by omega
          refine ih _ (by omega) ⟨?_, h.take_of_getElem hx hbefore, ?_⟩
          · rw [hend]
            exact hin.le
          · rw [hend]
            exact hin.back
        · rename_i hbefore
          exact ih _ (by omega) ⟨Nat.le_of_lt hmid, hin.front,
            h.drop_of_getElem hx (Bool.eq_false_iff.mpr hbefore)⟩
      · rename_i hpos
        obtain rfl : len = 0 := by omega
        exact hin

theorem encloses_lowerBound (h : Cuts before s) : Encloses s before (lowerBound s before) 0 := by
  refine encloses_lowerBoundLoop h ⟨by omega, ?_, ?_⟩
  · exact fun x hx => absurd hx List.not_mem_nil
  · rw [Nat.zero_add, List.drop_length]
    exact fun x hx => absurd hx List.not_mem_nil

end Halving

section Lookup

variable [LinearOrder α]

def binarySearch (s : List α) (v : α) : Bool :=
  match s[lowerBound s (fun x => decide (x < v))]? with
  | some x => !decide (v < x)
  | none => false

/-- The smaller elements come first, and the greater ones last. -/
def Partitioned (v : α) (s : List α) : Prop :=
  s.Pairwise (fun a b => (b < v → a < v) ∧ (v < a → v < b))

theorem Partitioned.cuts {v : α} {s : List α} (h : Partitioned v s) :
    Cuts (fun x => decide (x < v)) s :=
  List.Pairwise.imp (fun hab hb => decide_eq_true (hab.1 (of_decide_eq_true hb))) h

/-- In a list that is cut in two by the element, halving finds it. -/
theorem binarySearch_iff_mem {v : α} {s : List α} (h : Partitioned v s) :
    binarySearch s v = true ↔ v ∈ s := by
  have hbound := encloses_lowerBound h.cuts
  rw [binarySearch]
  generalize lowerBound s (fun x => decide (x < v)) = r at hbound
  obtain ⟨-, hfront, hback⟩ := hbound
  rw [Nat.add_zero] at hback
  have hmem : v ∈ s ↔ v ∈ s.drop r := by
    refine ⟨fun hv => ?_, List.mem_of_mem_drop⟩
    rw [← List.take_append_drop r s] at hv
    obtain hv | hv := List.mem_append.mp hv
    · exact absurd (of_decide_eq_true (hfront v hv)) (lt_irrefl v)
    · exact hv
  rw [hmem]
  cases hget : s[r]? with
  | none =>
      rw [List.drop_eq_nil_of_le (List.getElem?_eq_none_iff.mp hget)]
      exact iff_of_false Bool.false_ne_true List.not_mem_nil
  | some x =>
      obtain ⟨hr, rfl⟩ := List.getElem?_eq_some_iff.mp hget
      have hdrop : List.Pairwise (fun a b => (b < v → a < v) ∧ (v < a → v < b)) (s.drop r) :=
        List.Pairwise.drop h
      rw [← List.getElem_cons_drop hr] at hback hdrop ⊢
      have hge : ¬ s[r] < v := of_decide_eq_false (hback _ List.mem_cons_self)
      rw [Bool.not_eq_true', decide_eq_false_iff_not]
      constructor
      · intro hle
        rw [le_antisymm (not_lt.mp hge) (not_lt.mp hle)]
        exact List.mem_cons_self
      · intro hv hlt
        obtain heq | hv := List.mem_cons.mp hv
        · exact lt_irrefl v (heq ▸ hlt)
        · exact lt_irrefl v (((List.pairwise_cons.mp hdrop).1 v hv).2 hlt)

end Lookup

section Lexicographic

variable [LinearOrder α]

/-- A query that is no longer than the front does not look behind it. -/
theorem append_lt_iff {front back v : List α} (h : v.length ≤ front.length) :
    front ++ back < v ↔ front < v := by
  induction front generalizing v with
  | nil =>
      rw [List.length_eq_zero_iff.mp (Nat.le_zero.mp h)]
      exact iff_of_false (List.not_lt_nil _) (List.not_lt_nil _)
  | cons x front ih =>
      cases v with
      | nil => exact iff_of_false (List.not_lt_nil _) (List.not_lt_nil _)
      | cons y v =>
          rw [List.cons_append, List.cons_lt_cons_iff, List.cons_lt_cons_iff,
            ih (Nat.le_of_succ_le_succ h)]

/-- Two longer lists with one front compare alike to the query. -/
theorem lt_iff_of_take_eq {a b v : List α} {n : Nat} (ha : n < a.length) (hb : n < b.length)
    (htake : a.take n = b.take n) (hv : v.length ≤ n) : (a < v ↔ b < v) ∧ (v < a ↔ v < b) := by
  have hlt : ∀ {c : List α}, n < c.length → (c < v ↔ c.take n < v) := by
    intro c hc
    conv_lhs => rw [← List.take_append_drop n c]
    exact append_lt_iff (by rw [List.length_take]; omega)
  have hgt : ∀ {c : List α}, n < c.length → (v < c ↔ ¬ c < v) := by
    intro c hc
    have hne : v ≠ c := by
      rintro rfl
      omega
    rw [not_lt]
    exact ⟨le_of_lt, fun hle => lt_of_le_of_ne hle hne⟩
  have hboth : a < v ↔ b < v := by rw [hlt ha, hlt hb, htake]
  exact ⟨hboth, by rw [hgt ha, hgt hb, hboth]⟩

end Lexicographic

end Bisect
