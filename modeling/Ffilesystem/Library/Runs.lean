import Ffilesystem.Library.Scan
import Mathlib.Data.List.Sort

/-!
# Maximal runs between separators

A run of a list is a nonempty stretch of positions without a separator, and it
is maximal when no other run contains it. That is the case exactly when each of
its sides is a separator or an end of the list.

A scan for separators always starts at an end of the list or right behind a
separator. `RunsFrom` names the maximal runs that lie ahead of such a start; its
three rules are the ways in which a scan can go on from there.
-/

namespace Scan

variable {α : Type*} {c : α} {s : List α}

/-- A nonempty stretch of positions without a separator. -/
structure IsRun (c : α) (s : List α) (i j : Nat) : Prop where
  lt : i < j
  le : j ≤ s.length
  free : ∀ k, i ≤ k → k < j → s[k]? ≠ some c

/-- A run that no other run contains. -/
structure MaximalRun (c : α) (s : List α) (i j : Nat) : Prop extends IsRun c s i j where
  maximal : ∀ i' j', i' ≤ i → j ≤ j' → IsRun c s i' j' → i' = i ∧ j' = j

/-- The left side of a position is the front of the list or a separator. -/
def OpensAt (c : α) (s : List α) (i : Nat) : Prop := i = 0 ∨ s[i - 1]? = some c

/-- At a position the list ends, or a separator stands there. -/
def ClosesAt (c : α) (s : List α) (j : Nat) : Prop := j = s.length ∨ s[j]? = some c

theorem MaximalRun.opensAt {i j : Nat} (h : MaximalRun c s i j) : OpensAt c s i := by
  by_contra hopen
  obtain ⟨hpos, hleft⟩ := not_or.mp hopen
  have hlonger : IsRun c s (i - 1) j := by
    refine ⟨by have := h.lt; omega, h.le, fun k hk hkj => ?_⟩
    by_cases hki : k = i - 1
    · rwa [hki]
    · exact h.free k (by omega) hkj
  have heq := (h.maximal (i - 1) j (Nat.sub_le i 1) (Nat.le_refl j) hlonger).1
  omega

theorem MaximalRun.closesAt {i j : Nat} (h : MaximalRun c s i j) : ClosesAt c s j := by
  by_contra hclose
  obtain ⟨hlen, hright⟩ := not_or.mp hclose
  have hlonger : IsRun c s i (j + 1) := by
    refine ⟨Nat.lt_succ_of_lt h.lt, by have := h.le; omega, fun k hk hkj => ?_⟩
    by_cases hkj' : k = j
    · rwa [hkj']
    · exact h.free k hk (by omega)
  have heq := (h.maximal i (j + 1) (Nat.le_refl i) (Nat.le_succ j) hlonger).2
  omega

theorem maximalRun_iff {i j : Nat} :
    MaximalRun c s i j ↔ IsRun c s i j ∧ OpensAt c s i ∧ ClosesAt c s j := by
  constructor
  · intro h
    exact ⟨h.toIsRun, h.opensAt, h.closesAt⟩
  · rintro ⟨hrun, hopen, hclose⟩
    have hpos := hrun.lt
    refine ⟨hrun, fun i' j' hi hj hrun' => ⟨?_, ?_⟩⟩
    · have hi' : ¬ i' < i := by
        intro hlt
        have hleft := hopen.resolve_left (by omega)
        exact hrun'.free (i - 1) (by omega) (by omega) hleft
      omega
    · have hj' : ¬ j < j' := by
        intro hlt
        have hright := hclose.resolve_left (by have := hrun'.le; omega)
        exact hrun'.free j (by omega) hlt hright
      omega

/-- From one position only one maximal run starts. -/
theorem MaximalRun.end_unique {i j j' : Nat} (h : MaximalRun c s i j)
    (h' : MaximalRun c s i j') : j = j' := by
  rcases Nat.le_total j j' with hle | hle
  · exact (h.maximal i j' (Nat.le_refl i) hle h'.toIsRun).2.symm
  · exact (h'.maximal i j (Nat.le_refl i) hle h.toIsRun).2

/-- Up to the next separator only the start of the scan can start a run. -/
theorem MaximalRun.eq_or_lt {start stop i j : Nat} (h : MaximalRun c s i j) (hi : start ≤ i)
    (hfree : ∀ k, start ≤ k → k < stop → s[k]? ≠ some c) : i = start ∨ stop < i := by
  by_cases heq : i = start
  · exact .inl heq
  · have hleft := h.opensAt.resolve_left (by omega)
    have hbound : ¬ i - 1 < stop := fun hlt => hfree (i - 1) (by omega) hlt hleft
    exact .inr (by omega)

/-- The maximal runs that start at or behind a position, in order. -/
structure RunsFrom (c : α) (s : List α) (start : Nat) (spans : List (Nat × Nat)) : Prop where
  inOrder : spans.Pairwise fun a b => a.2 < b.1
  mem_iff : ∀ i j, (i, j) ∈ spans ↔ start ≤ i ∧ MaximalRun c s i j

/-- There is only one list of them. -/
theorem RunsFrom.unique {start : Nat} {spans spans' : List (Nat × Nat)}
    (h : RunsFrom c s start spans) (h' : RunsFrom c s start spans') : spans = spans' := by
  have hsorted : ∀ {l : List (Nat × Nat)}, RunsFrom c s start l →
      l.Pairwise fun a b => a.1 < b.1 := by
    intro l hl
    refine hl.inOrder.imp_of_mem (fun {a b} ha _ hab => ?_)
    exact Nat.lt_trans ((hl.mem_iff a.1 a.2).mp ha).2.lt hab
  have hasymm : Std.Antisymm fun a b : Nat × Nat => a.1 < b.1 :=
    ⟨fun a b hab hba => absurd hab (Nat.lt_asymm hba)⟩
  have hirrefl : Std.Irrefl fun a b : Nat × Nat => a.1 < b.1 := ⟨fun a => Nat.lt_irrefl a.1⟩
  apply (hsorted h).eq_of_mem_iff (hsorted h')
  intro a
  rw [h.mem_iff a.1 a.2, h'.mem_iff a.1 a.2]

/-- The pieces of a list are the texts of its maximal runs, in order. -/
def IsRunList (c : α) (s : List α) (pieces : List (List α)) : Prop :=
  ∃ spans, RunsFrom c s 0 spans ∧ pieces = spans.map fun r => substr s r.1 (r.2 - r.1)

theorem IsRunList.unique {pieces pieces' : List (List α)} (h : IsRunList c s pieces)
    (h' : IsRunList c s pieces') : pieces = pieces' := by
  obtain ⟨spans, hspans, rfl⟩ := h
  obtain ⟨spans', hspans', rfl⟩ := h'
  rw [hspans.unique hspans']

/-- The scan is at the end. -/
theorem RunsFrom.done {start : Nat} (h : s.length ≤ start) : RunsFrom c s start [] := by
  refine ⟨List.Pairwise.nil, fun i j => iff_of_false List.not_mem_nil ?_⟩
  rintro ⟨hi, hrun⟩
  have hlt := hrun.lt
  have hle := hrun.le
  omega

section Rules

variable [DecidableEq α] {start stop : Nat} {spans : List (Nat × Nat)}

theorem getElem?_ne_of_find_none (h : find s c start = none) {k : Nat} (hk : start ≤ k) :
    s[k]? ≠ some c := by
  intro heq
  apply find_eq_none_iff.mp h
  apply List.mem_of_getElem? (i := k - start)
  rwa [List.getElem?_drop, Nat.add_sub_cancel' hk]

theorem getElem?_of_find_some (h : find s c start = some stop) : s[stop]? = some c := by
  obtain ⟨hle, _, _, hcut⟩ := find_eq_some h
  have hlen : (substr s start (stop - start)).length = stop - start := by
    rw [substr, List.length_take, List.length_drop]
    omega
  have hget : (s.drop start)[stop - start]? = some c := by
    rw [hcut, List.getElem?_append_right (by omega), hlen, Nat.sub_self]
    rfl
  rwa [List.getElem?_drop, Nat.add_sub_cancel' hle] at hget

theorem getElem?_ne_of_find_some (h : find s c start = some stop) {k : Nat} (hk : start ≤ k)
    (hstop : k < stop) : s[k]? ≠ some c := by
  intro heq
  apply (find_eq_some h).2.2.1
  apply List.mem_of_getElem? (i := k - start)
  rwa [substr, List.getElem?_take_of_lt (by omega), List.getElem?_drop, Nat.add_sub_cancel' hk]

/-- The scan finds no separator any more. -/
theorem RunsFrom.last (hopen : OpensAt c s start) (hlt : start < s.length)
    (hfind : find s c start = none) : RunsFrom c s start [(start, s.length)] := by
  have hfree : ∀ k, start ≤ k → k < s.length → s[k]? ≠ some c := fun k hk _ =>
    getElem?_ne_of_find_none hfind hk
  have hrun : MaximalRun c s start s.length :=
    maximalRun_iff.mpr ⟨⟨hlt, Nat.le_refl _, hfree⟩, hopen, .inl rfl⟩
  refine ⟨List.pairwise_singleton _ _, fun i j => ?_⟩
  rw [List.mem_singleton, Prod.mk.injEq]
  constructor
  · rintro ⟨rfl, rfl⟩
    exact ⟨Nat.le_refl _, hrun⟩
  · rintro ⟨hi, h⟩
    rcases h.eq_or_lt hi hfree with rfl | hbehind
    · exact ⟨rfl, h.end_unique hrun⟩
    · have hlt' := h.lt
      have hle' := h.le
      omega

/-- The scan finds a separator, which the start itself may be. -/
theorem RunsFrom.next (hopen : OpensAt c s start) (hfind : find s c start = some stop)
    (h : RunsFrom c s (stop + 1) spans) :
    RunsFrom c s start (if stop ≠ start then (start, stop) :: spans else spans) := by
  obtain ⟨hle, hlt, _⟩ := find_eq_some hfind
  have hstop := getElem?_of_find_some hfind
  have hfree : ∀ k, start ≤ k → k < stop → s[k]? ≠ some c := fun k hk hks =>
    getElem?_ne_of_find_some hfind hk hks
  by_cases heq : stop = start
  · -- no run starts at a separator
    rw [if_neg (not_not_intro heq)]
    refine ⟨h.inOrder, fun i j => ?_⟩
    rw [h.mem_iff]
    refine and_congr_left (fun hrun => ⟨fun hi => by omega, fun hi => ?_⟩)
    rcases hrun.eq_or_lt hi hfree with rfl | hbehind
    · exact absurd (heq ▸ hstop) (hrun.free i (Nat.le_refl i) hrun.lt)
    · exact hbehind
  · have hrun : MaximalRun c s start stop :=
      maximalRun_iff.mpr ⟨⟨by omega, Nat.le_of_lt hlt, hfree⟩, hopen, .inr hstop⟩
    rw [if_pos heq]
    refine ⟨List.pairwise_cons.mpr ⟨fun r hr => ?_, h.inOrder⟩, fun i j => ?_⟩
    · exact ((h.mem_iff r.1 r.2).mp hr).1
    · rw [List.mem_cons, Prod.mk.injEq, h.mem_iff]
      constructor
      · rintro (⟨rfl, rfl⟩ | ⟨hi, hother⟩)
        · exact ⟨Nat.le_refl _, hrun⟩
        · exact ⟨by omega, hother⟩
      · rintro ⟨hi, hother⟩
        rcases hother.eq_or_lt hi hfree with rfl | hbehind
        · exact .inl ⟨rfl, hother.end_unique hrun⟩
        · exact .inr ⟨hbehind, hother⟩

end Rules

end Scan
