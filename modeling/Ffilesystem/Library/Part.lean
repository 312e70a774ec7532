import Ffilesystem.Library.Scan
import Mathlib.Data.List.Infix

/-!
# Searching a list for a part

The search succeeds exactly for the infixes. In a list that a separator splits
into pieces, a part that is free of the separator is found inside one piece; to
be a piece is more than that.
-/

namespace Scan

variable {α : Type*}

theorem infix_append_cons_iff {c : α} {part : List α} (hc : c ∉ part) (a b : List α) :
    part <:+: a ++ c :: b ↔ part <:+: a ∨ part <:+: b := by
  constructor
  · rintro ⟨u, v, h⟩
    rw [List.append_assoc] at h
    obtain ⟨m, ha, hrest⟩ | ⟨m, -, hrest⟩ := List.append_eq_append_iff.mp h
    · obtain ⟨n, hm, -⟩ | ⟨n, hpart, hn⟩ := List.append_eq_append_iff.mp hrest
      · exact .inl ⟨u, n, by rw [ha, hm, List.append_assoc]⟩
      · cases n with
        | nil => exact .inl ⟨u, [], by rw [ha, hpart, List.append_nil, List.append_nil]⟩
        | cons d n =>
            obtain rfl := (List.cons.inj hn).1
            exact absurd (by simp [hpart]) hc
    · cases m with
      | nil =>
          cases part with
          | nil => exact .inl List.nil_infix
          | cons d part =>
              obtain rfl := (List.cons.inj hrest).1
              exact absurd List.mem_cons_self hc
      | cons d m =>
          have hb : b = m ++ (part ++ v) := (List.cons.inj hrest).2
          exact .inr ⟨m, v, by rw [List.append_assoc, hb]⟩
  · rintro (h | h)
    · exact h.trans (List.prefix_append a _).isInfix
    · exact h.trans ((List.suffix_cons c b).trans (List.suffix_append a _)).isInfix

variable [DecidableEq α]

/-- Whether `part` starts at some position of `s`. -/
def containsPart (s part : List α) : Bool := s.tails.any (part.isPrefixOf ·)

theorem containsPart_iff {s part : List α} : containsPart s part = true ↔ part <:+: s := by
  rw [containsPart, List.any_eq_true, List.infix_iff_prefix_suffix]
  constructor
  · rintro ⟨back, hback, hpre⟩
    exact ⟨back, List.isPrefixOf_iff_prefix.mp hpre, (List.mem_tails back s).mp hback⟩
  · rintro ⟨back, hpre, hback⟩
    exact ⟨back, (List.mem_tails back s).mpr hback, List.isPrefixOf_iff_prefix.mpr hpre⟩

theorem splitOn_cases (c : α) (s : List α) :
    (c ∉ s ∧ s.splitOn c = [s]) ∨
      ∃ a b, s = a ++ c :: b ∧ c ∉ a ∧ s.splitOn c = a :: b.splitOn c := by
  by_cases h : c ∈ s
  · obtain ⟨a, b, hs, ha⟩ := List.eq_append_cons_of_mem h
    exact .inr ⟨a, b, hs, ha, by rw [hs, List.splitOn_append_cons_self_of_not_mem ha]⟩
  · exact .inl ⟨h, List.splitOn_eq_singleton h⟩

/-- Induction over the pieces, from the last one on. -/
@[elab_as_elim]
theorem splitOn_induction {motive : List α → Prop} (c : α)
    (last : ∀ s, c ∉ s → s.splitOn c = [s] → motive s)
    (cons : ∀ a b, c ∉ a → (a ++ c :: b).splitOn c = a :: b.splitOn c → motive b →
      motive (a ++ c :: b)) (s : List α) : motive s := by
  induction hn : s.length using Nat.strongRecOn generalizing s with
  | ind n ih =>
      obtain ⟨hfree, hsplit⟩ | ⟨a, b, rfl, ha, hsplit⟩ := splitOn_cases c s
      · exact last s hfree hsplit
      · refine cons a b ha hsplit (ih b.length ?_ b rfl)
        rw [← hn, List.length_append, List.length_cons]
        omega

theorem infix_of_mem_splitOn {c : α} {s piece : List α} (h : piece ∈ s.splitOn c) :
    piece <:+: s := by
  induction s using splitOn_induction c with
  | last s _ hsplit =>
      rw [hsplit, List.mem_singleton] at h
      exact ⟨[], [], by rw [h, List.nil_append, List.append_nil]⟩
  | cons a b _ hsplit ih =>
      rw [hsplit, List.mem_cons] at h
      obtain rfl | hmem := h
      · exact (List.prefix_append piece _).isInfix
      · exact (ih hmem).trans ((List.suffix_cons c b).trans (List.suffix_append a _)).isInfix

/-- A part without the separator lies inside a piece. -/
theorem infix_iff_exists_mem_splitOn {c : α} {s part : List α} (hc : c ∉ part) :
    part <:+: s ↔ ∃ piece ∈ s.splitOn c, part <:+: piece := by
  induction s using splitOn_induction c with
  | last s _ hsplit =>
      rw [hsplit]
      simp
  | cons a b _ hsplit ih =>
      rw [hsplit, List.exists_mem_cons_iff, ← ih]
      exact infix_append_cons_iff hc a b

/-- A map that keeps the separator to itself keeps the pieces. -/
theorem splitOn_map {c : α} {f : α → α} (hf : ∀ x, f x = c ↔ x = c) (s : List α) :
    (s.map f).splitOn c = (s.splitOn c).map (List.map f) := by
  have hmem : ∀ {t : List α}, c ∈ t.map f → c ∈ t := by
    intro t h
    obtain ⟨x, hx, hfx⟩ := List.mem_map.mp h
    rwa [(hf x).mp hfx] at hx
  induction s using splitOn_induction c with
  | last s hfree hsplit =>
      rw [hsplit, List.splitOn_eq_singleton (fun h => hfree (hmem h))]
      rfl
  | cons a b ha hsplit ih =>
      rw [hsplit, List.map_append, List.map_cons, (hf c).mpr rfl,
        List.splitOn_append_cons_self_of_not_mem (fun h => ha (hmem h)), ih, List.map_cons]

end Scan
