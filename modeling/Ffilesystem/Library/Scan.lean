import Mathlib.Data.List.Destutter

/-!
# Scanning a list for a separator

`find` and `substr` are the two positional operations that scanning loops use:
the first position of a symbol at or after a start, and a bounded extract. A
loop that alternates them walks the pieces of `List.splitOn`, one piece for
each call, and the two `splitOn_drop` rules below are its only obligations.

`components` keeps the nonempty pieces. It is a monoid homomorphism from
concatenation across a separator to concatenation of lists, which is what makes
statements about split strings compositional. `squeeze` cuts runs of separators
down to one, and what can see it do so is told by `apply_squeeze`.
-/

namespace Scan

variable {α : Type*}

/-- At most `count` symbols starting at `pos`. -/
def substr (s : List α) (pos count : Nat) : List α :=
  (s.drop pos).take count

theorem substr_to_end (s : List α) (pos : Nat) :
    substr s pos (s.length - pos) = s.drop pos := by
  rw [substr, List.take_of_length_le (by simp)]

/-- Writing the separator after every piece is joining, plus one separator. -/
theorem foldl_append_sep {c : α} {pieces : List (List α)} (hne : pieces ≠ []) (front : List α) :
    pieces.foldl (fun r piece => r ++ piece ++ [c]) front =
      front ++ [c].intercalate pieces ++ [c] := by
  induction pieces generalizing front with
  | nil => exact absurd rfl hne
  | cons piece pieces ih =>
      cases pieces with
      | nil => simp [List.intercalate]
      | cons next pieces =>
          rw [List.foldl_cons, ih (List.cons_ne_nil _ _)]
          simp [List.intercalate]

theorem intercalate_append {c : α} {a b : List (List α)} (ha : a ≠ []) (hb : b ≠ []) :
    [c].intercalate (a ++ b) = [c].intercalate a ++ c :: [c].intercalate b := by
  induction a with
  | nil => exact absurd rfl ha
  | cons piece a ih =>
      by_cases hnil : a = []
      · simp [hnil, List.intercalate_cons_of_ne_nil hb]
      · rw [List.cons_append, List.intercalate_cons_of_ne_nil (by simp [hnil]), ih hnil,
          List.intercalate_cons_of_ne_nil hnil]
        simp

/-- A join of nonempty pieces starts as its first piece does. -/
theorem head?_intercalate {c : α} {piece : List α} {pieces : List (List α)} (hne : piece ≠ []) :
    ([c].intercalate (piece :: pieces)).head? = piece.head? := by
  obtain ⟨x, piece, rfl⟩ := List.exists_cons_of_ne_nil hne
  cases pieces with
  | nil => simp [List.intercalate]
  | cons next pieces => simp [List.intercalate]

/-- A join brings in no symbol but its separator. -/
theorem not_mem_intercalate {c x : α} (hx : x ≠ c) {pieces : List (List α)}
    (h : ∀ piece ∈ pieces, x ∉ piece) : x ∉ [c].intercalate pieces := by
  induction pieces with
  | nil => exact List.not_mem_nil
  | cons piece pieces ih =>
      have hpiece := h piece List.mem_cons_self
      cases pieces with
      | nil => simpa [List.intercalate] using hpiece
      | cons next pieces =>
          have hrest := ih (fun p hp => h p (List.mem_cons_of_mem _ hp))
          rw [List.intercalate_cons_of_ne_nil (by simp)]
          simp [hpiece, hrest, hx]

/-- A join of nonempty separator-free pieces does not end in a separator. -/
theorem getLast?_intercalate_ne {c : α} {pieces : List (List α)}
    (h : ∀ piece ∈ pieces, piece ≠ [] ∧ c ∉ piece) :
    ([c].intercalate pieces).getLast? ≠ some c := by
  induction pieces with
  | nil => simp [List.intercalate]
  | cons piece pieces ih =>
      have hrest := ih (fun p hp => h p (List.mem_cons_of_mem _ hp))
      cases pieces with
      | nil =>
          intro hlast
          have hmem := List.mem_of_getLast? hlast
          exact (h piece List.mem_cons_self).2 (by simpa [List.intercalate] using hmem)
      | cons next pieces =>
          have hnext : [c].intercalate (next :: pieces) ≠ [] := by
            intro hnil
            have hhead : ([c].intercalate (next :: pieces)).head? = next.head? :=
              head?_intercalate (h next (by simp)).1
            rw [hnil] at hhead
            exact (h next (by simp)).1 (List.head?_eq_none_iff.mp hhead.symm)
          have hcut : [c].intercalate (piece :: next :: pieces) =
              (piece ++ [c]) ++ [c].intercalate (next :: pieces) := by
            simp [List.intercalate]
          rwa [hcut, List.getLast?_append_of_ne_nil _ hnext]

/-- A symbol that occurs has a last occurrence. -/
theorem exists_last_of_mem {s : List α} {c : α} (h : c ∈ s) :
    ∃ front back, s = front ++ c :: back ∧ c ∉ back := by
  obtain ⟨back, front, hs, hfree⟩ := List.eq_append_cons_of_mem (List.mem_reverse.mpr h)
  refine ⟨front.reverse, back.reverse, ?_, fun hmem => hfree (List.mem_reverse.mp hmem)⟩
  rw [← List.reverse_reverse s, hs]
  simp

/-- The first position at or after `pos` of a symbol that `p` does not take. -/
def findFirstNot (p : α → Bool) (s : List α) (pos : Nat) : Option Nat :=
  ((s.drop pos).findIdx? (fun c => !p c)).map (· + pos)

/-- What lies behind a run of symbols that `p` takes is its rest. -/
theorem drop_findFirstNot {p : α → Bool} {s run rest : List α} {pos : Nat}
    (hs : s.drop pos = run ++ rest) (hrun : ∀ c ∈ run, p c)
    (hrest : ∀ c, rest.head? = some c → p c = false) :
    (findFirstNot p s pos).elim [] (s.drop ·) = rest := by
  have hskip : run.findIdx? (fun c => !p c) = none := by
    rw [List.findIdx?_eq_none_iff]
    intro c hc
    rw [hrun c hc]
    rfl
  rw [findFirstNot, hs, List.findIdx?_append, hskip, Option.none_or, Option.map_map]
  cases rest with
  | nil => rfl
  | cons c rest =>
      have hfirst : (c :: rest).findIdx? (fun c => !p c) = some 0 := by
        rw [List.findIdx?_cons, hrest c rfl]
        rfl
      rw [hfirst, Option.map_some, Option.elim_some, Function.comp_apply, Nat.zero_add,
        Nat.add_comm, ← List.drop_drop, hs, List.drop_left]

variable [DecidableEq α]

/-- The first position of `c` at or after `pos`. The result `none` stands for
the "no position" value of the string libraries. -/
def find (s : List α) (c : α) (pos : Nat) : Option Nat :=
  ((s.drop pos).findIdx? (· == c)).map (· + pos)

/-- The last position of `c`. -/
def rfind (s : List α) (c : α) : Option Nat :=
  (s.reverse.findIdx? (· == c)).map (s.length - 1 - ·)

/-- The nonempty pieces between separators, in order. -/
def components (c : α) (s : List α) : List (List α) :=
  (s.splitOn c).filter (· ≠ [])

theorem find_eq_none_iff {s : List α} {c : α} {pos : Nat} :
    find s c pos = none ↔ c ∉ s.drop pos := by
  simp only [find, Option.map_eq_none_iff, List.findIdx?_eq_none_iff, beq_eq_false_iff_ne, ne_eq]
  exact ⟨fun h hc => h c hc rfl, fun h x hx hxc => h (hxc ▸ hx)⟩

/-- A found position cuts the rest of the list into a separator-free piece,
the separator, and what follows it. -/
theorem find_eq_some {s : List α} {c : α} {pos i : Nat} (h : find s c pos = some i) :
    pos ≤ i ∧ i < s.length ∧ c ∉ substr s pos (i - pos) ∧
      s.drop pos = substr s pos (i - pos) ++ c :: s.drop (i + 1) := by
  obtain ⟨k, hk, rfl⟩ := Option.map_eq_some_iff.mp h
  obtain ⟨hlt, hat, hbefore⟩ := List.findIdx?_eq_some_iff_getElem.mp hk
  have hlen : k < s.length - pos := by simpa using hlt
  have hatc : (s.drop pos)[k] = c := by simpa using hat
  refine ⟨by omega, by omega, ?_, ?_⟩
  · rw [substr, Nat.add_sub_cancel]
    intro hmem
    obtain ⟨j, hj, hjc⟩ := List.getElem_of_mem hmem
    have hjk : j < k := by
      simp only [List.length_take] at hj
      omega
    rw [List.getElem_take] at hjc
    exact hbefore j hjk (by simpa using hjc)
  · rw [substr, Nat.add_sub_cancel, show k + pos + 1 = pos + (k + 1) by omega, ← List.drop_drop,
      ← hatc, List.getElem_cons_drop, List.take_append_drop]

theorem le_of_find {s : List α} {c : α} {pos i : Nat} (h : find s c pos = some i) :
    pos ≤ i := (find_eq_some h).1

theorem le_getD_find {s : List α} {c : α} {pos n : Nat} (h : pos ≤ n) :
    pos ≤ (find s c pos).getD n := by
  cases hfind : find s c pos with
  | none => exact h
  | some i => exact le_of_find hfind

theorem rfind_eq_none_iff {s : List α} {c : α} : rfind s c = none ↔ c ∉ s := by
  simp only [rfind, Option.map_eq_none_iff, List.findIdx?_eq_none_iff, List.mem_reverse,
    beq_eq_false_iff_ne, ne_eq]
  exact ⟨fun h hc => h c hc rfl, fun h x hx hxc => h (hxc ▸ hx)⟩

/-- The last position of a symbol, where a symbol-free back follows it. -/
theorem rfind_append_cons (front : List α) {back : List α} {c : α} (h : c ∉ back) :
    rfind (front ++ c :: back) c = some front.length := by
  have hback : back.reverse.findIdx? (· == c) = none := by
    simp only [List.findIdx?_eq_none_iff, List.mem_reverse, beq_eq_false_iff_ne, ne_eq]
    exact fun x hx hxc => h (hxc ▸ hx)
  rw [rfind, List.reverse_append, List.reverse_cons, List.append_assoc, List.findIdx?_append,
    hback]
  simp [List.findIdx?_cons]

theorem splitOn_drop_of_find_some {s : List α} {c : α} {pos i : Nat}
    (h : find s c pos = some i) :
    (s.drop pos).splitOn c = substr s pos (i - pos) :: (s.drop (i + 1)).splitOn c := by
  obtain ⟨_, _, hfree, hcut⟩ := find_eq_some h
  rw [hcut, List.splitOn_append_cons_self_of_not_mem hfree]

theorem splitOn_drop_of_find_none {s : List α} {c : α} {pos : Nat}
    (h : find s c pos = none) : (s.drop pos).splitOn c = [s.drop pos] :=
  List.splitOn_eq_singleton (find_eq_none_iff.mp h)

@[simp] theorem components_nil (c : α) : components c [] = [] := by
  simp [components]

/-- Splitting is a homomorphism across a separator. -/
@[simp] theorem components_append_cons (c : α) (a b : List α) :
    components c (a ++ c :: b) = components c a ++ components c b := by
  simp [components, List.splitOn_append_cons_self]

@[simp] theorem components_cons_self (c : α) (s : List α) :
    components c (c :: s) = components c s := by
  simpa using components_append_cons c [] s

theorem components_of_not_mem {c : α} {s : List α} (hne : s ≠ []) (h : c ∉ s) :
    components c s = [s] := by
  simp [components, List.splitOn_eq_singleton h, hne]

private theorem not_mem_of_mem_splitOn {c : α} {s piece : List α}
    (h : piece ∈ s.splitOn c) : c ∉ piece := by
  induction s generalizing piece with
  | nil =>
      have : piece = [] := by simpa using h
      simp [this]
  | cons x s ih =>
      rw [List.splitOn_cons_eq_if_modifyHead] at h
      cases hs : s.splitOn c with
      | nil => exact absurd hs (List.splitOn_ne_nil c s)
      | cons first rest =>
          by_cases hx : x = c
          · subst x
            rcases List.mem_cons.mp (by simpa using h : piece ∈ [] :: s.splitOn c) with rfl | hmem
            · exact List.not_mem_nil
            · exact ih hmem
          · simp only [beq_iff_eq, hx, if_false, hs, List.modifyHead_cons, List.mem_cons] at h
            rcases h with rfl | hmem
            · have hfirst := ih (hs ▸ List.mem_cons_self : first ∈ s.splitOn c)
              simp [Ne.symm hx, hfirst]
            · exact ih (hs ▸ List.mem_cons_of_mem _ hmem)

/-- A component is nonempty and free of separators. -/
theorem of_mem_components {c : α} {s piece : List α} (h : piece ∈ components c s) :
    piece ≠ [] ∧ c ∉ piece := by
  obtain ⟨hmem, hne⟩ := List.mem_filter.mp h
  exact ⟨by simpa using hne, not_mem_of_mem_splitOn hmem⟩

private theorem mem_of_mem_splitOn {c x : α} {s piece : List α} (h : piece ∈ s.splitOn c)
    (hx : x ∈ piece) : x ∈ s := by
  induction s generalizing piece with
  | nil =>
      have : piece = [] := by simpa using h
      rwa [this] at hx
  | cons y s ih =>
      rw [List.splitOn_cons_eq_if_modifyHead] at h
      obtain ⟨first, rest, hs⟩ := List.exists_cons_of_ne_nil (List.splitOn_ne_nil c s)
      rw [hs] at h ih
      split at h
      · rcases List.mem_cons.mp h with rfl | hmem
        · exact absurd hx List.not_mem_nil
        · exact List.mem_cons_of_mem _ (ih hmem hx)
      · rw [List.modifyHead_cons] at h
        rcases List.mem_cons.mp h with rfl | hmem
        · rcases List.mem_cons.mp hx with rfl | hfirst
          · exact List.mem_cons_self
          · exact List.mem_cons_of_mem _ (ih List.mem_cons_self hfirst)
        · exact List.mem_cons_of_mem _ (ih (List.mem_cons_of_mem _ hmem) hx)

/-- Components are made of the symbols of the list. -/
theorem mem_of_mem_components {c x : α} {s piece : List α} (h : piece ∈ components c s)
    (hx : x ∈ piece) : x ∈ s :=
  mem_of_mem_splitOn (List.mem_filter.mp h).1 hx

/-- The last piece is empty exactly when the list is, or ends in a separator. -/
theorem getLast?_splitOn_eq_nil_iff {c : α} {s : List α} :
    (s.splitOn c).getLast? = some [] ↔ s = [] ∨ s.getLast? = some c := by
  induction s with
  | nil => simp
  | cons x s ih =>
      obtain ⟨first, rest, hs⟩ := List.exists_cons_of_ne_nil (List.splitOn_ne_nil c s)
      rw [List.splitOn_cons_eq_if_modifyHead]
      by_cases hx : x = c
      · rw [if_pos (by simpa using hx), hs, List.getLast?_cons_cons, ← hs, ih]
        cases s with
        | nil => simp [hx]
        | cons y s => simp
      · rw [if_neg (by simpa using hx), hs, List.modifyHead_cons]
        cases s with
        | nil =>
            obtain ⟨rfl, rfl⟩ : first = [] ∧ rest = [] := by simpa [eq_comm] using hs
            simp [hx]
        | cons y s =>
            rw [List.getLast?_cons_cons]
            cases rest with
            | nil =>
                have hlast := ih
                rw [hs] at hlast
                have hfirst : first ≠ [] := by
                  intro hnil
                  have hjoin : [c].intercalate ((y :: s).splitOn c) = y :: s :=
                    List.intercalate_splitOn c
                  rw [hs, hnil] at hjoin
                  simp [List.intercalate] at hjoin
                simpa [hfirst] using hlast
            | cons next rest =>
                rw [List.getLast?_cons_cons, ← List.getLast?_cons_cons (a := first), ← hs, ih]
                simp

/-- The nonempty pieces are the components when the last piece is one of them. -/
theorem filter_dropLast_splitOn_concat {c : α} {s : List α} :
    ((s.splitOn c).dropLast.filter (· ≠ [])) ++ ((s.splitOn c).getLast?.toList) =
      if (s.splitOn c).getLast? = some [] then components c s ++ [[]] else components c s := by
  obtain ⟨front, last, hs⟩ :=
    (List.eq_nil_or_concat (s.splitOn c)).resolve_left (List.splitOn_ne_nil c s)
  rw [components, hs]
  by_cases hlast : last = []
  · simp [hlast]
  · simp [hlast]

/-- A symbol in front joins the first piece, or starts one of its own. -/
theorem components_cons_of_ne {c x : α} (hx : x ≠ c) (s : List α) :
    components c (x :: s) =
      if s = [] ∨ s.head? = some c then [x] :: components c s
      else (components c s).modifyHead (x :: ·) := by
  cases s with
  | nil => simp [components_of_not_mem, Ne.symm hx]
  | cons y s =>
      by_cases hy : y = c
      · subst y
        have hpiece := components_of_not_mem (c := c) (s := [x]) (by simp) (by simp [Ne.symm hx])
        simpa [hpiece] using components_append_cons c [x] s
      · simp only [components, List.splitOn_cons_eq_if_modifyHead, beq_iff_eq, hx, hy, if_false]
        cases hs : s.splitOn c with
        | nil => exact absurd hs (List.splitOn_ne_nil c s)
        | cons first rest => simp [hy]

/-- Joining nonempty separator-free pieces and splitting again is the identity. -/
theorem components_intercalate {c : α} {pieces : List (List α)}
    (h : ∀ piece ∈ pieces, piece ≠ [] ∧ c ∉ piece) :
    components c ([c].intercalate pieces) = pieces := by
  by_cases hnil : pieces = []
  · subst pieces
    simp [List.intercalate]
  · rw [components, List.splitOn_intercalate c (fun l hl => (h l hl).2) hnil]
    exact List.filter_eq_self.mpr (fun l hl => by simpa using (h l hl).1)

section Squeeze

/-- The list with one separator for each run of separators. -/
def squeeze (c : α) (s : List α) : List α := s.destutter fun x y => ¬ (x = c ∧ y = c)

variable {c : α}

theorem squeeze_cons_cons (a b : α) (s : List α) :
    squeeze c (a :: b :: s) =
      if a = c ∧ b = c then squeeze c (b :: s) else a :: squeeze c (b :: s) := by
  rw [squeeze, List.destutter_cons_cons]
  by_cases h : a = c ∧ b = c
  · rw [if_neg (not_not_intro h), if_pos h, h.1, h.2]
    rfl
  · rw [if_pos h, if_neg h]
    rfl

theorem squeeze_of_not_mem {s : List α} (h : c ∉ s) : squeeze c s = s := by
  refine List.destutter_of_isChain _ s (List.Pairwise.isChain ?_)
  exact List.pairwise_of_forall_mem_list fun x hx y _ heq => h (heq.1 ▸ hx)

@[simp] theorem head?_squeeze (s : List α) : (squeeze c s).head? = s.head? := by
  induction s with
  | nil => rfl
  | cons a s ih =>
      cases s with
      | nil => rfl
      | cons b s =>
          rw [squeeze_cons_cons]
          split
          · rename_i hrun
            rw [ih, hrun.1, hrun.2]
            rfl
          · rfl

/-- A run is cut down to one separator unseen by what goes through the list symbol by
symbol and takes two separators for one. -/
theorem apply_squeeze {β : Type*} (f : List α → β)
    (hcons : ∀ x s t, s.head? = t.head? → f s = f t → f (x :: s) = f (x :: t))
    (hrun : ∀ s, f (c :: c :: s) = f (c :: s)) (s : List α) : f (squeeze c s) = f s := by
  induction s with
  | nil => rfl
  | cons a s ih =>
      cases s with
      | nil => rfl
      | cons b s =>
          rw [squeeze_cons_cons]
          split
          · rename_i heq
            rw [ih, heq.1, heq.2, hrun]
          · exact hcons a _ _ (head?_squeeze _) ih

@[simp] theorem components_squeeze (s : List α) : components c (squeeze c s) = components c s := by
  apply apply_squeeze
  · intro x s t hhead heq
    by_cases hx : x = c
    · rw [hx, components_cons_self, components_cons_self, heq]
    · have hnil : s = [] ↔ t = [] := by
        rw [← List.head?_eq_none_iff, hhead, List.head?_eq_none_iff]
      simp only [components_cons_of_ne hx, hnil, hhead, heq]
  · intro s
    rw [components_cons_self]

@[simp] theorem getLast?_squeeze (s : List α) : (squeeze c s).getLast? = s.getLast? := by
  apply apply_squeeze
  · intro x s t _ heq
    rw [List.getLast?_cons, List.getLast?_cons, heq]
  · intro s
    rw [List.getLast?_cons_cons]

@[simp] theorem mem_squeeze {x : α} {s : List α} : x ∈ squeeze c s ↔ x ∈ s := by
  apply iff_of_eq
  apply apply_squeeze (x ∈ ·)
  · intro y s t _ heq
    rw [List.mem_cons, List.mem_cons, heq]
  · intro s
    rw [List.mem_cons, List.mem_cons, or_self_left]

/-- No run goes on across a symbol that is not the separator. -/
theorem squeeze_append (s : List α) {t : List α} (h : t.head? ≠ some c) :
    squeeze c (s ++ t) = squeeze c s ++ squeeze c t := by
  induction s with
  | nil => rfl
  | cons a s ih =>
      cases s with
      | nil =>
          cases t with
          | nil => rfl
          | cons b t =>
              have hb : b ≠ c := fun heq => h (congrArg some heq)
              rw [List.singleton_append, squeeze_cons_cons, if_neg (fun heq => hb heq.2)]
              rfl
      | cons b s =>
          rw [List.cons_append, List.cons_append, squeeze_cons_cons, squeeze_cons_cons,
            ← List.cons_append, ih]
          split
          · rfl
          · rfl

end Squeeze

end Scan
