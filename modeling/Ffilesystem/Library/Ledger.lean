import Mathlib.Data.List.Basic
import Mathlib.Data.List.Chain
import Mathlib.Logic.Function.Basic

/-!
# Ledgers of owned resources

Owners hold at most one resource each. A resource enters the ledger when an
owner is given it, and leaves it by being closed or released. An owner may pass
its resource on to another, which the log does not show.

A resource that has left may enter again: systems hand out the same names
twice. So the law is not that a name is closed once, but that each of its
entries comes to one end before the next. `Balanced` says so of a log together
with the present holders, and is kept by the four things that owners can do.
-/

namespace Ledger

variable {ι ρ : Type*}

inductive Event (ρ : Type*)
  | entered (r : ρ)
  | closed (r : ρ)
  | released (r : ρ)
  deriving DecidableEq, Repr

namespace Event

def resource : Event ρ → ρ
  | entered r => r
  | closed r => r
  | released r => r

/-- The end of what an entry began. -/
def IsEnd (r : ρ) (e : Event ρ) : Prop := e = closed r ∨ e = released r

theorem IsEnd.resource {r : ρ} {e : Event ρ} (h : e.IsEnd r) : e.resource = r := by
  rcases h with rfl | rfl <;> rfl

theorem IsEnd.ne_entered {r : ρ} {e : Event ρ} (h : e.IsEnd r) : e ≠ entered r := by
  rcases h with rfl | rfl <;> exact fun heq => by cases heq

end Event

/-- Each entry of a resource came to one end before the next. -/
inductive Settled (r : ρ) : List (Event ρ) → Prop
  | nil : Settled r []
  | life {past : List (Event ρ)} {e : Event ρ} (h : Settled r past) (he : e.IsEnd r) :
      Settled r (past ++ [.entered r, e])

/-- Entries and ends take turns, beginning with an entry. -/
theorem Settled.takesTurns {r : ρ} {log : List (Event ρ)} (h : Settled r log) :
    log.IsChain (fun a b => a = .entered r ↔ b ≠ .entered r) ∧
      ∀ e, log.getLast? = some e → e ≠ .entered r := by
  induction h with
  | nil => exact ⟨List.isChain_nil, fun e he => by cases he⟩
  | @life past e _ he ih =>
      obtain ⟨hchain, hlast⟩ := ih
      constructor
      · refine List.isChain_append.mpr ⟨hchain, ?_, ?_⟩
        · exact List.isChain_pair.mpr (iff_of_true rfl he.ne_entered)
        · intro a ha b hb
          obtain rfl : .entered r = b := Option.some.inj hb
          exact iff_of_false (hlast a ha) (not_not_intro rfl)
      · intro a ha
        have hea : e = a := by
          rw [List.getLast?_append_of_ne_nil _ (List.cons_ne_nil _ _)] at ha
          exact Option.some.inj ha
        exact hea ▸ he.ne_entered

section History

variable [DecidableEq ρ] {r : ρ}

/-- What a log says about one resource. -/
def history (r : ρ) (log : List (Event ρ)) : List (Event ρ) := log.filter (·.resource = r)

@[simp] theorem history_nil : history r [] = [] := rfl

@[simp] theorem history_append (a b : List (Event ρ)) :
    history r (a ++ b) = history r a ++ history r b := List.filter_append _ _

theorem history_cons_self {e : Event ρ} (h : e.resource = r) (log : List (Event ρ)) :
    history r (e :: log) = e :: history r log :=
  List.filter_cons_of_pos (decide_eq_true h)

theorem history_concat_self {e : Event ρ} (h : e.resource = r) (log : List (Event ρ)) :
    history r (log ++ [e]) = history r log ++ [e] := by
  rw [history_append, history_cons_self h, history_nil]

theorem history_concat_of_ne {e : Event ρ} (h : e.resource ≠ r) (log : List (Event ρ)) :
    history r (log ++ [e]) = history r log := by
  have hnone : history r [e] = [] :=
    List.filter_cons_of_neg (fun htrue => h (of_decide_eq_true htrue))
  rw [history_append, hnone, List.append_nil]

theorem count_history {e : Event ρ} (h : e.resource = r) (log : List (Event ρ)) :
    (history r log).count e = log.count e :=
  List.count_filter (decide_eq_true h)

/-- A sum over the ends of a resource is the same in the log and in its history. -/
theorem ends_history (r : ρ) (log : List (Event ρ)) :
    (history r log).count (.closed r) + (history r log).count (.released r) =
      log.count (.closed r) + log.count (.released r) :=
  congrArg₂ (· + ·) (count_history (e := .closed r) rfl log)
    (count_history (e := .released r) rfl log)

theorem entries_history (r : ρ) (log : List (Event ρ)) :
    (history r log).count (.entered r) = log.count (.entered r) :=
  count_history (e := .entered r) rfl log

/-- As many ends as entries. -/
theorem Settled.count {log : List (Event ρ)} (h : Settled r log) :
    log.count (.closed r) + log.count (.released r) = log.count (.entered r) := by
  induction h with
  | nil => rfl
  | life _ he ih =>
      rw [List.count_append, List.count_append, List.count_append]
      rcases he with rfl | rfl
      · simp
        omega
      · simp
        omega

end History

/-- An emptied owner is not among the holders that are left. -/
theorem holds_of_update_none [DecidableEq ι] {holds : ι → Option ρ} {i k : ι} {q : ρ}
    (hk : Function.update holds i none k = some q) : k ≠ i ∧ holds k = some q := by
  have hki : k ≠ i := by
    rintro rfl
    rw [Function.update_self] at hk
    cases hk
  rw [Function.update_of_ne hki] at hk
  exact ⟨hki, hk⟩

theorem holds_of_update_some [DecidableEq ι] {holds : ι → Option ρ} {i k : ι} {r q : ρ}
    (hk : Function.update holds i (some r) k = some q) :
    (k = i ∧ r = q) ∨ (k ≠ i ∧ holds k = some q) := by
  by_cases hki : k = i
  · rw [hki, Function.update_self] at hk
    exact .inl ⟨hki, Option.some.inj hk⟩
  · rw [Function.update_of_ne hki] at hk
    exact .inr ⟨hki, hk⟩

/-- A log and the present holders agree: nothing is held twice, what is held has
been settled but for the present entry, and all else has been settled. -/
structure Balanced [DecidableEq ρ] (holds : ι → Option ρ) (log : List (Event ρ)) : Prop where
  holder_unique : ∀ i j r, holds i = some r → holds j = some r → i = j
  settled : ∀ r, (∀ i, holds i ≠ some r) → Settled r (history r log)
  running : ∀ i r, holds i = some r →
    ∃ past, Settled r past ∧ history r log = past ++ [.entered r]

namespace Balanced

variable [DecidableEq ρ] {holds : ι → Option ρ} {log : List (Event ρ)}

/-- At the end of all owners there are as many ends as entries. -/
theorem count_of_unowned (h : Balanced holds log) {r : ρ} (hr : ∀ i, holds i ≠ some r) :
    log.count (.closed r) + log.count (.released r) = log.count (.entered r) := by
  rw [← ends_history, ← entries_history]
  exact (h.settled r hr).count

/-- A resource is not closed and released more often than it entered. -/
theorem count_le (h : Balanced holds log) (r : ρ) :
    log.count (.closed r) + log.count (.released r) ≤ log.count (.entered r) := by
  by_cases hheld : ∃ i, holds i = some r
  · obtain ⟨i, hi⟩ := hheld
    obtain ⟨past, hpast, heq⟩ := h.running i r hi
    have hcount := hpast.count
    rw [← ends_history, ← entries_history, heq, List.count_append, List.count_append,
      List.count_append]
    simp
    omega
  · exact (h.count_of_unowned (not_exists.mp hheld)).le

theorem empty : Balanced (fun _ : ι => (none : Option ρ)) [] where
  holder_unique _ _ _ h := by cases h
  settled _ _ := .nil
  running _ _ h := by cases h

/-- Between two ends of a resource it has entered again. -/
theorem entered_between (h : Balanced holds log) {r : ρ} {e e' : Event ρ} (he : e.IsEnd r)
    (he' : e'.IsEnd r) {front mid back : List (Event ρ)}
    (hlog : log = front ++ e :: (mid ++ e' :: back)) : .entered r ∈ mid := by
  have hchain : (history r log).IsChain fun a b => a = .entered r ↔ b ≠ .entered r := by
    by_cases hheld : ∃ i, holds i = some r
    · obtain ⟨i, hi⟩ := hheld
      obtain ⟨past, hpast, heq⟩ := h.running i r hi
      have hnext := (Settled.life hpast he).takesTurns.1
      rw [heq]
      rw [List.append_cons past (.entered r) [e]] at hnext
      exact hnext.left_of_append
    · exact (h.settled r (not_exists.mp hheld)).takesTurns.1
  have hcut : history r log = history r front ++ e :: (history r mid ++ e' :: history r back) := by
    rw [hlog, history_append, history_cons_self he.resource, history_append,
      history_cons_self he'.resource]
  rw [hcut] at hchain
  have hrest := hchain.right_of_append
  cases hmid : history r mid with
  | nil =>
      rw [hmid, List.nil_append] at hrest
      have hturn := (List.isChain_cons_cons.mp hrest).1
      exact absurd (hturn.mpr he'.ne_entered) he.ne_entered
  | cons x rest =>
      rw [hmid, List.cons_append] at hrest
      have hturn := (List.isChain_cons_cons.mp hrest).1
      have hx : x = .entered r := by
        by_contra hne
        exact he.ne_entered (hturn.mpr hne)
      have hmem : x ∈ history r mid := hmid ▸ List.mem_cons_self
      exact hx ▸ (List.mem_filter.mp hmem).1

variable [DecidableEq ι]

/-- An owner that holds nothing is given a resource that nobody holds. -/
theorem enter (h : Balanced holds log) {i : ι} {r : ρ} (hi : holds i = none)
    (hr : ∀ j, holds j ≠ some r) :
    Balanced (Function.update holds i (some r)) (log ++ [.entered r]) where
  holder_unique j k q hj hk := by
    rcases holds_of_update_some hj with ⟨rfl, rfl⟩ | ⟨_, hj'⟩ <;>
      rcases holds_of_update_some hk with ⟨hki, hrq⟩ | ⟨_, hk'⟩
    · exact hki.symm
    · exact absurd hk' (hr k)
    · exact absurd (hrq ▸ hj') (hr j)
    · exact h.holder_unique j k q hj' hk'
  settled q hq := by
    have hne : (Event.entered r).resource ≠ q := by
      intro heq
      exact hq i ((Function.update_self i (some r) holds).trans (congrArg some heq))
    rw [history_concat_of_ne hne]
    apply h.settled q
    intro j hj
    by_cases hji : j = i
    · rw [hji, hi] at hj
      cases hj
    · exact hq j (by rwa [Function.update_of_ne hji])
  running j q hj := by
    rcases holds_of_update_some hj with ⟨_, rfl⟩ | ⟨_, hj'⟩
    · exact ⟨history r log, h.settled r hr, history_concat_self (e := .entered r) rfl log⟩
    · have hne : (Event.entered r).resource ≠ q := fun heq =>
        hr j (hj'.trans (congrArg some heq.symm))
      rw [history_concat_of_ne hne]
      exact h.running j q hj'

/-- A holder closes its resource, or lets go of it. -/
theorem leave (h : Balanced holds log) {i : ι} {r : ρ} {e : Event ρ} (hi : holds i = some r)
    (he : e.IsEnd r) : Balanced (Function.update holds i none) (log ++ [e]) where
  holder_unique j k q hj hk :=
    h.holder_unique j k q (holds_of_update_none hj).2 (holds_of_update_none hk).2
  settled q hq := by
    by_cases hrq : r = q
    · subst hrq
      obtain ⟨past, hpast, heq⟩ := h.running i r hi
      rw [history_concat_self he.resource, heq, List.append_assoc]
      exact .life hpast he
    · rw [history_concat_of_ne (he.resource ▸ hrq)]
      apply h.settled q
      intro j hj
      by_cases hji : j = i
      · exact hrq (Option.some.inj (hi.symm.trans (hji ▸ hj)))
      · exact hq j (by rwa [Function.update_of_ne hji])
  running j q hj := by
    obtain ⟨hji, hj⟩ := holds_of_update_none hj
    have hrq : r ≠ q := fun heq => hji (h.holder_unique j i q hj (heq ▸ hi))
    rw [history_concat_of_ne (he.resource ▸ hrq)]
    exact h.running j q hj

/-- What a holder has, if anything, is passed on to an owner that holds nothing. -/
theorem pass (h : Balanced holds log) {i : ι} (hi : holds i = none) (j : ι) :
    Balanced (Function.update (Function.update holds i (holds j)) j none) log := by
  -- who holds a resource afterwards held it before, unless it is the receiver
  have hback : ∀ k q, Function.update (Function.update holds i (holds j)) j none k = some q →
      (k ≠ i ∧ k ≠ j ∧ holds k = some q) ∨ (k = i ∧ holds j = some q) := by
    intro k q hk
    obtain ⟨hkj, hk⟩ := holds_of_update_none hk
    by_cases hki : k = i
    · rw [hki, Function.update_self] at hk
      exact .inr ⟨hki, hk⟩
    · rw [Function.update_of_ne hki] at hk
      exact .inl ⟨hki, hkj, hk⟩
  constructor
  · intro k l q hk hl
    rcases hback k q hk with ⟨_, hkj, hk'⟩ | ⟨hki, hk'⟩ <;>
      rcases hback l q hl with ⟨_, hlj, hl'⟩ | ⟨hli, hl'⟩
    · exact h.holder_unique k l q hk' hl'
    · exact absurd (h.holder_unique k j q hk' hl') hkj
    · exact absurd (h.holder_unique l j q hl' hk') hlj
    · rw [hki, hli]
  · intro q hq
    apply h.settled q
    intro k hk
    have hki : k ≠ i := by
      rintro rfl
      rw [hi] at hk
      cases hk
    by_cases hkj : k = j
    · -- the receiver holds it now
      apply hq i
      rw [Function.update_of_ne (hkj ▸ hki.symm), Function.update_self, ← hkj, hk]
    · exact hq k (by rw [Function.update_of_ne hkj, Function.update_of_ne hki, hk])
  · intro k q hk
    rcases hback k q hk with ⟨_, _, hk'⟩ | ⟨_, hk'⟩
    · exact h.running k q hk'
    · exact h.running j q hk'

end Balanced

end Ledger
