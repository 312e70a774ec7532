import Mathlib.Data.Nat.Basic

/-!
# Single bits of a word

Words are compared bit by bit. Turning one bit on or off leaves the others, and
blending takes the bits of a mask from one word and the rest from another. A blend
of a blend with the same mask is a blend.
-/

namespace Bits

variable {w : Nat}

/-- The word with one bit turned on or off by a mask. -/
def turn (on : Bool) (bit m : BitVec w) : BitVec w := if on then m ||| bit else m &&& ~~~bit

theorem getLsbD_turn (on : Bool) {k : Nat} (hk : k < w) (m : BitVec w) (i : Nat) :
    (turn on (BitVec.twoPow w k) m).getLsbD i = if i = k then on else m.getLsbD i := by
  by_cases hi : i < w
  · rw [turn]
    by_cases hik : i = k
    · subst hik
      cases on <;> simp [hk]
    · cases on <;> simp [hi, hik]
  · have hne : i ≠ k := fun heq => hi (heq ▸ hk)
    rw [if_neg hne, BitVec.getLsbD_of_ge _ _ (Nat.le_of_not_lt hi),
      BitVec.getLsbD_of_ge _ _ (Nat.le_of_not_lt hi)]

/-- A single bit is seen by its mask. -/
theorem and_twoPow_ne_zero_iff {k : Nat} (hk : k < w) (m : BitVec w) :
    m &&& BitVec.twoPow w k ≠ 0 ↔ m.getLsbD k = true := by
  rw [BitVec.and_twoPow]
  cases hbit : m.getLsbD k with
  | false => simp
  | true =>
      rw [if_pos rfl]
      refine iff_of_true (fun hzero => ?_) rfl
      have hbit' := congrArg (fun x => BitVec.getLsbD x k) hzero
      simp [hk] at hbit'

/-- The bits of the mask come from the new word. -/
def blend (mask old new : BitVec w) : BitVec w := (old &&& ~~~mask) ||| (new &&& mask)

theorem getLsbD_blend (mask old new : BitVec w) (i : Nat) :
    (blend mask old new).getLsbD i =
      if mask.getLsbD i = true then new.getLsbD i else old.getLsbD i := by
  by_cases hi : i < w
  · rw [blend, BitVec.getLsbD_or, BitVec.getLsbD_and, BitVec.getLsbD_and, BitVec.getLsbD_not,
      decide_eq_true hi]
    cases mask.getLsbD i <;> simp
  · have hge := Nat.le_of_not_lt hi
    rw [BitVec.getLsbD_of_ge _ _ hge, BitVec.getLsbD_of_ge _ _ hge, BitVec.getLsbD_of_ge _ _ hge,
      BitVec.getLsbD_of_ge _ _ hge, if_neg Bool.false_ne_true]

end Bits
