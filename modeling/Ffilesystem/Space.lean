import Ffilesystem.Inquire
import Mathlib.Algebra.Group.Nat.Defs

/-!
# Disk space in the C backend

`get_space` multiplies a block size with numbers of blocks. The product has the
wider one of the two operand types, and only then it is made a result of 64
bits. The widths of the types are those of the platform.
-/

namespace Ffilesystem

/-- What `statvfs` fills in, as far as it is read. An `unsigned long` has `wl` bits
and an `fsblkcnt_t` has `wb`. -/
structure Statvfs (wl wb : Nat) where
  fFrsize : BitVec wl
  fBsize : BitVec wl
  fBavail : BitVec wb
  fBlocks : BitVec wb

namespace Statvfs

variable {wl wb : Nat} (stat : Statvfs wl wb)

def blockSize : BitVec wl := if stat.fFrsize ≠ 0 then stat.fFrsize else stat.fBsize

end Statvfs

/-- The product of two unsigned integers, in the wider one of their types. -/
def commonProduct {m n : Nat} (a : BitVec m) (b : BitVec n) : BitVec (max m n) :=
  a.setWidth (max m n) * b.setWidth (max m n)

structure SpaceInfo where
  available : BitVec 64
  capacity : BitVec 64

def getSpace {wl wb : Nat} (statvfs : Str → Except Errno (Statvfs wl wb)) (path : Str)
    (p : Process) : SpaceInfo × Process :=
  match statvfs (cStr path) with
  | .ok stat =>
      let blockSize := stat.blockSize
      (⟨(commonProduct blockSize stat.fBavail).setWidth 64,
        (commonProduct blockSize stat.fBlocks).setWidth 64⟩, p)
  | .error e => (⟨fsUnknownSize, fsUnknownSize⟩, (p.setErrno e).fsErrorCallback [path])

section Space

variable {wl wb : Nat} (statvfs : Str → Except Errno (Statvfs wl wb)) (path : Str) (p : Process)

def spaceAvailable : BitVec 64 := (getSpace statvfs path p).1.available

def spaceCapacity : BitVec 64 := (getSpace statvfs path p).1.capacity

/-- The results are the exact products, and in their order. -/
structure ExactSpace (stat : Statvfs wl wb) : Prop where
  available : (spaceAvailable statvfs path p).toNat = stat.blockSize.toNat * stat.fBavail.toNat
  capacity : (spaceCapacity statvfs path p).toNat = stat.blockSize.toNat * stat.fBlocks.toNat
  available_le : spaceAvailable statvfs path p ≤ spaceCapacity statvfs path p

end Space

section Widths

/-- What is left of a product in a result that is not narrower. -/
theorem toNat_commonProduct {m n w : Nat} (hm : m ≤ w) (hn : n ≤ w) (a : BitVec m)
    (b : BitVec n) :
    ((commonProduct a b).setWidth w).toNat = a.toNat * b.toNat % 2 ^ max m n := by
  rw [BitVec.toNat_setWidth_of_le (Nat.max_le.mpr ⟨hm, hn⟩), commonProduct, BitVec.toNat_mul,
    BitVec.toNat_setWidth_of_le (Nat.le_max_left m n),
    BitVec.toNat_setWidth_of_le (Nat.le_max_right m n)]

theorem toNat_commonProduct_eq_iff {m n w : Nat} (hm : m ≤ w) (hn : n ≤ w) (a : BitVec m)
    (b : BitVec n) :
    ((commonProduct a b).setWidth w).toNat = a.toNat * b.toNat ↔
      a.toNat * b.toNat < 2 ^ max m n := by
  rw [toNat_commonProduct hm hn]
  constructor
  · intro h
    rw [← h]
    exact Nat.mod_lt _ (Nat.two_pow_pos _)
  · exact Nat.mod_eq_of_lt

variable {wl wb : Nat} {statvfs : Str → Except Errno (Statvfs wl wb)} {path : Str}
  {stat : Statvfs wl wb}

/-- The products are exact as soon as the greater one fits into the wider type. -/
theorem exactSpace_iff_lt (hl : wl ≤ 64) (hb : wb ≤ 64)
    (hstat : statvfs (cStr path) = .ok stat) (hle : stat.fBavail ≤ stat.fBlocks) (p : Process) :
    ExactSpace statvfs path p stat ↔
      stat.blockSize.toNat * stat.fBlocks.toNat < 2 ^ max wl wb := by
  have havail : spaceAvailable statvfs path p =
      (commonProduct stat.blockSize stat.fBavail).setWidth 64 := by
    rw [spaceAvailable, getSpace, hstat]
  have hcap : spaceCapacity statvfs path p =
      (commonProduct stat.blockSize stat.fBlocks).setWidth 64 := by
    rw [spaceCapacity, getSpace, hstat]
  have hmono : stat.blockSize.toNat * stat.fBavail.toNat ≤
      stat.blockSize.toNat * stat.fBlocks.toNat := Nat.mul_le_mul_left _ hle
  constructor
  · intro h
    rw [← toNat_commonProduct_eq_iff hl hb, ← hcap]
    exact h.capacity
  · intro hlt
    have hcapacity := (toNat_commonProduct_eq_iff hl hb _ _).mpr hlt
    have havailable := (toNat_commonProduct_eq_iff hl hb _ _).mpr (Nat.lt_of_le_of_lt hmono hlt)
    refine ⟨by rw [havail, havailable], by rw [hcap, hcapacity], ?_⟩
    rw [havail, hcap, BitVec.le_def, havailable, hcapacity]
    exact hmono

/-- Space is computed without overflow if and only if one of the types has 64 bits, or the
capacity fits into 32. -/
theorem exactSpace_iff {wl wb : Nat} (hl : wl = 32 ∨ wl = 64) (hb : wb = 32 ∨ wb = 64)
    (statvfs : Str → Except Errno (Statvfs wl wb)) (path : Str) (p : Process)
    (stat : Statvfs wl wb) (hstat : statvfs (cStr path) = .ok stat)
    (hle : stat.fBavail ≤ stat.fBlocks)
    (hfits : stat.blockSize.toNat * stat.fBlocks.toNat < 2 ^ 64) :
    ExactSpace statvfs path p stat ↔
      (wl = 64 ∨ wb = 64) ∨ stat.blockSize.toNat * stat.fBlocks.toNat < 2 ^ 32 := by
  rw [exactSpace_iff_lt (by omega) (by omega) hstat hle]
  by_cases hwide : wl = 64 ∨ wb = 64
  · have hmax : max wl wb = 64 := by omega
    rw [hmax]
    exact iff_of_true hfits (.inl hwide)
  · have hmax : max wl wb = 32 := by omega
    rw [hmax, or_iff_right hwide]

/-- A volume of `blocks` blocks with 4096 bytes each, all of them free. -/
def freeVolume (wl wb blocks : Nat) : Statvfs wl wb where
  fFrsize := 4096
  fBsize := 4096
  fBavail := BitVec.ofNat wb blocks
  fBlocks := BitVec.ofNat wb blocks

theorem exactSpace_of_wide :
    ExactSpace (fun _ => .ok (freeVolume 32 64 1048576)) "/".toList ⟨none, []⟩
      (freeVolume 32 64 1048576) :=
  (exactSpace_iff (.inl rfl) (.inr rfl) _ _ _ _ rfl (BitVec.le_refl _) (by decide)).mpr
    (.inl (.inr rfl))

/-- With 32 bits throughout, a volume of four gibibytes has no space. -/
theorem not_exactSpace_of_narrow :
    ¬ ∀ (wl wb : Nat), wl = 32 ∨ wl = 64 → wb = 32 ∨ wb = 64 →
      ∀ (statvfs : Str → Except Errno (Statvfs wl wb)) (path : Str) (p : Process)
        (stat : Statvfs wl wb), statvfs (cStr path) = .ok stat → stat.fBavail ≤ stat.fBlocks →
        stat.blockSize.toNat * stat.fBlocks.toNat < 2 ^ 64 → ExactSpace statvfs path p stat := by
  intro h
  have hexact := h 32 32 (.inl rfl) (.inl rfl) (fun _ => .ok (freeVolume 32 32 1048576))
    "/".toList ⟨none, []⟩ (freeVolume 32 32 1048576) rfl (BitVec.le_refl _) (by decide)
  exact absurd hexact.capacity (by decide)

end Widths

end Ffilesystem
