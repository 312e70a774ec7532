import Mathlib.Data.List.Basic

/-!
# Free memory and the idle swap minimum

`get_free_memory` subtracts from the free memory what the program itself has
pushed out to swap, guessed as the swap in use now less the smallest swap use
seen so far. That smallest value is a thread-local variable, so the result is a
property of the whole sequence of calls in a thread.

The Linux branch subtracts without a guard; the Windows branch has one.
-/

namespace Ffilesystem

/-- `std::numeric_limits<unsigned long long>::max()`. -/
def ullMax : UInt64 := 18446744073709551615

/-- What a successful `sysinfo` call fills in, as far as it is read. The kernel
never reports more free swap than it has. -/
structure Sysinfo where
  freeram : UInt64
  totalswap : UInt64
  freeswap : UInt64
  freeswap_le : freeswap ≤ totalswap

namespace Sysinfo

def swapped (infos : Sysinfo) : UInt64 := infos.totalswap - infos.freeswap

end Sysinfo

/-- One call in the Linux branch: the result and the new `swapped_idle`. The
reading is `none` when `sysinfo` fails. -/
def getFreeMemory (swappedIdle : UInt64) : Option Sysinfo → UInt64 × UInt64
  | none => (ullMax, swappedIdle)
  | some infos =>
      let swapped := infos.swapped
      let swappedIdle := if swappedIdle < swapped then swappedIdle else swapped
      (infos.freeram - (if swapped < swappedIdle then 0 else swapped - swappedIdle), swappedIdle)

/-- The results of a sequence of calls in one thread. -/
def getFreeMemoryRun (swappedIdle : UInt64) : List (Option Sysinfo) → List UInt64
  | [] => []
  | reading :: readings =>
      let call := getFreeMemory swappedIdle reading
      call.1 :: getFreeMemoryRun call.2 readings

/-- What a successful `GlobalMemoryStatusEx` call fills in, as far as it is read. -/
structure MemoryStatus where
  availPhys : UInt64
  totalPageFile : UInt64
  availPageFile : UInt64

/-- One call in the Windows branch: the result and the new `committed_idle`. -/
def getFreeMemoryWindows (committedIdle : UInt64) : Option MemoryStatus → UInt64 × UInt64
  | none => (ullMax, committedIdle)
  | some status =>
      let committed := status.totalPageFile - status.availPageFile
      let committedIdle := if committedIdle < committed then committedIdle else committed
      -- the check for wraparound, which the Linux branch lacks
      (if status.availPhys > committed - committedIdle
        then status.availPhys - (committed - committedIdle) else ullMax, committedIdle)

section Step

theorem le_ullMax (x : UInt64) : x ≤ ullMax := by
  rw [UInt64.le_iff_toNat_le]
  have hlt := UInt64.toNat_lt x
  have hmax : ullMax.toNat = 18446744073709551615 := rfl
  omega

theorem toNat_ite_lt (a b : UInt64) :
    (if a < b then a else b).toNat = min a.toNat b.toNat := by
  simp only [UInt64.lt_iff_toNat_lt]
  split <;> omega

/-- Step lemma: a successful call saves the minimum. -/
theorem toNat_getFreeMemory_snd (idle : UInt64) (infos : Sysinfo) :
    (getFreeMemory idle (some infos)).2.toNat = min idle.toNat infos.swapped.toNat :=
  toNat_ite_lt idle infos.swapped

theorem not_lt_ite (a b : UInt64) : ¬ b < (if a < b then a else b) := by
  rw [UInt64.lt_iff_toNat_lt, toNat_ite_lt]
  omega

/-- Step lemma: a successful call subtracts the swap above the new minimum. -/
theorem getFreeMemory_fst (idle : UInt64) (infos : Sysinfo) :
    (getFreeMemory idle (some infos)).1 =
      infos.freeram - (infos.swapped - (getFreeMemory idle (some infos)).2) := by
  simp only [getFreeMemory]
  rw [if_neg (not_lt_ite idle infos.swapped)]

theorem toNat_sub_eq_iff (a d : UInt64) :
    (a - d).toNat = a.toNat - d.toNat ↔ d.toNat ≤ a.toNat := by
  constructor
  · intro h
    by_contra hlt
    have ha := UInt64.toNat_lt a
    have hd := UInt64.toNat_lt d
    rw [UInt64.toNat_sub] at h
    omega
  · intro h
    exact UInt64.toNat_sub_of_le _ _ (UInt64.le_iff_toNat_le.mpr h)

end Step

section Run

def swappedIdleAfter (idle : UInt64) (readings : List Sysinfo) : UInt64 :=
  readings.foldl (fun idle infos => (getFreeMemory idle (some infos)).2) idle

theorem toNat_swappedIdleAfter (idle : UInt64) (readings : List Sysinfo) :
    (swappedIdleAfter idle readings).toNat =
      (readings.map (·.swapped.toNat)).foldl min idle.toNat := by
  induction readings generalizing idle with
  | nil => rfl
  | cons infos readings ih =>
      have hstep := ih (getFreeMemory idle (some infos)).2
      rw [toNat_getFreeMemory_snd] at hstep
      exact hstep

/-- Run lemma: each call starts from the minimum its predecessors left. -/
theorem getElem?_getFreeMemoryRun (idle : UInt64) (readings : List Sysinfo) (k : Nat) :
    (getFreeMemoryRun idle (readings.map some))[k]? =
      readings[k]?.map (fun infos =>
        (getFreeMemory (swappedIdleAfter idle (readings.take k)) (some infos)).1) := by
  induction readings generalizing idle k with
  | nil => rfl
  | cons infos readings ih =>
      cases k with
      | zero => rfl
      | succ k => exact ih (getFreeMemory idle (some infos)).2 k

def leastSwapped (readings : List Sysinfo) (k : Nat) : Nat :=
  ((readings.take (k + 1)).map (·.swapped.toNat)).min?.getD 0

/-- Starting from the largest value, the fold that keeps the smaller value ends
in the minimum of the list. -/
theorem foldl_min_eq_min? {top : Nat} {values : List Nat} (hne : values ≠ [])
    (htop : ∀ v ∈ values, v ≤ top) : values.foldl min top = values.min?.getD 0 := by
  cases values with
  | nil => exact absurd rfl hne
  | cons v values =>
      have hv : min top v = v := Nat.min_eq_right (htop v List.mem_cons_self)
      rw [List.min?_cons', Option.getD_some, List.foldl_cons, hv]

theorem toNat_swappedIdleAfter_take {readings : List Sysinfo} {k : Nat} {infos : Sysinfo}
    (hk : readings[k]? = some infos) :
    (swappedIdleAfter ullMax (readings.take (k + 1))).toNat = leastSwapped readings k := by
  rw [toNat_swappedIdleAfter, leastSwapped]
  apply foldl_min_eq_min?
  · have hlen := (List.getElem?_eq_some_iff.mp hk).1
    intro hnil
    have hzero := congrArg List.length hnil
    rw [List.length_map, List.length_take, List.length_nil] at hzero
    omega
  · intro v hv
    obtain ⟨r, -, rfl⟩ := List.mem_map.mp hv
    exact UInt64.le_iff_toNat_le.mp (le_ullMax r.swapped)

theorem swappedIdleAfter_take_succ {readings : List Sysinfo} {k : Nat} {infos : Sysinfo}
    (idle : UInt64) (hk : readings[k]? = some infos) :
    swappedIdleAfter idle (readings.take (k + 1)) =
      (getFreeMemory (swappedIdleAfter idle (readings.take k)) (some infos)).2 := by
  rw [swappedIdleAfter, List.take_add_one, hk, List.foldl_append]
  rfl

theorem leastSwapped_le {readings : List Sysinfo} {k : Nat} {infos : Sysinfo}
    (hk : readings[k]? = some infos) : leastSwapped readings k ≤ infos.swapped.toNat := by
  rw [← toNat_swappedIdleAfter_take hk, swappedIdleAfter_take_succ ullMax hk,
    toNat_getFreeMemory_snd]
  exact Nat.min_le_right _ _

/-- The swap that the `k`-th call takes to be the program's own. -/
def ownSwap (readings : List Sysinfo) (k : Nat) (infos : Sysinfo) : Nat :=
  infos.swapped.toNat - leastSwapped readings k

theorem getFreeMemoryRun_eq_sub {readings : List Sysinfo} {k : Nat} {infos : Sysinfo}
    (hk : readings[k]? = some infos) :
    ∃ own : UInt64, own.toNat = ownSwap readings k infos ∧
      (getFreeMemoryRun ullMax (readings.map some))[k]? = some (infos.freeram - own) := by
  have hlast := swappedIdleAfter_take_succ ullMax hk
  have hidle := toNat_swappedIdleAfter_take hk
  have hle := leastSwapped_le hk
  refine ⟨infos.swapped - swappedIdleAfter ullMax (readings.take (k + 1)), ?_, ?_⟩
  · rw [ownSwap, ← hidle]
    exact UInt64.toNat_sub_of_le _ _ (UInt64.le_iff_toNat_le.mpr (by rw [hidle]; exact hle))
  · rw [getElem?_getFreeMemoryRun, hk, Option.map_some, getFreeMemory_fst, hlast]

/-- Every result of a thread's calls is the free memory less the program's own
swap, cut off at zero, and so never above the free memory. -/
def NeverWraps (readings : List Sysinfo) : Prop :=
  ∀ k infos, readings[k]? = some infos → ∃ r,
    (getFreeMemoryRun ullMax (readings.map some))[k]? = some r ∧
    r.toNat = infos.freeram.toNat - ownSwap readings k infos ∧ r ≤ infos.freeram

/-- The results of a thread's calls do not wrap if and only if no reading's own
swap exceeds its free memory. -/
theorem getFreeMemoryRun_neverWraps_iff (readings : List Sysinfo) :
    NeverWraps readings ↔
      ∀ k infos, readings[k]? = some infos →
        ownSwap readings k infos ≤ infos.freeram.toNat := by
  constructor
  · intro h k infos hk
    obtain ⟨own, hown, hrun⟩ := getFreeMemoryRun_eq_sub hk
    obtain ⟨r, hr, hval, -⟩ := h k infos hk
    have heq : r = infos.freeram - own := Option.some.inj (hr.symm.trans hrun)
    rw [heq, ← hown] at hval
    rw [← hown]
    exact (toNat_sub_eq_iff _ _).mp hval
  · intro h k infos hk
    obtain ⟨own, hown, hrun⟩ := getFreeMemoryRun_eq_sub hk
    have hle : own.toNat ≤ infos.freeram.toNat := hown ▸ h k infos hk
    have hval := (toNat_sub_eq_iff infos.freeram own).mpr hle
    refine ⟨infos.freeram - own, hrun, ?_, ?_⟩
    · rw [hval, hown]
    · rw [UInt64.le_iff_toNat_le, hval]
      exact Nat.sub_le _ _

/-- A second reading with 1000 units of swap in use and 10 units of free memory
makes the difference pass below zero. -/
theorem getFreeMemoryRun_wraps :
    ¬ NeverWraps [⟨500, 2000, 2000, by decide⟩, ⟨10, 2000, 1000, by decide⟩] := by
  intro h
  obtain ⟨r, hr, -, hle⟩ := h 1 ⟨10, 2000, 1000, by decide⟩ rfl
  have heq : (18446744073709550626 : UInt64) = r := Option.some.inj hr
  rw [← heq] at hle
  exact absurd hle (by decide)

/-- The guarded branch reports either no information or at most the free
memory, whatever the saved value. -/
theorem getFreeMemoryWindows_le (idle : UInt64) (status : MemoryStatus) :
    (getFreeMemoryWindows idle (some status)).1 = ullMax ∨
      (getFreeMemoryWindows idle (some status)).1 ≤ status.availPhys := by
  simp only [getFreeMemoryWindows]
  generalize status.totalPageFile - status.availPageFile = committed
  generalize committed - (if idle < committed then idle else committed) = own
  cases Decidable.em (own < status.availPhys) with
  | inl hlt =>
      right
      rw [if_pos hlt, UInt64.le_iff_toNat_le, UInt64.toNat_sub_of_le _ _ (UInt64.le_of_lt hlt)]
      exact Nat.sub_le _ _
  | inr hge => exact .inl (if_neg hge)

end Run

end Ffilesystem
