import Ffilesystem.Library.Ledger

/-!
# Owned file descriptors

`fd_handle` closes its descriptor when it is destroyed or given another one, and
can be moved but not copied. The state below has the `fd` of every handle of a
program; the member functions are written on it as the source writes them, so
that two of its objects may be one.

The log records the calls of `close`, and besides them what only the program's
caller sees: which descriptors its handles were given, and which they released.
After each operation the log and the handles are a balanced ledger. Everything
that is to be known about leaks and double closes follows from that.
-/

namespace Ffilesystem

open Ledger (Event Settled history)

/-- The handles of a program. `fd` is `-1` where there is no descriptor. -/
structure FdHandles (ι : Type*) where
  /-- Between construction and destruction. -/
  live : ι → Bool
  fd : ι → Int
  log : List (Event Int)

inductive HandleOp (ι : Type*)
  | construct (i : ι) (v : Int)
  | moveConstruct (i o : ι)
  | moveAssign (i o : ι)
  /-- `answer` is what the call of `::close` returns. -/
  | close (i : ι) (answer : Int)
  | release (i : ι)
  | reset (i : ι) (v : Int)
  | destroy (i : ι)
  deriving DecidableEq, Repr

namespace FdHandles

variable {ι : Type*}

def start : FdHandles ι := ⟨fun _ => false, fun _ => -1, []⟩

def note (s : FdHandles ι) (e : Event Int) : FdHandles ι := { s with log := s.log ++ [e] }

/-- A descriptor that a handle was given, or let go of; `-1` is none. -/
def noteFd (s : FdHandles ι) (e : Int → Event Int) (v : Int) : FdHandles ι :=
  if v ≠ -1 then s.note (e v) else s

section Functions

variable [DecidableEq ι]

def setLive (s : FdHandles ι) (i : ι) (b : Bool) : FdHandles ι :=
  { s with live := Function.update s.live i b }

def setFd (s : FdHandles ι) (i : ι) (v : Int) : FdHandles ι :=
  { s with fd := Function.update s.fd i v }

/-- `fd_handle(int v)`. -/
def construct (s : FdHandles ι) (i : ι) (v : Int) : FdHandles ι := (s.setLive i true).setFd i v

/-- `fd_handle(fd_handle&& o)`. -/
def moveConstruct (s : FdHandles ι) (i o : ι) : FdHandles ι :=
  ((s.setLive i true).setFd i (s.fd o)).setFd o (-1)

def reset (s : FdHandles ι) (i : ι) (v : Int) : FdHandles ι :=
  (if s.fd i ≠ -1 then s.note (.closed (s.fd i)) else s).setFd i v

/-- `operator=(fd_handle&& o)`, with its test of the addresses. -/
def moveAssign (s : FdHandles ι) (i o : ι) : FdHandles ι :=
  if i ≠ o then
    let s := s.reset i (-1)
    (s.setFd i (s.fd o)).setFd o (-1)
  else s

/-- The result of `close`, and the state after it. -/
def close (s : FdHandles ι) (i : ι) (answer : Int) : Int × FdHandles ι :=
  if s.fd i ≠ -1 then (answer, (s.note (.closed (s.fd i))).setFd i (-1)) else (0, s)

def release (s : FdHandles ι) (i : ι) : Int × FdHandles ι := (s.fd i, s.setFd i (-1))

def destroy (s : FdHandles ι) (i : ι) : FdHandles ι := (s.reset i (-1)).setLive i false

/-- An operation, together with what its caller does to a descriptor by it. -/
def step (s : FdHandles ι) : HandleOp ι → FdHandles ι
  | .construct i v => (s.construct i v).noteFd .entered v
  | .moveConstruct i o => s.moveConstruct i o
  | .moveAssign i o => s.moveAssign i o
  | .close i answer => (s.close i answer).2
  | .release i => (s.release i).2.noteFd .released (s.release i).1
  | .reset i v => (s.reset i v).noteFd .entered v
  | .destroy i => s.destroy i

/-- No descriptor, or one that no handle owns. -/
def Unowned (s : FdHandles ι) (v : Int) : Prop := v = -1 ∨ ∀ j, s.live j = true → s.fd j ≠ v

/-- Handles are constructed before they are used and until they are destroyed, and
they are given no descriptor that a handle owns already. -/
def Allowed (s : FdHandles ι) : HandleOp ι → Prop
  | .construct i v => s.live i = false ∧ s.Unowned v
  | .moveConstruct i o => s.live i = false ∧ s.live o = true
  | .moveAssign i o => s.live i = true ∧ s.live o = true
  | .close i _ => s.live i = true
  | .release i => s.live i = true
  | .reset i v => s.live i = true ∧ s.Unowned v
  | .destroy i => s.live i = true

/-- The operations may be done in this order, and lead here. -/
inductive Run : FdHandles ι → List (HandleOp ι) → FdHandles ι → Prop
  | nil (s : FdHandles ι) : Run s [] s
  | cons {s t : FdHandles ι} {op : HandleOp ι} {ops : List (HandleOp ι)} (h : s.Allowed op)
      (rest : Run (s.step op) ops t) : Run s (op :: ops) t

end Functions

section Invariant

variable {s : FdHandles ι} {i : ι}

/-- The descriptor of a handle. -/
def holds (s : FdHandles ι) (i : ι) : Option Int := if s.fd i = -1 then none else some (s.fd i)

/-- What every operation keeps. A destroyed handle has been cleared. -/
structure Owns (s : FdHandles ι) : Prop where
  balanced : Ledger.Balanced s.holds s.log
  dead : ∀ i, s.live i = false → s.fd i = -1

theorem holds_eq_none_iff : s.holds i = none ↔ s.fd i = -1 := by
  rw [holds]
  split <;> simp_all

theorem holds_eq_some_iff {d : Int} : s.holds i = some d ↔ s.fd i = d ∧ d ≠ -1 := by
  rw [holds]
  split
  · rename_i hnone
    exact iff_of_false (by simp) (fun h => h.2 (h.1.symm.trans hnone))
  · rename_i hsome
    rw [Option.some.injEq]
    exact ⟨fun h => ⟨h, h ▸ hsome⟩, fun h => h.1⟩

@[simp] theorem live_noteFd (s : FdHandles ι) (e : Int → Event Int) (v : Int) :
    (s.noteFd e v).live = s.live := by
  rw [noteFd]
  split <;> rfl

@[simp] theorem fd_noteFd (s : FdHandles ι) (e : Int → Event Int) (v : Int) :
    (s.noteFd e v).fd = s.fd := by
  rw [noteFd]
  split <;> rfl

theorem holds_noteFd (s : FdHandles ι) (e : Int → Event Int) (v : Int) :
    (s.noteFd e v).holds = s.holds := by
  funext j
  rw [holds, fd_noteFd, holds]

theorem log_noteFd (s : FdHandles ι) (e : Int → Event Int) (v : Int) :
    (s.noteFd e v).log = if v ≠ -1 then s.log ++ [e v] else s.log := by
  rw [noteFd]
  split <;> rfl

theorem ne_of_live {j : ι} (hlive : s.live i = true) (hj : s.live j = false) : j ≠ i := by
  rintro rfl
  exact Bool.noConfusion (hlive.symm.trans hj)

theorem owns_start : Owns (start : FdHandles ι) :=
  ⟨.empty, fun _ _ => rfl⟩

theorem Owns.live_of_holds (h : s.Owns) {d : Int} (hi : s.holds i = some d) :
    s.live i = true := by
  obtain ⟨hfd, hne⟩ := holds_eq_some_iff.mp hi
  cases hlive : s.live i with
  | true => rfl
  | false => exact absurd (hfd.symm.trans (h.dead i hlive)) hne

theorem Owns.not_holds (h : s.Owns) (hdead : ∀ i, s.live i = false) (d : Int) (i : ι) :
    s.holds i ≠ some d := by
  intro hi
  exact Bool.noConfusion ((hdead i).symm.trans (h.live_of_holds hi))

/-- Destroyed handles own nothing, so it does not matter that they are not asked. -/
theorem Owns.of_unowned (h : s.Owns) {v : Int} (hv : s.Unowned v) :
    v = -1 ∨ ∀ j, s.holds j ≠ some v := by
  apply hv.imp_right
  intro hfree j hj
  exact hfree j (h.live_of_holds hj) (holds_eq_some_iff.mp hj).1

variable [DecidableEq ι]

@[simp] theorem live_setFd (s : FdHandles ι) (i : ι) (v : Int) : (s.setFd i v).live = s.live := rfl

@[simp] theorem log_setFd (s : FdHandles ι) (i : ι) (v : Int) : (s.setFd i v).log = s.log := rfl

@[simp] theorem live_construct (s : FdHandles ι) (i : ι) (v : Int) :
    (s.construct i v).live = Function.update s.live i true := rfl

@[simp] theorem fd_setFd_self (s : FdHandles ι) (i : ι) (v : Int) : (s.setFd i v).fd i = v :=
  Function.update_self _ _ _

theorem fd_setFd_of_ne {j : ι} (h : j ≠ i) (s : FdHandles ι) (v : Int) :
    (s.setFd i v).fd j = s.fd j := Function.update_of_ne h _ _

@[simp] theorem setFd_setFd (s : FdHandles ι) (i : ι) (v w : Int) :
    (s.setFd i v).setFd i w = s.setFd i w := by
  rw [setFd, setFd, setFd, Function.update_idem]

theorem setFd_eq_self {v : Int} (h : s.fd i = v) : s.setFd i v = s := by
  rw [setFd, ← h, Function.update_eq_self]

theorem holds_setFd (s : FdHandles ι) (i : ι) (v : Int) :
    (s.setFd i v).holds = Function.update s.holds i (if v = -1 then none else some v) := by
  funext j
  by_cases hj : j = i
  · rw [hj, Function.update_self, holds, fd_setFd_self]
  · rw [Function.update_of_ne hj, holds, fd_setFd_of_ne hj, holds]

theorem setFd_noteFd (s : FdHandles ι) (e : Int → Event Int) (i : ι) (v w : Int) :
    (s.noteFd e v).setFd i w = (s.setFd i w).noteFd e v := by
  rw [noteFd, noteFd]
  split <;> rfl

theorem reset_eq (s : FdHandles ι) (i : ι) (v : Int) :
    s.reset i v = (s.noteFd .closed (s.fd i)).setFd i v := rfl

/-- `reset` lets go of the old descriptor before it takes the new one. -/
theorem setFd_reset (s : FdHandles ι) (i : ι) (v : Int) :
    (s.reset i (-1)).setFd i v = s.reset i v := setFd_setFd _ i (-1) v

@[simp] theorem live_reset (s : FdHandles ι) (i : ι) (v : Int) : (s.reset i v).live = s.live := by
  rw [reset_eq, live_setFd, live_noteFd]

@[simp] theorem live_destroy (s : FdHandles ι) (i : ι) :
    (s.destroy i).live = Function.update s.live i false := by
  rw [destroy, setLive, live_reset]

/-- But for its result, `close` is `reset` to no descriptor. -/
@[simp] theorem close_snd (s : FdHandles ι) (i : ι) (answer : Int) :
    (s.close i answer).2 = s.reset i (-1) := by
  rw [close, reset]
  split
  · rfl
  · rename_i hfd
    exact (setFd_eq_self (not_not.mp hfd)).symm

theorem fd_reset_self (s : FdHandles ι) (i : ι) (v : Int) : (s.reset i v).fd i = v :=
  fd_setFd_self _ i v

/-- The handle closes its descriptor, or lets go of it. -/
theorem Owns.drop (h : s.Owns) (i : ι) {e : Int → Event Int} (he : ∀ d, (e d).IsEnd d) :
    ((s.noteFd e (s.fd i)).setFd i (-1)).Owns := by
  refine ⟨?_, fun j hj => ?_⟩
  · rw [holds_setFd, if_pos rfl, holds_noteFd, log_setFd, log_noteFd]
    by_cases hfd : s.fd i = -1
    · rw [if_neg (not_not_intro hfd), ← holds_eq_none_iff.mpr hfd, Function.update_eq_self]
      exact h.balanced
    · rw [if_pos hfd]
      exact h.balanced.leave (holds_eq_some_iff.mpr ⟨rfl, hfd⟩) (he _)
  · rw [live_setFd, live_noteFd] at hj
    by_cases hji : j = i
    · rw [hji, fd_setFd_self]
    · rw [fd_setFd_of_ne hji, fd_noteFd, h.dead j hj]

/-- A live handle without a descriptor is given one. -/
theorem Owns.take (h : s.Owns) (hi : s.fd i = -1) (hlive : s.live i = true) {v : Int}
    (hv : v = -1 ∨ ∀ j, s.holds j ≠ some v) : ((s.setFd i v).noteFd .entered v).Owns := by
  refine ⟨?_, fun j hj => ?_⟩
  · rw [holds_noteFd, holds_setFd, log_noteFd, log_setFd]
    by_cases hfd : v = -1
    · rw [if_neg (not_not_intro hfd), if_pos hfd, ← holds_eq_none_iff.mpr hi,
        Function.update_eq_self]
      exact h.balanced
    · rw [if_pos hfd, if_neg hfd]
      exact h.balanced.enter (holds_eq_none_iff.mpr hi) (hv.resolve_left hfd)
  · rw [live_noteFd, live_setFd] at hj
    rw [fd_noteFd, fd_setFd_of_ne (ne_of_live hlive hj), h.dead j hj]

/-- A live handle without a descriptor takes over the one of another handle. -/
theorem Owns.pass (h : s.Owns) (hi : s.fd i = -1) (hlive : s.live i = true) (o : ι) :
    ((s.setFd i (s.fd o)).setFd o (-1)).Owns := by
  refine ⟨?_, fun j hj => ?_⟩
  · rw [holds_setFd, if_pos rfl, holds_setFd]
    exact h.balanced.pass (holds_eq_none_iff.mpr hi) o
  · rw [live_setFd, live_setFd] at hj
    by_cases hjo : j = o
    · rw [hjo, fd_setFd_self]
    · rw [fd_setFd_of_ne hjo, fd_setFd_of_ne (ne_of_live hlive hj), h.dead j hj]

theorem Owns.setLive (h : s.Owns) (i : ι) {b : Bool} (hb : b = false → s.fd i = -1) :
    (s.setLive i b).Owns := by
  refine ⟨h.balanced, fun j hj => ?_⟩
  by_cases hji : j = i
  · have hlive : (s.setLive i b).live i = b := Function.update_self _ _ _
    rw [hji, hlive] at hj
    exact hji ▸ hb hj
  · have hlive : (s.setLive i b).live j = s.live j := Function.update_of_ne hji _ _
    exact h.dead j (hlive.symm.trans hj)

theorem Owns.reset_none (h : s.Owns) (i : ι) : (s.reset i (-1)).Owns :=
  h.drop i (fun _ => .inl rfl)

theorem Owns.moveAssign (h : s.Owns) (hlive : s.live i = true) (o : ι) :
    (s.moveAssign i o).Owns := by
  rw [FdHandles.moveAssign]
  split
  · refine (h.reset_none i).pass (fd_reset_self s i (-1)) ?_ o
    rw [live_reset, hlive]
  · exact h

theorem Owns.reset (h : s.Owns) (hlive : s.live i = true) {v : Int} (hv : s.Unowned v) :
    ((s.reset i v).noteFd .entered v).Owns := by
  have hlive' : (s.reset i (-1)).live i = true := by rw [live_reset, hlive]
  have htake := (h.reset_none i).take (fd_reset_self s i (-1)) hlive' (v := v) ?_
  · rwa [setFd_reset] at htake
  · apply (h.of_unowned hv).imp_right
    intro hfree j hj
    rw [reset_eq, holds_setFd, if_pos rfl, holds_noteFd] at hj
    exact hfree j (Ledger.holds_of_update_none hj).2

/-- Each operation keeps the ledger of descriptors balanced. -/
theorem Owns.step (h : s.Owns) {op : HandleOp ι} (hop : s.Allowed op) : (s.step op).Owns := by
  cases op with
  | construct i v =>
      obtain ⟨hlive, hv⟩ := hop
      have hnew : (s.setLive i true).fd i = -1 := h.dead i hlive
      exact (h.setLive i (fun hb => by cases hb)).take hnew (Function.update_self _ _ _)
        (h.of_unowned hv)
  | moveConstruct i o =>
      obtain ⟨hlive, -⟩ := hop
      have hnew : (s.setLive i true).fd i = -1 := h.dead i hlive
      exact (h.setLive i (fun hb => by cases hb)).pass hnew (Function.update_self _ _ _) o
  | moveAssign i o => exact h.moveAssign hop.1 o
  | close i answer =>
      rw [FdHandles.step, close_snd]
      exact h.reset_none i
  | release i =>
      have hdrop := h.drop i (e := .released) (fun _ => .inr rfl)
      rwa [setFd_noteFd] at hdrop
  | reset i v => exact h.reset hop.1 hop.2
  | destroy i => exact (h.reset_none i).setLive i (fun _ => fd_reset_self s i (-1))

theorem Run.owns {t : FdHandles ι} {ops : List (HandleOp ι)} (h : Run s ops t) (hs : s.Owns) :
    t.Owns := by
  induction h with
  | nil => exact hs
  | cons hop _ ih => exact ih (hs.step hop)

end Invariant

section Results

variable [DecidableEq ι]

/-- After every sequence of operations no descriptor has two owners, and none was
closed twice: a number that was closed has to become a descriptor again, and to
enter a handle again, before it is closed again. When all handles are destroyed,
each entry of a descriptor has been followed by its one close, or by its release. -/
theorem run_closes_once {ops : List (HandleOp ι)} {s : FdHandles ι} (h : Run start ops s) :
    (∀ i j, s.live i = true → s.live j = true → s.fd i = s.fd j → s.fd i ≠ -1 → i = j) ∧
      (∀ d, s.log.count (.closed d) + s.log.count (.released d) ≤ s.log.count (.entered d)) ∧
      (∀ d front mid back, s.log = front ++ .closed d :: (mid ++ .closed d :: back) →
        .entered d ∈ mid) ∧
      ((∀ i, s.live i = false) → ∀ d, Settled d (history d s.log) ∧
        s.log.count (.closed d) + s.log.count (.released d) = s.log.count (.entered d)) := by
  have howns := h.owns owns_start
  refine ⟨fun i j _ _ hfd hne => ?_, howns.balanced.count_le, fun d front mid back hlog => ?_,
    fun hdead d => ?_⟩
  · apply howns.balanced.holder_unique i j (s.fd i)
    · exact holds_eq_some_iff.mpr ⟨rfl, hne⟩
    · exact holds_eq_some_iff.mpr ⟨hfd.symm, hne⟩
  · exact howns.balanced.entered_between (.inl rfl) (.inl rfl) hlog
  · have hunowned := howns.not_holds hdead d
    exact ⟨howns.balanced.settled d hunowned, howns.balanced.count_of_unowned hunowned⟩

/-- A handle is moved to itself, and another one is destroyed empty after a move. -/
def someMoves : List (HandleOp Bool) :=
  [.construct false 3, .construct true 4, .moveAssign false false, .moveAssign false true,
    .close false 0, .destroy true, .destroy false]

theorem run_closes_once_someMoves :
    ∃ s, Run start someMoves s ∧ s.log = [.entered 3, .entered 4, .closed 3, .closed 4] ∧
      Settled 4 (history 4 s.log) := by
  obtain ⟨s, hrun, hlog, hdead⟩ : ∃ s, Run start someMoves s ∧
      s.log = [.entered 3, .entered 4, .closed 3, .closed 4] ∧ ∀ i, s.live i = false :=
    ⟨_, .cons ⟨rfl, .inr (by decide)⟩ (.cons ⟨rfl, .inr (by decide)⟩ (.cons ⟨rfl, rfl⟩
      (.cons ⟨rfl, rfl⟩ (.cons rfl (.cons rfl (.cons rfl (.nil _))))))), by decide, by decide⟩
  exact ⟨s, hrun, hlog, ((run_closes_once hrun).2.2.2 hdead 4).1⟩

end Results

section Released

variable {s : FdHandles ι} {d : Int}

theorem released_mem_noteFd {e : Int → Event Int} {v : Int} (he : e v ≠ .released d)
    (h : .released d ∈ (s.noteFd e v).log) : .released d ∈ s.log := by
  rw [log_noteFd] at h
  split at h
  · rcases List.mem_append.mp h with hold | hnew
    · exact hold
    · exact absurd (List.mem_singleton.mp hnew).symm he
  · exact h

variable [DecidableEq ι]

theorem released_mem_reset {i : ι} {v : Int} (h : .released d ∈ (s.reset i v).log) :
    .released d ∈ s.log := by
  rw [reset_eq, log_setFd] at h
  exact released_mem_noteFd (fun heq => by cases heq) h

/-- Nothing but `release` lets go of a descriptor without closing it. -/
theorem released_mem_step {op : HandleOp ι} (h : .released d ∈ (s.step op).log) :
    .released d ∈ s.log ∨ ∃ i, op = .release i := by
  cases op with
  | construct i v =>
      have hnoted : .released d ∈ ((s.construct i v).noteFd .entered v).log := h
      have hold := released_mem_noteFd (fun heq => by cases heq) hnoted
      exact .inl hold
  | moveConstruct i o => exact .inl h
  | moveAssign i o =>
      refine .inl ?_
      rw [step, moveAssign] at h
      split at h
      · exact released_mem_reset (i := i) (v := -1) h
      · exact h
  | close i answer =>
      rw [step, close_snd] at h
      exact .inl (released_mem_reset h)
  | release i => exact .inr ⟨i, rfl⟩
  | reset i v => exact .inl (released_mem_reset (released_mem_noteFd (fun heq => by cases heq) h))
  | destroy i => exact .inl (released_mem_reset (i := i) (v := -1) h)

theorem Run.released_mem {t : FdHandles ι} {ops : List (HandleOp ι)} (h : Run s ops t)
    (hmem : .released d ∈ t.log) : .released d ∈ s.log ∨ ∃ i, .release i ∈ ops := by
  induction h with
  | nil => exact .inl hmem
  | cons _ _ ih =>
      rcases ih hmem with hstep | ⟨i, hi⟩
      · rcases released_mem_step hstep with hold | ⟨i, rfl⟩
        · exact .inl hold
        · exact .inr ⟨i, List.mem_cons_self⟩
      · exact .inr ⟨i, List.mem_cons_of_mem _ hi⟩

end Released

end FdHandles

section Copy

open FdHandles

/-- The handles of `fs_copy_file_range_or_loop`. -/
inductive CopyHandle
  | rid
  | wid
  deriving DecidableEq, Repr

/-- What the calls of `fs_copy_file_range_or_loop` return that its handles depend on. -/
structure CopyCalls where
  openSource : Int
  fstatSource : Int
  openDest : Int
  /-- The destination is the source, or one of `fstat` and `ftruncate` fails for it. -/
  turnedAway : Bool
  closeDest : Int
  closeSource : Int

/-- The handle operations of `fs_copy_file_range_or_loop`, with the destructors
that run when it returns. -/
def copyOps (c : CopyCalls) : List (HandleOp CopyHandle) :=
  .construct .rid c.openSource ::
    if c.openSource = -1 ∨ c.fstatSource = -1 then [.destroy .rid]
    else .construct .wid c.openDest ::
      if c.openDest = -1 ∨ c.turnedAway then [.destroy .wid, .destroy .rid]
      else [.close .wid c.closeDest, .close .rid c.closeSource, .destroy .wid, .destroy .rid]

/-- The copy constructs its handles from what `open` returned, which is no
descriptor that is open already. -/
theorem run_copyOps {c : CopyCalls} (h : c.openDest ≠ -1 → c.openDest ≠ c.openSource) :
    ∃ s, Run start (copyOps c) s ∧ ∀ i, s.live i = false := by
  have hsource : Allowed start (.construct CopyHandle.rid c.openSource) :=
    ⟨rfl, .inr (fun j hj => by cases hj)⟩
  have hdest : (start.step (.construct .rid c.openSource)).Allowed
      (.construct CopyHandle.wid c.openDest) := by
    refine ⟨by simp [step, start], ?_⟩
    by_cases hnone : c.openDest = -1
    · exact .inl hnone
    · right
      intro j hj
      cases j with
      | rid => simpa [step, construct] using (h hnone).symm
      | wid => simp [step, start] at hj
  rw [copyOps]
  split
  · refine ⟨_, .cons hsource (.cons ?_ (.nil _)), fun i => ?_⟩
    · simp [Allowed, step]
    · cases i <;> simp [step, start]
  split
  · refine ⟨_, .cons hsource (.cons hdest (.cons ?_ (.cons ?_ (.nil _)))), fun i => ?_⟩
    · simp [Allowed, step]
    · simp [Allowed, step]
    · cases i <;> simp [step]
  · refine ⟨_, .cons hsource (.cons hdest (.cons ?_ (.cons ?_ (.cons ?_ (.cons ?_ (.nil _)))))),
      fun i => ?_⟩
    · simp [Allowed, step]
    · simp [Allowed, step]
    · simp [Allowed, step]
    · simp [Allowed, step]
    · cases i <;> simp [step]

/-- However the copy ends, the descriptors that it opened have been closed, and
each as often as it was opened. -/
theorem copyOps_closes {c : CopyCalls} (h : c.openDest ≠ -1 → c.openDest ≠ c.openSource) :
    ∃ s, Run start (copyOps c) s ∧
      ∀ d, s.log.count (.closed d) = s.log.count (.entered d) := by
  obtain ⟨s, hrun, hdead⟩ := run_copyOps h
  refine ⟨s, hrun, fun d => ?_⟩
  have hkept : .released d ∉ s.log := by
    intro hmem
    rcases hrun.released_mem hmem with hold | ⟨i, hi⟩
    · cases hold
    · rw [copyOps] at hi
      split at hi
      · simp at hi
      · split at hi
        · simp at hi
        · simp at hi
  have howns := hrun.owns owns_start
  have hcount := howns.balanced.count_of_unowned (howns.not_holds hdead d)
  rwa [List.count_eq_zero.mpr hkept, Nat.add_zero] at hcount

end Copy

end Ffilesystem
