import Ffilesystem.Parent
import Mathlib.Data.List.Basic

/-!
# The error handler under concurrent calls

One atomic variable holds the handler of error messages. Any thread may store
another one there at any time, while others report errors. A report loads the
handler once and calls what it has loaded, so that a store in between comes too late
for it.

`step` runs these actions one at a time, in any order that lets each thread finish a
report before its next action. `serial` takes every report at its load and calls the
handler at once. Seen from one thread a run delivers what the serial one does.
-/

namespace Ffilesystem

/-- `std::source_location`. -/
structure Location where
  fileName : Str
  line : Nat
  functionName : Str
  deriving DecidableEq, Repr

/-- What `std::error_code` tells of an error. -/
structure ErrorCode where
  message : Str
  value : Int
  deriving DecidableEq, Repr

/-- The arguments of `fs_error_callback`. Compilers before C++20 have no location, and
`path2` and `error` are there in some of the overloads. -/
structure ErrorReport where
  path : Str
  path2 : Option Str
  error : Option ErrorCode
  location : Option Location
  /-- The text of `errno`, where it is not zero. -/
  errno : Option Str
  deriving DecidableEq, Repr

namespace ErrorReport

variable (r : ErrorReport)

def source : Str :=
  match r.location with
  | some location => location.fileName ++ ':' :: (toString location.line).toList
  | none => []

def function : Str :=
  match r.location with
  | some location => location.functionName
  | none => []

def paths : Str :=
  match r.path2 with
  | some path2 => r.path ++ ", ".toList ++ path2
  | none => r.path

/-- The value zero stands for no error. Only the overloads with two paths name an
exception. -/
def errorLine : Str :=
  match r.error with
  | some error =>
      if error.value = 0 then []
      else
        (if r.path2.isSome then "C++ exception: ".toList else []) ++ error.message ++
          ' ' :: (toString error.value).toList ++ ['\n']
  | none => []

def errnoLine : Str :=
  match r.errno with
  | some text => "errno: ".toList ++ text ++ ['\n']
  | none => []

/-- The text that the handler reads, which ends at the first null character. -/
def message : Str :=
  cStr ("ERROR: Ffilesystem: ".toList ++ r.function ++ '(' :: r.paths ++ ")\n".toList ++
    r.source ++ '\n' :: r.errorLine ++ r.errnoLine)

end ErrorReport

variable {τ η : Type} [DecidableEq τ]

/-- The actions on the handler. A report is two of them, a load and a call. -/
inductive LogEvent (τ η : Type)
  /-- `fs_set_error_callback`, with a null pointer for no handler. -/
  | set (t : τ) (callback : Option η)
  /-- `fs_reset_error_callback`. -/
  | reset (t : τ)
  | load (t : τ) (r : ErrorReport)
  | call (t : τ)

/-- A message with its handler and the thread that reports. -/
abbrev Delivery (τ η : Type) := τ × η × Str

structure LogState (τ η : Type) where
  /-- `fs_error_handler`. -/
  handler : Option η
  /-- What a thread has loaded and not yet called. -/
  loaded : τ → Option (η × Str)
  delivered : List (Delivery τ η)

namespace LogState

/-- The handler that writes to the standard error stream is there from the start. -/
def initial (stderrCallback : η) : LogState τ η := ⟨some stderrCallback, fun _ => none, []⟩

/-- One action, if the thread has come to it. -/
def step (stderrCallback : η) (s : LogState τ η) : LogEvent τ η → Option (LogState τ η)
  | .set t callback => if (s.loaded t).isNone then some { s with handler := callback } else none
  | .reset t =>
      if (s.loaded t).isNone then some { s with handler := some stderrCallback } else none
  | .load t r =>
      if (s.loaded t).isNone then
        match s.handler with
        | some h => some { s with loaded := Function.update s.loaded t (some (h, r.message)) }
        | none => some s
      else none
  | .call t =>
      match s.loaded t with
      | some (h, message) =>
          some { s with
            loaded := Function.update s.loaded t none
            delivered := s.delivered ++ [(t, h, message)] }
      | none => none

/-- A run of actions of all threads. -/
def run (stderrCallback : η) (s : LogState τ η) (events : List (LogEvent τ η)) :
    Option (LogState τ η) := events.foldlM (step stderrCallback) s

end LogState

/-- The handler and the deliveries after an action, when a report is one action. -/
def serialStep (stderrCallback : η) (s : Option η × List (Delivery τ η)) :
    LogEvent τ η → Option η × List (Delivery τ η)
  | .set _ callback => (callback, s.2)
  | .reset _ => (some stderrCallback, s.2)
  | .load t r => (s.1, s.2 ++ (s.1.map fun h => (t, h, r.message)).toList)
  | .call _ => s

def serial (stderrCallback : η) (events : List (LogEvent τ η)) : Option η × List (Delivery τ η) :=
  events.foldl (serialStep stderrCallback) (some stderrCallback, [])

/-- The deliveries of one thread. -/
def ofThread (t : τ) (deliveries : List (Delivery τ η)) : List (Delivery τ η) :=
  deliveries.filter (·.1 = t)

/-- What a thread is about to deliver. -/
def pending (s : LogState τ η) (t : τ) : List (Delivery τ η) :=
  ((s.loaded t).map fun p => (t, p.1, p.2)).toList

/-- The state agrees with the serial one: the same handler, and for each thread the
same deliveries, of which the last may be about to come. -/
structure Serialized (s : LogState τ η) (q : Option η × List (Delivery τ η)) : Prop where
  handler : s.handler = q.1
  deliveries : ∀ t, ofThread t s.delivered ++ pending s t = ofThread t q.2

section Runs

variable {stderrCallback : η} {s s' : LogState τ η} {q : Option η × List (Delivery τ η)}

theorem ofThread_append (t : τ) (a b : List (Delivery τ η)) :
    ofThread t (a ++ b) = ofThread t a ++ ofThread t b := List.filter_append a b

theorem ofThread_singleton_self (t : τ) (p : η × Str) :
    ofThread t [(t, p)] = [(t, p)] := by
  simp [ofThread]

theorem ofThread_singleton_of_ne {t t' : τ} (hne : t' ≠ t) (p : η × Str) :
    ofThread t [(t', p)] = [] := by
  simp [ofThread, hne]

omit [DecidableEq τ] in
theorem pending_of_isNone {t : τ} (h : (s.loaded t).isNone = true) : pending s t = [] := by
  rw [pending, Option.isNone_iff_eq_none.mp h]
  rfl

/-- The new handler, and nothing delivered. -/
theorem Serialized.store (h : Serialized s q) (handler : Option η) :
    Serialized { s with handler := handler } (handler, q.2) := ⟨rfl, h.deliveries⟩

/-- A loaded report is delivered in the serial state at once. -/
theorem Serialized.load (h : Serialized s q) {t : τ} (hidle : (s.loaded t).isNone = true)
    (p : η × Str) :
    Serialized { s with loaded := Function.update s.loaded t (some p) }
      (q.1, q.2 ++ [(t, p)]) := by
  refine ⟨h.handler, fun u => ?_⟩
  have hbefore := h.deliveries u
  rw [ofThread_append, ← hbefore]
  by_cases hu : u = t
  · subst hu
    rw [pending_of_isNone hidle, List.append_nil, ofThread_singleton_self, pending]
    simp
  · rw [ofThread_singleton_of_ne (Ne.symm hu), List.append_nil, pending]
    simp [Function.update_of_ne hu, pending]

/-- The call delivers what the serial state has delivered before. -/
theorem Serialized.call (h : Serialized s q) {t : τ} {p : η × Str} (hloaded : s.loaded t = some p) :
    Serialized { s with
      loaded := Function.update s.loaded t none
      delivered := s.delivered ++ [(t, p)] } q := by
  refine ⟨h.handler, fun u => ?_⟩
  have hbefore := h.deliveries u
  rw [ofThread_append, ← hbefore]
  by_cases hu : u = t
  · subst hu
    rw [ofThread_singleton_self, pending, pending, hloaded]
    simp
  · rw [ofThread_singleton_of_ne (Ne.symm hu), List.append_nil, pending]
    simp [Function.update_of_ne hu, pending]

theorem Serialized.step (h : Serialized s q) {e : LogEvent τ η}
    (hstep : s.step stderrCallback e = some s') :
    Serialized s' (serialStep stderrCallback q e) := by
  cases e with
  | set t callback =>
      obtain ⟨-, heq⟩ := Option.ite_none_right_eq_some.mp hstep
      cases heq
      exact h.store callback
  | reset t =>
      obtain ⟨-, heq⟩ := Option.ite_none_right_eq_some.mp hstep
      cases heq
      exact h.store (some stderrCallback)
  | load t r =>
      obtain ⟨hidle, hload⟩ := Option.ite_none_right_eq_some.mp hstep
      rw [serialStep, ← h.handler]
      cases hhandler : s.handler with
      | none =>
          rw [hhandler] at hload
          cases hload
          exact ⟨hhandler, by simpa using h.deliveries⟩
      | some callback =>
          have hnext := h.load hidle (callback, r.message)
          rw [hhandler] at hload
          rw [← h.handler, hhandler] at hnext
          cases hload
          exact hnext
  | call t =>
      rw [LogState.step] at hstep
      split at hstep
      · rename_i callback message hloaded
        cases hstep
        exact h.call hloaded
      · cases hstep

theorem Serialized.run (h : Serialized s q) {events : List (LogEvent τ η)}
    (hrun : s.run stderrCallback events = some s') :
    Serialized s' (events.foldl (serialStep stderrCallback) q) := by
  induction events generalizing s q with
  | nil =>
      cases hrun
      exact h
  | cons e events ih =>
      rw [LogState.run, List.foldlM_cons] at hrun
      obtain ⟨mid, hstep, hrest⟩ := Option.bind_eq_some_iff.mp hrun
      exact ih (h.step hstep) hrest

/-- Before any action nothing is loaded or delivered. -/
theorem serialized_initial (stderrCallback : η) :
    Serialized (LogState.initial stderrCallback : LogState τ η) (some stderrCallback, []) :=
  ⟨rfl, fun _ => rfl⟩

/-- When no report is between its two actions, the deliveries are those of the serial
state. -/
theorem Serialized.ofThread_eq (h : Serialized s q) {t : τ} (hdone : s.loaded t = none) :
    ofThread t s.delivered = ofThread t q.2 := by
  have ht := h.deliveries t
  rwa [pending_of_isNone (Option.isNone_iff_eq_none.mpr hdone), List.append_nil] at ht

theorem Serialized.mem_of_mem (h : Serialized s q) {d : Delivery τ η} (hd : d ∈ s.delivered) :
    d ∈ q.2 := by
  have hthread : d ∈ ofThread d.1 s.delivered := List.mem_filter.mpr ⟨hd, decide_eq_true rfl⟩
  have hserial : d ∈ ofThread d.1 q.2 := h.deliveries d.1 ▸ List.mem_append_left _ hthread
  exact List.mem_of_mem_filter hserial

/-- Whatever the order of the actions, each thread delivers what it would deliver if
every report called the handler in one action with loading it, and in that order. -/
theorem run_serialized {events : List (LogEvent τ η)}
    (hrun : (LogState.initial stderrCallback).run stderrCallback events = some s)
    (hdone : ∀ t, s.loaded t = none) :
    s.handler = (serial stderrCallback events).1 ∧
      (∀ t, ofThread t s.delivered = ofThread t (serial stderrCallback events).2) ∧
      s.delivered.Perm (serial stderrCallback events).2 := by
  have h := (serialized_initial stderrCallback).run hrun
  have hthread : ∀ t, ofThread t s.delivered = ofThread t (serial stderrCallback events).2 :=
    fun t => h.ofThread_eq (hdone t)
  refine ⟨h.handler, hthread, ?_⟩
  classical
  refine List.perm_iff_count.mpr fun d => ?_
  have hcount : ∀ l : List (Delivery τ η), l.count d = (ofThread d.1 l).count d := by
    intro l
    rw [ofThread, List.count_filter (by simp)]
  calc s.delivered.count d = (ofThread d.1 s.delivered).count d := hcount _
    _ = (ofThread d.1 (serial stderrCallback events).2).count d := by rw [hthread]
    _ = (serial stderrCallback events).2.count d := (hcount _).symm

end Runs

/-- The message of a report by the thread. -/
def messageOf (t : τ) : LogEvent τ η → Option Str
  | .load u r => if u = t then some r.message else none
  | _ => none

/-- The handler comes from the start or from one of the stores. -/
def Installed (stderrCallback : η) (events : List (LogEvent τ η)) (h : η) : Prop :=
  h = stderrCallback ∨ ∃ t, LogEvent.set t (some h) ∈ events

section Delivered

variable {stderrCallback : η} {s : LogState τ η}

omit [DecidableEq τ] in
theorem Installed.cons {events : List (LogEvent τ η)} {h : η}
    (hinstalled : Installed stderrCallback events h) (e : LogEvent τ η) :
    Installed stderrCallback (e :: events) h :=
  hinstalled.imp_right fun ⟨t, ht⟩ => ⟨t, List.mem_cons_of_mem e ht⟩

omit [DecidableEq τ] in
/-- A serial run calls the handler that it began with, or one installed later. -/
theorem serial_installed (events : List (LogEvent τ η)) (q : Option η × List (Delivery τ η)) :
    ∀ d ∈ (events.foldl (serialStep stderrCallback) q).2,
      d ∈ q.2 ∨ q.1 = some d.2.1 ∨ Installed stderrCallback events d.2.1 := by
  induction events generalizing q with
  | nil => exact fun d hd => .inl hd
  | cons e events ih =>
      intro d hd
      rcases ih _ d hd with hbefore | hhandler | hlater
      · cases e with
        | set u callback => exact .inl hbefore
        | reset u => exact .inl hbefore
        | load u r =>
            rcases List.mem_append.mp hbefore with hold | hnew
            · exact .inl hold
            · obtain ⟨h, hq, rfl⟩ := Option.map_eq_some_iff.mp (Option.mem_toList.mp hnew)
              exact .inr (.inl hq)
        | call u => exact .inl hbefore
      · cases e with
        | set u callback =>
            right; right; right
            exact ⟨u, List.mem_cons.mpr (.inl (congrArg (LogEvent.set u) hhandler.symm))⟩
        | reset u => exact .inr (.inr (.inl (Option.some.inj hhandler).symm))
        | load u r => exact .inr (.inl hhandler)
        | call u => exact .inr (.inl hhandler)
      · exact .inr (.inr (hlater.cons e))

/-- While there is a handler, a serial run delivers every report. -/
theorem serial_messages (t : τ) (events : List (LogEvent τ η))
    (hnull : ∀ u, LogEvent.set u none ∉ events) (h : η) (delivered : List (Delivery τ η)) :
    (ofThread t (events.foldl (serialStep stderrCallback) (some h, delivered)).2).map (·.2.2) =
      (ofThread t delivered).map (·.2.2) ++ events.filterMap (messageOf t) := by
  induction events generalizing h delivered with
  | nil => exact (List.append_nil _).symm
  | cons e events ih =>
      have hrest : ∀ u, LogEvent.set u none ∉ events :=
        fun u hu => hnull u (List.mem_cons_of_mem _ hu)
      rw [List.foldl_cons]
      cases e with
      | set u callback =>
          cases callback with
          | none => exact absurd List.mem_cons_self (hnull u)
          | some h' => exact ih hrest h' delivered
      | reset u => exact ih hrest stderrCallback delivered
      | load u r =>
          have hnext := ih hrest h (delivered ++ [(u, h, r.message)])
          rw [ofThread_append, List.map_append, List.append_assoc] at hnext
          refine hnext.trans (congrArg _ ?_)
          by_cases hu : u = t
          · subst hu
            rw [ofThread_singleton_self, List.filterMap_cons, messageOf, if_pos rfl]
            rfl
          · rw [ofThread_singleton_of_ne hu, List.filterMap_cons, messageOf, if_neg hu]
            rfl
      | call u => exact ih hrest h delivered

/-- Only handlers that were installed are called. While no thread takes the handler
away, every report is delivered, once and in the order of the thread that reports. -/
theorem run_delivers {events : List (LogEvent τ η)}
    (hrun : (LogState.initial stderrCallback).run stderrCallback events = some s) :
    (∀ d ∈ s.delivered, Installed stderrCallback events d.2.1) ∧
      ((∀ t, LogEvent.set t none ∉ events) → ∀ t, s.loaded t = none →
        (ofThread t s.delivered).map (·.2.2) = events.filterMap (messageOf t)) := by
  have h := (serialized_initial stderrCallback).run hrun
  refine ⟨fun d hd => ?_, fun hnull t hdone => ?_⟩
  · rcases serial_installed events _ d (h.mem_of_mem hd) with hnone | hfirst | hlater
    · cases hnone
    · exact .inl (Option.some.inj hfirst).symm
    · exact hlater
  · rw [h.ofThread_eq hdone]
    exact serial_messages t events hnull stderrCallback []

end Delivered

/-- The second thread loads a handler, and the first takes it away before the call. -/
def storeInBetween : List (LogEvent Bool Nat) :=
  [.set false (some 1), .load true ⟨"p".toList, none, none, none, none⟩, .set false none,
    .call true]

theorem exists_run_storeInBetween :
    ∃ s, (LogState.initial 0).run 0 storeInBetween = some s ∧ ∀ t, s.loaded t = none :=
  ⟨_, rfl, fun t => by cases t <;> rfl⟩

theorem run_serialized_storeInBetween :
    ∃ s, (LogState.initial 0).run 0 storeInBetween = some s ∧ s.handler = none ∧
      ofThread true s.delivered = ofThread true (serial 0 storeInBetween).2 := by
  obtain ⟨s, hrun, hdone⟩ := exists_run_storeInBetween
  obtain ⟨hhandler, hthread, -⟩ := run_serialized hrun hdone
  exact ⟨s, hrun, hhandler, hthread true⟩

/-- The handler is put back in between. -/
def resetInBetween : List (LogEvent Bool Nat) :=
  [.set false (some 1), .load true ⟨"p".toList, none, none, none, none⟩, .reset false, .call true]

theorem run_delivers_resetInBetween :
    ∃ s, (LogState.initial 0).run 0 resetInBetween = some s ∧
      (∀ d ∈ s.delivered, Installed 0 resetInBetween d.2.1) ∧
      ∀ t, (ofThread t s.delivered).map (·.2.2) = resetInBetween.filterMap (messageOf t) := by
  obtain ⟨s, hrun, hdone⟩ : ∃ s, (LogState.initial 0).run 0 resetInBetween = some s ∧
      ∀ t, s.loaded t = none := ⟨_, rfl, fun t => by cases t <;> rfl⟩
  obtain ⟨hinstalled, hmessages⟩ := run_delivers hrun
  exact ⟨s, hrun, hinstalled, fun t => hmessages (by simp [resetInBetween]) t (hdone t)⟩

end Ffilesystem
