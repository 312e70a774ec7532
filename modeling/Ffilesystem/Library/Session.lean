import Mathlib.Data.List.Induction

/-!
# Sessions

A session is a list of requests, taken one after the other. What one request keeps
is kept by a session of any length. An observation that a quiet request leaves as
it is may be followed through a session as long as its requests are quiet in the
states that they meet, and the states in between may change in every other way.
-/

namespace Session

variable {σ ι β : Type*} (step : σ → ι → σ)

/-- The state after a list of requests. -/
def after (s : σ) (requests : List ι) : σ := requests.foldl step s

theorem after_concat (s : σ) (requests : List ι) (i : ι) :
    after step s (requests ++ [i]) = step (after step s requests) i := by
  rw [after, List.foldl_append, List.foldl_cons, List.foldl_nil]
  rfl

variable {step}

/-- What every request keeps holds after a session. -/
theorem after_invariant (Inv : σ → Prop) {requests : List ι}
    (hstep : ∀ s, ∀ i ∈ requests, Inv s → Inv (step s i)) {s : σ} (h : Inv s) :
    Inv (after step s requests) :=
  List.foldlRecOn requests step h fun s hs i hi => hstep s i hi hs

/-- Every request of the session is quiet in the state that it meets. -/
def Quietly (step : σ → ι → σ) (Quiet : σ → ι → Prop) (s : σ) (requests : List ι) : Prop :=
  ∀ front i rest, requests = front ++ i :: rest → Quiet (after step s front) i

theorem quietly_nil (Quiet : σ → ι → Prop) (s : σ) : Quietly step Quiet s [] := by
  intro front i rest hcut
  cases front with
  | nil => cases hcut
  | cons j front => cases hcut

theorem Quietly.cons {Quiet : σ → ι → Prop} {s : σ} {i : ι} {requests : List ι} (h : Quiet s i)
    (hrest : Quietly step Quiet (step s i) requests) : Quietly step Quiet s (i :: requests) := by
  intro front j rest hcut
  cases front with
  | nil =>
      cases hcut
      exact h
  | cons i' front =>
      obtain ⟨rfl, hcut'⟩ := List.cons.inj hcut
      exact hrest front j rest hcut'

/-- What every quiet request keeps holds after a session of such. -/
theorem after_quietly {Quiet : σ → ι → Prop} (Inv : σ → Prop)
    (hstep : ∀ s i, Quiet s i → Inv s → Inv (step s i)) {s : σ} {requests : List ι}
    (hquiet : Quietly step Quiet s requests) (h : Inv s) : Inv (after step s requests) := by
  induction requests using List.reverseRecOn with
  | nil => exact h
  | append_singleton requests i ih =>
      rw [after_concat]
      refine hstep _ i (hquiet requests i [] rfl) (ih ?_)
      intro front j rest hcut
      apply hquiet front j (rest ++ [i])
      rw [hcut, List.append_assoc, List.cons_append]

/-- An observation that no quiet request changes is the same after the session. -/
theorem after_frame {Quiet : σ → ι → Prop} (observe : σ → β)
    (hstep : ∀ s i, Quiet s i → observe (step s i) = observe s) {s : σ} {requests : List ι}
    (h : Quietly step Quiet s requests) : observe (after step s requests) = observe s :=
  after_quietly (fun s' => observe s' = observe s)
    (fun s' i hquiet heq => (hstep s' i hquiet).trans heq) h rfl

end Session
