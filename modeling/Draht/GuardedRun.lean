import Mathlib.Data.List.Basic

/-!
# Runs whose steps meet a condition

A system takes steps from state to state; an action says which. A guarded run is a run whose steps
all meet a condition on the action and on the state before it. What the start has and every such
step keeps, every state of a guarded run has.
-/

namespace Draht

structure Transition (σ α : Type*) where
  before : σ
  action : α
  after : σ

variable {σ α : Type*} {step : σ → α → Option σ} {ok ok' : σ → α → Prop} {s₀ s s' : σ}

/-- The runs from `s₀` in which every step meets `ok`, with the steps taken. -/
inductive GuardedRun (step : σ → α → Option σ) (ok : σ → α → Prop) (s₀ : σ) :
    List (Transition σ α) → σ → Prop
  | start : GuardedRun step ok s₀ [] s₀
  | step {steps : List (Transition σ α)} {s s' : σ} (a : α) :
      GuardedRun step ok s₀ steps s → ok s a → step s a = some s' →
        GuardedRun step ok s₀ (steps ++ [⟨s, a, s'⟩]) s'

namespace GuardedRun

variable {steps : List (Transition σ α)} {I : σ → Prop}

theorem induct {P : List (Transition σ α) → σ → Prop} (hstart : P [] s₀)
    (hstep : ∀ steps s a s', P steps s → ok s a → step s a = some s' →
      P (steps ++ [⟨s, a, s'⟩]) s') (h : GuardedRun step ok s₀ steps s) : P steps s := by
  induction h with
  | start => exact hstart
  | step a _ hok hs ih => exact hstep _ _ a _ ih hok hs

theorem invariant (hstart : I s₀) (hstep : ∀ s a s', I s → ok s a → step s a = some s' → I s')
    (h : GuardedRun step ok s₀ steps s) : I s :=
  h.induct (P := fun _ s => I s) hstart fun _ s a s' hI hok hs => hstep s a s' hI hok hs

theorem forall_step {Q : Transition σ α → Prop} (hstart : I s₀)
    (hstep : ∀ s a s', I s → ok s a → step s a = some s' → I s' ∧ Q ⟨s, a, s'⟩)
    (h : GuardedRun step ok s₀ steps s) : ∀ t ∈ steps, Q t := by
  refine (h.induct (P := fun steps s => I s ∧ ∀ t ∈ steps, Q t) ⟨hstart, by simp⟩ ?_).2
  intro steps s a s' ⟨hI, hQ⟩ hok hs
  obtain ⟨hI', hQ'⟩ := hstep s a s' hI hok hs
  refine ⟨hI', fun t ht => ?_⟩
  obtain ht | ht := List.mem_append.mp ht
  · exact hQ t ht
  · rw [List.mem_singleton.mp ht]
    exact hQ'

/-- The run of a list of actions, if each of them is possible and meets `ok`. -/
def play (step : σ → α → Option σ) (ok : σ → α → Prop) [∀ s a, Decidable (ok s a)]
    (done : List (Transition σ α)) (s : σ) : List α → Option (List (Transition σ α) × σ)
  | [] => some (done, s)
  | a :: actions =>
    if ok s a then (step s a).bind fun s' => play step ok (done ++ [⟨s, a, s'⟩]) s' actions
    else none

theorem of_play [∀ s a, Decidable (ok s a)] {done : List (Transition σ α)} {actions : List α}
    {out : List (Transition σ α) × σ} (hdone : GuardedRun step ok s₀ done s)
    (h : play step ok done s actions = some out) : GuardedRun step ok s₀ out.1 out.2 := by
  induction actions generalizing s done with
  | nil =>
    cases h
    exact hdone
  | cons a actions ih =>
    unfold play at h
    split_ifs at h with hok
    obtain ⟨s₁, hs₁, hrest⟩ := Option.bind_eq_some_iff.mp h
    exact ih (.step a hdone hok hs₁) hrest

theorem exists_of_play (step : σ → α → Option σ) (ok : σ → α → Prop) [∀ s a, Decidable (ok s a)]
    (s₀ : σ) (actions : List α) (P : List (Transition σ α) → σ → Prop)
    [∀ steps s, Decidable (P steps s)]
    (h : (play step ok [] s₀ actions).any (fun out => P out.1 out.2) = true) :
    ∃ steps s, GuardedRun step ok s₀ steps s ∧ P steps s := by
  obtain ⟨out, hout, hP⟩ := (Option.any_eq_true _ _).mp h
  exact ⟨out.1, out.2, of_play .start hout, of_decide_eq_true hP⟩

end GuardedRun

end Draht
