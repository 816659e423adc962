import Mathlib.Data.List.Basic

/-!
# Event streams

A queue that a producer pushes events to and that consumers wait on. Whatever the order in which
they take turns, the events that were delivered and those that are queued are, in order, the events
pushed up to the one that completes the stream, and nobody waits any more once it has ended.
-/

namespace Draht

/-- Which event completes a stream, and the result that it carries. -/
structure Completion (α ρ : Type*) where
  isComplete : α → Bool
  extractResult : α → ρ

/-- A stream, with what each consumer was delivered and the consumers that were told its end. -/
structure EventStream (ι α ρ : Type*) where
  queue : List α
  waiting : List ι
  done : Bool
  result : Option ρ
  delivered : List (ι × α)
  returned : List ι

inductive Produced (α ρ : Type*) where
  | push (event : α)
  | ended (result : Option ρ)
deriving DecidableEq

inductive StreamOp (ι α ρ : Type*) where
  | produce (op : Produced α ρ)
  | next (consumer : ι)

namespace EventStream

variable {ι α ρ : Type*} (C : Completion α ρ)

def empty : EventStream ι α ρ := ⟨[], [], false, none, [], []⟩

def resolve (s : EventStream ι α ρ) (result : Option ρ) : EventStream ι α ρ :=
  { s with result := s.result.or result }

def push (s : EventStream ι α ρ) (event : α) : EventStream ι α ρ :=
  if s.done then s
  else
    let s :=
      if C.isComplete event then
        { s with done := true, result := s.result.or (some (C.extractResult event)) }
      else s
    match s.waiting with
    | waiter :: waiting => { s with waiting, delivered := s.delivered ++ [(waiter, event)] }
    | [] => { s with queue := s.queue ++ [event] }

def finish (s : EventStream ι α ρ) (result : Option ρ) : EventStream ι α ρ :=
  { s with
    done := true
    result := s.result.or result
    waiting := []
    returned := s.returned ++ s.waiting }

def next (s : EventStream ι α ρ) (consumer : ι) : EventStream ι α ρ :=
  match s.queue with
  | event :: queue => { s with queue, delivered := s.delivered ++ [(consumer, event)] }
  | [] =>
    if s.done then { s with returned := s.returned ++ [consumer] }
    else { s with waiting := s.waiting ++ [consumer] }

def step (s : EventStream ι α ρ) : StreamOp ι α ρ → EventStream ι α ρ
  | .produce (.push event) => s.push C event
  | .produce (.ended result) => s.finish result
  | .next consumer => s.next consumer

def run (s : EventStream ι α ρ) (ops : List (StreamOp ι α ρ)) : EventStream ι α ρ :=
  ops.foldl (step C) s

def produced? : StreamOp ι α ρ → Option (Produced α ρ)
  | .produce op => some op
  | .next _ => none

/-- The events that are taken: those up to the completing one. -/
def accepted : Bool → List (Produced α ρ) → List α
  | _, [] => []
  | true, _ :: rest => accepted true rest
  | false, .push event :: rest => event :: accepted (C.isComplete event) rest
  | false, .ended _ :: rest => accepted true rest

def resultOf : Bool → List (Produced α ρ) → Option ρ
  | _, [] => none
  | true, .push _ :: rest => resultOf true rest
  | false, .push event :: rest =>
    if C.isComplete event then some (C.extractResult event) else resultOf false rest
  | _, .ended result :: rest => result.or (resultOf true rest)

def events (s : EventStream ι α ρ) : List α := s.delivered.map Prod.snd ++ s.queue

def Drained (s : EventStream ι α ρ) : Prop := s.waiting ≠ [] → s.queue = []

variable {C}

variable {s : EventStream ι α ρ}

theorem push_done (h : s.done = true) (event : α) : s.push C event = s := by
  rw [push, if_pos h]

theorem push_spec (hdrained : s.Drained) (h : s.done = false) (event : α) :
    (s.push C event).Drained ∧ (s.push C event).events = s.events ++ [event] ∧
      (s.push C event).done = C.isComplete event ∧
      (s.push C event).result =
        s.result.or (if C.isComplete event then some (C.extractResult event) else none) := by
  rw [push, if_neg (by simp [h])]
  cases hwaiting : s.waiting with
  | nil =>
    by_cases hcomplete : C.isComplete event = true
    · simp [hcomplete, Drained, events]
    · simp [hcomplete, hwaiting, Drained, events, h]
  | cons waiter waiting =>
    have hqueue : s.queue = [] := hdrained (by simp [hwaiting])
    by_cases hcomplete : C.isComplete event = true
    · simp [hcomplete, Drained, events, hqueue]
    · simp [hcomplete, hwaiting, Drained, events, hqueue, h]

theorem next_spec (hdrained : s.Drained) (consumer : ι) :
    (s.next consumer).Drained ∧ (s.next consumer).events = s.events ∧
      (s.next consumer).done = s.done ∧ (s.next consumer).result = s.result := by
  rw [next]
  cases hqueue : s.queue with
  | nil =>
    by_cases hdone : s.done = true
    · simp [hdone, Drained, events, hqueue]
    · simp [hdone, Drained, events, hqueue]
  | cons event queue =>
    have hwaiting : s.waiting = [] := by
      by_contra hne
      simp [hdrained hne] at hqueue
    simp [Drained, events, hqueue, hwaiting]

theorem run_spec (hdrained : s.Drained) (ops : List (StreamOp ι α ρ)) :
    (run C s ops).Drained ∧
      (run C s ops).events = s.events ++ accepted C s.done (ops.filterMap produced?) ∧
      (run C s ops).result = s.result.or (resultOf C s.done (ops.filterMap produced?)) := by
  induction ops generalizing s with
  | nil => simp [run, accepted, resultOf, hdrained]
  | cons op ops ih =>
    rw [run, List.foldl_cons]
    cases op with
    | next consumer =>
      obtain ⟨hnext, hevents, hdone, hresult⟩ := next_spec hdrained consumer
      obtain ⟨hrest, hrestEvents, hrestResult⟩ := ih hnext
      refine ⟨hrest, ?_, ?_⟩
      · exact hrestEvents.trans (by rw [hevents, hdone]; rfl)
      · exact hrestResult.trans (by rw [hresult, hdone]; rfl)
    | produce op =>
      cases op with
      | ended result =>
        obtain ⟨hrest, hrestEvents, hrestResult⟩ :=
          ih (s := s.finish result) (fun h => absurd rfl h)
        refine ⟨hrest, ?_, ?_⟩
        · refine hrestEvents.trans ?_
          cases hdone : s.done <;> rfl
        · refine hrestResult.trans ?_
          rw [finish, Option.or_assoc]
          cases hdone : s.done <;> rfl
      | push event =>
        cases hdone : s.done with
        | true =>
          have hstep : step C s (.produce (.push event)) = s := push_done hdone event
          rw [hstep]
          obtain ⟨hrest, hrestEvents, hrestResult⟩ := ih hdrained
          rw [hdone] at hrestEvents hrestResult
          exact ⟨hrest, hrestEvents, hrestResult⟩
        | false =>
          obtain ⟨hpush, hevents, hpushed, hresult⟩ := push_spec hdrained hdone event
          obtain ⟨hrest, hrestEvents, hrestResult⟩ := ih hpush
          refine ⟨hrest, ?_, ?_⟩
          · refine hrestEvents.trans ?_
            rw [hevents, hpushed, List.append_assoc]
            rfl
          · refine hrestResult.trans ?_
            rw [hresult, hpushed, Option.or_assoc]
            cases hcomplete : C.isComplete event <;> simp [produced?, resultOf, hcomplete]

theorem waiting_of_done (hdone : s.done = true) (hwaiting : s.waiting = [])
    (ops : List (StreamOp ι α ρ)) : (run C s ops).waiting = [] := by
  induction ops generalizing s with
  | nil => exact hwaiting
  | cons op ops ih =>
    rw [run, List.foldl_cons]
    cases op with
    | next consumer =>
      apply ih
      · rw [step, next]
        cases s.queue <;> simp [hdone]
      · rw [step, next]
        cases s.queue <;> simp [hdone, hwaiting]
    | produce op =>
      cases op with
      | ended result => exact ih rfl rfl
      | push event =>
        have hstep : step C s (.produce (.push event)) = s := push_done hdone event
        rw [hstep]
        exact ih hdone hwaiting

theorem waiting_of_ended {ops : List (StreamOp ι α ρ)} {result : Option ρ}
    (h : .ended result ∈ ops.filterMap produced?) : (run C s ops).waiting = [] := by
  induction ops generalizing s with
  | nil => simp at h
  | cons op ops ih =>
    cases op with
    | next consumer => exact ih h
    | produce op =>
      obtain rfl | h := List.mem_cons.mp h
      · exact waiting_of_done rfl rfl ops
      · exact ih h

end EventStream

end Draht
