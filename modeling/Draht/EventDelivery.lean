import Draht.EventStream

/-!
# Iterating over an event stream

The asynchronous iterator of an event stream, with the calls of `next` that it has not answered.
Each turn of its loop makes a promise: it is settled at once, or by the producer later, and the loop
goes on some time after that. In every order of these steps the calls are answered, in order, with
the events that were taken and then with the end.
-/

namespace Draht
open List

/-- Where the body of the iterator stands: before its first statement or at a `yield` that is
answered, at the promise with a number, or after its `return`. -/
inductive IteratorPhase where
  | suspended
  | awaiting (promise : ℕ)
  | completed
deriving DecidableEq

/-- A stream and its only iterator. Its promises are numbered, and `answers` are what the calls of
`next` got: an event, or that the stream is done. -/
structure Iteration (α ρ : Type*) where
  stream : EventStream ℕ α ρ
  phase : IteratorPhase
  promises : ℕ
  requests : ℕ
  answers : List (Option α)

/-- A call of the producer, a call of `next`, and the loop that goes on. -/
inductive IterationOp (α ρ : Type*) where
  | produce (op : Produced α ρ)
  | next
  | resume

namespace Iteration

variable {α ρ : Type*} (C : Completion α ρ)

def initial : Iteration α ρ := ⟨.empty, .suspended, 0, 0, []⟩

def settled? (stream : EventStream ℕ α ρ) (promise : ℕ) : Option (Option α) :=
  match stream.delivered.find? (·.1 = promise) with
  | some (_, event) => some (some event)
  | none => if promise ∈ stream.returned then some none else none

/-- The next turn of the loop, when a call of `next` asks for it. -/
def turn (s : Iteration α ρ) : Iteration α ρ :=
  if s.requests = 0 then { s with phase := .suspended }
  else
    { s with
      stream := s.stream.next s.promises
      phase := .awaiting s.promises
      promises := s.promises + 1 }

def next (s : Iteration α ρ) : Iteration α ρ :=
  match s.phase with
  | .suspended => turn { s with requests := s.requests + 1 }
  | .awaiting _ => { s with requests := s.requests + 1 }
  | .completed => { s with answers := s.answers ++ [none] }

/-- The loop goes on when its promise is settled. Its end answers every call. -/
def resume (s : Iteration α ρ) : Iteration α ρ :=
  match s.phase with
  | .awaiting promise =>
    match settled? s.stream promise with
    | some (some event) =>
      turn { s with requests := s.requests - 1, answers := s.answers ++ [some event] }
    | some none =>
      { s with
        phase := .completed
        requests := 0
        answers := s.answers ++ List.replicate s.requests none }
    | none => s
  | _ => s

def step (s : Iteration α ρ) : IterationOp α ρ → Iteration α ρ
  | .produce op => { s with stream := s.stream.step C (.produce op) }
  | .next => s.next
  | .resume => s.resume

def run (s : Iteration α ρ) (ops : List (IterationOp α ρ)) : Iteration α ρ := ops.foldl (step C) s

/-- Nothing is left to do before the next call of the producer or the consumer. -/
def Settled (s : Iteration α ρ) : Prop := s.resume = s

def produced? : IterationOp α ρ → Option (Produced α ρ)
  | .produce op => some op
  | _ => none

def isNext : IterationOp α ρ → Bool
  | .next => true
  | _ => false

def ends : Produced α ρ → Bool
  | .push event => C.isComplete event
  | .ended _ => true

/-- What so many calls of `next` are to be answered. -/
def expected (ops : List (IterationOp α ρ)) : List (Option α) :=
  let calls := ops.countP isNext
  let events := EventStream.accepted C false (ops.filterMap produced?)
  (events.take calls).map some ++
    if (ops.filterMap produced?).any (ends C) then List.replicate (calls - events.length) none
    else []

variable {C}

theorem turn_stream (s : Iteration α ρ) :
    s.turn.stream = s.stream ∨ s.turn.stream = s.stream.next s.promises := by
  unfold turn
  split_ifs
  · exact .inl rfl
  · exact .inr rfl

variable {s : Iteration α ρ} {event : α} {promise : ℕ}

theorem resume_event (hphase : s.phase = .awaiting promise)
    (h : settled? s.stream promise = some (some event)) : s.resume =
      turn { s with requests := s.requests - 1, answers := s.answers ++ [some event] } := by
  simp [resume, hphase, h]

theorem resume_end (hphase : s.phase = .awaiting promise)
    (h : settled? s.stream promise = some none) : s.resume =
      { s with
        phase := .completed
        requests := 0
        answers := s.answers ++ List.replicate s.requests none } := by
  simp [resume, hphase, h]

theorem resume_unsettled (hphase : s.phase = .awaiting promise)
    (h : settled? s.stream promise = none) : s.resume = s := by
  simp [resume, hphase, h]

theorem resume_idle (h : ∀ promise, s.phase ≠ .awaiting promise) : s.resume = s := by
  unfold resume
  cases hphase : s.phase with
  | awaiting promise => exact absurd hphase (h promise)
  | suspended => rfl
  | completed => rfl

theorem resume_stream (s : Iteration α ρ) :
    s.resume.stream = s.stream ∨ s.resume.stream = s.stream.next s.promises := by
  by_cases hidle : ∀ promise, s.phase ≠ .awaiting promise
  · exact .inl (by rw [resume_idle hidle])
  · push Not at hidle
    obtain ⟨promise, hphase⟩ := hidle
    rcases hsettled : settled? s.stream promise with _ | _ | event
    · exact .inl (by rw [resume_unsettled hphase hsettled])
    · exact .inl (by rw [resume_end hphase hsettled])
    · rw [resume_event hphase hsettled]
      exact turn_stream _

theorem next_stream (s : Iteration α ρ) :
    s.next.stream = s.stream ∨ s.next.stream = s.stream.next s.promises := by
  unfold next
  cases s.phase with
  | suspended => exact turn_stream { s with requests := s.requests + 1 }
  | awaiting promise => exact .inl rfl
  | completed => exact .inl rfl

theorem step_stream (s : Iteration α ρ) (op : IterationOp α ρ) :
    (∃ call, op = .produce call ∧ (s.step C op).stream = s.stream.step C (.produce call)) ∨
      (produced? op = none ∧
        ((s.step C op).stream = s.stream ∨ (s.step C op).stream = s.stream.next s.promises)) := by
  cases op with
  | produce call => exact .inl ⟨call, rfl, rfl⟩
  | next => exact .inr ⟨rfl, next_stream s⟩
  | resume => exact .inr ⟨rfl, resume_stream s⟩

theorem run_stream (s : Iteration α ρ) (ops : List (IterationOp α ρ)) :
    ∃ streamOps, (s.run C ops).stream = s.stream.run C streamOps ∧
      streamOps.filterMap EventStream.produced? = ops.filterMap produced? := by
  induction ops generalizing s with
  | nil => exact ⟨[], rfl, rfl⟩
  | cons op ops ih =>
    obtain ⟨streamOps, hrun, hproduced⟩ := ih (s.step C op)
    obtain ⟨call, rfl, hstep⟩ | ⟨hop, hstep | hstep⟩ := step_stream (C := C) s op
    · refine ⟨.produce call :: streamOps, hrun.trans (by rw [hstep]; rfl), ?_⟩
      simp [EventStream.produced?, produced?, hproduced]
    · refine ⟨streamOps, ?_, by simp [hop, hproduced]⟩
      exact hrun.trans (by rw [hstep])
    · refine ⟨.next s.promises :: streamOps, hrun.trans (by rw [hstep]; rfl), ?_⟩
      rw [filterMap_cons_none hop, filterMap_cons_none rfl, hproduced]

def taken (s : Iteration α ρ) : List (Option α) := s.stream.delivered.map fun d => some d.2

/-- What is true of the stream and of the answers where the body stands. -/
inductive Stands (s : Iteration α ρ) : Prop where
  | suspended (phase : s.phase = .suspended) (waiting : s.stream.waiting = [])
      (returned : s.stream.returned = []) (requests : s.requests = 0)
      (answers : s.answers = taken s)
  | waiting (promise : ℕ) (phase : s.phase = .awaiting promise)
      (waiting : s.stream.waiting = [promise]) (queue : s.stream.queue = [])
      (done : s.stream.done = false) (returned : s.stream.returned = [])
      (new : ∀ d ∈ s.stream.delivered, d.1 ≠ promise) (numbered : promise < s.promises)
      (requests : 0 < s.requests) (answers : s.answers = taken s)
  | delivered (promise : ℕ) (event : α) (before : List (ℕ × α))
      (phase : s.phase = .awaiting promise) (waiting : s.stream.waiting = [])
      (returned : s.stream.returned = [])
      (delivered : s.stream.delivered = before ++ [(promise, event)])
      (new : ∀ d ∈ before, d.1 ≠ promise) (requests : 0 < s.requests)
      (answers : s.answers = before.map fun d => some d.2)
  | returned (promise : ℕ) (phase : s.phase = .awaiting promise) (waiting : s.stream.waiting = [])
      (queue : s.stream.queue = []) (done : s.stream.done = true)
      (returned : s.stream.returned = [promise])
      (new : ∀ d ∈ s.stream.delivered, d.1 ≠ promise) (requests : 0 < s.requests)
      (answers : s.answers = taken s)
  | completed (calls : ℕ) (phase : s.phase = .completed) (waiting : s.stream.waiting = [])
      (queue : s.stream.queue = []) (done : s.stream.done = true) (requests : s.requests = 0)
      (answers : s.answers = taken s ++ List.replicate calls none)

structure Inv (s : Iteration α ρ) : Prop where
  stands : Stands s
  numbered : ∀ d ∈ s.stream.delivered, d.1 < s.promises

theorem settled?_new {stream : EventStream ℕ α ρ} (hnew : ∀ d ∈ stream.delivered, d.1 ≠ promise) :
    settled? stream promise = if promise ∈ stream.returned then some none else none := by
  have hnone : stream.delivered.find? (·.1 = promise) = none :=
    find?_eq_none.mpr fun d hd => by simpa using hnew d hd
  rw [settled?, hnone]

theorem settled?_delivered {stream : EventStream ℕ α ρ} {before : List (ℕ × α)}
    (hdelivered : stream.delivered = before ++ [(promise, event)])
    (hnew : ∀ d ∈ before, d.1 ≠ promise) : settled? stream promise = some (some event) := by
  have hnone : before.find? (·.1 = promise) = none :=
    find?_eq_none.mpr fun d hd => by simpa using hnew d hd
  rw [settled?, hdelivered, find?_append, hnone]
  simp

theorem inv_turn (hwaiting : s.stream.waiting = []) (hreturned : s.stream.returned = [])
    (hanswers : s.answers = taken s) (hnumbered : ∀ d ∈ s.stream.delivered, d.1 < s.promises) :
    Inv s.turn := by
  have hnew : ∀ d ∈ s.stream.delivered, d.1 ≠ s.promises := fun d hd =>
    Nat.ne_of_lt (hnumbered d hd)
  unfold turn
  split_ifs with hrequests
  · exact ⟨.suspended rfl hwaiting hreturned hrequests hanswers, hnumbered⟩
  · have hpos : 0 < s.requests := Nat.pos_of_ne_zero hrequests
    cases hqueue : s.stream.queue with
    | cons event queue =>
      have hdelivered : (s.stream.next s.promises).delivered =
          s.stream.delivered ++ [(s.promises, event)] := by
        simp [EventStream.next, hqueue]
      refine ⟨.delivered s.promises event s.stream.delivered rfl ?_ ?_ hdelivered hnew hpos
        hanswers, fun d hd => ?_⟩
      · simpa [EventStream.next, hqueue] using hwaiting
      · simpa [EventStream.next, hqueue] using hreturned
      · rw [hdelivered, mem_append, mem_singleton] at hd
        obtain hd | rfl := hd
        · exact Nat.lt_succ_of_lt (hnumbered d hd)
        · exact Nat.lt_succ_self _
    | nil =>
      have hdelivered : (s.stream.next s.promises).delivered = s.stream.delivered := by
        by_cases hdone : s.stream.done = true <;> simp [EventStream.next, hqueue, hdone]
      have hafter : ∀ d ∈ (s.stream.next s.promises).delivered, d.1 < s.promises + 1 := by
        intro d hd
        rw [hdelivered] at hd
        exact Nat.lt_succ_of_lt (hnumbered d hd)
      have htaken : s.answers = (s.stream.next s.promises).delivered.map fun d => some d.2 := by
        rw [hdelivered]
        exact hanswers
      by_cases hdone : s.stream.done = true
      · refine ⟨.returned s.promises rfl ?_ ?_ ?_ ?_ ?_ hpos htaken, hafter⟩
        · simpa [EventStream.next, hqueue, hdone] using hwaiting
        · simp [EventStream.next, hqueue, hdone]
        · simp [EventStream.next, hqueue, hdone]
        · simp [EventStream.next, hqueue, hdone, hreturned]
        · rwa [hdelivered]
      · refine ⟨.waiting s.promises rfl ?_ ?_ ?_ ?_ ?_ (Nat.lt_succ_self _) hpos htaken, hafter⟩
        · simp [EventStream.next, hqueue, hdone, hwaiting]
        · simp [EventStream.next, hqueue, hdone]
        · simp [EventStream.next, hqueue, hdone]
        · simpa [EventStream.next, hqueue, hdone] using hreturned
        · rwa [hdelivered]

theorem Inv.next (h : Inv s) : Inv s.next := by
  obtain ⟨hstands, hnumbered⟩ := h
  cases hstands with
  | suspended hphase hwaiting hreturned _ hanswers =>
    simp only [Iteration.next, hphase]
    exact inv_turn hwaiting hreturned hanswers hnumbered
  | waiting promise hphase hwaiting hqueue hdone hreturned hnew hlt _ hanswers =>
    simp only [Iteration.next, hphase]
    exact ⟨.waiting promise rfl hwaiting hqueue hdone hreturned hnew hlt
      (Nat.succ_pos _) hanswers, hnumbered⟩
  | delivered promise event before hphase hwaiting hreturned hdelivered hnew _ hanswers =>
    simp only [Iteration.next, hphase]
    exact ⟨.delivered promise event before rfl hwaiting hreturned hdelivered hnew
      (Nat.succ_pos _) hanswers, hnumbered⟩
  | returned promise hphase hwaiting hqueue hdone hreturned hnew _ hanswers =>
    simp only [Iteration.next, hphase]
    exact ⟨.returned promise rfl hwaiting hqueue hdone hreturned hnew (Nat.succ_pos _) hanswers,
      hnumbered⟩
  | completed calls hphase hwaiting hqueue hdone hrequests hanswers =>
    simp only [Iteration.next, hphase]
    refine ⟨.completed (calls + 1) rfl hwaiting hqueue hdone hrequests ?_, hnumbered⟩
    rw [hanswers, append_assoc, ← replicate_succ']
    rfl

theorem Inv.resume (h : Inv s) : Inv s.resume := by
  obtain ⟨hstands, hnumbered⟩ := h
  cases hstands with
  | suspended hphase hwaiting hreturned hrequests hanswers =>
    rw [resume_idle (by simp [hphase])]
    exact ⟨.suspended hphase hwaiting hreturned hrequests hanswers, hnumbered⟩
  | waiting promise hphase hwaiting hqueue hdone hreturned hnew hlt hrequests hanswers =>
    rw [resume_unsettled hphase (by simp [settled?_new hnew, hreturned])]
    exact ⟨.waiting promise hphase hwaiting hqueue hdone hreturned hnew hlt hrequests
      hanswers, hnumbered⟩
  | delivered promise event before hphase hwaiting hreturned hdelivered hnew _ hanswers =>
    rw [resume_event hphase (settled?_delivered hdelivered hnew)]
    refine inv_turn hwaiting hreturned ?_ hnumbered
    simp [taken, hdelivered, hanswers]
  | returned promise hphase hwaiting hqueue hdone hreturned hnew _ hanswers =>
    rw [resume_end hphase (by simp [settled?_new hnew, hreturned])]
    refine ⟨.completed s.requests rfl hwaiting hqueue hdone rfl ?_, hnumbered⟩
    exact congrArg (· ++ List.replicate s.requests none) hanswers
  | completed calls hphase hwaiting hqueue hdone hrequests hanswers =>
    rw [resume_idle (by simp [hphase])]
    exact ⟨.completed calls hphase hwaiting hqueue hdone hrequests hanswers, hnumbered⟩

theorem push_queued {stream : EventStream ℕ α ρ} (hdone : stream.done = false)
    (hwaiting : stream.waiting = []) (event : α) :
    (stream.push C event).waiting = [] ∧ (stream.push C event).delivered = stream.delivered ∧
      (stream.push C event).returned = stream.returned := by
  by_cases hcomplete : C.isComplete event = true <;>
    simp [EventStream.push, hdone, hwaiting, hcomplete]

theorem push_handed {stream : EventStream ℕ α ρ} (hdone : stream.done = false)
    (hwaiting : stream.waiting = [promise]) (event : α) :
    (stream.push C event).waiting = [] ∧
      (stream.push C event).delivered = stream.delivered ++ [(promise, event)] ∧
      (stream.push C event).returned = stream.returned := by
  by_cases hcomplete : C.isComplete event = true <;>
    simp [EventStream.push, hdone, hwaiting, hcomplete]

theorem Inv.push (h : Inv s) (event : α) : Inv { s with stream := s.stream.push C event } := by
  by_cases hdone : s.stream.done = true
  · rw [EventStream.push_done hdone]
    exact h
  · have hdone : s.stream.done = false := Bool.eq_false_iff.mpr hdone
    obtain ⟨hstands, hnumbered⟩ := h
    cases hstands with
    | suspended hphase hwaiting hreturned hrequests hanswers =>
      obtain ⟨hw, hd, hr⟩ := push_queued (C := C) hdone hwaiting event
      refine ⟨.suspended hphase hw (hr.trans hreturned) hrequests ?_, hd ▸ hnumbered⟩
      exact hanswers.trans (by rw [taken, taken, hd])
    | waiting promise hphase hwaiting _ _ hreturned hnew hlt hrequests hanswers =>
      obtain ⟨hw, hd, hr⟩ := push_handed (C := C) hdone hwaiting event
      refine ⟨.delivered promise event s.stream.delivered hphase hw (hr.trans hreturned) hd hnew
        hrequests hanswers, fun d hmem => ?_⟩
      rw [hd, mem_append, mem_singleton] at hmem
      obtain hmem | rfl := hmem
      · exact hnumbered d hmem
      · exact hlt
    | delivered promise first before hphase hwaiting hreturned hdelivered hnew hrequests hanswers =>
      obtain ⟨hw, hd, hr⟩ := push_queued (C := C) hdone hwaiting event
      exact ⟨.delivered promise first before hphase hw (hr.trans hreturned)
        (hd.trans hdelivered) hnew hrequests hanswers, hd ▸ hnumbered⟩
    | returned _ _ _ _ hended => exact absurd hended (by simp [hdone])
    | completed _ _ _ _ hended => exact absurd hended (by simp [hdone])

theorem Inv.finish (h : Inv s) (result : Option ρ) :
    Inv { s with stream := s.stream.finish result } := by
  obtain ⟨hstands, hnumbered⟩ := h
  cases hstands with
  | suspended hphase hwaiting hreturned hrequests hanswers =>
    refine ⟨.suspended hphase rfl ?_ hrequests hanswers, hnumbered⟩
    rw [EventStream.finish, hreturned, hwaiting, append_nil]
  | waiting promise hphase hwaiting hqueue _ hreturned hnew _ hrequests hanswers =>
    refine ⟨.returned promise hphase rfl hqueue rfl ?_ hnew hrequests hanswers, hnumbered⟩
    rw [EventStream.finish, hreturned, hwaiting, nil_append]
  | delivered promise event before hphase hwaiting hreturned hdelivered hnew hrequests hanswers =>
    refine ⟨.delivered promise event before hphase rfl ?_ hdelivered hnew hrequests hanswers,
      hnumbered⟩
    rw [EventStream.finish, hreturned, hwaiting, append_nil]
  | returned promise hphase hwaiting hqueue _ hreturned hnew hrequests hanswers =>
    refine ⟨.returned promise hphase rfl hqueue rfl ?_ hnew hrequests hanswers, hnumbered⟩
    rw [EventStream.finish, hreturned, hwaiting, append_nil]
  | completed calls hphase _ hqueue _ hrequests hanswers =>
    exact ⟨.completed calls hphase rfl hqueue rfl hrequests hanswers, hnumbered⟩

theorem Inv.step (h : Inv s) (op : IterationOp α ρ) : Inv (s.step C op) := by
  cases op with
  | next => exact h.next
  | resume => exact h.resume
  | produce call =>
    cases call with
    | push event => exact h.push event
    | ended result => exact h.finish result

theorem inv_initial : Inv (initial : Iteration α ρ) :=
  ⟨.suspended rfl rfl rfl rfl rfl, by simp [initial, EventStream.empty]⟩

theorem Inv.run (h : Inv s) (ops : List (IterationOp α ρ)) : Inv (s.run C ops) := by
  induction ops generalizing s with
  | nil => exact h
  | cons op ops ih => exact ih (h.step op)

@[simp] theorem turn_answers (s : Iteration α ρ) : s.turn.answers = s.answers := by
  unfold turn
  split_ifs <;> rfl

@[simp] theorem turn_requests (s : Iteration α ρ) : s.turn.requests = s.requests := by
  unfold turn
  split_ifs <;> rfl

theorem calls_next (s : Iteration α ρ) :
    s.next.answers.length + s.next.requests = s.answers.length + s.requests + 1 := by
  unfold next
  cases s.phase with
  | suspended => simp only [turn_answers, turn_requests, Nat.add_assoc]
  | awaiting promise => simp only [Nat.add_assoc]
  | completed =>
    simp only [length_append, length_singleton]
    omega

theorem Inv.calls_resume (h : Inv s) :
    s.resume.answers.length + s.resume.requests = s.answers.length + s.requests := by
  cases h.stands with
  | suspended hphase => rw [resume_idle (by simp [hphase])]
  | waiting promise hphase _ _ _ hreturned hnew =>
    rw [resume_unsettled hphase (by simp [settled?_new hnew, hreturned])]
  | delivered promise event before hphase _ _ hdelivered hnew hrequests =>
    rw [resume_event hphase (settled?_delivered hdelivered hnew)]
    simp only [turn_answers, turn_requests, length_append, length_singleton]
    omega
  | returned promise hphase _ _ _ hreturned hnew =>
    rw [resume_end hphase (by simp [settled?_new hnew, hreturned])]
    simp only [length_append, length_replicate]
    omega
  | completed calls hphase => rw [resume_idle (by simp [hphase])]

theorem Inv.calls_run (h : Inv s) (ops : List (IterationOp α ρ)) :
    (s.run C ops).answers.length + (s.run C ops).requests =
      s.answers.length + s.requests + ops.countP isNext := by
  induction ops generalizing s with
  | nil => rfl
  | cons op ops ih =>
    have hrest := ih (h.step (C := C) op)
    refine hrest.trans ?_
    cases op with
    | produce call => rfl
    | next =>
      rw [countP_cons_of_pos rfl, show (s.step C .next) = s.next from rfl, calls_next]
      omega
    | resume =>
      rw [countP_cons_of_neg (by simp [isNext]), show s.step C .resume = s.resume from rfl,
        h.calls_resume]

theorem Inv.answers (h : Inv s) :
    ∃ shown ends, s.answers = shown ++ List.replicate ends none ∧ shown <+: taken s ∧
      (0 < ends → shown = taken s ∧ s.stream.queue = [] ∧ s.stream.done = true) := by
  have hnone : s.answers <+: taken s → ∃ shown ends, s.answers = shown ++ List.replicate ends none ∧
      shown <+: taken s ∧
        (0 < ends → shown = taken s ∧ s.stream.queue = [] ∧ s.stream.done = true) := by
    intro hle
    exact ⟨s.answers, 0, by simp, hle, fun hpos => absurd hpos (Nat.lt_irrefl 0)⟩
  cases h.stands with
  | suspended _ _ _ _ hanswers => exact hnone (hanswers ▸ prefix_rfl)
  | waiting _ _ _ _ _ _ _ _ _ hanswers => exact hnone (hanswers ▸ prefix_rfl)
  | delivered promise event before _ _ _ hdelivered _ _ hanswers =>
    apply hnone
    rw [taken, hdelivered, map_append, ← hanswers]
    exact prefix_append _ _
  | returned _ _ _ _ _ _ _ _ hanswers => exact hnone (hanswers ▸ prefix_rfl)
  | completed calls _ _ hqueue hdone _ hanswers =>
    exact ⟨taken s, calls, hanswers, prefix_rfl, fun _ => ⟨rfl, hqueue, hdone⟩⟩

theorem Inv.answers_of_settled (h : Inv s) (hsettled : Settled s) :
    ∃ ends, s.answers = taken s ++ List.replicate ends none ∧
      (0 < ends → s.stream.queue = [] ∧ s.stream.done = true) ∧
      (0 < s.requests → ends = 0 ∧ s.stream.queue = [] ∧ s.stream.done = false) := by
  cases h.stands with
  | suspended _ _ _ hrequests hanswers =>
    exact ⟨0, by simpa using hanswers, by simp, by simp [hrequests]⟩
  | waiting _ _ _ hqueue hdone _ _ _ _ hanswers =>
    exact ⟨0, by simpa using hanswers, by simp, fun _ => ⟨rfl, hqueue, hdone⟩⟩
  | delivered promise event before hphase _ _ hdelivered hnew _ hanswers =>
    have hlength := congrArg (·.answers.length) hsettled
    simp [resume_event hphase (settled?_delivered hdelivered hnew)] at hlength
  | returned promise hphase _ _ _ hreturned hnew =>
    have hafter := congrArg (·.phase) hsettled
    simp [resume_end hphase (by simp [settled?_new hnew, hreturned]), hphase] at hafter
  | completed calls _ _ hqueue hdone hrequests hanswers =>
    exact ⟨calls, hanswers, fun _ => ⟨hqueue, hdone⟩, by simp [hrequests]⟩

theorem Inv.resume_cases (h : Inv s) : Settled s ∨ s.resume.requests < s.requests := by
  cases h.stands with
  | suspended hphase => exact .inl (resume_idle (by simp [hphase]))
  | waiting promise hphase _ _ _ hreturned hnew =>
    exact .inl (resume_unsettled hphase (by simp [settled?_new hnew, hreturned]))
  | delivered promise event before hphase _ _ hdelivered hnew hrequests =>
    rw [resume_event hphase (settled?_delivered hdelivered hnew)]
    refine .inr ?_
    rw [turn_requests]
    exact Nat.sub_lt hrequests Nat.one_pos
  | returned promise hphase _ _ _ hreturned hnew hrequests =>
    rw [resume_end hphase (by simp [settled?_new hnew, hreturned])]
    exact .inr hrequests
  | completed calls hphase => exact .inl (resume_idle (by simp [hphase]))

theorem run_settled (h : Settled s) (n : ℕ) : s.run C (List.replicate n .resume) = s := by
  induction n with
  | zero => rfl
  | succ n ih => exact (congrArg (run C · (List.replicate n .resume)) h).trans ih

theorem Inv.settled_resume (h : Inv s) {n : ℕ} (hn : s.requests ≤ n) :
    Settled (s.run C (List.replicate n .resume)) := by
  induction n generalizing s with
  | zero =>
    obtain hsettled | hlt := h.resume_cases
    · exact hsettled
    · exact absurd hlt (by omega)
  | succ n ih =>
    obtain hsettled | hlt := h.resume_cases
    · rw [run_settled hsettled]
      exact hsettled
    · have hle : s.resume.requests ≤ n := by omega
      exact ih h.resume hle

end Iteration

namespace EventStream

variable {ι α ρ : Type*} {C : Completion α ρ}

theorem done_run (s : EventStream ι α ρ) (ops : List (StreamOp ι α ρ)) :
    (run C s ops).done = (s.done || (ops.filterMap produced?).any (Iteration.ends C)) := by
  induction ops generalizing s with
  | nil => simp [run]
  | cons op ops ih =>
    refine (ih _).trans ?_
    cases op with
    | next consumer =>
      have hdone : (s.next consumer).done = s.done := by
        unfold next
        cases s.queue with
        | cons event queue => rfl
        | nil => by_cases hdone : s.done = true <;> simp [hdone]
      exact congrArg (· || _) hdone
    | produce op =>
      cases op with
      | ended result => simp [step, finish, produced?, Iteration.ends]
      | push event =>
        have hdone : (s.push C event).done = (s.done || C.isComplete event) := by
          unfold push
          split_ifs with hdone hcomplete
          · simp [hdone]
          · cases s.waiting <;> simp [hcomplete]
          · cases hwaiting : s.waiting <;> simp [hcomplete, hwaiting]
        simp [step, hdone, produced?, Iteration.ends, Bool.or_assoc]

end EventStream

namespace Iteration

variable {α ρ : Type*} (C : Completion α ρ)

variable (ops : List (IterationOp α ρ))

theorem stream_of_run : let s := run C initial ops
    s.stream.Drained ∧
      s.stream.events = EventStream.accepted C false (ops.filterMap produced?) ∧
      s.stream.result = EventStream.resultOf C false (ops.filterMap produced?) ∧
      s.stream.done = (ops.filterMap produced?).any (ends C) := by
  obtain ⟨streamOps, hrun, hproduced⟩ := run_stream (C := C) initial ops
  have hempty : (initial : Iteration α ρ).stream.Drained := fun h => absurd rfl h
  obtain ⟨hdrained, hevents, hresult⟩ := EventStream.run_spec (C := C) hempty streamOps
  have hdone := EventStream.done_run (C := C) initial.stream streamOps
  rw [hproduced] at hevents hresult hdone
  dsimp only
  rw [hrun]
  refine ⟨hdrained, ?_, ?_, ?_⟩
  · simpa [initial, EventStream.empty, EventStream.events] using hevents
  · simpa [initial, EventStream.empty] using hresult
  · simpa [initial, EventStream.empty] using hdone

theorem taken_eq (s : Iteration α ρ) : taken s = (s.stream.delivered.map Prod.snd).map some := by
  rw [taken, map_map]
  rfl

variable {s : Iteration α ρ}

theorem expected_eq {ops : List (IterationOp α ρ)}
    (hevents : s.stream.events = EventStream.accepted C false (ops.filterMap produced?))
    (hdone : s.stream.done = (ops.filterMap produced?).any (ends C)) :
    expected C ops = (s.stream.events.map some).take (ops.countP isNext) ++
      if s.stream.done then
        List.replicate (ops.countP isNext - s.stream.events.length) none
      else [] := by
  rw [expected, ← hevents, ← hdone, map_take]

theorem taken_of_queue (hqueue : s.stream.queue = []) : taken s = s.stream.events.map some := by
  rw [taken_eq, EventStream.events, hqueue, append_nil]

theorem answers_prefix_expected : (run C initial ops).answers <+: expected C ops := by
  have hinv : Inv (run C initial ops) := inv_initial.run ops
  have hcalls := inv_initial.calls_run (C := C) ops
  obtain ⟨_, hevents, _, hdone⟩ := stream_of_run C ops
  generalize run C initial ops = s at hinv hcalls hevents hdone ⊢
  obtain ⟨shown, ends, hanswers, hshown, hends⟩ := hinv.answers
  have hlength : shown.length + ends ≤ ops.countP isNext := by
    have hanswered := congrArg List.length hanswers
    rw [length_append, length_replicate] at hanswered
    simp only [initial, length_nil] at hcalls
    omega
  rw [expected_eq C hevents hdone, hanswers]
  obtain rfl | hpos := Nat.eq_zero_or_pos ends
  · rw [replicate_zero, append_nil]
    refine (prefix_take_iff.mpr ⟨hshown.trans ?_, hlength⟩).trans (prefix_append _ _)
    rw [taken_eq, EventStream.events, map_append]
    exact prefix_append _ _
  · obtain ⟨rfl, hqueue, hended⟩ := hends hpos
    rw [taken_of_queue hqueue, length_map] at *
    rw [if_pos hended, take_of_length_le (by rw [length_map]; omega)]
    obtain ⟨more, hmore⟩ := Nat.exists_eq_add_of_le (Nat.le_sub_of_add_le' hlength)
    rw [hmore, replicate_add, ← append_assoc]
    exact prefix_append _ _

theorem answers_eq_expected (h : Settled (run C initial ops)) :
    (run C initial ops).answers = expected C ops := by
  have hinv : Inv (run C initial ops) := inv_initial.run ops
  have hcalls := inv_initial.calls_run (C := C) ops
  obtain ⟨_, hevents, _, hdone⟩ := stream_of_run C ops
  generalize run C initial ops = s at h hinv hcalls hevents hdone ⊢
  obtain ⟨ends, hanswers, hends, hpending⟩ := hinv.answers_of_settled h
  have hanswered := congrArg List.length hanswers
  rw [length_append, length_replicate] at hanswered
  simp only [initial, length_nil] at hcalls
  have htaken : (taken s).length = s.stream.delivered.length := length_map ..
  have hsplit : s.stream.events.map some = taken s ++ s.stream.queue.map some := by
    rw [taken_eq, EventStream.events, map_append]
  have hevent : s.stream.events.length = s.stream.delivered.length + s.stream.queue.length := by
    rw [EventStream.events, length_append, length_map]
  rw [expected_eq C hevents hdone, hanswers, hsplit]
  obtain hrequests | hpos := Nat.eq_zero_or_pos s.requests
  · obtain rfl | hpos := Nat.eq_zero_or_pos ends
    · -- Each call got an event.
      have hall : ops.countP isNext = (taken s).length := by omega
      have hnone : ops.countP isNext - s.stream.events.length = 0 := by omega
      rw [hall, take_left, ← hall, hnone, replicate_zero, ite_self]
    · -- The calls after the last event were told the end.
      obtain ⟨hqueue, hended⟩ := hends hpos
      rw [hqueue, length_nil] at hevent
      have hrest : ops.countP isNext - s.stream.events.length = ends := by omega
      rw [hqueue, map_nil, append_nil, if_pos hended, hrest, take_of_length_le (by omega)]
  · -- Some calls wait for an event that was not pushed yet.
    obtain ⟨rfl, hqueue, hopen⟩ := hpending hpos
    rw [hqueue, map_nil, append_nil, if_neg (by simp [hopen]), replicate_zero,
      take_of_length_le (by omega)]

theorem requests_of_ended (h : Settled (run C initial ops))
    (hended : (ops.filterMap produced?).any (ends C) = true) : (run C initial ops).requests = 0 := by
  have hinv : Inv (run C initial ops) := inv_initial.run ops
  obtain ⟨_, _, _, hdone⟩ := stream_of_run C ops
  obtain ⟨ends, _, _, hpending⟩ := hinv.answers_of_settled h
  by_contra hrequests
  have hopen := (hpending (Nat.pos_of_ne_zero hrequests)).2.2
  rw [hdone, hended] at hopen
  cases hopen

/-- In every order of the steps the calls of `next` are answered with the events that were taken, in
order, and then with the end, and the result is resolved with the first one that was given. -/
theorem events_are_delivered (ops : List (IterationOp α ρ)) :
    let s := run C initial ops
    (s.stream.queue = [] ∨ s.stream.waiting = []) ∧
      s.answers.length + s.requests = ops.countP isNext ∧
      s.answers <+: expected C ops ∧
      (Settled s → s.answers = expected C ops ∧
        ((ops.filterMap produced?).any (ends C) = true → s.requests = 0)) ∧
      Settled (run C s (List.replicate s.requests .resume)) ∧
      s.stream.result = EventStream.resultOf C false (ops.filterMap produced?) ∧
      ∀ more r, s.stream.result = some r → (run C s more).stream.result = some r := by
  have hinv : Inv (run C initial ops) := inv_initial.run ops
  obtain ⟨hdrained, _, hresult, _⟩ := stream_of_run C ops
  refine ⟨?_, ?_, answers_prefix_expected C ops,
    fun h => ⟨answers_eq_expected C ops h, requests_of_ended C ops h⟩,
    hinv.settled_resume (Nat.le_refl _), hresult, fun more r hr => ?_⟩
  · by_cases hwaiting : (run C initial ops).stream.waiting = []
    · exact .inr hwaiting
    · exact .inl (hdrained hwaiting)
  · have hcalls := inv_initial.calls_run (C := C) ops
    simpa [initial] using hcalls
  · obtain ⟨streamOps, hrun, _⟩ := run_stream (C := C) (run C initial ops) more
    rw [hrun, (EventStream.run_spec (C := C) hdrained streamOps).2.2, hr]
    rfl

end Iteration

end Draht
