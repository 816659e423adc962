import Draht.GuardedRun

/-!
# The queues of the channels

Each channel has a queue of work, which is run piece by piece: a message is always taken, an event
only while fewer than five pieces wait. An error of the work is logged, and the next piece runs.
-/

namespace Draht.SlackBot
open List

/-- `processing` is the work that is running. -/
structure ChannelQueue (W : Type*) where
  queue : List W := []
  processing : Option W := none
deriving DecidableEq

inductive Operation (W : Type*) where
  | enqueue (work : W)
  | enqueueEvent (work : W)
  | settle

variable {ι W : Type*}

namespace ChannelQueue

/-- Up to the `await` of the work. -/
def processNext (q : ChannelQueue W) : ChannelQueue W :=
  match q.processing, q.queue with
  | none, work :: queue => { queue, processing := some work }
  | _, _ => q

def enqueue (q : ChannelQueue W) (work : W) : ChannelQueue W :=
  { q with queue := q.queue ++ [work] }.processNext

/-- The work of a queue settles with or without an error. -/
def step (q : ChannelQueue W) : Operation W → Option (ChannelQueue W)
  | .enqueue work => some (q.enqueue work)
  | .enqueueEvent work => some (if 5 ≤ q.queue.length then q else q.enqueue work)
  | .settle => q.processing.map fun _ => { q with processing := none }.processNext

/-- The work that an operation puts into the queue. -/
def taken (q : ChannelQueue W) : Operation W → List W
  | .enqueue work => [work]
  | .enqueueEvent work => if 5 ≤ q.queue.length then [] else [work]
  | .settle => []

def settled (q : ChannelQueue W) : Operation W → List W
  | .settle => q.processing.toList
  | _ => []

def unsettled (q : ChannelQueue W) : List W := q.processing.toList ++ q.queue

/-- No work waits while none is running. -/
def Busy (q : ChannelQueue W) : Prop := q.processing = none → q.queue = []

variable {q q' : ChannelQueue W} {op : Operation W}

theorem unsettled_processNext (q : ChannelQueue W) : q.processNext.unsettled = q.unsettled := by
  unfold processNext unsettled
  split <;> simp_all

theorem busy_processNext (q : ChannelQueue W) : q.processNext.Busy := by
  unfold processNext Busy
  cases hqueue : q.queue <;> cases hprocessing : q.processing <;> simp_all

theorem unsettled_enqueue (q : ChannelQueue W) (work : W) :
    (q.enqueue work).unsettled = q.unsettled ++ [work] := by
  rw [enqueue, unsettled_processNext, unsettled, unsettled, append_assoc]

theorem step_conserves (hs : q.step op = some q') (hbusy : q.Busy) :
    q.settled op ++ q'.unsettled = q.unsettled ++ q.taken op ∧ q'.Busy := by
  cases op with
  | enqueue work =>
    cases hs
    exact ⟨unsettled_enqueue q work, busy_processNext _⟩
  | enqueueEvent work =>
    cases hs
    rw [taken]
    split_ifs
    · exact ⟨(append_nil _).symm, hbusy⟩
    · exact ⟨unsettled_enqueue q work, busy_processNext _⟩
  | settle =>
    obtain ⟨work, -, rfl⟩ := Option.map_eq_some_iff.mp hs
    rw [unsettled_processNext]
    exact ⟨(append_nil _).symm, busy_processNext _⟩

end ChannelQueue

open ChannelQueue

variable [DecidableEq ι]

/-- The queues of all channels; a channel that has none yet gets an empty one. -/
def step (queues : ι → ChannelQueue W) (a : ι × Operation W) : Option (ι → ChannelQueue W) :=
  ((queues a.1).step a.2).map (Function.update queues a.1)

/-- What happens at one channel during a run. -/
def allOf (channel : ι) (f : ChannelQueue W → Operation W → List W)
    (steps : List (Transition (ι → ChannelQueue W) (ι × Operation W))) : List W :=
  steps.flatMap fun t => if t.action.1 = channel then f (t.before channel) t.action.2 else []

/-- All work that was taken for a channel is ended, running or waiting, each piece once and in the
order in which it was taken, whatever the work does and whatever other channels do; and none waits
while nothing runs. -/
theorem channelQueues_conserve {ok : (ι → ChannelQueue W) → ι × Operation W → Prop}
    {steps : List (Transition (ι → ChannelQueue W) (ι × Operation W))} {queues : ι → ChannelQueue W}
    (h : GuardedRun step ok (fun _ => {}) steps queues) (channel : ι) :
    allOf channel settled steps ++ (queues channel).unsettled = allOf channel taken steps ∧
      (queues channel).Busy := by
  refine h.induct (P := fun steps queues => allOf channel settled steps ++
    (queues channel).unsettled = allOf channel taken steps ∧ (queues channel).Busy)
    ⟨rfl, fun _ => rfl⟩ ?_
  rintro steps queues ⟨c, op⟩ queues' ⟨hsame, hbusy⟩ - hs
  obtain ⟨q, hq, rfl⟩ := Option.map_eq_some_iff.mp hs
  unfold allOf at hsame ⊢
  rw [flatMap_append, flatMap_append, ← hsame, flatMap_singleton, flatMap_singleton]
  by_cases hc : c = channel
  · subst hc
    simpa using step_conserves hq hbusy
  · simpa [hc, Function.update_of_ne (Ne.symm hc)] using hbusy

/-- One channel ends its first work while another one waits. -/
theorem channelQueues_conserve_twoChannels : ∃ steps queues,
    (GuardedRun step (fun _ _ => True) (fun _ => {}) steps queues ∧ queues true = ⟨[], some 2⟩) ∧
      allOf true settled steps ++ [2] = allOf true taken steps := by
  obtain ⟨steps, queues, hruns, hqueue⟩ := GuardedRun.exists_of_play step (fun _ _ => True)
    (fun _ : Bool => ({} : ChannelQueue ℕ))
    [(true, .enqueue 1), (true, .enqueueEvent 2), (false, .enqueue 3), (true, .settle)]
    (fun _ queues => queues true = ⟨[], some 2⟩) (by decide)
  have hconserved := (channelQueues_conserve hruns true).1
  rw [hqueue] at hconserved
  exact ⟨steps, queues, ⟨hruns, hqueue⟩, hconserved⟩

end Draht.SlackBot
