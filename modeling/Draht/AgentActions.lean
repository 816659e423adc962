import Draht.AgentView

/-!
# What the others can do

The actions that may happen between two effects of the loop keep a view: messages are queued
and cleared, a run is aborted, running tools report and settle.
-/

namespace Draht
open List Option

namespace AgentWorld

variable (w : AgentWorld) (name : QueueName) (q : PendingMessageQueue)

@[simp] theorem queue_setQueue : (w.setQueue name q).queue name = q := by
  cases name <;> rfl

theorem queue_setQueue_of_ne {other : QueueName} (h : other ≠ name) :
    (w.setQueue name q).queue other = w.queue other := by
  cases name <;> cases other <;> first | rfl | exact absurd rfl h

@[simp] theorem trace_setQueue : (w.setQueue name q).trace = w.trace := by cases name <;> rfl

@[simp] theorem state_setQueue : (w.setQueue name q).state = w.state := by cases name <;> rfl

@[simp] theorem executions_setQueue : (w.setQueue name q).executions = w.executions := by
  cases name <;> rfl

@[simp] theorem activeRun_setQueue : (w.setQueue name q).activeRun = w.activeRun := by
  cases name <;> rfl

@[simp] theorem toolExecution_setQueue : (w.setQueue name q).toolExecution = w.toolExecution := by
  cases name <;> rfl

@[simp] theorem skip_setQueue :
    (w.setQueue name q).skipInitialSteeringPoll = w.skipInitialSteeringPoll := by
  cases name <;> rfl

@[simp] theorem setQueue_queue : w.setQueue name (w.queue name) = w := by cases name <;> rfl

@[simp] theorem queue_record (item : TraceItem) : (w.record item).queue name = w.queue name := by
  cases name <;> rfl

end AgentWorld

variable {σ : RunScope} {r : RunStart} {pt : Point} {w w' : AgentWorld}

section

variable (h : View σ r pt w)
include h

variable {recent : List TraceItem}

theorem View.queueStep (name : QueueName) (q : PendingMessageQueue) (item : TraceItem)
    {flight : List Ticket} (hevent : eventOf item = none)
    (hcall : σ.strict → ∀ context, item = .llmCall context →
      context.messages = r.messages ++ pt.ended) (hpushed : pushedOf item = none)
    (hplain : σ.plain → ∀ m ∈ q.messages, m.isPlain = true)
    (hledger : ¬ σ.listenersThrow → Ledger w.trace (fun name => (w.queue name).messages) →
      Ledger (w.trace ++ [item]) (fun other => ((w.setQueue name q).queue other).messages))
    (hfollowUp : ∀ drainedBy batch, item = .drained drainedBy .followUp batch → batch ≠ [] →
      FollowUpPoint (loopItems w.trace) drainedBy) (hflight : flightStep pt.flight item = flight)
    (hrecent : recent <:+ loopItems (w.trace ++ [item])) :
    View σ r { pt with flight := flight, recent := recent }
      ((w.setQueue name q).record item) := by
  have hshared : Shared σ r.initial ((w.setQueue name q).record item) := by
    have htrace : ((w.setQueue name q).record item).trace = w.trace ++ [item] := by
      simp [AgentWorld.record]
    refine h.shared.concat htrace (by simp [AgentWorld.record, hpushed]) ?_ ?_ ?_ hfollowUp ?_
    · simpa [AgentWorld.record] using h.shared.updates
    · intro hp other
      rw [AgentWorld.queue_record]
      by_cases hne : other = name
      · subst hne
        rw [AgentWorld.queue_setQueue]
        exact hplain hp
      · rw [AgentWorld.queue_setQueue_of_ne _ _ _ hne]
        exact h.shared.plainQueues hp other
    · intro hl hledger'
      simpa only [AgentWorld.queue_record] using hledger hl hledger'
    · rintro _ ms rfl
      cases hevent
  refine ⟨hshared, ?_, h.inactive, ?_, ?_, ?_, ?_, ?_, ?_, h.running, ?_, ?_, ?_⟩
  · simpa [AgentWorld.record] using h.active
  · simpa [AgentWorld.record] using h.mode
  · obtain ⟨run, htrace, hrun⟩ := h.run
    exact ⟨run ++ [item], by simp [AgentWorld.record, htrace], hrun.silent hevent hcall⟩
  · simpa [AgentWorld.record] using h.messages
  · simpa [AgentWorld.record] using h.pending
  · simpa [AgentWorld.record] using h.unsettled
  · simpa [AgentWorld.record] using h.live
  · intro hl
    simp only [AgentWorld.record, AgentWorld.trace_setQueue, inFlight_concat]
    rw [h.flight hl]
    exact hflight
  · simpa [AgentWorld.record] using h.polled
  · simpa [AgentWorld.record] using hrecent

theorem View.note (item : TraceItem) (hneutral : item.Neutral) (hevent : eventOf item = none)
    (hcall : σ.strict → ∀ context, item = .llmCall context →
      context.messages = r.messages ++ pt.ended)
    (hdrained : ∀ drainedBy batch, item ≠ .drained drainedBy .followUp batch)
    (hrecent : recent <:+ loopItems (w.trace ++ [item])) :
    View σ r { pt with recent := recent } (w.record item) := by
  have hpushed : pushedOf item = none := by
    have hnone := hneutral.pushed
    cases hp : pushedOf item with
    | none => rfl
    | some m => simp [transcriptOf, hp] at hnone
  have hview := h.queueStep .steering (w.queue .steering) item hevent hcall hpushed
    (fun hp => h.shared.plainQueues hp .steering)
    (fun _ hledger => by simpa using hledger.neutral hneutral)
    (fun drainedBy batch hitem => (hdrained drainedBy batch hitem).elim)
    (hneutral.flight pt.flight) hrecent
  simpa using hview

theorem View.enqueue (name : QueueName) {m : AgentMessage}
    (hm : σ.plain → m.isPlain = true) : View σ r pt (w.enqueue name m) := by
  refine h.queueStep name _ _ rfl nofun rfl ?_ ?_
    nofun rfl
    (recent_other h.recent rfl)
  · intro hp x hx
    obtain hx | hx := mem_append.mp hx
    · exact h.shared.plainQueues hp name x hx
    · obtain rfl := mem_singleton.mp hx
      exact hm hp
  · intro _ hledger
    refine hledger.enqueue name rfl ?_ ?_
    · simp [PendingMessageQueue.enqueue]
    · intro other hne
      simp [AgentWorld.queue_setQueue_of_ne _ _ _ hne]

theorem View.clear (name : QueueName) : View σ r pt (w.clear name) := by
  refine h.queueStep name _ _ rfl nofun rfl ?_ ?_
    nofun rfl
    (recent_other h.recent rfl)
  · intro _ x hx
    simp [PendingMessageQueue.clear] at hx
  · intro _ hledger
    refine hledger.clear name ?_ ?_
    · simp [PendingMessageQueue.clear]
    · intro other hne
      simp [AgentWorld.queue_setQueue_of_ne _ _ _ hne]

theorem View.drain (drainedBy : DrainedBy) (name : QueueName)
    (hfollowUp : name = .followUp → FollowUpPoint pt.recent drainedBy) :
    (σ.plain → ∀ m ∈ (w.drain drainedBy name).1, m.isPlain = true) ∧
      View σ r
        { pt with
          flight := pt.flight ++ ticketsOf (w.drain drainedBy name).1
          recent := pt.recent ++ [.drained drainedBy name (w.drain drainedBy name).1] }
        (w.drain drainedBy name).2 := by
  have happend := (w.queue name).drain_append
  refine ⟨?_, ?_⟩
  · intro hp m hm
    apply h.shared.plainQueues hp name m
    rw [← happend]
    exact mem_append_left _ hm
  · refine h.queueStep name _ _ rfl nofun rfl ?_ ?_ ?_ rfl
      (recent_concat h.recent rfl)
    · intro hp m hm
      apply h.shared.plainQueues hp name m
      rw [← happend]
      exact mem_append_right _ hm
    · intro _ hledger
      refine hledger.drain ?_ ?_
      · rw [AgentWorld.queue_setQueue]
        exact happend
      · intro other hne
        rw [AgentWorld.queue_setQueue_of_ne _ _ _ hne]
    · intro drainedBy' batch hitem _
      injection hitem with hby hname _
      subst hby
      exact (hfollowUp hname).mono h.recent

theorem View.congr {active polled : Bool} {live : List (ℕ × String)}
    (htrace : w'.trace = w.trace) (hmessages : w'.state.messages = w.state.messages)
    (hqueues : ∀ name, (w'.queue name).messages = (w.queue name).messages)
    (hupdates : ∀ e ∈ w'.executions, e.updateFailure = none)
    (hactive : w'.activeRun.isSome = active) (hinactive : active = false → live = [])
    (hmode : w'.toolExecution = w.toolExecution)
    (hpending : w'.state.pendingToolCalls = w.state.pendingToolCalls)
    (hunsettled : ∀ i e, w'.executions[i]? = some e → e.settlement = none → ∃ p ∈ live, p.1 = i)
    (hlive : ∀ p ∈ live, ∃ e, w'.executions[p.1]? = some e ∧ e.toolCall.id = p.2)
    (hrunning : σ.strict → ∀ p ∈ live, p.2 ∈ pt.state.running ∧ pt.state.phase.inTurn = true)
    (hpolled : polled = true → w'.skipInitialSteeringPoll = false) :
    View σ r { pt with active := active, polled := polled, live := live } w' := by
  refine ⟨h.shared.congr htrace hmessages hupdates hqueues, hactive, hinactive, ?_, ?_, ?_, ?_,
    hunsettled, hlive, hrunning, ?_, hpolled, ?_⟩
  · rw [hmode]; exact h.mode
  · obtain ⟨run, htrace', hrun⟩ := h.run
    exact ⟨run, by rw [htrace, htrace'], hrun⟩
  · rw [hmessages]; exact h.messages
  · rw [hpending]; exact h.pending
  · rw [htrace]; exact h.flight
  · rw [htrace]; exact h.recent

theorem View.setMode (name : QueueName) (mode : QueueMode) :
    View σ r pt (w.setMode name mode) := by
  refine h.congr (by simp [AgentWorld.setMode]) (by simp [AgentWorld.setMode]) ?_
    (by simpa [AgentWorld.setMode] using h.shared.updates)
    (by simpa [AgentWorld.setMode] using h.active) h.inactive (by simp [AgentWorld.setMode])
    (by simp [AgentWorld.setMode]) (by simpa [AgentWorld.setMode] using h.unsettled)
    (by simpa [AgentWorld.setMode] using h.live) h.running
    (by simpa [AgentWorld.setMode] using h.polled)
  intro other
  by_cases hne : other = name
  · subst hne
    simp [AgentWorld.setMode]
  · rw [AgentWorld.setMode, AgentWorld.queue_setQueue_of_ne _ _ _ hne]

theorem View.abort :
    View σ r pt { w with activeRun := w.activeRun.map (fun _ => ⟨true⟩) } :=
  h.congr rfl rfl (fun name => by cases name <;> rfl) h.shared.updates
    (by rw [isSome_map]; exact h.active) h.inactive rfl rfl h.unsettled h.live h.running
    h.polled

theorem View.settle {i : ℕ} {e : ToolExecution}
    (he : w.executions[i]? = some e) (outcome : Except String AgentToolResult) :
    View σ r pt
      { w with executions := w.executions.set i { e with settlement := some outcome } } := by
  have hlt := (List.getElem?_eq_some_iff.mp he).1
  have hself : (w.executions.set i { e with settlement := some outcome })[i]? =
      some { e with settlement := some outcome } := by
    rw [getElem?_set_self hlt]
  have hother : ∀ j, j ≠ i →
      (w.executions.set i { e with settlement := some outcome })[j]? = w.executions[j]? :=
    fun j hj => getElem?_set_ne (Ne.symm hj)
  refine h.congr rfl rfl (fun name => by cases name <;> rfl) ?_ h.active h.inactive rfl rfl ?_ ?_
    h.running h.polled
  · intro x hx
    obtain hx | rfl := mem_or_eq_of_mem_set hx
    · exact h.shared.updates x hx
    · exact h.shared.updates e (mem_of_getElem? he)
  · intro j x hx hnone
    by_cases hj : j = i
    · subst hj
      rw [hself] at hx
      cases hx
      cases hnone
    · rw [hother j hj] at hx
      exact h.unsettled j x hx hnone
  · intro p hp
    obtain ⟨x, hx, hid⟩ := h.live p hp
    by_cases hpi : p.1 = i
    · rw [hpi, he] at hx
      cases hx
      exact ⟨{ e with settlement := some outcome }, by rw [hpi]; exact hself, hid⟩
    · exact ⟨x, by rw [hother p.1 hpi]; exact hx, hid⟩

end

theorem process_messages (s : AgentState) (e : AgentEvent) :
    (s.process e).messages = s.messages ++ (endedOf e).toList := by
  unfold AgentState.process endedOf
  cases e with
  | turnEnd m _ =>
    simp only [toList_none, append_nil]
    split
    · split
      · split_ifs <;> rfl
      · rfl
    · rfl
  | _ => simp

def heard : Option String → Except String Unit
  | none => .ok ()
  | some error => .error error

theorem AgentWorld.processEvents_of_active {w : AgentWorld} (h : w.activeRun.isSome = true)
    (e : AgentEvent) (listenerError : Option String) :
    w.processEvents e listenerError =
      (heard listenerError, { w with state := w.state.process e }.record (.event e)) := by
  obtain ⟨run, hrun⟩ := isSome_iff_exists.mp h
  unfold processEvents
  simp only [hrun]
  cases listenerError <;> rfl

theorem View.emit (h : View σ r pt w) (hactive : pt.active = true) (e : AgentEvent)
    (listenerError : Option String) {state' : ParseState} {flight' : List Ticket}
    {recent' : List TraceItem} (hstep : σ.strict → pt.state.step e = some state')
    (hpending : (w.state.process e).pendingToolCalls = state'.running)
    (hflight : ¬ σ.listenersThrow → flightStep pt.flight (.event e) = flight')
    (hledger : ¬ σ.listenersThrow → Ledger w.trace (fun name => (w.queue name).messages) →
      Ledger (w.trace ++ [.event e]) (fun name => (w.queue name).messages))
    (hrunning : σ.strict → ∀ p ∈ pt.live, p.2 ∈ state'.running ∧ state'.phase.inTurn = true)
    (hend : ∀ ms, e = .agentEnd ms →
      ms = pt.ended ∧ (σ.plain → Answered (r.messages ++ pt.ended)))
    (hrecent : recent' <:+ loopItems (w.trace ++ [.event e])) :
    View σ r
      { pt with
        state := state', ended := pt.ended ++ (endedOf e).toList, flight := flight'
        recent := recent' }
      (w.processEvents e listenerError).2 := by
  rw [AgentWorld.processEvents_of_active (h.active.trans hactive)]
  refine ⟨?_, h.active, h.inactive, h.mode, ?_, ?_, hpending, h.unsettled, h.live, hrunning, ?_,
    h.polled, hrecent⟩
  · refine h.shared.concat rfl (process_messages _ _) h.shared.updates ?_ ?_ ?_ ?_
    · intro hp name
      exact h.shared.plainQueues hp name
    · intro hl hledger'
      exact hledger hl hledger'
    · rintro drainedBy batch ⟨⟩
    · intro hp ms hms
      rw [h.messages]
      exact (hend ms (TraceItem.event.inj hms)).2 hp
  · obtain ⟨run, htrace, hrun⟩ := h.run
    refine ⟨run ++ [.event e], ?_, hrun.event hstep (fun ms hms => (hend ms hms).1)⟩
    rw [← append_assoc, ← htrace]
    rfl
  · refine (process_messages _ _).trans ?_
    rw [h.messages, append_assoc]
  · intro hl
    have hflight' := h.flight hl
    simp only [AgentWorld.record, inFlight_concat, hflight']
    exact hflight hl

theorem neutral_event {e : AgentEvent} (he : endedOf e = none) :
    (TraceItem.event e).Neutral where
  enqueued := rfl
  cleared := fun _ => rfl
  pushed := by simp [transcriptOf, pushedOf, he]
  flight := by
    intro flight
    cases e with
    | messageEnd m => cases he
    | _ => rfl

theorem View.toolUpdate (h : View σ r pt w) {i : ℕ} {e : ToolExecution}
    (he : w.executions[i]? = some e) (partialResult : AgentToolResult)
    (hunsettled : σ.strict → e.settlement = none) :
    View σ r pt (w.toolUpdate i e partialResult none) := by
  cases hactive : pt.active with
  | false =>
    have hnone : w.activeRun = none := by
      rw [← not_isSome_iff_eq_none, h.active, hactive]
      simp
    have hsettled : e.settlement ≠ none := by
      intro hs
      obtain ⟨p, hp, _⟩ := h.unsettled i e he hs
      rw [h.inactive hactive] at hp
      simp at hp
    have hworld : w.toolUpdate i e partialResult none = w := by
      obtain ⟨outcome, houtcome⟩ := ne_none_iff_exists'.mp hsettled
      have hfailure := h.shared.updates e (mem_of_getElem? he)
      simp only [AgentWorld.toolUpdate, AgentWorld.processEvents, hnone, houtcome, hfailure,
        AgentState.process]
      rw [← hnone]
    rwa [hworld]
  | true =>
    have hworld : w.toolUpdate i e partialResult none =
        (w.processEvents (.toolExecutionUpdate e.toolCall.id e.toolCall.name
          e.toolCall.arguments partialResult) none).2 := by
      obtain ⟨run, hrun⟩ := isSome_iff_exists.mp (h.active.trans hactive)
      simp [AgentWorld.toolUpdate, AgentWorld.processEvents, hrun]
    rw [hworld]
    have hpt : pt = { pt with ended := pt.ended ++ [] } := by rw [append_nil]
    rw [hpt]
    refine h.emit hactive (.toolExecutionUpdate e.toolCall.id e.toolCall.name
      e.toolCall.arguments partialResult) none ?_ h.pending (fun _ => rfl) ?_ ?_ ?_ ?_
    · intro hs
      obtain ⟨p, hp, hpi⟩ := h.unsettled i e he (hunsettled hs)
      obtain ⟨x, hx, hxid⟩ := h.live p hp
      rw [hpi, he] at hx
      cases hx
      obtain ⟨hid, hturn⟩ := h.running hs p hp
      rw [ParseState.step, hxid, if_pos ⟨hturn, hid⟩]
    · exact fun _ hledger => hledger.neutral (neutral_event rfl)
    · exact h.running
    · rintro ms ⟨⟩
    · exact recent_other h.recent rfl

theorem View.act (h : View σ r pt w) {a : AgentAction} (ha : σ.action w a)
    (hact : AgentWorld.act a w = some w') : View σ r pt w' := by
  cases a with
  | steer m =>
    cases hact
    exact h.enqueue .steering ha
  | followUp m =>
    cases hact
    exact h.enqueue .followUp ha
  | clearSteeringQueue =>
    cases hact
    exact h.clear .steering
  | clearFollowUpQueue =>
    cases hact
    exact h.clear .followUp
  | clearAllQueues =>
    cases hact
    exact (h.clear .steering).clear .followUp
  | setQueueMode name mode =>
    cases hact
    exact h.setMode name mode
  | abort =>
    cases hact
    exact h.abort
  | toolUpdate i partialResult listenerError =>
    obtain ⟨rfl, hunsettled⟩ := ha
    obtain ⟨e, he, rfl⟩ := map_eq_some_iff.mp hact
    refine h.toolUpdate he partialResult ?_
    intro hs
    obtain ⟨x, hx, hnone⟩ := hunsettled hs
    obtain rfl := some.inj (he.symm.trans hx)
    exact hnone
  | toolSettle i outcome =>
    simp only [AgentWorld.act] at hact
    split at hact
    · next toolCall failure he =>
        cases hact
        exact h.settle he outcome
    · cases hact

theorem View.stable {I : AgentWorld → Prop} (hI : ∀ w, View σ r pt w → I w) :
    Machine.Stable σ.rules I (View σ r pt) where
  invariant := hI
  action := fun _ _ _ h ha hact => h.act ha hact

end Draht
