import Draht.AgentRun

/-!
# Queued messages are conserved

At every point of every run each message ever queued is in the transcript once, in flight, in its
queue or cleared; the messages of a queue are injected in the order in which they were queued,
one at a time if the queue is in that mode; and follow-ups are drained in place.
-/

namespace Draht
open Option

open Machine (Serves Runs Step)

def deliveringRules : Rules agentMachine where
  choice := fun op _ c =>
    match op, c with
    | .emit _, .throws _ => False
    | .afterToolCall _ _ _ _ _ _, .throws _ => False
    | _, _ => True
  action := fun _ a =>
    match a with
    | .toolUpdate _ _ listenerError => listenerError = none
    | _ => True

def RunScope.delivering : RunScope :=
  { strict := False, plain := False, listenersThrow := False, providerThrows := True }

theorem deliveringRules_within : deliveringRules.Within RunScope.delivering.rules := by
  refine ⟨?_, ?_⟩
  · intro op w c hc
    cases op with
    | emit e =>
      cases c with
      | throws err => exact hc.elim
      | _ => trivial
    | callLlm context =>
      cases c with
      | throws err => trivial
      | stream s =>
        refine ⟨fun h => h.elim, ?_, fun _ _ => trivial⟩
        rintro m _ (hplain | ⟨hstrict, _⟩)
        · exact hplain.elim
        · exact hstrict.elim
      | _ => trivial
    | afterToolCall _ _ _ _ _ _ =>
      cases c with
      | throws err => exact hc.elim
      | _ => trivial
    | _ => trivial
  · intro w a ha
    cases a with
    | steer m => exact fun h => h.elim
    | followUp m => exact fun h => h.elim
    | toolUpdate i partialResult listenerError => exact ⟨ha, fun h => h.elim⟩
    | _ => trivial

theorem respond_drained {op : AgentOp} {w w' : AgentWorld} {c : Outside}
    {res : Except String op.Answer} (h : AgentWorld.respond op w c = some (res, w'))
    {drainedBy : DrainedBy} {name : QueueName} {batch : List TranscriptMessage}
    (htrace : w'.trace = w.trace ++ [.drained drainedBy name batch]) :
    batch = (w.queue name).drain.1 := by
  have hdrain : ∀ drainedBy' name', (w.drain drainedBy' name').2 = w' →
      batch = (w.queue name).drain.1 := by
    rintro drainedBy' name' rfl
    simp only [AgentWorld.drain, AgentWorld.record, AgentWorld.trace_setQueue,
      List.append_cancel_left_eq, List.cons.injEq, TraceItem.drained.injEq] at htrace
    obtain ⟨⟨_, rfl, rfl⟩, _⟩ := htrace
    rfl
  cases op with
  | getSteeringMessages =>
    cases c with
    | nothing =>
      simp only [AgentWorld.respond] at h
      split_ifs at h with hskip
      · obtain rfl := congrArg Prod.snd (some.inj h)
        simp [AgentWorld.record] at htrace
      · exact hdrain .poll .steering (congrArg Prod.snd (some.inj h))
    | _ => cases h
  | getFollowUpMessages =>
    cases c with
    | nothing => exact hdrain .poll .followUp (congrArg Prod.snd (some.inj h))
    | _ => cases h
  | drainQueue name' =>
    cases c with
    | nothing => exact hdrain .continuation name' (congrArg Prod.snd (some.inj h))
    | _ => cases h
  | emit e =>
    have hrecord : ∀ err, (w.processEvents e err).2.trace = w.trace ∨
        (w.processEvents e err).2.trace = w.trace ++ [.event e] := by
      intro err
      cases hrun : w.activeRun <;> cases err <;>
        simp [AgentWorld.processEvents, hrun, AgentWorld.record]
    cases c with
    | nothing =>
      obtain rfl := congrArg Prod.snd (some.inj h)
      obtain hnone | hsome := hrecord none
      · simp [hnone] at htrace
      · simp [hsome] at htrace
    | throws err =>
      obtain rfl := congrArg Prod.snd (some.inj h)
      obtain hnone | hsome := hrecord (some err)
      · simp [hnone] at htrace
      · simp [hsome] at htrace
    | _ => cases h
  | settled n =>
    cases c with
    | nothing =>
      simp only [AgentWorld.respond] at h
      split at h
      · obtain rfl := congrArg Prod.snd (some.inj h)
        simp at htrace
      · cases h
    | _ => cases h
  | _ =>
    -- the other effects record no drain
    cases c <;> cases h <;> simp [AgentWorld.record] at htrace

/-- Each message ever queued is in one place, and the messages of a queue keep their order. -/
structure QueuesConserved (w : AgentWorld) : Prop where
  issued : ∀ name, issuedSerials name w.trace = List.range (issuedSerials name w.trace).length
  conserved : ∀ name,
    (serialsOf name (ticketsOf w.state.messages) ++ serialsOf name (inFlight w.trace) ++
      serialsOf name (ticketsOf (w.queue name).messages) ++ clearedSerials name w.trace).Perm
        (issuedSerials name w.trace)
  ordered : ∀ name,
    (serialsOf name (ticketsOf w.state.messages) ++ serialsOf name (inFlight w.trace) ++
      serialsOf name (ticketsOf (w.queue name).messages)).Pairwise (· < ·)

theorem QueuesConserved.of_ledger {w₀ w : AgentWorld} (hfresh : w₀.Fresh)
    (htranscript : w.state.messages = w₀.state.messages ++ transcriptOf w.trace)
    (h : Ledger w.trace (fun name => (w.queue name).messages)) : QueuesConserved w := by
  have hinjected : ∀ name, serialsOf name (ticketsOf w.state.messages) =
      injectedSerials name w.trace := by
    intro name
    rw [htranscript, ticketsOf_append, hfresh.tickets, List.nil_append]
    rfl
  refine ⟨h.issued, ?_, ?_⟩
  · intro name
    rw [hinjected]
    exact h.conserved name
  · intro name
    rw [hinjected]
    exact h.ordered name

theorem queues_conserved {w₀ : AgentWorld} {s : Option (AgentProgram Unit) × AgentWorld}
    (hfresh : w₀.Fresh)
    (h : Serves deliveringRules AgentCall.program (fun w => w = w₀) s) :
    QueuesConserved s.2 ∧ (s.1 = none → inFlight s.2.trace = []) ∧ FollowUpsInPlace s.2.trace ∧
      ∀ op c res w' drainedBy name batch, AgentWorld.respond op s.2 c = some (res, w') →
        w'.trace = s.2.trace ++ [.drained drainedBy name batch] →
          (s.2.queue name).mode = .oneAtATime → batch.length ≤ 1 := by
  have hplain : ∀ {P : Prop}, RunScope.delivering.plain → P := fun h => False.elim h
  have hthrow : ¬ RunScope.delivering.listenersThrow := id
  obtain ⟨hidle, hinv⟩ := served_inv hfresh hplain (fun call => ⟨call, rfl, hplain⟩)
    (h.mono deliveringRules_within)
  have hshared := hinv.shared
  refine ⟨.of_ledger hfresh hshared.transcript (hshared.ledger hthrow), ?_, hshared.followUps, ?_⟩
  · exact fun hnone => (hidle hnone).view.flight hthrow
  · intro op c res w' drainedBy name batch hres htrace hmode
    rw [respond_drained hres htrace]
    exact (s.2.queue name).drain_length_le hmode

/-- Nothing is thrown by listeners and by `afterToolCall`, and no tool reports. -/
def deliveringGuard : Machine.Guard agentMachine where
  choice := fun op _ c =>
    match op, c with
    | .emit _, .throws _ => false
    | .afterToolCall _ _ _ _ _ _, .throws _ => false
    | _, _ => true
  action := fun _ a =>
    match a with
    | .toolUpdate _ _ _ => false
    | _ => true

theorem deliveringGuard_within : deliveringGuard.Within deliveringRules := by
  refine ⟨?_, ?_⟩
  · intro op w c h
    cases op with
    | emit e =>
      cases c with
      | throws err => cases h
      | _ => trivial
    | afterToolCall _ _ _ _ _ _ =>
      cases c with
      | throws err => cases h
      | _ => trivial
    | _ => trivial
  · intro w a h
    cases a with
    | toolUpdate _ _ _ => cases h
    | _ => trivial

/-- Two messages are queued before the first response; both are injected, one at a time. -/
def queueingScript : Script :=
  steps 8 ++ [.inr (.steer (plainText "first")), .inr (.followUp (plainText "later"))] ++
    steps 4 ++ reply (replyWith [] .stop) ++ steps 8 ++ reply (replyWith [] .stop) ++ steps 7

theorem queueing_conserved :
    ∃ c', Machine.play deliveringGuard queueingScript
        ((AgentCall.prompt 5 [plainText "go"]).program, newAgent [] .parallel) = some c' ∧
      QueuesConserved c'.2 ∧ FollowUpsInPlace c'.2.trace := by
  have hplay : (Machine.play deliveringGuard queueingScript
      ((AgentCall.prompt 5 [plainText "go"]).program, newAgent [] .parallel)).isSome = true := by
    decide +kernel
  obtain ⟨c', hc'⟩ := isSome_iff_exists.mp hplay
  have hserved : Serves deliveringRules AgentCall.program (fun w => w = newAgent [] .parallel)
      (some c'.1, c'.2) :=
    Serves.of_play deliveringGuard_within (.init rfl) hc'
  have hresult := queues_conserved (newAgent_fresh rfl .parallel) hserved
  exact ⟨c', hc', hresult.1, hresult.2.2.1⟩

def lastAssistant (messages : List TranscriptMessage) : Option AgentMessage :=
  (messages.reverse.find? TranscriptMessage.isAssistant).map TranscriptMessage.content

def LeavesNext (s : Option (AgentProgram Unit) × AgentWorld) : Prop :=
  ∃ p p' w' drainedBy batch, s.1 = some p ∧ Step deliveringRules (p, s.2) (p', w') ∧
    w'.trace = s.2.trace ++ [.drained drainedBy .followUp batch] ∧ batch ≠ []

/-- `continue()` on a transcript whose last response was aborted with a call in it. -/
def abortedAgent : AgentWorld :=
  newAgent [.assistant (replyWith [callNamed "1"] .aborted)] .parallel

def continueScript : Script := [.inr (.followUp (plainText "later"))] ++ steps 3

/-- A message is steered after the empty steering poll. -/
def lateSteerScript : Script :=
  steps 10 ++ reply (replyWith [] .stop) ++ steps 4 ++
    [.inr (.steer (plainText "first")), .inr (.followUp (plainText "later"))]

theorem leavesNext_of_play (script : Script) (c : AgentCall) (w₀ : AgentWorld)
    (f : AgentWorld → Bool) (drainedBy : DrainedBy) (batch : List TranscriptMessage)
    (hbatch : batch ≠ [])
    (hplay : ((Machine.play deliveringGuard script (c.program, w₀)).bind fun c' =>
      (Machine.play deliveringGuard (steps 1) c').map fun c'' =>
        (f c'.2, decide (c''.2.trace = c'.2.trace ++ [.drained drainedBy .followUp batch]))) =
      some (true, true)) :
    ∃ s : Option (AgentProgram Unit) × AgentWorld,
      Serves deliveringRules AgentCall.program (fun w => w = w₀) s ∧ LeavesNext s ∧
        f s.2 = true := by
  obtain ⟨c', hc', hrest⟩ := bind_eq_some_iff.mp hplay
  obtain ⟨c'', hc'', hfacts⟩ := map_eq_some_iff.mp hrest
  obtain ⟨hf, htrace⟩ := Prod.mk.inj hfacts
  have hserved : Serves deliveringRules AgentCall.program (fun w => w = w₀) (some c'.1, c'.2) :=
    Serves.of_play deliveringGuard_within (.init rfl) hc'
  exact ⟨(some c'.1, c'.2), hserved, ⟨c'.1, c''.1, c''.2, drainedBy, batch, rfl,
    Step.of_play deliveringGuard_within hc'', of_decide_eq_true htrace, hbatch⟩, hf⟩

/-- A follow-up can leave its queue when the last response has a call, and when a steering
message is queued. -/
theorem followUp_leaves_early :
    (¬ ∀ (w₀ : AgentWorld) (s : Option (AgentProgram Unit) × AgentWorld), w₀.Fresh →
      Serves deliveringRules AgentCall.program (fun w => w = w₀) s → LeavesNext s →
        ∀ m, lastAssistant s.2.state.messages = some (.assistant m) → m.toolCalls = []) ∧
    ¬ ∀ (w₀ : AgentWorld) (s : Option (AgentProgram Unit) × AgentWorld), w₀.Fresh →
      Serves deliveringRules AgentCall.program (fun w => w = w₀) s → LeavesNext s →
        (s.2.queue .steering).messages = [] := by
  refine ⟨?_, ?_⟩
  · intro h
    obtain ⟨s, hserved, hleaves, hlast⟩ := leavesNext_of_play continueScript
      (.continue 3) abortedAgent
      (fun w => decide (lastAssistant w.state.messages =
        some (.assistant (replyWith [callNamed "1"] .aborted))))
      .continuation [⟨some ⟨.followUp, 0⟩, plainText "later"⟩] (by simp) (by decide +kernel)
    have hcalls := h _ _ (newAgent_fresh rfl .parallel) hserved hleaves _ (of_decide_eq_true hlast)
    exact absurd hcalls (by decide)
  · intro h
    obtain ⟨s, hserved, hleaves, hqueue⟩ := leavesNext_of_play lateSteerScript
      (.prompt 3 [plainText "go"]) (newAgent [] .parallel)
      (fun w => decide ((w.queue .steering).messages ≠ []))
      .poll [⟨some ⟨.followUp, 0⟩, plainText "later"⟩] (by simp) (by decide +kernel)
    exact of_decide_eq_true hqueue (h _ _ (newAgent_fresh rfl .parallel) hserved hleaves)

end Draht
