import Draht.AgentActions
import Draht.AgentLoop

/-!
# What the effects of the loop do to a view

One rule for each effect: the view before, the view after, and for an effect that can throw,
that the run is interrupted at a point where no call is open.
-/

namespace Draht
open List Option

open Machine (Triple Stable)

def Point.quiet (active : Bool) : Point :=
  { active := active, state := ⟨.start, []⟩, ended := [], flight := [], live := []
    polled := false, recent := [] }

/-- The state of an agent between two runs, or of a run that was interrupted. -/
def Quiet (σ : RunScope) (initial : List TranscriptMessage) (active : Bool) (w : AgentWorld) :
    Prop :=
  ∃ r : RunStart, r.initial = initial ∧ (σ.plain → Answered r.messages) ∧
    View σ r (.quiet active) w

def RunScope.Faulty (σ : RunScope) : Prop := σ.listenersThrow ∨ σ.providerThrows

def RunInv (σ : RunScope) (r : RunStart) (w : AgentWorld) : Prop :=
  (∃ pt, View σ r pt w) ∨ σ.Faulty ∧ ∃ active, Quiet σ r.initial active w

def Interrupted (σ : RunScope) (r : RunStart) (_ : String) (w : AgentWorld) : Prop :=
  σ.Faulty ∧ Quiet σ r.initial true w

def Spec {α : Type} (σ : RunScope) (r : RunStart) (P : AgentWorld → Prop) (p : AgentProgram α)
    (Q : α → AgentWorld → Prop) : Prop :=
  Triple σ.rules (RunInv σ r) P p Q (Interrupted σ r)

variable {initial : List TranscriptMessage} {active : Bool} {E : String → AgentWorld → Prop}

section Stability

variable {σ : RunScope} {r : RunStart} {pt : Point} {w : AgentWorld}

theorem view_quiet
    (hshared : Shared σ initial w) (hactive : w.activeRun.isSome = active)
    (hpending : w.state.pendingToolCalls = [])
    (hsettled : ∀ (i : ℕ) (e : ToolExecution), w.executions[i]? = some e → e.settlement ≠ none)
    (hflight : ¬ σ.listenersThrow → inFlight w.trace = []) :
    View σ ⟨initial, w.trace, w.state.messages, w.toolExecution⟩ (.quiet active) w := by
  refine ⟨hshared, hactive, fun _ => rfl, rfl, ⟨[], by simp, fun _ => rfl, rfl, by simp, by simp⟩,
    by simp [Point.quiet], hpending, ?_, by simp [Point.quiet], by simp [Point.quiet], hflight,
    by simp [Point.quiet], nil_suffix⟩
  exact fun i e he hnone => (hsettled i e he hnone).elim

theorem quiet_intro
    (hshared : Shared σ initial w) (hactive : w.activeRun.isSome = active)
    (hpending : w.state.pendingToolCalls = [])
    (hsettled : ∀ (i : ℕ) (e : ToolExecution), w.executions[i]? = some e → e.settlement ≠ none)
    (hflight : ¬ σ.listenersThrow → inFlight w.trace = [])
    (hanswered : σ.plain → Answered w.state.messages) : Quiet σ initial active w :=
  ⟨⟨initial, w.trace, w.state.messages, w.toolExecution⟩, rfl, hanswered,
    view_quiet hshared hactive hpending hsettled hflight⟩

theorem View.forget (h : View σ r pt w) : View σ r { pt with recent := [] } w :=
  { h with recent := nil_suffix }

theorem View.setPolled (h : View σ r pt w) (hskip : w.skipInitialSteeringPoll = false) :
    View σ r { pt with polled := true } w :=
  { h with polled := fun _ => hskip }

theorem View.settled (h : View σ r pt w) (hlive : pt.live = []) :
    ∀ (i : ℕ) (e : ToolExecution), w.executions[i]? = some e → e.settlement ≠ none := by
  intro i e he hnone
  obtain ⟨p, hp, _⟩ := h.unsettled i e he hnone
  rw [hlive] at hp
  simp at hp

theorem View.toQuiet (h : View σ r pt w) (hlive : pt.live = [])
    (hrunning : pt.state.running = []) (hflight : ¬ σ.listenersThrow → pt.flight = [])
    (hanswered : σ.plain → Answered (r.messages ++ pt.ended)) :
    Quiet σ r.initial pt.active w :=
  quiet_intro h.shared h.active (h.pending.trans hrunning) (h.settled hlive)
    (fun hl => (h.flight hl).trans (hflight hl))
    (fun hp => by rw [h.messages]; exact hanswered hp)

/-- `finishRun`. -/
def AgentWorld.finishRun (w : AgentWorld) : AgentWorld :=
  { w with
    activeRun := none
    state := { w.state with
      isStreaming := false, streamingMessage := none, pendingToolCalls := [] } }

theorem View.finish (h : View σ r pt w) (hlive : pt.live = []) (hrunning : pt.state.running = []) :
    View σ r { pt with active := false } w.finishRun :=
  h.congr rfl rfl (fun name => by cases name <;> rfl) h.shared.updates rfl (fun _ => hlive) rfl
    (h.pending.trans hrunning).symm h.unsettled h.live h.running h.polled

theorem Quiet.view
    (h : Quiet σ initial active w) :
    View σ ⟨initial, w.trace, w.state.messages, w.toolExecution⟩ (.quiet active) w := by
  obtain ⟨r, rfl, _, hview⟩ := h
  exact view_quiet hview.shared hview.active hview.pending (hview.settled rfl) hview.flight

theorem Quiet.answered
    (h : Quiet σ initial active w) (hp : σ.plain) : Answered w.state.messages := by
  obtain ⟨r, rfl, hanswered, hview⟩ := h
  have hmessages := hview.messages
  simp only [Point.quiet, append_nil] at hmessages
  rw [hmessages]
  exact hanswered hp

theorem Quiet.finish
    (h : Quiet σ initial active w) : Quiet σ initial false w.finishRun := by
  obtain ⟨r, hr, hanswered, hview⟩ := h
  exact ⟨r, hr, hanswered, hview.finish rfl rfl⟩

theorem Quiet.stable {I : AgentWorld → Prop}
    (hI : ∀ w, Quiet σ initial active w → I w) :
    Stable σ.rules I (Quiet σ initial active) where
  invariant := hI
  action := fun _ _ _ ⟨r, hr, hanswered, hview⟩ ha hact =>
    ⟨r, hr, hanswered, hview.act ha hact⟩

theorem view_stable (σ : RunScope) (r : RunStart) (pt : Point) :
    Stable σ.rules (RunInv σ r) (View σ r pt) :=
  View.stable (fun _ h => .inl ⟨pt, h⟩)

theorem quiet_stable (hσ : σ.Faulty) (r : RunStart) (active : Bool) :
    Stable σ.rules (RunInv σ r) (Quiet σ r.initial active) :=
  Quiet.stable (fun _ h => .inr ⟨hσ, active, h⟩)

theorem interrupted_stable (σ : RunScope) (r : RunStart) (e : String) :
    Stable σ.rules (RunInv σ r) (Interrupted σ r e) where
  invariant := fun _ h => .inr ⟨h.1, true, h.2⟩
  action := fun _ _ _ h ha hact => ⟨h.1, (quiet_stable h.1 r true).action _ _ _ h.2 ha hact⟩

end Stability

/-- A steering poll. What it records is remembered once the initial poll is over. -/
def Point.steered (pt : Point) (ms : List TranscriptMessage) : Point :=
  { pt with
    flight := pt.flight ++ ticketsOf ms
    polled := true
    recent := if pt.polled then pt.recent ++ [.drained .poll .steering ms] else [] }

namespace AgentProgram

variable {σ : RunScope} {r : RunStart} {pt pt' : Point}

variable {op : AgentOp}

theorem call_spec {Q : op.Answer → AgentWorld → Prop} (hQ : ∀ a, Stable σ.rules (RunInv σ r) (Q a))
    (h : ∀ w c res w', View σ r pt w → σ.choice op w c →
      AgentWorld.respond op w c = some (res, w') → ∃ a, res = .ok a ∧ Q a w') :
    Triple σ.rules (RunInv σ r) (View σ r pt) (call op) Q E := by
  have heffect : Triple σ.rules (RunInv σ r) (View σ r pt) (call op) Q (fun _ _ => False) := by
    refine Triple.effect (view_stable σ r pt) hQ (fun _ => Stable.false) ?_ ?_
    · intro w c a w' hw hc hr
      obtain ⟨a', ha, hq⟩ := h w c _ w' hw hc hr
      cases ha
      exact hq
    · intro w c e w' hw hc hr
      obtain ⟨a', ha, _⟩ := h w c _ w' hw hc hr
      cases ha
  exact heffect.conseq (fun _ hw => hw) (fun _ _ hw => hw) (fun _ _ he => he.elim)

theorem emit_spec {e : AgentEvent} (hactive : pt.active = true) (hactive' : pt'.active = true)
    (hview : ∀ w listenerError, View σ r pt w →
      View σ r pt' (w.processEvents e listenerError).2)
    (hopen : σ.listenersThrow → e.inToolPhase = false → pt'.live = [] ∧ pt'.state.running = [] ∧
      (σ.plain → Answered (r.messages ++ pt'.ended))) :
    Spec σ r (View σ r pt) (emit e) (fun _ => View σ r pt') := by
  have hprocess : ∀ w listenerError, View σ r pt w → (w.processEvents e listenerError).1 =
      heard listenerError := by
    intro w listenerError hw
    rw [AgentWorld.processEvents_of_active (hw.active.trans hactive)]
  refine Triple.effect (view_stable σ r pt) (fun _ => view_stable σ r pt')
    (interrupted_stable σ r) ?_ ?_
  · intro w c a w' hw hc hr
    cases c with
    | nothing =>
      obtain rfl := congrArg Prod.snd (some.inj hr)
      exact hview w none hw
    | throws err =>
      have hres := congrArg Prod.fst (some.inj hr)
      rw [hprocess w (some err) hw] at hres
      cases hres
    | _ => cases hr
  · intro w c err w' hw hc hr
    cases c with
    | nothing =>
      have hres := congrArg Prod.fst (some.inj hr)
      rw [hprocess w none hw] at hres
      cases hres
    | throws err' =>
      obtain ⟨hthrow, hphase⟩ := hc
      obtain rfl := congrArg Prod.snd (some.inj hr)
      obtain ⟨hlive, hrunning, hanswered⟩ := hopen hthrow hphase
      have hquiet := (hview w (some err') hw).toQuiet hlive hrunning
        (fun hnot => (hnot hthrow).elim) hanswered
      rw [hactive'] at hquiet
      exact ⟨.inl hthrow, hquiet⟩
    | _ => cases hr

structure Closed (σ : RunScope) (r : RunStart) (pt : Point) : Prop where
  active : pt.active = true
  live : pt.live = []
  running : pt.state.running = []
  answered : σ.plain → Answered (r.messages ++ pt.ended)

theorem event_spec (e : AgentEvent) (state' : ParseState) (hactive : pt.active = true)
    (hended : endedOf e = none)
    (hpending : ∀ s : AgentState, s.pendingToolCalls = pt.state.running →
      (s.process e).pendingToolCalls = state'.running)
    (hstep : σ.strict → pt.state.step e = some state')
    (hrunning : σ.strict → ∀ p ∈ pt.live, p.2 ∈ state'.running ∧ state'.phase.inTurn = true)
    (hend : ∀ ms, e = .agentEnd ms →
      ms = pt.ended ∧ (σ.plain → Answered (r.messages ++ pt.ended)))
    (hopen : e.inToolPhase = false → pt.live = [] ∧ state'.running = [] ∧
      (σ.plain → Answered (r.messages ++ pt.ended)))
    {recent' : List TraceItem}
    (hrecent : recent' = [] ∨ recent' = [.event e] ∧ isLoopItem (.event e) = true) :
    Spec σ r (View σ r pt) (emit e)
      (fun _ => View σ r { pt with state := state', recent := recent' }) := by
  refine emit_spec hactive hactive ?_ (fun _ hphase => hopen hphase)
  intro w listenerError hw
  have hsuffix : recent' <:+ loopItems (w.trace ++ [.event e]) := by
    obtain rfl | ⟨rfl, hloop⟩ := hrecent
    · exact nil_suffix
    · have hnil : ([] : List TraceItem) <:+ loopItems w.trace := nil_suffix
      exact recent_concat hnil hloop
  have hview := hw.emit hactive e listenerError hstep (hpending w.state hw.pending)
    (fun _ => (neutral_event hended).flight pt.flight)
    (fun _ hledger => hledger.neutral (neutral_event hended)) hrunning hend hsuffix
  rw [hended] at hview
  simpa using hview

theorem messageEnd_spec (m : TranscriptMessage) (flight' : List Ticket)
    (hactive : pt.active = true)
    (hstep : σ.strict → pt.state.step (.messageEnd m) = some ⟨.turn, pt.state.running⟩)
    (hflight : pt.flight = m.ticket.toList ++ flight')
    (hrunning : σ.strict → ∀ p ∈ pt.live, p.2 ∈ pt.state.running)
    (hopen : (AgentEvent.messageEnd m).inToolPhase = false → pt.live = [] ∧
      pt.state.running = [] ∧ (σ.plain → Answered (r.messages ++ (pt.ended ++ [m])))) :
    Spec σ r (View σ r pt) (emit (.messageEnd m))
      (fun _ => View σ r
        { pt with
          state := ⟨.turn, pt.state.running⟩, ended := pt.ended ++ [m]
          flight := flight', recent := [] }) := by
  refine emit_spec hactive hactive ?_ (fun _ hphase => hopen hphase)
  intro w listenerError hw
  refine hw.emit hactive (.messageEnd m) listenerError hstep hw.pending ?_ ?_
    (fun hs p hp => ⟨hrunning hs p hp, rfl⟩) nofun nil_suffix
  · intro _
    cases ht : m.ticket with
    | none => simpa [flightStep, ht] using hflight
    | some t => simp [flightStep, ht, hflight]
  · intro hl hledger
    cases ht : m.ticket with
    | none => exact hledger.pushed_plain (.inl rfl) ht
    | some t =>
      have hfirst : inFlight w.trace = t :: flight' := by
        rw [hw.flight hl, hflight, ht]
        rfl
      exact hledger.pushed_ticket ht hfirst

theorem agentStart_spec (hpt : Closed σ r pt) (hphase : pt.state.phase = .start) :
    Spec σ r (View σ r pt) (emit .agentStart)
      (fun _ => View σ r { pt with state := ⟨.between, pt.state.running⟩, recent := [] }) :=
  event_spec .agentStart ⟨.between, pt.state.running⟩ hpt.active rfl (fun _ h => h)
    (fun _ => by rw [ParseState.step, if_pos hphase])
    (fun _ p hp => by rw [hpt.live] at hp; simp at hp) nofun
    (fun _ => ⟨hpt.live, hpt.running, hpt.answered⟩) (.inl rfl)

theorem turnStart_spec (hpt : Closed σ r pt) (hphase : pt.state.phase = .between) :
    Spec σ r (View σ r pt) (emit .turnStart)
      (fun _ => View σ r { pt with state := ⟨.turn, pt.state.running⟩, recent := [] }) :=
  event_spec .turnStart ⟨.turn, pt.state.running⟩ hpt.active rfl (fun _ h => h)
    (fun _ => by rw [ParseState.step, if_pos hphase])
    (fun _ p hp => by rw [hpt.live] at hp; simp at hp) nofun
    (fun _ => ⟨hpt.live, hpt.running, hpt.answered⟩) (.inl rfl)

theorem turnEnd_spec (hpt : Closed σ r pt) (hphase : pt.state.phase = .turn)
    (m : TranscriptMessage) (results : List ToolResultMessage) :
    Spec σ r (View σ r pt) (emit (.turnEnd m results))
      (fun _ => View σ r
        { pt with
          state := ⟨.between, pt.state.running⟩
          recent := [.event (.turnEnd m results)] }) := by
  refine event_spec (.turnEnd m results) ⟨.between, pt.state.running⟩ hpt.active rfl ?_ ?_
    (fun _ p hp => by rw [hpt.live] at hp; simp at hp) nofun
    (fun _ => ⟨hpt.live, hpt.running, hpt.answered⟩) (.inr ⟨rfl, rfl⟩)
  · intro s hs
    unfold AgentState.process
    simp only []
    split
    · split
      · split_ifs <;> exact hs
      · exact hs
    · exact hs
  · intro _
    rw [ParseState.step, if_pos ⟨hphase, hpt.running⟩]

theorem agentEnd_spec (hpt : Closed σ r pt) (hphase : pt.state.phase = .between)
    {ms : List TranscriptMessage} (hms : ms = pt.ended) :
    Spec σ r (View σ r pt) (emit (.agentEnd ms))
      (fun _ => View σ r { pt with state := ⟨.finished, pt.state.running⟩, recent := [] }) :=
  event_spec (.agentEnd ms) ⟨.finished, pt.state.running⟩ hpt.active rfl (fun _ h => h)
    (fun _ => by rw [ParseState.step, if_pos hphase])
    (fun _ p hp => by rw [hpt.live] at hp; simp at hp)
    (fun ms' hms' => ⟨(AgentEvent.agentEnd.inj hms').symm.trans hms, hpt.answered⟩)
    (fun _ => ⟨hpt.live, hpt.running, hpt.answered⟩) (.inl rfl)

theorem messageStart_spec (hactive : pt.active = true) (m : TranscriptMessage)
    (hphase : σ.strict → pt.state.phase = .turn)
    (hrunning : σ.strict → ∀ p ∈ pt.live, p.2 ∈ pt.state.running)
    (hopen : (AgentEvent.messageStart m).inToolPhase = false → Closed σ r pt) :
    Spec σ r (View σ r pt) (emit (.messageStart m))
      (fun _ => View σ r
        { pt with state := ⟨.message m, pt.state.running⟩, recent := [] }) :=
  event_spec (.messageStart m) ⟨.message m, pt.state.running⟩ hactive rfl (fun _ h => h)
    (fun hs => by rw [ParseState.step, if_pos (hphase hs)])
    (fun hs p hp => ⟨hrunning hs p hp, rfl⟩) nofun
    (fun h => ⟨(hopen h).live, (hopen h).running, (hopen h).answered⟩) (.inl rfl)

theorem messageUpdate_spec (hpt : Closed σ r pt) {started m : TranscriptMessage}
    (type : UpdateType) (hphase : pt.state.phase = .message started)
    (hstarted : started.isAssistant = true) (hm : m.isAssistant = true) :
    Spec σ r (View σ r pt) (emit (.messageUpdate m type))
      (fun _ => View σ r
        { pt with state := ⟨.message m, pt.state.running⟩, recent := [] }) :=
  event_spec (.messageUpdate m type) ⟨.message m, pt.state.running⟩ hpt.active rfl
    (fun _ h => h)
    (fun _ => by simp [ParseState.step, hphase, hstarted, hm])
    (fun _ p hp => by rw [hpt.live] at hp; simp at hp) nofun
    (fun _ => ⟨hpt.live, hpt.running, hpt.answered⟩) (.inl rfl)

theorem toolStart_spec (hactive : pt.active = true) (hphase : pt.state.phase = .turn)
    (toolCall : ToolCall) (hnew : σ.strict → toolCall.id ∉ pt.state.running)
    (hrunning : σ.strict → ∀ p ∈ pt.live, p.2 ∈ pt.state.running) :
    Spec σ r (View σ r pt) (emitToolStart toolCall)
      (fun _ => View σ r
        { pt with
          state := ⟨.turn, addPending toolCall.id pt.state.running⟩, recent := [] }) := by
  refine event_spec (.toolExecutionStart toolCall.id toolCall.name toolCall.arguments) _ hactive
    rfl ?_ ?_ ?_ nofun nofun (.inl rfl)
  · intro s hs
    simp [AgentState.process, hs]
  · intro hs
    rw [ParseState.step, if_pos ⟨hphase, hnew hs⟩, addPending, if_neg (hnew hs), hphase]
  · intro hs p hp
    refine ⟨?_, rfl⟩
    rw [addPending, if_neg (hnew hs)]
    exact mem_append_left _ (hrunning hs p hp)

theorem toolEnd_spec (hactive : pt.active = true) (hphase : pt.state.phase = .turn)
    (toolCall : ToolCall) (result : AgentToolResult) (isError : Bool)
    (hmem : σ.strict → toolCall.id ∈ pt.state.running)
    (hrunning : σ.strict → ∀ p ∈ pt.live, p.2 ∈ pt.state.running ∧ p.2 ≠ toolCall.id) :
    Spec σ r (View σ r pt) (emit (.toolExecutionEnd toolCall.id toolCall.name result isError))
      (fun _ => View σ r
        { pt with
          state := ⟨.turn, pt.state.running.filter (fun x => x ≠ toolCall.id)⟩
          recent := [] }) := by
  refine event_spec (.toolExecutionEnd toolCall.id toolCall.name result isError) _ hactive
    rfl ?_ ?_ ?_ nofun nofun (.inl rfl)
  · intro s hs
    simp [AgentState.process, hs]
  · intro hs
    rw [ParseState.step, if_pos ⟨hphase, hmem hs⟩, hphase]
  · intro hs p hp
    obtain ⟨hin, hne⟩ := hrunning hs p hp
    exact ⟨mem_filter.mpr ⟨hin, by simpa using hne⟩, rfl⟩

theorem readOnly_spec (h : ∀ w c res w', AgentWorld.respond op w c = some (res, w') → w' = w) :
    Triple σ.rules (RunInv σ r) (View σ r pt) (call op) (fun _ => View σ r pt)
      (fun _ => View σ r pt) := by
  refine Triple.effect (view_stable σ r pt) (fun _ => view_stable σ r pt)
    (fun _ => view_stable σ r pt) ?_ ?_
  · intro w c a w' hw _ hr
    rw [h w c _ w' hr]
    exact hw
  · intro w c e w' hw _ hr
    rw [h w c _ w' hr]
    exact hw

theorem quietCall_spec
    (h : ∀ w c res w', σ.choice op w c → AgentWorld.respond op w c = some (res, w') →
      w' = w ∧ ∃ a, res = .ok a) : Spec σ r (View σ r pt) (call op) (fun _ => View σ r pt) := by
  refine call_spec (fun _ => view_stable σ r pt) ?_
  intro w c res w' hw hc hr
  obtain ⟨rfl, a, ha⟩ := h w c res w' hc hr
  exact ⟨a, ha, hw⟩

theorem getFollowUpMessages_spec (hfollowUp : FollowUpPoint pt.recent .poll) :
    Spec σ r (View σ r pt) (call .getFollowUpMessages)
      (fun ms w => (σ.plain → ∀ m ∈ ms, m.isPlain = true) ∧
        View σ r
          { pt with
            flight := pt.flight ++ ticketsOf ms
            recent := pt.recent ++ [.drained .poll .followUp ms] } w) := by
  refine call_spec (fun _ => (view_stable σ r _).and_const _) ?_
  intro w c res w' hw _ hr
  cases c with
  | nothing =>
    obtain ⟨rfl, rfl⟩ := Prod.mk.inj (some.inj hr)
    exact ⟨_, rfl, hw.drain .poll .followUp (fun _ => hfollowUp)⟩
  | _ => cases hr

theorem drainQueue_spec (name : QueueName)
    (hfollowUp : name = .followUp → FollowUpPoint pt.recent .continuation)
    :
    Triple σ.rules (RunInv σ r) (View σ r pt) (call (.drainQueue name))
      (fun ms w => (σ.plain → ∀ m ∈ ms, m.isPlain = true) ∧
        View σ r
          { pt with
            flight := pt.flight ++ ticketsOf ms
            recent := pt.recent ++ [.drained .continuation name ms] } w) E := by
  refine call_spec (fun _ => (view_stable σ r _).and_const _) ?_
  intro w c res w' hw _ hr
  cases c with
  | nothing =>
    obtain ⟨rfl, rfl⟩ := Prod.mk.inj (some.inj hr)
    exact ⟨_, rfl, hw.drain .continuation name hfollowUp⟩
  | _ => cases hr

theorem getSteeringMessages_spec :
    Spec σ r (View σ r pt) (call .getSteeringMessages)
      (fun ms w => (σ.plain → ∀ m ∈ ms, m.isPlain = true) ∧ View σ r (pt.steered ms) w) := by
  refine call_spec (fun _ => (view_stable σ r _).and_const _) ?_
  intro w c res w' hw _ hr
  cases c with
  | nothing =>
    simp only [AgentWorld.respond] at hr
    split_ifs at hr with hskip
    · obtain ⟨rfl, rfl⟩ := Prod.mk.inj (some.inj hr)
      have hpolled : pt.polled = false := by
        cases hp : pt.polled with
        | false => rfl
        | true =>
          rw [hw.polled hp] at hskip
          cases hskip
      refine ⟨[], rfl, by simp, ?_⟩
      have hset : View σ r { pt with polled := true }
          { w with skipInitialSteeringPoll := false } :=
        hw.congr rfl rfl (fun name => by cases name <;> rfl) hw.shared.updates hw.active
          hw.inactive rfl rfl hw.unsettled hw.live hw.running (fun _ => rfl)
      have hview := hset.note .skippedPoll ⟨rfl, fun _ => rfl, rfl, fun _ => rfl⟩ rfl
        (fun _ _ hx => by cases hx) (fun _ _ hx => by cases hx) nil_suffix
      simpa [Point.steered, hpolled, ticketsOf] using hview
    · obtain ⟨rfl, rfl⟩ := Prod.mk.inj (some.inj hr)
      obtain ⟨hplain, hview⟩ := hw.drain .poll .steering (fun h => by cases h)
      refine ⟨_, rfl, hplain, ?_⟩
      have hskip' : (w.drain .poll .steering).2.skipInitialSteeringPoll = false := by
        simpa [AgentWorld.drain, AgentWorld.record] using hskip
      have hset := hview.setPolled hskip'
      cases hp : pt.polled with
      | true => simpa [Point.steered, hp] using hset
      | false => simpa [Point.steered, hp] using hset.forget
  | _ => cases hr

theorem callLlm_spec (hpt : Closed σ r pt) (hflight : pt.flight = []) (context : AgentContext)
    (hcontext : σ.strict → context.messages = r.messages ++ pt.ended) :
    Spec σ r (View σ r pt) (call (.callLlm context))
      (fun s w => σ.AllowsStream r.mode s ∧ View σ r { pt with recent := [] } w) := by
  have hrecord : ∀ w, View σ r pt w →
      View σ r { pt with recent := [] } (w.record (.llmCall context)) := by
    intro w hw
    refine hw.note (.llmCall context) ⟨rfl, fun _ => rfl, rfl, fun _ => rfl⟩ rfl ?_
      nofun nil_suffix
    rintro hs _ ⟨⟩
    exact hcontext hs
  refine Triple.effect (view_stable σ r pt) (fun _ => (view_stable σ r _).and_const _)
    (interrupted_stable σ r) ?_ ?_
  · intro w c s w' hw hc hr
    cases c with
    | stream s' =>
      obtain ⟨hs, rfl⟩ := Prod.mk.inj (some.inj hr)
      cases hs
      refine ⟨?_, hrecord w hw⟩
      rw [← hw.mode]
      exact hc
    | throws e => cases congrArg Prod.fst (some.inj hr)
    | _ => cases hr
  · intro w c e w' hw hc hr
    cases c with
    | stream s' => cases congrArg Prod.fst (some.inj hr)
    | throws e' =>
      obtain rfl := congrArg Prod.snd (some.inj hr)
      have hquiet := (hrecord w hw).toQuiet hpt.live hpt.running (fun _ => hflight) hpt.answered
      rw [hpt.active] at hquiet
      exact ⟨.inr hc, hquiet⟩
    | _ => cases hr

theorem execute_spec (hactive : pt.active = true) (tool : AgentTool) (toolCall : ToolCall)
    (args : Json) (hphase : pt.state.phase = .turn)
    (hid : σ.strict → toolCall.id ∈ pt.state.running) :
    Spec σ r (View σ r pt) (call (.execute tool toolCall args))
      (fun n => View σ r { pt with live := pt.live ++ [(n, toolCall.id)] }) := by
  refine call_spec (fun _ => view_stable σ r _) ?_
  intro w c res w' hw _ hr
  cases c with
  | nothing =>
    obtain ⟨rfl, rfl⟩ := Prod.mk.inj (some.inj hr)
    refine ⟨_, rfl, hw.congr rfl rfl (fun name => by cases name <;> rfl) ?_ hw.active
      (fun h => by rw [hactive] at h; cases h) rfl rfl ?_ ?_ ?_ hw.polled⟩
    · intro e he
      obtain he | he := mem_append.mp he
      · exact hw.shared.updates e he
      · obtain rfl := mem_singleton.mp he
        rfl
    · intro i e he hnone
      obtain hlt | hge := lt_or_ge i w.executions.length
      · rw [getElem?_append_left hlt] at he
        obtain ⟨p, hp, hpi⟩ := hw.unsettled i e he hnone
        exact ⟨p, mem_append_left _ hp, hpi⟩
      · have hle := (List.getElem?_eq_some_iff.mp he).1
        rw [length_append, length_singleton] at hle
        exact ⟨_, mem_append_right _ (mem_singleton.mpr rfl), by simp only; omega⟩
    · intro p hp
      obtain hp | hp := mem_append.mp hp
      · obtain ⟨e, he, hpid⟩ := hw.live p hp
        exact ⟨e, by rw [List.getElem?_append_left (List.getElem?_eq_some_iff.mp he).1]; exact he,
          hpid⟩
      · obtain rfl := mem_singleton.mp hp
        exact ⟨_, getElem?_concat_length, rfl⟩
    · intro hs p hp
      obtain hp | hp := mem_append.mp hp
      · exact hw.running hs p hp
      · obtain rfl := mem_singleton.mp hp
        exact ⟨hid hs, by rw [hphase]; rfl⟩
  | _ => cases hr

theorem settled_spec (hactive : pt.active = true) {n : ℕ} {id : String}
    {rest : List (ℕ × String)} (hlive : pt.live = (n, id) :: rest) :
    Spec σ r (View σ r pt) (call (.settled n))
      (fun outcome w => outcome.1 = none ∧ View σ r { pt with live := rest } w) := by
  refine call_spec (fun _ => (view_stable σ r _).and_const _) ?_
  intro w c res w' hw _ hr
  cases c with
  | nothing =>
    simp only [AgentWorld.respond] at hr
    split at hr
    · next toolCall failure outcome he =>
        obtain ⟨rfl, rfl⟩ := Prod.mk.inj (some.inj hr)
        refine ⟨_, rfl, hw.shared.updates _ (mem_of_getElem? he), ?_⟩
        refine hw.congr rfl rfl (fun _ => rfl) hw.shared.updates hw.active
          (fun h => by rw [hactive] at h; cases h) rfl rfl ?_ ?_ ?_ hw.polled
        · intro i e hi hnone
          obtain ⟨p, hp, hpi⟩ := hw.unsettled i e hi hnone
          rw [hlive] at hp
          obtain rfl | hp := mem_cons.mp hp
          · obtain rfl : n = i := hpi
            obtain rfl := some.inj (hi.symm.trans he)
            cases hnone
          · exact ⟨p, hp, hpi⟩
        · exact fun p hp => hw.live p (by rw [hlive]; exact mem_cons_of_mem _ hp)
        · exact fun hs p hp => hw.running hs p (by rw [hlive]; exact mem_cons_of_mem _ hp)
    · cases hr
  | _ => cases hr

theorem afterToolCall_spec (assistantMessage : AssistantMessage) (toolCall : ToolCall)
    (args : Json) (result : AgentToolResult) (isError : Bool) (context : AgentContext) :
    Spec σ r (View σ r pt)
      (call (.afterToolCall assistantMessage toolCall args result isError context))
      (fun _ => View σ r pt) := by
  refine quietCall_spec ?_
  intro w c res w' hc hr
  cases c with
  | after a =>
    obtain ⟨rfl, rfl⟩ := Prod.mk.inj (some.inj hr)
    exact ⟨rfl, _, rfl⟩
  | throws e => exact hc.elim
  | _ => cases hr

theorem now_spec : Spec σ r (View σ r pt) (call .now) (fun _ => View σ r pt) := by
  refine quietCall_spec ?_
  intro w c res w' _ hr
  cases c with
  | clock n =>
    obtain ⟨rfl, rfl⟩ := Prod.mk.inj (some.inj hr)
    exact ⟨rfl, _, rfl⟩
  | _ => cases hr

theorem isActive_spec :
    Triple σ.rules (RunInv σ r) (View σ r pt) (call .isActive)
      (fun a w => a = pt.active ∧ View σ r pt w) E := by
  refine call_spec (fun _ => (view_stable σ r _).and_const _) ?_
  intro w c res w' hw _ hr
  cases c with
  | nothing =>
    obtain ⟨rfl, rfl⟩ := Prod.mk.inj (some.inj hr)
    exact ⟨_, rfl, hw.active, hw⟩
  | _ => cases hr

theorem lastMessage_spec :
    Triple σ.rules (RunInv σ r) (View σ r pt) (call .lastMessage)
      (fun last w => last = (r.messages ++ pt.ended).getLast? ∧
        View σ r { pt with recent := [.readLast last] } w) E := by
  refine call_spec (fun _ => (view_stable σ r _).and_const _) ?_
  intro w c res w' hw _ hr
  cases c with
  | nothing =>
    obtain ⟨rfl, rfl⟩ := Prod.mk.inj (some.inj hr)
    refine ⟨_, rfl, by rw [hw.messages], hw.note _ ⟨rfl, fun _ => rfl, rfl, fun _ => rfl⟩ rfl
      nofun nofun ?_⟩
    have hnil : ([] : List TraceItem) <:+ loopItems w.trace := nil_suffix
    exact recent_concat hnil rfl
  | _ => cases hr

theorem beginRun_spec (hlive : pt.live = []) :
    Triple σ.rules (RunInv σ r) (View σ r pt) (call .beginRun)
      (fun _ => View σ r { pt with active := true }) E := by
  refine call_spec (fun _ => view_stable σ r _) ?_
  intro w c res w' hw _ hr
  cases c with
  | nothing =>
    obtain ⟨rfl, rfl⟩ := Prod.mk.inj (some.inj hr)
    exact ⟨_, rfl, hw.congr rfl rfl (fun name => by cases name <;> rfl) hw.shared.updates rfl
      (fun _ => hlive) rfl rfl hw.unsettled hw.live hw.running hw.polled⟩
  | _ => cases hr

theorem createContextSnapshot_spec :
    Spec σ r (View σ r pt) (call .createContextSnapshot)
      (fun context w => context.messages = r.messages ++ pt.ended ∧ View σ r pt w) := by
  refine call_spec (fun _ => (view_stable σ r _).and_const _) ?_
  intro w c res w' hw _ hr
  cases c with
  | nothing =>
    obtain ⟨rfl, rfl⟩ := Prod.mk.inj (some.inj hr)
    exact ⟨_, rfl, hw.messages, hw⟩
  | _ => cases hr

theorem createLoopConfig_spec (skip : Bool) :
    Spec σ r (View σ r pt) (call (.createLoopConfig skip))
      (fun config w => config.toolExecution = r.mode ∧
        View σ r { pt with polled := false } w) := by
  refine call_spec (fun _ => (view_stable σ r _).and_const _) ?_
  intro w c res w' hw _ hr
  cases c with
  | nothing =>
    obtain ⟨rfl, rfl⟩ := Prod.mk.inj (some.inj hr)
    exact ⟨_, rfl, hw.mode, hw.congr rfl rfl (fun name => by cases name <;> rfl)
      hw.shared.updates hw.active hw.inactive rfl rfl hw.unsettled hw.live hw.running
      nofun⟩
  | _ => cases hr

theorem failureMessage_answered {transcript : List TranscriptMessage}
    (h : Answered transcript) (w : AgentWorld) (error : String) (n : ℕ) :
    Answered (transcript ++ [w.failureMessage error n]) := by
  refine @Answered.append_turn _ h _ [] ?_
  intro hfail
  split_ifs at hfail <;> cases hfail

theorem pushFailure_spec (hσ : σ.Faulty) (error : String) :
    Spec σ r (Quiet σ r.initial true) (call (.pushFailure error))
      (fun _ => Quiet σ r.initial true) := by
  have hstable := quiet_stable hσ r true
  refine Triple.effect hstable (fun _ => hstable) (interrupted_stable σ r) ?_ ?_
  · rintro w c m w' ⟨r', hr', hanswered, hw⟩ _ hr
    cases c with
    | clock n =>
      obtain ⟨hm, rfl⟩ := Prod.mk.inj (some.inj hr)
      have hmessages := hw.messages
      simp only [Point.quiet, append_nil] at hmessages
      have hshared := hw.shared
      rw [hr'] at hshared
      refine quiet_intro ?_ hw.active hw.pending (hw.settled rfl) ?_ ?_
      · refine hshared.concat rfl rfl hshared.updates hshared.plainQueues ?_
          nofun nofun
        exact fun _ hledger => hledger.pushed_plain (.inr rfl) rfl
      · intro hl
        simp only [AgentWorld.record, inFlight_concat]
        exact hw.flight hl
      · intro hp
        refine failureMessage_answered ?_ w error n
        rw [hmessages]
        exact hanswered hp
    | _ => cases hr
  · intro w c e w' _ _ hr
    cases c with
    | clock n => cases congrArg Prod.fst (some.inj hr)
    | _ => cases hr

theorem failureEnd_spec (hσ : σ.Faulty) (ms : List TranscriptMessage) :
    Spec σ r (Quiet σ r.initial true) (emit (.agentEnd ms)) (fun _ => Quiet σ r.initial true) := by
  have hstable := quiet_stable hσ r true
  have hview : ∀ w listenerError, Quiet σ r.initial true w →
      Quiet σ r.initial true (w.processEvents (.agentEnd ms) listenerError).2 := by
    rintro w listenerError ⟨r', hr', hanswered, hw⟩
    rw [AgentWorld.processEvents_of_active hw.active]
    have hmessages := hw.messages
    simp only [Point.quiet, append_nil] at hmessages
    have hshared := hw.shared
    rw [hr'] at hshared
    refine quiet_intro ?_ hw.active hw.pending (hw.settled rfl) ?_ ?_
    · refine hshared.concat rfl (process_messages _ _) hshared.updates hshared.plainQueues ?_
        nofun (fun hp _ _ => by rw [hmessages]; exact hanswered hp)
      exact fun _ hledger => hledger.neutral (neutral_event rfl)
    · intro hl
      simp only [AgentWorld.record, inFlight_concat]
      exact hw.flight hl
    · intro hp
      have hprocess := process_messages w.state (.agentEnd ms)
      simp only [AgentWorld.record, hprocess, endedOf, toList_none, append_nil]
      rw [hmessages]
      exact hanswered hp
  refine Triple.effect hstable (fun _ => hstable) (interrupted_stable σ r) ?_ ?_
  · intro w c a w' hw _ hr
    cases c with
    | nothing =>
      obtain rfl := congrArg Prod.snd (some.inj hr)
      exact hview w none hw
    | throws e =>
      obtain rfl := congrArg Prod.snd (some.inj hr)
      exact hview w (some e) hw
    | _ => cases hr
  · intro w c e w' hw _ hr
    cases c with
    | nothing =>
      obtain rfl := congrArg Prod.snd (some.inj hr)
      exact ⟨hσ, hview w none hw⟩
    | throws e' =>
      obtain rfl := congrArg Prod.snd (some.inj hr)
      exact ⟨hσ, hview w (some e') hw⟩
    | _ => cases hr

end AgentProgram

end Draht
