import Draht.AgentTurn

/-!
# A run keeps the view

From turns to whole runs: the loop by induction on its fuel, the two ways to start it, and the
calls of an agent between which it is quiet.
-/

namespace Draht
open List

open Machine (Triple Stable)

variable {σ : RunScope} {r : RunStart} {pt : Point}

structure Point.Over (pt : Point) (σ : RunScope) (r : RunStart) (active : Bool) (phase : Phase) :
    Prop where
  active : pt.active = active
  live : pt.live = []
  state : pt.state = ⟨phase, []⟩
  flight : pt.flight = []
  answered : σ.plain → Answered (r.messages ++ pt.ended)

def Outcome (σ : RunScope) (r : RunStart) (active : Bool) (phase : Phase) (w : AgentWorld) :
    Prop :=
  (∃ pt : Point, pt.Over σ r active phase ∧ View σ r pt w) ∨
    σ.Faulty ∧ Quiet σ r.initial active w

theorem outcome_stable (active : Bool) (phase : Phase) :
    Stable σ.rules (RunInv σ r) (Outcome σ r active phase) where
  invariant := by
    rintro w (⟨pt, _, hw⟩ | ⟨hσ, hw⟩)
    · exact .inl ⟨pt, hw⟩
    · exact .inr ⟨hσ, active, hw⟩
  action := by
    rintro w a w' (⟨pt, hover, hw⟩ | ⟨hσ, hw⟩) ha hact
    · exact .inl ⟨pt, hover, hw.act ha hact⟩
    · exact .inr ⟨hσ, (quiet_stable hσ r active).action w a w' hw ha hact⟩

variable {w : AgentWorld} {config : AgentLoopConfig} {prompts : List TranscriptMessage}

theorem Outcome.quiet {active : Bool} {phase : Phase}
    (h : Outcome σ r active phase w) : Quiet σ r.initial active w := by
  obtain ⟨pt, hover, hw⟩ | ⟨_, hw⟩ := h
  · rw [← hover.active]
    exact hw.toQuiet hover.live (by rw [hover.state]) (fun _ => hover.flight) hover.answered
  · exact hw

namespace AgentProgram

theorem ticketsOf_cons (m : TranscriptMessage) (ms : List TranscriptMessage) :
    ticketsOf (m :: ms) = m.ticket.toList ++ ticketsOf ms := by
  cases ht : m.ticket <;> simp [ticketsOf, ht]

theorem emitMessages_spec (messages : List TranscriptMessage) :
    ∀ pt : Point, Closed σ r pt → pt.state.phase = .turn → pt.flight = ticketsOf messages →
      (σ.plain → ∀ m ∈ messages, m.isPlain = true) →
        Spec σ r (View σ r pt) (emitMessages messages)
          (fun _ => View σ r
            { pt with ended := pt.ended ++ messages, flight := [], recent := [] }) := by
  induction messages with
  | nil =>
    intro pt _ _ hflight _
    refine Spec.pure (view_stable σ r _) (fun w hw => ?_)
    have hnil : pt.flight = [] := hflight
    have hforget := hw.forget
    rw [append_nil, ← hnil]
    exact hforget
  | cons m messages ih =>
    intro pt hpt hphase hflight hplain
    rw [ticketsOf_cons] at hflight
    have hlive : σ.strict → ∀ p ∈ pt.live, p.2 ∈ pt.state.running :=
      fun _ p hp => by rw [hpt.live] at hp; simp at hp
    have hanswered : σ.plain → Answered (r.messages ++ (pt.ended ++ [m])) := by
      intro hp
      rw [← append_assoc]
      refine (hpt.answered hp).append_plain ?_
      intro x hx
      obtain rfl := mem_singleton.mp hx
      exact hplain hp x mem_cons_self
    refine Spec.bind (messageStart_spec hpt.active m (fun _ => hphase) hlive
      (fun _ => hpt)) (fun _ => ?_)
    refine Spec.bind (messageEnd_spec m (ticketsOf messages) ?_ ?_ hflight hlive
      (fun _ => ⟨hpt.live, hpt.running, hanswered⟩)) (fun _ => ?_)
    · exact hpt.active
    · exact fun _ => by simp [ParseState.step, sameMessage]
    · refine Spec.post (ih _ ⟨hpt.active, hpt.live, hpt.running, hanswered⟩ rfl rfl
        (fun hp x hx => hplain hp x (mem_cons_of_mem _ hx))) ?_
      intro _ w hw
      have hstate : pt.state = ⟨.turn, pt.state.running⟩ := by rw [← hphase]
      rw [hstate]
      simpa using hw

structure LoopPoint (σ : RunScope) (r : RunStart) (l : LoopState) (pt : Point) : Prop where
  closed : Closed σ r pt
  phase : pt.state.phase = if l.firstTurn then .turn else .between
  flight : pt.flight = ticketsOf l.pendingMessages
  plain : σ.plain → ∀ m ∈ l.pendingMessages, m.isPlain = true
  newMessages : l.newMessages = pt.ended
  context : σ.strict → l.context.messages = r.messages ++ pt.ended
  polled : pt.polled = true
  later : l.hasMoreToolCalls = false → l.firstTurn = false
  followUp : l.hasMoreToolCalls = false → l.pendingMessages = [] → FollowUpPoint pt.recent .poll

/-- The variables of the loop before the call of the provider. -/
structure TurnPoint (σ : RunScope) (r : RunStart) (l : LoopState) (pt : Point) : Prop where
  closed : Closed σ r pt
  phase : pt.state.phase = .turn
  flight : pt.flight = []
  newMessages : l.newMessages = pt.ended
  context : σ.strict → l.context.messages = r.messages ++ pt.ended
  polled : pt.polled = true
  firstTurn : l.firstTurn = false

variable {last : TranscriptMessage} {l : LoopState}

theorem injectMessages_spec (hclosed : Closed σ r pt) (hphase : pt.state.phase = .turn)
    (hflight : pt.flight = ticketsOf l.pendingMessages)
    (hplain : σ.plain → ∀ m ∈ l.pendingMessages, m.isPlain = true) (hnew : l.newMessages = pt.ended)
    (hcontext : σ.strict → l.context.messages = r.messages ++ pt.ended) (hpolled : pt.polled = true) :
    Spec σ r (View σ r pt) (injectMessages l)
      (fun l' w => ∃ pt', TurnPoint σ r l' pt' ∧ View σ r pt' w) := by
  refine Spec.bind (emitMessages_spec l.pendingMessages pt hclosed hphase hflight hplain)
    (fun _ => ?_)
  refine Spec.pure (Stable.exists (fun pt' => (view_stable σ r pt').and_const _)) ?_
  intro w hw
  refine ⟨{ pt with ended := pt.ended ++ l.pendingMessages, flight := [], recent := [] },
    ⟨⟨hclosed.active, hclosed.live, hclosed.running, ?_⟩, hphase, rfl, ?_, ?_, hpolled, rfl⟩, hw⟩
  · intro hp
    rw [← append_assoc]
    exact (hclosed.answered hp).append_plain (hplain hp)
  · simp [hnew]
  · intro hs
    simp [hcontext hs]

theorem startTurn_spec (hl : LoopPoint σ r l pt) :
    Spec σ r (View σ r pt) (startTurn l)
      (fun l' w => ∃ pt', TurnPoint σ r l' pt' ∧ View σ r pt' w) := by
  have hphase := hl.phase
  unfold startTurn
  cases hfirst : l.firstTurn with
  | true =>
    rw [hfirst] at hphase
    exact injectMessages_spec hl.closed hphase hl.flight hl.plain hl.newMessages hl.context
      hl.polled
  | false =>
    rw [hfirst] at hphase
    refine Spec.bind (turnStart_spec hl.closed hphase) (fun _ => ?_)
    exact injectMessages_spec ⟨hl.closed.active, hl.closed.live, hl.closed.running,
      hl.closed.answered⟩ rfl hl.flight hl.plain hl.newMessages hl.context hl.polled

/-- Where a turn leads: to the next test of the loop's condition, or out of the loop. -/
def TurnOutcome (σ : RunScope) (r : RunStart) (next : Option LoopState) (w : AgentWorld) : Prop :=
  match next with
  | none => Outcome σ r true .finished w
  | some l => ∃ pt, LoopPoint σ r l pt ∧ View σ r pt w

theorem turnOutcome_stable (next : Option LoopState) :
    Stable σ.rules (RunInv σ r) (TurnOutcome σ r next) := by
  cases next with
  | none => exact outcome_stable true .finished
  | some l => exact Stable.exists (fun pt => (view_stable σ r pt).and_const _)

theorem turnToolResults_spec {pt : Point} (hpt : Idling σ pt)
    (hconfig : config.toolExecution = r.mode) (context : AgentContext)
    {message : AssistantMessage} (hdistinct : σ.Distinct r.mode message) :
    Spec σ r (View σ r pt) (turnToolResults config context message)
      (fun results w => (results.map ToolResultMessage.toolCallId).Perm
          (message.toolCalls.map ToolCall.id) ∧
        View σ r { pt with ended := pt.ended ++ results.map .toolResult } w) := by
  unfold turnToolResults
  split_ifs with hcalls
  · refine Spec.post (executeToolCalls_spec hpt hconfig context hdistinct) ?_
    rintro results w ⟨new, ⟨rfl, hids⟩, hw⟩
    exact ⟨hids, hw⟩
  · rw [not_not] at hcalls
    refine Spec.pure ((view_stable σ r _).and_const _) (fun w hw => ⟨by simp [hcalls], ?_⟩)
    simpa using hw

theorem failedTurn_spec (hpt : Closed σ r pt) (hphase : pt.state.phase = .turn)
    (hflight : pt.flight = []) (m : TranscriptMessage) {ms : List TranscriptMessage}
    (hms : ms = pt.ended) :
    Spec σ r (View σ r pt)
      (do
        emit (.turnEnd m [])
        emit (.agentEnd ms)
        return (none : Option LoopState))
      (TurnOutcome σ r) := by
  refine Spec.bind (turnEnd_spec hpt hphase m []) (fun _ => ?_)
  have hbetween : Closed σ r
      { pt with state := ⟨.between, pt.state.running⟩, recent := [.event (.turnEnd m [])] } :=
    ⟨hpt.active, hpt.live, hpt.running, hpt.answered⟩
  refine Spec.bind (agentEnd_spec hbetween rfl hms) (fun _ => ?_)
  refine Spec.pure (turnOutcome_stable none) (fun w hw => .inl ⟨_, ⟨?_, ?_, ?_, ?_, ?_⟩, hw⟩)
  · exact hpt.active
  · exact hpt.live
  · simp [hpt.running]
  · exact hflight
  · exact hpt.answered

theorem finishTurn_spec (hl : TurnPoint σ r l pt) (hconfig : config.toolExecution = r.mode) :
    Spec σ r (View σ r pt) (finishTurn config l) (TurnOutcome σ r) := by
  refine Spec.bind (streamAssistantResponse_spec hl.closed hl.flight hl.phase l.context
    hl.context) ?_
  rintro ⟨message, context⟩
  refine Spec.and_const (fun hresponse => ?_)
  obtain ⟨hdistinct, hcontext⟩ := hresponse
  have hnew : l.newMessages ++ [.assistant message] = (pt.responded message).ended := by
    rw [hl.newMessages]
    rfl
  simp only
  split_ifs with hfail
  · have hclosed : Closed σ r (pt.responded message) := by
      refine ⟨hl.closed.active, hl.closed.live, hl.closed.running, ?_⟩
      refine hl.closed.responded_answered ?_
      simp [AgentEvent.inToolPhase, TranscriptMessage.assistant, hfail]
    exact failedTurn_spec hclosed rfl hl.flight (.assistant message) hnew
  · have hidling : Idling σ (pt.responded message) :=
      ⟨⟨hl.closed.active, rfl, rfl, fun _ p hp => by
        simp only [Point.responded, hl.closed.live] at hp; simp at hp⟩, hl.closed.live,
        hl.closed.running⟩
    refine Spec.bind (turnToolResults_spec hidling hconfig context hdistinct) (fun results => ?_)
    refine Spec.and_const (fun hids => ?_)
    have hclosed : Closed σ r { pt.responded message with
        ended := (pt.responded message).ended ++ results.map .toolResult } := by
      refine ⟨hl.closed.active, hl.closed.live, hl.closed.running, ?_⟩
      intro hp
      have hturn := (hl.closed.answered hp).append_turn (fun _ => ⟨hdistinct (.inl hp), hids⟩)
      simpa [Point.responded] using hturn
    refine Spec.bind (turnEnd_spec hclosed rfl (.assistant message) results) (fun _ => ?_)
    refine Spec.bind getSteeringMessages_spec (fun pending => ?_)
    refine Spec.and_const (fun hplain => ?_)
    refine Spec.pure (turnOutcome_stable _) (fun w hw => ⟨_, ?_, hw⟩)
    refine ⟨⟨hl.closed.active, hl.closed.live, hl.closed.running, hclosed.answered⟩, ?_, ?_,
      hplain, ?_, ?_, rfl, fun _ => hl.firstTurn, ?_⟩
    · simp only [hl.firstTurn]
      rfl
    · simp [Point.steered, Point.responded, hl.flight]
    · simp [hnew, Point.steered]
    · intro hs
      have hmessages : context.messages = r.messages ++ (pt.ended ++ [.assistant message]) :=
        hcontext hs
      simp [hmessages, Point.steered, Point.responded]
    · intro hcalls hpending
      simp only [ne_eq, decide_not, Bool.not_eq_false', decide_eq_true_eq] at hcalls hpending
      have hresults : results = [] := by simpa [hcalls] using hids
      refine ⟨message, hcalls, by simpa using hfail, ?_⟩
      simp [Point.steered, Point.responded, hl.polled, hpending, hresults]

theorem loop_spec (hconfig : config.toolExecution = r.mode)
    (fuel : ℕ) :
    ∀ (l : LoopState) (pt : Point), LoopPoint σ r l pt →
      Spec σ r (View σ r pt) (loop config fuel l) (fun _ => Outcome σ r true .finished) := by
  induction fuel with
  | zero => exact fun l pt _ => Triple.diverge (view_stable σ r pt)
  | succ fuel ih =>
    intro l pt hl
    rw [loop]
    split_ifs with htest
    · refine Spec.bind (startTurn_spec hl) (fun started => ?_)
      refine Spec.exists (fun pt' => Spec.and_const (fun hstarted => ?_))
      refine Spec.bind (finishTurn_spec hstarted hconfig) (fun next => ?_)
      cases next with
      | none => exact Spec.pure (outcome_stable true .finished) (fun _ hw => hw)
      | some l' => exact Spec.exists (fun pt' => Spec.and_const (fun hl' => ih l' pt' hl'))
    · have hcalls : l.hasMoreToolCalls = false := by
        cases hc : l.hasMoreToolCalls with
        | false => rfl
        | true => simp [hc] at htest
      have hpending : l.pendingMessages = [] := by simpa [hcalls] using htest
      have hfirst := hl.later hcalls
      have hflight : pt.flight = [] := by rw [hl.flight, hpending]; rfl
      have hphase : pt.state.phase = .between := by rw [hl.phase, hfirst]; rfl
      refine Spec.bind (getFollowUpMessages_spec (hl.followUp hcalls hpending)) (fun ms => ?_)
      refine Spec.and_const (fun hplain => ?_)
      split_ifs with hms
      · refine ih _ _ ⟨⟨hl.closed.active, hl.closed.live, hl.closed.running,
          hl.closed.answered⟩, ?_, ?_, hplain, hl.newMessages, hl.context, hl.polled, ?_, ?_⟩
        · exact hl.phase
        · simp [hflight]
        · intro hmore
          cases hmore
        · intro hmore
          cases hmore
      · rw [not_not] at hms
        have hclosed : Closed σ r
            { pt with
              flight := pt.flight ++ ticketsOf ms
              recent := pt.recent ++ [.drained .poll .followUp ms] } :=
          ⟨hl.closed.active, hl.closed.live, hl.closed.running, hl.closed.answered⟩
        refine Spec.post (agentEnd_spec hclosed hphase hl.newMessages) ?_
        intro _ w hw
        refine .inl ⟨_, ⟨?_, ?_, ?_, ?_, ?_⟩, hw⟩
        · exact hl.closed.active
        · exact hl.closed.live
        · simp [hl.closed.running]
        · rw [hflight, hms]
          rfl
        · exact hl.closed.answered

theorem runLoop_spec (hconfig : config.toolExecution = r.mode)
    (fuel : ℕ) (hpt : Closed σ r pt) (hphase : pt.state.phase = .turn) (hflight : pt.flight = [])
    {context : AgentContext} (hcontext : σ.strict → context.messages = r.messages ++ pt.ended)
    {newMessages : List TranscriptMessage} (hnew : newMessages = pt.ended) :
    Spec σ r (View σ r pt) (runLoop fuel config context newMessages)
      (fun _ => Outcome σ r true .finished) := by
  refine Spec.bind getSteeringMessages_spec (fun pending => ?_)
  refine Spec.and_const (fun hplain => ?_)
  refine loop_spec hconfig fuel _ _ ⟨⟨hpt.active, hpt.live, hpt.running, hpt.answered⟩, hphase, ?_,
    hplain, hnew, hcontext, rfl, ?_, ?_⟩
  · simp [Point.steered, hflight]
  · intro hmore
    cases hmore
  · intro hmore
    cases hmore

/-- Before the first event of a run: only the messages of the caller are in flight. -/
structure StartPoint (σ : RunScope) (r : RunStart) (active : Bool)
    (prompts : List TranscriptMessage) (pt : Point) : Prop where
  active : pt.active = active
  live : pt.live = []
  state : pt.state = ⟨.start, []⟩
  ended : pt.ended = []
  flight : pt.flight = ticketsOf prompts
  plain : σ.plain → ∀ m ∈ prompts, m.isPlain = true
  answered : σ.plain → Answered r.messages

theorem StartPoint.closed (h : StartPoint σ r true prompts pt) :
    Closed σ r pt :=
  ⟨h.active, h.live, by rw [h.state],
    fun hp => by rw [h.ended, append_nil]; exact h.answered hp⟩

theorem startRun_spec (hpt : StartPoint σ r true prompts pt)
    {α : Type} {p : AgentProgram α} {Q : α → AgentWorld → Prop}
    (hp : ∀ pt', Closed σ r pt' → pt'.state.phase = .turn → pt'.ended = [] →
      pt'.flight = pt.flight → Spec σ r (View σ r pt') p Q) :
    Spec σ r (View σ r pt)
      (do
        emit .agentStart
        emit .turnStart
        p)
      Q := by
  have hbetween : Closed σ r
      { pt with state := ⟨.between, pt.state.running⟩, recent := [] } :=
    ⟨hpt.active, hpt.live, hpt.closed.running, hpt.closed.answered⟩
  refine Spec.bind (agentStart_spec hpt.closed (by rw [hpt.state])) (fun _ => ?_)
  refine Spec.bind (turnStart_spec hbetween rfl) (fun _ => ?_)
  exact hp _ ⟨hpt.active, hpt.live, hpt.closed.running, hpt.closed.answered⟩ rfl hpt.ended rfl

theorem runAgentLoop_spec (hconfig : config.toolExecution = r.mode)
    (fuel : ℕ) (hpt : StartPoint σ r true prompts pt)
    {context : AgentContext} (hcontext : context.messages = r.messages) :
    Spec σ r (View σ r pt) (runAgentLoop fuel prompts context config)
      (fun _ => Outcome σ r true .finished) := by
  refine startRun_spec hpt ?_
  intro pt' hclosed hphase hended hflight
  refine Spec.bind (emitMessages_spec prompts pt' hclosed hphase (hflight.trans hpt.flight)
    hpt.plain) (fun _ => ?_)
  have hinjected : Closed σ r
      { pt' with ended := pt'.ended ++ prompts, flight := [], recent := [] } := by
    refine ⟨hclosed.active, hclosed.live, hclosed.running, fun hp => ?_⟩
    rw [← append_assoc]
    exact (hclosed.answered hp).append_plain (hpt.plain hp)
  refine runLoop_spec hconfig fuel hinjected hphase rfl ?_ ?_
  · intro _
    simp [hcontext, hended]
  · simp [hended, nil_append]

theorem runAgentLoopContinue_spec (hconfig : config.toolExecution = r.mode) (fuel : ℕ)
    (hpt : StartPoint σ r true [] pt) {context : AgentContext}
    (hcontext : context.messages = r.messages) (hlast : r.messages.getLast? = some last)
    (hassistant : last.isAssistant = false) :
    Spec σ r (View σ r pt) (runAgentLoopContinue fuel context config)
      (fun _ => Outcome σ r true .finished) := by
  unfold runAgentLoopContinue
  simp only [hcontext, hlast, hassistant, Bool.false_eq_true, if_false]
  refine startRun_spec hpt ?_
  intro pt' hclosed hphase hended hflight
  refine runLoop_spec hconfig fuel hclosed hphase (hflight.trans hpt.flight) ?_ hended.symm
  intro _
  rw [hcontext, hended, append_nil]

theorem handleRunFailure_spec (error : String) :
    Spec σ r (Interrupted σ r error) (handleRunFailure error)
      (fun _ => Outcome σ r true .finished) := by
  refine Triple.and_const (fun hσ => ?_)
  refine Spec.bind (pushFailure_spec hσ error) (fun failure => ?_)
  exact Spec.post (failureEnd_spec hσ [failure]) (fun _ w hw => .inr ⟨hσ, hw⟩)

theorem finishRun_spec (phase : Phase) {E : String → AgentWorld → Prop} :
    Triple σ.rules (RunInv σ r) (Outcome σ r true phase) (call .finishRun)
      (fun _ => Outcome σ r false phase) E := by
  have hworld : ∀ w, Outcome σ r true phase w → Outcome σ r false phase w.finishRun := by
    rintro w (⟨pt, hover, hw⟩ | ⟨hσ, hw⟩)
    · have hrunning : pt.state.running = [] := by rw [hover.state]
      exact .inl ⟨{ pt with active := false },
        ⟨rfl, hover.live, hover.state, hover.flight, hover.answered⟩,
        hw.finish hover.live hrunning⟩
    · exact .inr ⟨hσ, hw.finish⟩
  have heffect : Triple σ.rules (RunInv σ r) (Outcome σ r true phase) (call .finishRun)
      (fun _ => Outcome σ r false phase) (fun _ _ => False) := by
    refine Triple.effect (outcome_stable true phase) (fun _ => outcome_stable false phase)
      (fun _ => Stable.false) ?_ ?_
    · intro w c a w' hw _ hr
      cases c with
      | nothing =>
        obtain rfl := congrArg Prod.snd (Option.some.inj hr)
        exact hworld w hw
      | _ => cases hr
    · intro w c e w' _ _ hr
      cases c with
      | nothing => cases congrArg Prod.fst (Option.some.inj hr)
      | _ => cases hr
  exact heffect.conseq (fun _ hw => hw) (fun _ _ hw => hw) (fun _ _ he => he.elim)

/-- What a call of the agent keeps: from a quiet state to a quiet state, whether it returns or
throws. -/
def Call (σ : RunScope) (r : RunStart) (pt : Point) (p : AgentProgram Unit) : Prop :=
  Triple σ.rules (RunInv σ r) (View σ r pt) p (fun _ => Outcome σ r false .finished)
    (fun _ => Outcome σ r false .start)

theorem runWithLifecycle_spec (hactive : pt.active = false) (hlive : pt.live = [])
    {executor : AgentProgram Unit}
    (hexecutor : Spec σ r (View σ r { pt with active := true }) executor
      (fun _ => Outcome σ r true .finished)) :
    Call σ r pt (runWithLifecycle executor) := by
  refine Triple.bind isActive_spec (fun active => ?_)
  refine Triple.and_const (fun hisActive => ?_)
  obtain rfl : active = false := hisActive.trans hactive
  refine Triple.bind (beginRun_spec hlive) (fun _ => ?_)
  refine Triple.andFinally
    (Triple.tryCatch hexecutor (fun error => handleRunFailure_spec error)) ?_ ?_
    (fun _ => outcome_stable false .finished) (fun _ => outcome_stable false .start)
  · exact fun _ => finishRun_spec .finished
  · exact fun _ => (finishRun_spec .start).pre (fun w hw => .inr hw)

theorem StartPoint.begun (h : StartPoint σ r false prompts pt) :
    StartPoint σ r true prompts { pt with active := true, polled := false } :=
  ⟨rfl, h.live, h.state, h.ended, h.flight, h.plain, h.answered⟩

theorem runPromptMessages_spec (fuel : ℕ) {messages : List TranscriptMessage}
    (hpt : StartPoint σ r false messages pt) (skip : Bool) :
    Call σ r pt (runPromptMessages fuel messages skip) := by
  refine runWithLifecycle_spec hpt.active hpt.live ?_
  refine Spec.bind createContextSnapshot_spec (fun context => ?_)
  refine Spec.and_const (fun hcontext => ?_)
  simp only [hpt.ended, append_nil] at hcontext
  refine Spec.bind (createLoopConfig_spec skip) (fun config => ?_)
  refine Spec.and_const (fun hconfig => ?_)
  exact runAgentLoop_spec hconfig fuel hpt.begun hcontext

theorem runContinuation_spec (fuel : ℕ) (hpt : StartPoint σ r false [] pt)
    (hlast : r.messages.getLast? = some last) (hassistant : last.isAssistant = false) :
    Call σ r pt (runContinuation fuel) := by
  refine runWithLifecycle_spec hpt.active hpt.live ?_
  refine Spec.bind createContextSnapshot_spec (fun context => ?_)
  refine Spec.and_const (fun hcontext => ?_)
  simp only [hpt.ended, append_nil] at hcontext
  refine Spec.bind (createLoopConfig_spec false) (fun config => ?_)
  refine Spec.and_const (fun hconfig => ?_)
  exact runAgentLoopContinue_spec hconfig fuel hpt.begun hcontext hlast hassistant

theorem prompt_spec (hanswered : σ.plain → Answered r.messages) (fuel : ℕ)
    {messages : List AgentMessage} (hplain : σ.plain → ∀ m ∈ messages, m.isPlain = true) :
    Call σ r (.quiet false) (prompt fuel messages) := by
  refine Triple.bind isActive_spec (fun active => ?_)
  refine Triple.and_const (fun hactive => ?_)
  obtain rfl : active = false := hactive
  refine runPromptMessages_spec fuel ⟨rfl, rfl, rfl, rfl, ?_, ?_, hanswered⟩ false
  · simp [Point.quiet, ticketsOf]
  · intro hp m hm
    obtain ⟨x, hx, rfl⟩ := mem_map.mp hm
    exact hplain hp x hx

theorem continueRun_spec (hanswered : σ.plain → Answered r.messages) (fuel : ℕ) :
    Call σ r (.quiet false) (continueRun fuel) := by
  have hthrow : ∀ (pt : Point) (e : String), pt.Over σ r false .start →
      Triple σ.rules (RunInv σ r) (View σ r pt) (.throw e : AgentProgram Unit)
        (fun _ => Outcome σ r false .finished) (fun _ => Outcome σ r false .start) :=
    fun pt e hover =>
      Triple.throw (outcome_stable false .start) (fun w hw => .inl ⟨pt, hover, hw⟩)
  have hquiet : σ.plain → Answered (r.messages ++ []) := by
    rw [append_nil]
    exact hanswered
  refine Triple.bind isActive_spec (fun active => ?_)
  refine Triple.and_const (fun hactive => ?_)
  obtain rfl : active = false := hactive
  refine Triple.bind lastMessage_spec (fun last => ?_)
  refine Triple.and_const (fun hlast => ?_)
  simp only [Point.quiet, append_nil] at hlast
  cases last with
  | none => exact hthrow _ _ ⟨rfl, rfl, rfl, rfl, hquiet⟩
  | some last =>
    cases hassistant : last.isAssistant with
    | false =>
      simp only [hassistant, Bool.false_eq_true, if_false]
      exact runContinuation_spec fuel ⟨rfl, rfl, rfl, rfl, rfl, by simp, hanswered⟩
        hlast.symm hassistant
    | true =>
      simp only [hassistant, if_true]
      refine Triple.bind (drainQueue_spec .steering (fun h => by cases h)) (fun steering => ?_)
      refine Triple.and_const (fun hsteering => ?_)
      split_ifs with hne
      · exact runPromptMessages_spec fuel ⟨rfl, rfl, rfl, rfl, rfl, hsteering, hanswered⟩ true
      · rw [not_not] at hne
        subst hne
        refine Triple.bind (drainQueue_spec .followUp (fun _ => ⟨last, hassistant, ?_⟩))
          (fun followUps => ?_)
        · exact suffix_rfl
        · refine Triple.and_const (fun hfollowUps => ?_)
          split_ifs with hne
          · exact runPromptMessages_spec fuel
              ⟨rfl, rfl, rfl, rfl, rfl, hfollowUps, hanswered⟩ false
          · rw [not_not] at hne
            subst hne
            exact hthrow _ _ ⟨rfl, rfl, rfl, rfl, hquiet⟩

end AgentProgram

/-- An agent that has not been called; its transcript is given. -/
structure AgentWorld.Fresh (w : AgentWorld) : Prop where
  activeRun : w.activeRun = none
  pendingToolCalls : w.state.pendingToolCalls = []
  queues : ∀ name, (w.queue name).messages = []
  executions : w.executions = []
  trace : w.trace = []
  tickets : ticketsOf w.state.messages = []

/-- The messages of the caller are neither assistant messages nor tool results. -/
def AgentCall.IsPlain : AgentCall → Prop
  | .prompt _ messages => ∀ m ∈ messages, m.isPlain = true
  | .continue _ => True

theorem AgentCall.program_spec (c : AgentCall) (hc : σ.plain → c.IsPlain)
    (hanswered : σ.plain → Answered r.messages) :
    AgentProgram.Call σ r (.quiet false) c.program := by
  cases c with
  | prompt fuel messages => exact AgentProgram.prompt_spec hanswered fuel hc
  | «continue» fuel => exact AgentProgram.continueRun_spec hanswered fuel

/-- What holds at any time of an agent that was created with the given transcript. -/
def AgentInv (σ : RunScope) (initial : List TranscriptMessage) (w : AgentWorld) : Prop :=
  ∃ r : RunStart, r.initial = initial ∧ RunInv σ r w

variable {initial : List TranscriptMessage}

theorem AgentInv.shared (h : AgentInv σ initial w) : Shared σ initial w := by
  obtain ⟨r, rfl, ⟨pt, hw⟩ | ⟨_, active, r', hr', _, hw⟩⟩ := h
  · exact hw.shared
  · rw [← hr']
    exact hw.shared

theorem Quiet.agentInv {active : Bool} (h : Quiet σ initial active w) : AgentInv σ initial w :=
  ⟨_, rfl, .inl ⟨_, h.view⟩⟩

theorem AgentCall.program_quiet (c : AgentCall) (hc : σ.plain → c.IsPlain)
    (initial : List TranscriptMessage) :
    Triple σ.rules (AgentInv σ initial) (Quiet σ initial false) c.program
      (fun _ => Quiet σ initial false) (fun _ => Quiet σ initial false) := by
  refine Triple.exists (fun r => ?_)
  refine Triple.and_const (fun hr => ?_)
  refine Triple.and_const (fun hanswered => ?_)
  subst hr
  have hcall := c.program_spec hc hanswered
  exact (hcall.weaken (fun w hw => ⟨r, rfl, hw⟩)).conseq (fun _ hw => hw)
    (fun _ _ hw => hw.quiet) (fun _ _ hw => hw.quiet)

theorem AgentWorld.Fresh.quiet (h : w.Fresh)
    (hanswered : σ.plain → Answered w.state.messages) : Quiet σ w.state.messages false w := by
  have hledger : Ledger w.trace (fun name => (w.queue name).messages) := by
    refine ⟨?_, ?_, ?_, ?_⟩
    · intro name m hm
      simp [h.queues name] at hm
    · intro name
      simp [h.trace, issuedSerials, ticketsOf, serialsOf]
    · intro name
      simp [h.trace, h.queues name, history, injectedSerials, clearedSerials, issuedSerials,
        transcriptOf, inFlight, ticketsOf, serialsOf]
    · intro name
      simp [h.trace, h.queues name, history, injectedSerials, transcriptOf, inFlight, ticketsOf,
        serialsOf]
  have hshared : Shared σ w.state.messages w := by
    refine ⟨?_, ?_, ?_, fun _ => hledger, ?_, ?_⟩
    · simp [h.trace, transcriptOf]
    · simp [h.executions]
    · intro _ name m hm
      simp [h.queues name] at hm
    · intro before drainedBy batch after hsplit
      simp [h.trace] at hsplit
    · intro _ before ms after hsplit
      simp [h.trace] at hsplit
  refine quiet_intro hshared (by simp [h.activeRun]) h.pendingToolCalls ?_ ?_ hanswered
  · intro i e he
    simp [h.executions] at he
  · intro _
    simp [h.trace, inFlight]

section Served

variable {C : Type} {calls : C → AgentProgram Unit} {w₀ : AgentWorld}
  {s : Option (AgentProgram Unit) × AgentWorld}

theorem served_inv (hfresh : w₀.Fresh) (hanswered : σ.plain → Answered w₀.state.messages)
    (hcalls : ∀ c, ∃ call : AgentCall, calls c = call.program ∧ (σ.plain → call.IsPlain))
    (h : Machine.Serves σ.rules calls (fun w => w = w₀) s) :
    (s.1 = none → Quiet σ w₀.state.messages false s.2) ∧ AgentInv σ w₀.state.messages s.2 := by
  have hinit : ∀ w, w = w₀ → Quiet σ w₀.state.messages false w := by
    rintro w rfl
    exact hfresh.quiet hanswered
  have hstable : Stable σ.rules (AgentInv σ w₀.state.messages)
      (Quiet σ w₀.state.messages false) := Quiet.stable (fun _ hw => hw.agentInv)
  have htriple : ∀ c, Triple σ.rules (AgentInv σ w₀.state.messages)
      (Quiet σ w₀.state.messages false) (calls c) (fun _ => Quiet σ w₀.state.messages false)
      (fun _ => Quiet σ w₀.state.messages false) := by
    intro c
    obtain ⟨call, hcall, hplain⟩ := hcalls c
    rw [hcall]
    exact call.program_quiet hplain _
  exact ⟨(h.safe hinit hstable htriple).2, h.invariant hinit hstable htriple⟩

end Served

def newAgent (messages : List TranscriptMessage) (toolExecution : ToolExecutionMode) :
    AgentWorld :=
  { state :=
      { systemPrompt := "", model := ⟨"", "", ""⟩, tools := [⟨"read"⟩], messages
        isStreaming := false, streamingMessage := none, pendingToolCalls := []
        errorMessage := none }
    steeringQueue := ⟨[], .oneAtATime⟩, followUpQueue := ⟨[], .oneAtATime⟩, toolExecution
    activeRun := none, skipInitialSteeringPoll := false, executions := [], trace := [] }

theorem newAgent_fresh {messages : List TranscriptMessage} (h : ticketsOf messages = [])
    (toolExecution : ToolExecutionMode) : (newAgent messages toolExecution).Fresh :=
  ⟨rfl, rfl, fun name => by cases name <;> rfl, rfl, rfl, h⟩

def callNamed (id : String) : ToolCall :=
  { id, name := "read", arguments := .nil, thoughtSignature := none }

def replyWith (calls : List ToolCall) (stopReason : StopReason) : AssistantMessage :=
  { content := calls.map .toolCall, api := "", provider := "", model := "", usage := EMPTY_USAGE
    stopReason, errorMessage := none, timestamp := 0 }

def plainText (text : String) : AgentMessage := .user { content := .string text, timestamp := 0 }

abbrev Script := List (Outside ⊕ AgentAction)

def steps (n : ℕ) : Script := List.replicate n (.inl .nothing)

def reply (m : AssistantMessage) : Script := [.inl (.stream ⟨[.done], .ok m⟩)]

def prepareCall : Script := [.inl .nothing, .inl (.arguments .null), .inl (.before none)]

/-- The execution of the given number settles with an empty result. -/
def settleCall (execution : ℕ) : Script := [.inr (.toolSettle execution (.ok ⟨[], none⟩))]

def oneCallScript : Script :=
  steps 10 ++ reply (replyWith [callNamed "1"] .toolUse) ++ steps 2 ++ prepareCall ++ steps 1 ++
    settleCall 0 ++ steps 1 ++ [.inl (.after none)] ++ steps 1 ++ [.inl (.clock 7)] ++ steps 4 ++
      steps 1 ++ reply (replyWith [] .stop) ++ steps 7

end Draht
