import Draht.AgentSteps

/-!
# A turn keeps the view

What holds after the response of the provider was streamed, and after the tool calls of an
assistant message were executed in either mode: one result for each call.
-/

namespace Draht
open List Option

open Machine (Triple Stable)

variable {σ : RunScope} {r : RunStart} {pt : Point}

variable {α : Type} {P : AgentWorld → Prop}

variable {Q : α → AgentWorld → Prop} {p : AgentProgram α}

theorem Spec.bind {β : Type} {f : α → AgentProgram β} {Q' : β → AgentWorld → Prop}
    (hp : Spec σ r P p Q) (hf : ∀ a, Spec σ r (Q a) (f a) Q') : Spec σ r P (p >>= f) Q' :=
  Triple.bind hp hf

theorem Spec.pure {a : α} (hQ : Stable σ.rules (RunInv σ r) (Q a)) (h : ∀ w, P w → Q a w) :
    Spec σ r P (pure a : AgentProgram α) Q :=
  Triple.pure hQ h

theorem Spec.and_const {φ : Prop} (h : φ → Spec σ r P p Q) : Spec σ r (fun w => φ ∧ P w) p Q :=
  Triple.and_const h

theorem Spec.exists {ι : Type} {P : ι → AgentWorld → Prop} (h : ∀ i, Spec σ r (P i) p Q) :
    Spec σ r (fun w => ∃ i, P i w) p Q :=
  Triple.exists h

theorem Spec.post {Q' : α → AgentWorld → Prop} (h : Spec σ r P p Q) (hQ : ∀ a w, Q a w → Q' a w) :
    Spec σ r P p Q' :=
  Triple.conseq h (fun _ hw => hw) hQ (fun _ _ he => he)

/-- A message bracket ends with a message of the assistant. -/
def Point.responded (pt : Point) (m : AssistantMessage) : Point :=
  { pt with
    state := ⟨.turn, pt.state.running⟩, ended := pt.ended ++ [.assistant m], recent := [] }

def Point.answered (pt : Point) (id : String) (m : ToolResultMessage) : Point :=
  { pt with
    state := ⟨.turn, pt.state.running.filter (fun x => x ≠ id)⟩
    ended := pt.ended ++ [.toolResult m], recent := [] }

/-- The ids of the calls of a message are distinct where that is needed. -/
def RunScope.Distinct (σ : RunScope) (mode : ToolExecutionMode) (m : AssistantMessage) : Prop :=
  σ.plain ∨ (σ.strict ∧ mode = .parallel) → (m.toolCalls.map ToolCall.id).Nodup

namespace AgentProgram

theorem Closed.responded_answered (hpt : Closed σ r pt) {m : AssistantMessage}
    (hphase : (AgentEvent.messageEnd (.assistant m)).inToolPhase = false) (hplain : σ.plain) :
    Answered (r.messages ++ (pt.ended ++ [.assistant m])) := by
  rw [← append_assoc]
  refine @Answered.append_turn _ (hpt.answered hplain) m [] ?_
  intro hfail
  have hcalls : m.toolCalls = [] := by
    simpa [AgentEvent.inToolPhase, TranscriptMessage.assistant, hfail] using hphase
  simp [hcalls]

theorem assistantEnd_spec (hpt : Closed σ r pt) {started : TranscriptMessage}
    (hphase : pt.state.phase = .message started) (hstarted : started.isAssistant = true)
    (m : AssistantMessage) :
    Spec σ r (View σ r pt) (emit (.messageEnd (.assistant m)))
      (fun _ => View σ r (pt.responded m)) := by
  refine messageEnd_spec (.assistant m) pt.flight hpt.active ?_ rfl
    (fun _ p hp => by rw [hpt.live] at hp; simp at hp)
    (fun hopen => ⟨hpt.live, hpt.running, hpt.responded_answered hopen⟩)
  intro _
  have hsame : sameMessage started (.assistant m) = true := by
    rw [sameMessage, hstarted]
    simp [TranscriptMessage.isAssistant, TranscriptMessage.assistant, AgentMessage.isAssistant]
  simp [ParseState.step, hphase, hsame]

theorem ofExcept_spec (result : Except String α)
    (herror : ∀ e, result = .error e → ∀ w, View σ r pt w → Interrupted σ r e w) :
    Spec σ r (View σ r pt) (Program.ofExcept result)
      (fun a w => result = .ok a ∧ View σ r pt w) := by
  cases result with
  | ok a => exact Spec.pure ((view_stable σ r pt).and_const _) (fun w hw => ⟨rfl, hw⟩)
  | error e => exact Triple.throw (interrupted_stable σ r e) (herror e rfl)

/-- Where the loop over the events of a stream is: `base` are the messages of the context
before the response. -/
inductive Reading (σ : RunScope) (base : List TranscriptMessage) (pt : Point)
    (stream : ProviderStream) (context : AgentContext) : Bool → Prop
  | waiting (hphase : pt.state.phase = .turn) (hcontext : σ.strict → context.messages = base)
      (hevents : σ.strict → stream.obeysProtocol = true) : Reading σ base pt stream context false
  | streaming {started : TranscriptMessage} (hphase : pt.state.phase = .message started)
      (hstarted : started.isAssistant = true)
      (hcontext : σ.strict → context.messages = base ++ [started])
      (hevents : σ.strict → updatesThenFinal stream.events = true) :
      Reading σ base pt stream context true

def Response (σ : RunScope) (r : RunStart) (pt : Point) (base : List TranscriptMessage)
    (result : Except String AssistantMessage) (out : AssistantMessage × AgentContext)
    (w : AgentWorld) : Prop :=
  (result = .ok out.1 ∧ (σ.strict → out.2.messages = base ++ [.assistant out.1])) ∧
    View σ r (pt.responded out.1) w

theorem response_stable (pt : Point) (base : List TranscriptMessage)
    (result : Except String AssistantMessage) (out : AssistantMessage × AgentContext) :
    Stable σ.rules (RunInv σ r) (Response σ r pt base result out) :=
  (view_stable σ r _).and_const _

theorem Closed.interrupted (hpt : Closed σ r pt) (hflight : pt.flight = [])
    (hthrows : σ.providerThrows) (e : String) {w : AgentWorld} (hw : View σ r pt w) :
    Interrupted σ r e w := by
  have hquiet := hw.toQuiet hpt.live hpt.running (fun _ => hflight) hpt.answered
  rw [hpt.active] at hquiet
  exact ⟨.inr hthrows, hquiet⟩

variable {toolCalls : List ToolCall} {base : List TranscriptMessage}
  {runnableCalls : List PreparedToolCall} {toolCall : ToolCall}

theorem finishResponse_spec (hpt : Closed σ r pt) (hflight : pt.flight = [])
    {stream : ProviderStream} {context : AgentContext} {addedPartial : Bool}
    (hreading : Reading σ base pt stream context addedPartial)
    (hresult : ∀ e, stream.result = .error e → σ.providerThrows) :
    Spec σ r (View σ r pt) (finishResponse context addedPartial stream.result)
      (Response σ r pt base stream.result) := by
  refine Spec.bind (ofExcept_spec stream.result ?_) ?_
  · exact fun e he w hw => hpt.interrupted hflight (hresult e he) e hw
  intro m
  refine Spec.and_const (fun hok => ?_)
  cases hreading with
  | streaming hphase hstarted hcontext _ =>
    refine Spec.bind (assistantEnd_spec hpt hphase hstarted m) (fun _ => ?_)
    refine Spec.pure (response_stable pt base _ _) (fun w hw => ⟨⟨hok, ?_⟩, hw⟩)
    intro hs
    simp [hcontext hs]
  | waiting hphase hcontext _ =>
    refine Spec.bind (messageStart_spec hpt.active (.assistant m) (fun _ => hphase)
      (fun _ p hp => by rw [hpt.live] at hp; simp at hp) (fun _ => hpt)) (fun _ => ?_)
    have hpt' : Closed σ r
        { pt with state := ⟨.message (.assistant m), pt.state.running⟩, recent := [] } :=
      ⟨hpt.active, hpt.live, hpt.running, hpt.answered⟩
    refine Spec.bind (assistantEnd_spec hpt' rfl rfl m) (fun _ => ?_)
    refine Spec.pure (response_stable pt base _ _) (fun w hw => ⟨⟨hok, ?_⟩, hw⟩)
    intro hs
    simp [hcontext hs]

theorem readStream_spec (result : Except String AssistantMessage)
    (hresult : ∀ e, result = .error e → σ.providerThrows) (events : List StreamEvent) :
    ∀ (pt : Point) (context : AgentContext) (addedPartial : Bool), Closed σ r pt →
      pt.flight = [] → Reading σ base pt ⟨events, result⟩ context addedPartial →
        Spec σ r (View σ r pt) (readStream result events context addedPartial)
          (Response σ r pt base result) := by
  induction events with
  | nil =>
    intro pt context addedPartial hpt hflight hreading
    exact finishResponse_spec hpt hflight hreading hresult
  | cons e events ih =>
    intro pt context addedPartial hpt hflight hreading
    cases e with
    | start m =>
      have hphase : σ.strict → pt.state.phase = .turn := by
        intro hs
        cases hreading with
        | waiting hphase _ _ => exact hphase
        | streaming _ _ _ hevents => cases hevents hs
      refine Spec.bind (messageStart_spec hpt.active (.assistant m) hphase
        (fun _ p hp => by rw [hpt.live] at hp; simp at hp) (fun _ => hpt)) (fun _ => ?_)
      refine ih _ _ true ⟨hpt.active, hpt.live, hpt.running, hpt.answered⟩ hflight
        (.streaming rfl rfl ?_ ?_)
      · intro hs
        cases hreading with
        | waiting _ hcontext _ => simp only [hcontext hs]
        | streaming _ _ _ hevents => cases hevents hs
      · intro hs
        cases hreading with
        | waiting _ _ hevents => exact hevents hs
        | streaming _ _ _ hevents => cases hevents hs
    | update type m =>
      cases hreading with
      | waiting hphase hcontext hevents =>
        exact ih _ _ false hpt hflight (.waiting hphase hcontext (fun hs => by cases hevents hs))
      | streaming hphase hstarted hcontext hevents =>
        refine Spec.bind (messageUpdate_spec hpt type hphase hstarted rfl) (fun _ => ?_)
        refine ih _ _ true ⟨hpt.active, hpt.live, hpt.running, hpt.answered⟩ hflight
          (.streaming rfl rfl ?_ hevents)
        intro hs
        simp [hcontext hs]
    | done => exact finishResponse_spec hpt hflight hreading hresult
    | error => exact finishResponse_spec hpt hflight hreading hresult

theorem streamAssistantResponse_spec (hpt : Closed σ r pt) (hflight : pt.flight = [])
    (hphase : pt.state.phase = .turn) (context : AgentContext)
    (hcontext : σ.strict → context.messages = r.messages ++ pt.ended) :
    Spec σ r (View σ r pt) (streamAssistantResponse context)
      (fun out w => (σ.Distinct r.mode out.1 ∧
        (σ.strict → out.2.messages = r.messages ++ (pt.ended ++ [.assistant out.1]))) ∧
          View σ r (pt.responded out.1) w) := by
  refine Spec.bind (callLlm_spec hpt hflight context hcontext) ?_
  intro stream
  refine Spec.and_const (fun hallowed => ?_)
  refine Spec.post (readStream_spec stream.result hallowed.result
    stream.events _ context false ⟨hpt.active, hpt.live, hpt.running, hpt.answered⟩ hflight
    (.waiting hphase hcontext hallowed.protocol)) ?_
  rintro out w ⟨⟨hok, hmessages⟩, hw⟩
  refine ⟨⟨hallowed.distinct out.1 hok, ?_⟩, hw⟩
  intro hs
  rw [hmessages hs, append_assoc]

structure Calling (σ : RunScope) (pt : Point) : Prop where
  active : pt.active = true
  phase : pt.state.phase = .turn
  recent : pt.recent = []
  live : σ.strict → ∀ p ∈ pt.live, p.2 ∈ pt.state.running

theorem validateArguments_spec (tool : AgentTool) (toolCall : ToolCall) :
    Triple σ.rules (RunInv σ r) (View σ r pt) (call (.validateArguments tool toolCall))
      (fun _ => View σ r pt) (fun _ => View σ r pt) := by
  refine readOnly_spec ?_
  intro w c res w' hr
  cases c with
  | arguments args => exact (congrArg Prod.snd (some.inj hr)).symm
  | throws e => exact (congrArg Prod.snd (some.inj hr)).symm
  | _ => cases hr

variable (assistantMessage : AssistantMessage) (context : AgentContext)

theorem beforeToolCall_spec (toolCall : ToolCall) (args : Json) (context : AgentContext) :
    Triple σ.rules (RunInv σ r) (View σ r pt)
      (call (.beforeToolCall assistantMessage toolCall args context))
      (fun _ => View σ r pt) (fun _ => View σ r pt) := by
  refine readOnly_spec ?_
  intro w c res w' hr
  cases c with
  | before b => exact (congrArg Prod.snd (some.inj hr)).symm
  | throws e => exact (congrArg Prod.snd (some.inj hr)).symm
  | _ => cases hr

theorem prepareToolCall_spec (assistantMessage : AssistantMessage) (toolCall : ToolCall) :
    Spec σ r (View σ r pt) (prepareToolCall context assistantMessage toolCall)
      (fun p w => (∀ prepared, p = .prepared prepared → prepared.toolCall = toolCall) ∧
        View σ r pt w) := by
  have hstable : ∀ p : Preparation, Stable σ.rules (RunInv σ r) (fun w =>
      (∀ prepared, p = .prepared prepared → prepared.toolCall = toolCall) ∧ View σ r pt w) :=
    fun p => (view_stable σ r pt).and_const _
  unfold prepareToolCall
  split
  · exact Spec.pure (hstable _) (fun w hw => ⟨by simp, hw⟩)
  · next tool _ =>
      refine Triple.tryCatch (E := fun _ => View σ r pt) ?_ ?_
      · refine Triple.bind (validateArguments_spec tool toolCall) (fun args => ?_)
        refine Triple.bind (beforeToolCall_spec assistantMessage toolCall args context) ?_
        intro before
        split
        · exact Triple.pure (hstable _) (fun w hw => ⟨by simp, hw⟩)
        · refine Triple.pure (hstable _) (fun w hw => ⟨?_, hw⟩)
          rintro prepared ⟨⟩
          rfl
      · exact fun e => Triple.pure (hstable _) (fun w hw => ⟨by simp, hw⟩)

theorem emitToolCallOutcome_spec (hpt : Calling σ pt) (toolCall : ToolCall)
    (result : AgentToolResult) (isError : Bool)
    (hid : σ.strict → toolCall.id ∈ pt.state.running)
    (hother : σ.strict → ∀ p ∈ pt.live, p.2 ≠ toolCall.id) :
    Spec σ r (View σ r pt) (emitToolCallOutcome toolCall result isError)
      (fun m w => m.toolCallId = toolCall.id ∧ View σ r (pt.answered toolCall.id m) w) := by
  have hlive : σ.strict → ∀ p ∈ pt.live, p.2 ∈ pt.state.running.filter (fun x => x ≠ toolCall.id) :=
    fun hs p hp => mem_filter.mpr ⟨hpt.live hs p hp, by simpa using hother hs p hp⟩
  refine Spec.bind (toolEnd_spec hpt.active hpt.phase toolCall result isError hid
    (fun hs p hp => ⟨hpt.live hs p hp, hother hs p hp⟩)) (fun _ => ?_)
  refine Spec.bind now_spec (fun timestamp => ?_)
  refine Spec.bind (messageStart_spec ?_ _ (fun _ => rfl) hlive ?_) (fun _ => ?_)
  · exact hpt.active
  · exact fun h => by cases h
  refine Spec.bind (messageEnd_spec _ pt.flight ?_ ?_ rfl hlive ?_) (fun _ => ?_)
  · exact hpt.active
  · exact fun _ => by simp [ParseState.step, sameMessage]
  · exact fun h => by cases h
  exact Spec.pure ((view_stable σ r _).and_const _) (fun w hw => ⟨rfl, hw⟩)

theorem awaitExecution_spec (hpt : Calling σ pt) {n : ℕ} {id : String}
    {rest : List (ℕ × String)} (hlive : pt.live = (n, id) :: rest) :
    Spec σ r (View σ r pt) (awaitExecution n)
      (fun _ => View σ r { pt with live := rest }) := by
  refine Spec.bind (settled_spec hpt.active hlive) ?_
  rintro ⟨failure, outcome⟩
  refine Spec.and_const (fun hfailure => ?_)
  obtain rfl : failure = none := hfailure
  cases outcome with
  | ok result => exact Spec.pure (view_stable σ r _) (fun w hw => hw)
  | error e => exact Spec.pure (view_stable σ r _) (fun w hw => hw)

theorem finalizeExecutedToolCall_spec (hpt : Calling σ pt) (context : AgentContext)
    (assistantMessage : AssistantMessage) (prepared : PreparedToolCall)
    (executed : ExecutedToolCallOutcome)
    (hid : σ.strict → prepared.toolCall.id ∈ pt.state.running)
    (hother : σ.strict → ∀ p ∈ pt.live, p.2 ≠ prepared.toolCall.id) :
    Spec σ r (View σ r pt)
      (finalizeExecutedToolCall context assistantMessage prepared executed)
      (fun m w => m.toolCallId = prepared.toolCall.id ∧
        View σ r (pt.answered prepared.toolCall.id m) w) :=
  Spec.bind (afterToolCall_spec _ _ _ _ _ _)
    (fun _ => emitToolCallOutcome_spec hpt _ _ _ hid hother)

structure Idling (σ : RunScope) (pt : Point) : Prop where
  calling : Calling σ pt
  live : pt.live = []
  running : pt.state.running = []

theorem executeToolCall_spec (hpt : Calling σ pt) (hlive : pt.live = []) (context : AgentContext)
    (assistantMessage : AssistantMessage) (toolCall : ToolCall)
    (hrunning : toolCall.id ∈ pt.state.running) (preparation : Preparation)
    (hprepared : ∀ prepared, preparation = .prepared prepared → prepared.toolCall = toolCall) :
    Spec σ r (View σ r pt) (executeToolCall context assistantMessage toolCall preparation)
      (fun m w => m.toolCallId = toolCall.id ∧ View σ r (pt.answered toolCall.id m) w) := by
  cases preparation with
  | immediate result isError =>
    exact emitToolCallOutcome_spec hpt toolCall result isError (fun _ => hrunning)
      (fun _ p hp => by rw [hlive] at hp; simp at hp)
  | prepared prepared =>
    obtain rfl := hprepared prepared rfl
    refine Spec.bind (execute_spec hpt.active _ _ _ hpt.phase (fun _ => hrunning)) (fun n => ?_)
    have hpt' : Calling σ { pt with live := pt.live ++ [(n, prepared.toolCall.id)] } := by
      refine ⟨hpt.active, hpt.phase, hpt.recent, fun hs p hp => ?_⟩
      simp only [hlive, nil_append, mem_singleton] at hp
      rw [hp]
      exact hrunning
    have hone :
        pt.live ++ [(n, prepared.toolCall.id)] = (n, prepared.toolCall.id) :: pt.live := by
      rw [hlive]
      rfl
    refine Spec.bind (awaitExecution_spec hpt' hone) (fun executed => ?_)
    exact finalizeExecutedToolCall_spec hpt context assistantMessage prepared executed
      (fun _ => hrunning) (fun _ p hp => by rw [hlive] at hp; simp at hp)

/-- What the calls of a message leave: their results, and no call open. -/
def Results (σ : RunScope) (r : RunStart) (pt : Point) (ids : List String)
    (results out : List ToolResultMessage) (w : AgentWorld) : Prop :=
  ∃ new, (out = results ++ new ∧ (new.map ToolResultMessage.toolCallId).Perm ids) ∧
    View σ r { pt with ended := pt.ended ++ new.map .toolResult } w

theorem results_stable (pt : Point) (ids : List String) (results out : List ToolResultMessage) :
    Stable σ.rules (RunInv σ r) (Results σ r pt ids results out) :=
  Stable.exists (fun _ => (view_stable σ r _).and_const _)

theorem executeToolCallsSequential_spec (assistantMessage : AssistantMessage)
    (toolCalls : List ToolCall) :
    ∀ (results : List ToolResultMessage) (pt : Point), Idling σ pt →
      Spec σ r (View σ r pt)
        (executeToolCallsSequential context assistantMessage toolCalls results)
        (Results σ r pt (toolCalls.map ToolCall.id) results) := by
  induction toolCalls with
  | nil =>
    intro results pt _
    refine Spec.pure (results_stable _ _ _ _) (fun w hw => ⟨[], ⟨by simp, by simp⟩, ?_⟩)
    simpa using hw
  | cons toolCall toolCalls ih =>
    intro results pt hpt
    have hnew : toolCall.id ∉ pt.state.running := by simp [hpt.running]
    refine Spec.bind (toolStart_spec hpt.calling.active hpt.calling.phase toolCall
      (fun _ => hnew) hpt.calling.live) (fun _ => ?_)
    refine Spec.bind (prepareToolCall_spec context assistantMessage toolCall) ?_
    intro preparation
    refine Spec.and_const (fun hprepared => ?_)
    have hstarted : Calling σ
        { pt with state := ⟨.turn, addPending toolCall.id pt.state.running⟩, recent := [] } :=
      ⟨hpt.calling.active, rfl, rfl, fun _ p hp => by rw [hpt.live] at hp; simp at hp⟩
    refine Spec.bind (executeToolCall_spec hstarted hpt.live context assistantMessage toolCall
      (by simp [addPending, hpt.running]) preparation hprepared) (fun m => ?_)
    refine Spec.and_const (fun hm => ?_)
    have hpoint : Point.answered
        { pt with state := ⟨.turn, addPending toolCall.id pt.state.running⟩, recent := [] }
        toolCall.id m = { pt with ended := pt.ended ++ [.toolResult m] } := by
      have hstate : pt.state = ⟨.turn, []⟩ := by
        rw [← hpt.calling.phase, ← hpt.running]
      simp [Point.answered, addPending, hstate, hpt.calling.recent]
    rw [hpoint]
    refine Spec.post (ih (results ++ [m]) _ ⟨⟨hpt.calling.active, hpt.calling.phase,
      hpt.calling.recent, hpt.calling.live⟩, hpt.live, hpt.running⟩) ?_
    rintro out w ⟨new, ⟨rfl, hids⟩, hw⟩
    refine ⟨m :: new, ⟨by simp, ?_⟩, by simpa using hw⟩
    rw [map_cons, map_cons, hm]
    exact hids.cons _

def preparedIds (runnableCalls : List PreparedToolCall) : List String :=
  runnableCalls.map (fun p => p.toolCall.id)

theorem preparedIds_concat (runnableCalls : List PreparedToolCall) (p : PreparedToolCall) :
    preparedIds (runnableCalls ++ [p]) = preparedIds runnableCalls ++ [p.toolCall.id] := by
  simp [preparedIds]

/-- While calls are prepared: those that are open are the runnable ones. -/
structure Preparing (σ : RunScope) (pt : Point) (runnableCalls : List PreparedToolCall)
    (toolCalls : List ToolCall) : Prop where
  calling : Calling σ pt
  subset : pt.state.running ⊆ preparedIds runnableCalls
  running : σ.strict → pt.state.running = preparedIds runnableCalls
  distinct : σ.strict → (preparedIds runnableCalls ++ toolCalls.map ToolCall.id).Nodup

theorem Preparing.new (h : Preparing σ pt runnableCalls (toolCall :: toolCalls)) (hs : σ.strict) :
    toolCall.id ∉ pt.state.running := by
  rw [h.running hs]
  intro hmem
  have hne := (nodup_append.mp (h.distinct hs)).2.2 _ hmem toolCall.id (by simp)
  exact hne rfl

theorem Preparing.runnable {prepared : PreparedToolCall} (hlive : pt.live = [])
    (h : Preparing σ pt runnableCalls (prepared.toolCall :: toolCalls)) :
    Preparing σ
      { pt with
        state := ⟨.turn, addPending prepared.toolCall.id pt.state.running⟩, recent := [] }
      (runnableCalls ++ [prepared]) toolCalls := by
  refine ⟨⟨h.calling.active, rfl, rfl, fun _ p hp => ?_⟩, ?_, ?_, ?_⟩
  · rw [hlive] at hp
    simp at hp
  · intro x hx
    rw [preparedIds_concat, mem_append, mem_singleton]
    simp only [addPending] at hx
    split_ifs at hx with hmem
    · exact .inl (h.subset hx)
    · obtain hx | hx := mem_append.mp hx
      · exact .inl (h.subset hx)
      · exact .inr (mem_singleton.mp hx)
  · intro hs
    rw [preparedIds_concat, addPending, if_neg (h.new hs), h.running hs]
  · intro hs
    have hdistinct := h.distinct hs
    rw [preparedIds_concat, append_assoc]
    exact hdistinct

theorem Preparing.immediate (hlive : pt.live = [])
    (h : Preparing σ pt runnableCalls (toolCall :: toolCalls)) (m : ToolResultMessage) :
    Preparing σ
      (Point.answered
        { pt with state := ⟨.turn, addPending toolCall.id pt.state.running⟩, recent := [] }
        toolCall.id m)
      runnableCalls toolCalls := by
  have hfilter : (addPending toolCall.id pt.state.running).filter (fun x => x ≠ toolCall.id) =
      pt.state.running.filter (fun x => x ≠ toolCall.id) := by
    rw [addPending]
    split_ifs <;> simp
  refine ⟨⟨h.calling.active, rfl, rfl, fun _ p hp => ?_⟩, ?_, ?_, ?_⟩
  · simp only [Point.answered, hlive] at hp
    simp at hp
  · intro x hx
    simp only [Point.answered, hfilter] at hx
    exact h.subset (mem_of_mem_filter hx)
  · intro hs
    simp only [Point.answered, hfilter]
    rw [filter_eq_self.mpr, h.running hs]
    intro x hx
    have hnew := h.new hs
    simp only [ne_eq, decide_eq_true_eq]
    rintro rfl
    exact hnew hx
  · intro hs
    refine (h.distinct hs).sublist ?_
    exact Sublist.append_left (sublist_cons_self _ _) _

def Prepared (σ : RunScope) (r : RunStart) (pt : Point) (ids : List String)
    (results : List ToolResultMessage)
    (out : List ToolResultMessage × List PreparedToolCall) (w : AgentWorld) : Prop :=
  ∃ new : List ToolResultMessage × List String,
    (out.1 = results ++ new.1 ∧
      (new.1.map ToolResultMessage.toolCallId ++ preparedIds out.2).Perm ids ∧
        Preparing σ
          { pt with state := ⟨.turn, new.2⟩, ended := pt.ended ++ new.1.map .toolResult }
          out.2 []) ∧
      View σ r { pt with state := ⟨.turn, new.2⟩, ended := pt.ended ++ new.1.map .toolResult } w

theorem prepareToolCalls_spec (assistantMessage : AssistantMessage) (toolCalls : List ToolCall) :
    ∀ (results : List ToolResultMessage) (runnableCalls : List PreparedToolCall) (pt : Point),
      pt.live = [] → Preparing σ pt runnableCalls toolCalls →
        Spec σ r (View σ r pt)
          (prepareToolCalls context assistantMessage toolCalls results runnableCalls)
          (Prepared σ r pt (preparedIds runnableCalls ++ toolCalls.map ToolCall.id) results) := by
  have hstable : ∀ (pt : Point) (ids : List String) (results : List ToolResultMessage)
      (out : List ToolResultMessage × List PreparedToolCall),
      Stable σ.rules (RunInv σ r) (Prepared σ r pt ids results out) :=
    fun _ _ _ _ => Stable.exists (fun _ => (view_stable σ r _).and_const _)
  induction toolCalls with
  | nil =>
    intro results runnableCalls pt hlive hpt
    have hpoint : ({ pt with
        state := ⟨.turn, pt.state.running⟩
        ended := pt.ended ++ ([] : List ToolResultMessage).map .toolResult } : Point) = pt := by
      rw [← hpt.calling.phase]
      simp
    refine Spec.pure (hstable _ _ _ _) (fun w hw => ⟨⟨[], pt.state.running⟩, ⟨?_, ?_, ?_⟩, ?_⟩)
    · simp
    · simp
    · rw [hpoint]
      exact hpt
    · rw [hpoint]
      exact hw
  | cons toolCall toolCalls ih =>
    intro results runnableCalls pt hlive hpt
    refine Spec.bind (toolStart_spec hpt.calling.active hpt.calling.phase toolCall
      (fun hs => hpt.new hs) hpt.calling.live) (fun _ => ?_)
    refine Spec.bind (prepareToolCall_spec context assistantMessage toolCall) ?_
    intro preparation
    refine Spec.and_const (fun hprepared => ?_)
    cases preparation with
    | prepared prepared =>
      obtain rfl := hprepared prepared rfl
      refine Spec.post (ih results (runnableCalls ++ [prepared]) _ hlive (hpt.runnable hlive)) ?_
      rintro out w ⟨new, ⟨hout, hids, hpreparing⟩, hw⟩
      rw [preparedIds_concat, append_assoc] at hids
      refine ⟨new, ⟨hout, hids, ?_⟩, ?_⟩
      · simpa only [hpt.calling.recent] using hpreparing
      · simpa only [hpt.calling.recent] using hw
    | immediate result isError =>
      have hstarted : Calling σ
          { pt with
            state := ⟨.turn, addPending toolCall.id pt.state.running⟩, recent := [] } :=
        ⟨hpt.calling.active, rfl, rfl, fun _ p hp => by rw [hlive] at hp; simp at hp⟩
      have hmem : toolCall.id ∈ addPending toolCall.id pt.state.running := by
        rw [addPending]
        split_ifs with h
        · exact h
        · simp
      refine Spec.bind (emitToolCallOutcome_spec hstarted toolCall result isError
        (fun _ => hmem) (fun _ p hp => by rw [hlive] at hp; simp at hp)) (fun m => ?_)
      refine Spec.and_const (fun hm => ?_)
      refine Spec.post (ih (results ++ [m]) runnableCalls _ hlive (hpt.immediate hlive m)) ?_
      rintro out w ⟨new, ⟨hout, hids, hpreparing⟩, hw⟩
      refine ⟨⟨m :: new.1, new.2⟩, ⟨by simpa using hout, ?_, ?_⟩, ?_⟩
      · rw [map_cons, map_cons, hm, cons_append]
        exact (hids.cons _).trans perm_middle.symm
      · simpa [Point.answered, hpt.calling.recent] using hpreparing
      · simpa [Point.answered, hpt.calling.recent] using hw

def liveOf (running : List (PreparedToolCall × ℕ)) : List (ℕ × String) :=
  running.map (fun p => (p.2, p.1.toolCall.id))

theorem startExecutions_spec (runnableCalls : List PreparedToolCall) :
    ∀ pt : Point, Calling σ pt → (σ.strict → ∀ x ∈ preparedIds runnableCalls,
        x ∈ pt.state.running) →
      Spec σ r (View σ r pt) (startExecutions runnableCalls)
        (fun out w => out.map Prod.fst = runnableCalls ∧
          View σ r { pt with live := pt.live ++ liveOf out } w) := by
  induction runnableCalls with
  | nil =>
    intro pt _ _
    refine Spec.pure ((view_stable σ r _).and_const _) (fun w hw => ⟨rfl, ?_⟩)
    simpa [liveOf] using hw
  | cons prepared runnableCalls ih =>
    intro pt hpt hids
    have hid : σ.strict → prepared.toolCall.id ∈ pt.state.running :=
      fun hs => hids hs _ (by simp [preparedIds])
    refine Spec.bind (execute_spec hpt.active _ _ _ hpt.phase hid) (fun n => ?_)
    refine Spec.bind (ih _ ⟨hpt.active, hpt.phase, hpt.recent, ?_⟩ ?_) (fun running => ?_)
    · intro hs p hp
      obtain hp | hp := mem_append.mp hp
      · exact hpt.live hs p hp
      · obtain rfl := mem_singleton.mp hp
        exact hid hs
    · exact fun hs x hx => hids hs x (by simp only [preparedIds] at hx ⊢; simp [hx])
    · refine Spec.and_const (fun hrunning => ?_)
      refine Spec.pure ((view_stable σ r _).and_const _) (fun w hw => ⟨by simp [hrunning], ?_⟩)
      simpa [liveOf] using hw

theorem finalizeExecutions_spec (assistantMessage : AssistantMessage)
    (running : List (PreparedToolCall × ℕ)) :
    ∀ (results : List ToolResultMessage) (pt : Point), pt.live = liveOf running →
      Preparing σ pt (running.map Prod.fst) [] →
        Spec σ r (View σ r pt) (finalizeExecutions context assistantMessage running results)
          (Results σ r { pt with state := ⟨.turn, []⟩, live := [] }
            (preparedIds (running.map Prod.fst)) results) := by
  induction running with
  | nil =>
    intro results pt hlive hpt
    refine Spec.pure (results_stable _ _ _ _)
      (fun w hw => ⟨[], ⟨by simp, by simp [preparedIds]⟩, ?_⟩)
    have hstate : pt.state = ⟨.turn, []⟩ := by
      rw [← hpt.calling.phase, ← subset_nil.mp hpt.subset]
    have hpoint : ({ pt with
        state := ⟨.turn, []⟩, live := []
        ended := pt.ended ++ ([] : List ToolResultMessage).map .toolResult } : Point) = pt := by
      rw [← hstate, map_nil, append_nil]
      have hnil : pt.live = [] := hlive
      rw [← hnil]
    rw [hpoint]
    exact hw
  | cons first running ih =>
    obtain ⟨prepared, n⟩ := first
    intro results pt hlive hpt
    have hone : pt.live = (n, prepared.toolCall.id) :: liveOf running := hlive
    refine Spec.bind (awaitExecution_spec hpt.calling hone) (fun executed => ?_)
    have hcalling : Calling σ { pt with live := liveOf running } :=
      ⟨hpt.calling.active, hpt.calling.phase, hpt.calling.recent,
        fun hs p hp => hpt.calling.live hs p (by rw [hone]; exact mem_cons_of_mem _ hp)⟩
    have hdistinct : σ.strict → prepared.toolCall.id ∉ preparedIds (running.map Prod.fst) ∧
        (preparedIds (running.map Prod.fst)).Nodup := by
      intro hs
      have hnodup := hpt.distinct hs
      rw [map_nil, append_nil] at hnodup
      exact nodup_cons.mp hnodup
    have hother : σ.strict → ∀ p ∈ liveOf running, p.2 ≠ prepared.toolCall.id := by
      intro hs p hp heq
      obtain ⟨x, hx, rfl⟩ := mem_map.mp hp
      apply (hdistinct hs).1
      rw [← heq]
      exact mem_map.mpr ⟨x.1, mem_map_of_mem hx, rfl⟩
    have hid : σ.strict → prepared.toolCall.id ∈ pt.state.running := by
      intro hs
      rw [hpt.running hs]
      simp [preparedIds]
    refine Spec.bind (finalizeExecutedToolCall_spec hcalling context assistantMessage prepared
      executed hid hother) (fun m => ?_)
    refine Spec.and_const (fun hm => ?_)
    refine Spec.post (ih (results ++ [m]) _ rfl ⟨⟨hpt.calling.active, rfl, rfl, ?_⟩, ?_, ?_, ?_⟩) ?_
    · intro hs p hp
      exact mem_filter.mpr ⟨hcalling.live hs p hp, by simpa using hother hs p hp⟩
    · intro x hx
      obtain ⟨hmem, hne⟩ := mem_filter.mp hx
      obtain rfl | hrest := mem_cons.mp (hpt.subset hmem)
      · simp at hne
      · exact hrest
    · intro hs
      have hrunning := hpt.running hs
      simp only [Point.answered, hrunning, preparedIds, map_cons]
      rw [filter_cons_of_neg (by simp), filter_eq_self.mpr]
      intro x hx
      simp only [ne_eq, decide_eq_true_eq]
      rintro rfl
      exact (hdistinct hs).1 hx
    · intro hs
      rw [map_nil, append_nil]
      exact (hdistinct hs).2
    · rintro out w ⟨new, ⟨rfl, hids⟩, hw⟩
      refine ⟨m :: new, ⟨by simp, ?_⟩, ?_⟩
      · rw [map_cons, hm]
        exact hids.cons _
      · simpa [Point.answered, hpt.calling.recent] using hw

theorem executeToolCallsParallel_spec (hpt : Idling σ pt) (context : AgentContext)
    (assistantMessage : AssistantMessage) (toolCalls : List ToolCall)
    (hdistinct : σ.strict → (toolCalls.map ToolCall.id).Nodup) :
    Spec σ r (View σ r pt) (executeToolCallsParallel context assistantMessage toolCalls)
      (Results σ r pt (toolCalls.map ToolCall.id) []) := by
  have hstate : pt.state = ⟨.turn, []⟩ := by
    rw [← hpt.calling.phase, ← hpt.running]
  refine Spec.bind (prepareToolCalls_spec context assistantMessage toolCalls [] [] pt hpt.live
    ⟨hpt.calling, by simp [hpt.running], fun _ => hpt.running, hdistinct⟩) ?_
  rintro ⟨results, runnableCalls⟩
  refine Spec.exists (fun new => ?_)
  refine Spec.and_const (fun hprepared => ?_)
  obtain ⟨hresults, hids, hpreparing⟩ := hprepared
  refine Spec.bind (startExecutions_spec runnableCalls _ hpreparing.calling ?_) ?_
  · intro hs x hx
    rw [hpreparing.running hs]
    exact hx
  intro running
  refine Spec.and_const (fun hrunning => ?_)
  subst hrunning
  refine Spec.post (finalizeExecutions_spec context assistantMessage running results _ ?_
    ⟨⟨hpreparing.calling.active, rfl, hpreparing.calling.recent, ?_⟩, hpreparing.subset,
      hpreparing.running, hpreparing.distinct⟩) ?_
  · simp [hpt.live]
  · intro hs p hp
    simp only [hpt.live, nil_append] at hp
    obtain ⟨x, hx, rfl⟩ := mem_map.mp hp
    have hrunning := hpreparing.running hs
    rw [hrunning]
    exact mem_map.mpr ⟨x.1, mem_map_of_mem hx, rfl⟩
  · rintro out w ⟨new', ⟨rfl, hids'⟩, hw⟩
    refine ⟨new.1 ++ new', ⟨by simpa using hresults, ?_⟩, ?_⟩
    · rw [map_append]
      refine (hids'.append_left _).trans ?_
      simpa [preparedIds] using hids
    · have hpoint : ({ pt with
          state := ⟨.turn, []⟩, live := []
          ended := pt.ended ++ new.1.map .toolResult ++ new'.map .toolResult } : Point) =
            { pt with ended := pt.ended ++ (new.1 ++ new').map .toolResult } := by
        rw [← hstate, ← hpt.live, map_append, append_assoc]
      rw [← hpoint]
      exact hw

theorem executeToolCalls_spec (hpt : Idling σ pt) {config : AgentLoopConfig}
    (hconfig : config.toolExecution = r.mode) (context : AgentContext)
    {assistantMessage : AssistantMessage} (hdistinct : σ.Distinct r.mode assistantMessage) :
    Spec σ r (View σ r pt) (executeToolCalls config context assistantMessage)
      (Results σ r pt (assistantMessage.toolCalls.map ToolCall.id) []) := by
  unfold executeToolCalls
  cases hmode : config.toolExecution with
  | sequential =>
    exact executeToolCallsSequential_spec context assistantMessage _ [] pt hpt
  | parallel =>
    exact executeToolCallsParallel_spec hpt context assistantMessage _
      (fun hs => hdistinct (.inr ⟨hs, hconfig.symm.trans hmode⟩))

end AgentProgram

end Draht
