import Draht.AgentRun

/-!
# Messages of a run are announced

What a run appends to the transcript are the messages that its `message_end` events are about
and the messages that `handleRunFailure` pushes, for which there is no such event. Nothing is
assumed about what listeners, hooks, providers and tools do.
-/

namespace Draht
open List Option

open Machine (Runs Stable Triple)

def anyRules : Rules agentMachine where
  choice := fun _ _ _ => True
  action := fun _ _ => True

def Extended (w w' : AgentWorld) : Prop :=
  ∃ run, w'.trace = w.trace ++ run ∧
    w'.state.messages = w.state.messages ++ transcriptOf run

theorem Extended.refl (w : AgentWorld) : Extended w w := ⟨[], by simp, by simp [transcriptOf]⟩

variable {w w' : AgentWorld}

theorem Extended.trans {w'' : AgentWorld} (h : Extended w w') (h' : Extended w' w'') :
    Extended w w'' := by
  obtain ⟨run, htrace, hmessages⟩ := h
  obtain ⟨run', htrace', hmessages'⟩ := h'
  refine ⟨run ++ run', ?_, ?_⟩
  · rw [htrace', htrace, append_assoc]
  · rw [hmessages', hmessages, transcriptOf_append, append_assoc]

theorem Extended.same (htrace : w'.trace = w.trace)
    (hmessages : w'.state.messages = w.state.messages) : Extended w w' :=
  ⟨[], by simp [htrace], by simp [hmessages, transcriptOf]⟩

theorem Extended.item (item : TraceItem) (htrace : w'.trace = w.trace ++ [item])
    (hmessages : w'.state.messages = w.state.messages ++ (pushedOf item).toList) :
    Extended w w' := by
  refine ⟨[item], htrace, ?_⟩
  rw [hmessages]
  cases h : pushedOf item <;> simp [transcriptOf, h]

theorem Extended.record (item : TraceItem) (hitem : pushedOf item = none)
    (htrace : w'.trace = w.trace ++ [item]) (hmessages : w'.state.messages = w.state.messages) :
    Extended w w' :=
  Extended.item item htrace (by simp [hitem, hmessages])

theorem extended_drain (w : AgentWorld) (drainedBy : DrainedBy) (name : QueueName) :
    Extended w (w.drain drainedBy name).2 :=
  Extended.record (.drained drainedBy name (w.queue name).drain.1) rfl
    (by simp [AgentWorld.drain, AgentWorld.record]) (by simp [AgentWorld.drain, AgentWorld.record])

theorem extended_processEvents {e : AgentEvent} (listenerError : Option String)
    (h : w.activeRun.isSome = true ∨ endedOf e = none) :
    Extended w (w.processEvents e listenerError).2 := by
  cases hactive : w.activeRun with
  | some run =>
    rw [AgentWorld.processEvents_of_active (by simp [hactive])]
    exact Extended.item (.event e) rfl (process_messages w.state e)
  | none =>
    have hended : endedOf e = none := h.resolve_left (by simp [hactive])
    have hout : (w.processEvents e listenerError).2 = { w with state := w.state.process e } := by
      simp [AgentWorld.processEvents, hactive]
    rw [hout]
    exact Extended.same rfl ((process_messages w.state e).trans (by simp [hended]))

theorem active_processEvents (w : AgentWorld) (e : AgentEvent) (listenerError : Option String) :
    (w.processEvents e listenerError).2.activeRun = w.activeRun := by
  cases hactive : w.activeRun <;> cases listenerError <;>
    simp [AgentWorld.processEvents, hactive, AgentWorld.record]

variable {c : Outside} {op : AgentOp} {r : Except String op.Answer}

theorem respond_extended (h : AgentWorld.respond op w c = some (r, w'))
    (hemit : ∀ e, op = .emit e → w.activeRun.isSome = true) : Extended w w' := by
  cases op with
  | emit e =>
    cases c with
    | nothing =>
      obtain rfl := congrArg Prod.snd (some.inj h)
      exact extended_processEvents none (.inl (hemit e rfl))
    | throws err =>
      obtain rfl := congrArg Prod.snd (some.inj h)
      exact extended_processEvents (some err) (.inl (hemit e rfl))
    | _ => cases h
  | getSteeringMessages =>
    cases c with
    | nothing =>
      simp only [AgentWorld.respond] at h
      split_ifs at h with hskip
      · obtain rfl := congrArg Prod.snd (some.inj h)
        exact Extended.record .skippedPoll rfl rfl rfl
      · obtain rfl := congrArg Prod.snd (some.inj h)
        exact extended_drain w .poll .steering
    | _ => cases h
  | getFollowUpMessages =>
    cases c with
    | nothing =>
      obtain rfl := congrArg Prod.snd (some.inj h)
      exact extended_drain w .poll .followUp
    | _ => cases h
  | drainQueue name =>
    cases c with
    | nothing =>
      obtain rfl := congrArg Prod.snd (some.inj h)
      exact extended_drain w .continuation name
    | _ => cases h
  | callLlm context =>
    cases c with
    | stream s =>
      obtain rfl := congrArg Prod.snd (some.inj h)
      exact Extended.record (.llmCall context) rfl rfl rfl
    | throws e =>
      obtain rfl := congrArg Prod.snd (some.inj h)
      exact Extended.record (.llmCall context) rfl rfl rfl
    | _ => cases h
  | lastMessage =>
    cases c with
    | nothing =>
      obtain rfl := congrArg Prod.snd (some.inj h)
      exact Extended.record (.readLast w.state.messages.getLast?) rfl rfl rfl
    | _ => cases h
  | pushFailure error =>
    cases c with
    | clock now =>
      obtain rfl := congrArg Prod.snd (some.inj h)
      exact Extended.item (.failed (w.failureMessage error now)) rfl rfl
    | _ => cases h
  | settled n =>
    cases c with
    | nothing =>
      simp only [AgentWorld.respond] at h
      split at h
      · obtain rfl := congrArg Prod.snd (some.inj h)
        exact Extended.refl _
      · cases h
    | _ => cases h
  | _ =>
    -- the other effects neither record an item nor touch the transcript
    cases c <;> cases h <;> exact Extended.same rfl rfl

theorem respond_active (h : AgentWorld.respond op w c = some (r, w')) (hbegin : op ≠ .beginRun)
    (hfinish : op ≠ .finishRun) : w'.activeRun.isSome = w.activeRun.isSome := by
  have hdrain : ∀ drainedBy name, (w.drain drainedBy name).2 = w' →
      w'.activeRun.isSome = w.activeRun.isSome := by
    rintro drainedBy name rfl
    simp [AgentWorld.drain, AgentWorld.record]
  cases op with
  | emit e =>
    cases c with
    | nothing =>
      obtain rfl := congrArg Prod.snd (some.inj h)
      rw [active_processEvents]
    | throws err =>
      obtain rfl := congrArg Prod.snd (some.inj h)
      rw [active_processEvents]
    | _ => cases h
  | getSteeringMessages =>
    cases c with
    | nothing =>
      simp only [AgentWorld.respond] at h
      split_ifs at h with hskip
      · obtain rfl := congrArg Prod.snd (some.inj h)
        rfl
      · exact hdrain .poll .steering (congrArg Prod.snd (some.inj h))
    | _ => cases h
  | getFollowUpMessages =>
    cases c with
    | nothing => exact hdrain .poll .followUp (congrArg Prod.snd (some.inj h))
    | _ => cases h
  | drainQueue name =>
    cases c with
    | nothing => exact hdrain .continuation name (congrArg Prod.snd (some.inj h))
    | _ => cases h
  | settled n =>
    cases c with
    | nothing =>
      simp only [AgentWorld.respond] at h
      split at h
      · obtain rfl := congrArg Prod.snd (some.inj h)
        rfl
      · cases h
    | _ => cases h
  | beginRun => exact (hbegin rfl).elim
  | finishRun => exact (hfinish rfl).elim
  | _ => cases c <;> cases h <;> rfl

theorem toolUpdate_kept (w : AgentWorld) (execution : ℕ) (e : ToolExecution)
    (partialResult : AgentToolResult) (listenerError : Option String) :
    Extended w (w.toolUpdate execution e partialResult listenerError) ∧
      (w.toolUpdate execution e partialResult listenerError).activeRun = w.activeRun := by
  have hextended := extended_processEvents (w := w) (e := .toolExecutionUpdate e.toolCall.id
    e.toolCall.name e.toolCall.arguments partialResult) listenerError (.inr rfl)
  have hactive := active_processEvents w (.toolExecutionUpdate e.toolCall.id e.toolCall.name
    e.toolCall.arguments partialResult) listenerError
  unfold AgentWorld.toolUpdate
  generalize w.processEvents _ _ = out at hextended hactive ⊢
  obtain ⟨outcome, w'⟩ := out
  dsimp only
  split
  · exact ⟨hextended.trans (Extended.same rfl rfl), hactive⟩
  · exact ⟨hextended, hactive⟩

theorem act_kept {a : AgentAction} (h : AgentWorld.act a w = some w') :
    Extended w w' ∧ w'.activeRun.isSome = w.activeRun.isSome := by
  have hclear : ∀ (w : AgentWorld) (name : QueueName), Extended w (w.clear name) ∧
      (w.clear name).activeRun.isSome = w.activeRun.isSome := by
    intro w name
    refine ⟨Extended.record (.cleared name (w.queue name).messages) rfl ?_ ?_, ?_⟩ <;>
      simp [AgentWorld.clear, AgentWorld.record]
  have henqueue : ∀ (name : QueueName) (m : AgentMessage), Extended w (w.enqueue name m) ∧
      (w.enqueue name m).activeRun.isSome = w.activeRun.isSome := by
    intro name m
    refine ⟨Extended.record (.enqueued ⟨some ⟨name, (issuedSerials name w.trace).length⟩, m⟩)
      rfl ?_ ?_, ?_⟩ <;> simp [AgentWorld.enqueue, AgentWorld.record]
  cases a with
  | steer m =>
    cases h
    exact henqueue .steering m
  | followUp m =>
    cases h
    exact henqueue .followUp m
  | clearSteeringQueue =>
    cases h
    exact hclear w .steering
  | clearFollowUpQueue =>
    cases h
    exact hclear w .followUp
  | clearAllQueues =>
    cases h
    have h₁ := hclear w .steering
    have h₂ := hclear (w.clear .steering) .followUp
    exact ⟨h₁.1.trans h₂.1, h₂.2.trans h₁.2⟩
  | setQueueMode name mode =>
    cases h
    refine ⟨Extended.same ?_ ?_, ?_⟩ <;> simp [AgentWorld.setMode]
  | abort =>
    cases h
    exact ⟨Extended.same rfl rfl, isSome_map ..⟩
  | toolUpdate execution partialResult listenerError =>
    obtain ⟨e, _, rfl⟩ := map_eq_some_iff.mp h
    have hkept := toolUpdate_kept w execution e partialResult listenerError
    exact ⟨hkept.1, by rw [hkept.2]⟩
  | toolSettle execution outcome =>
    simp only [AgentWorld.act] at h
    split at h
    · cases h
      exact ⟨Extended.same rfl rfl, rfl⟩
    · cases h

/-- The effects inside a run: all but its beginning and its end. -/
def AgentOp.InRun : AgentOp → Prop
  | .beginRun => False
  | .finishRun => False
  | _ => True

namespace AgentProgram

open Program (Performs)

theorem emit_inRun (e : AgentEvent) : (emit e).Performs AgentOp.InRun := Performs.effect trivial

variable (context : AgentContext) (addedPartial : Bool) (result : Except String AssistantMessage)
  (assistantMessage : AssistantMessage) (toolCall : ToolCall) (toolCalls : List ToolCall)
  (results : List ToolResultMessage) (runnableCalls : List PreparedToolCall)
  (config : AgentLoopConfig) (l : LoopState) (fuel : ℕ)

theorem finishResponse_inRun :
    (finishResponse context addedPartial result).Performs AgentOp.InRun := by
  refine (Performs.ofExcept _).bind (fun finalMessage => ?_)
  cases addedPartial with
  | true => exact (emit_inRun _).bind (fun _ => Performs.pure _)
  | false => exact (emit_inRun _).bind (fun _ => (emit_inRun _).bind (fun _ => Performs.pure _))

theorem readStream_inRun (events : List StreamEvent) (context : AgentContext) (addedPartial : Bool) :
    (readStream result events context addedPartial).Performs AgentOp.InRun := by
  induction events generalizing context addedPartial with
  | nil => exact finishResponse_inRun context addedPartial result
  | cons event events ih =>
    cases event with
    | start partialMessage => exact (emit_inRun _).bind (fun _ => ih _ _)
    | update type partialMessage =>
      cases addedPartial with
      | true => exact (emit_inRun _).bind (fun _ => ih _ _)
      | false => exact ih context false
    | done => exact finishResponse_inRun context addedPartial result
    | error => exact finishResponse_inRun context addedPartial result

theorem streamAssistantResponse_inRun : (streamAssistantResponse context).Performs AgentOp.InRun :=
  (Performs.effect trivial).bind (fun response => readStream_inRun response.result _ context false)

theorem prepareToolCall_inRun :
    (prepareToolCall context assistantMessage toolCall).Performs AgentOp.InRun := by
  unfold prepareToolCall
  split
  · exact Performs.pure _
  · refine Performs.tryCatch ?_ (fun e => Performs.pure _)
    refine Performs.bind (Performs.effect trivial) (fun args => ?_)
    refine Performs.bind (Performs.effect trivial) (fun before => ?_)
    split <;> exact Performs.pure _

theorem emitToolCallOutcome_inRun (result : AgentToolResult) (isError : Bool) :
    (emitToolCallOutcome toolCall result isError).Performs AgentOp.InRun := by
  refine (emit_inRun _).bind (fun _ => ?_)
  refine Performs.bind (Performs.effect trivial) (fun timestamp => ?_)
  exact (emit_inRun _).bind (fun _ => (emit_inRun _).bind (fun _ => Performs.pure _))

theorem awaitExecution_inRun (execution : ℕ) :
    (awaitExecution execution).Performs AgentOp.InRun :=
  Performs.bind (Performs.effect trivial) (fun _ => Performs.ofExcept _)

theorem finalizeExecutedToolCall_inRun (prepared : PreparedToolCall)
    (executed : ExecutedToolCallOutcome) :
    (finalizeExecutedToolCall context assistantMessage prepared executed).Performs
      AgentOp.InRun :=
  Performs.bind (Performs.effect trivial) (fun _ => emitToolCallOutcome_inRun _ _ _)

theorem executeToolCall_inRun (preparation : Preparation) :
    (executeToolCall context assistantMessage toolCall preparation).Performs AgentOp.InRun := by
  cases preparation with
  | immediate result isError => exact emitToolCallOutcome_inRun _ _ _
  | prepared prepared =>
    refine Performs.bind (Performs.effect trivial) (fun execution => ?_)
    exact (awaitExecution_inRun execution).bind
      (fun executed => finalizeExecutedToolCall_inRun _ _ _ _)

theorem executeToolCallsSequential_inRun :
    (executeToolCallsSequential context assistantMessage toolCalls results).Performs
      AgentOp.InRun := by
  induction toolCalls generalizing results with
  | nil => exact Performs.pure _
  | cons toolCall toolCalls ih =>
    refine Performs.bind (emit_inRun _) (fun _ => ?_)
    refine (prepareToolCall_inRun _ _ _).bind (fun preparation => ?_)
    exact (executeToolCall_inRun _ _ _ _).bind (fun result => ih _)

theorem prepareToolCalls_inRun :
    (prepareToolCalls context assistantMessage toolCalls results runnableCalls).Performs
      AgentOp.InRun := by
  induction toolCalls generalizing results runnableCalls with
  | nil => exact Performs.pure _
  | cons toolCall toolCalls ih =>
    refine Performs.bind (emit_inRun _) (fun _ => ?_)
    refine (prepareToolCall_inRun _ _ _).bind (fun preparation => ?_)
    cases preparation with
    | immediate result isError =>
      exact (emitToolCallOutcome_inRun _ _ _).bind (fun message => ih _ _)
    | prepared prepared => exact ih _ _

theorem startExecutions_inRun : (startExecutions runnableCalls).Performs AgentOp.InRun := by
  induction runnableCalls with
  | nil => exact Performs.pure _
  | cons prepared runnableCalls ih =>
    refine Performs.bind (Performs.effect trivial) (fun execution => ?_)
    exact ih.bind (fun running => Performs.pure _)

theorem finalizeExecutions_inRun (running : List (PreparedToolCall × ℕ))
    (results : List ToolResultMessage) :
    (finalizeExecutions context assistantMessage running results).Performs AgentOp.InRun := by
  induction running generalizing results with
  | nil => exact Performs.pure _
  | cons head running ih =>
    refine (awaitExecution_inRun head.2).bind (fun executed => ?_)
    exact (finalizeExecutedToolCall_inRun _ _ _ _).bind (fun result => ih _)

theorem turnToolResults_inRun (context : AgentContext) (message : AssistantMessage) :
    (turnToolResults config context message).Performs AgentOp.InRun := by
  unfold turnToolResults executeToolCalls
  split
  · cases config.toolExecution with
    | sequential => exact executeToolCallsSequential_inRun _ _ _ _
    | parallel =>
      refine (prepareToolCalls_inRun _ _ _ _ _).bind (fun prepared => ?_)
      exact (startExecutions_inRun _).bind (fun running => finalizeExecutions_inRun _ _ _ _)
  · exact Performs.pure _

theorem emitMessages_inRun (messages : List TranscriptMessage) :
    (emitMessages messages).Performs AgentOp.InRun := by
  induction messages with
  | nil => exact Performs.pure _
  | cons message messages ih =>
    exact (emit_inRun _).bind (fun _ => (emit_inRun _).bind (fun _ => ih))

theorem startTurn_inRun : (startTurn l).Performs AgentOp.InRun := by
  have hinject : (injectMessages l).Performs AgentOp.InRun :=
    (emitMessages_inRun _).bind (fun _ => Performs.pure _)
  unfold startTurn
  split
  · exact hinject
  · exact (emit_inRun _).bind (fun _ => hinject)

theorem finishTurn_inRun : (finishTurn config l).Performs AgentOp.InRun := by
  refine (streamAssistantResponse_inRun _).bind (fun response => ?_)
  dsimp only
  split
  · exact (emit_inRun _).bind (fun _ => (emit_inRun _).bind (fun _ => Performs.pure _))
  · refine (turnToolResults_inRun _ _ _).bind (fun toolResults => ?_)
    refine (emit_inRun _).bind (fun _ => ?_)
    exact Performs.bind (Performs.effect trivial) (fun pendingMessages => Performs.pure _)

theorem loop_inRun (l : LoopState) : (loop config fuel l).Performs AgentOp.InRun := by
  induction fuel generalizing l with
  | zero => trivial
  | succ fuel ih =>
    rw [loop]
    split
    · refine (startTurn_inRun l).bind (fun started => ?_)
      refine (finishTurn_inRun config started).bind (fun next => ?_)
      cases next with
      | none => exact Performs.pure _
      | some l' => exact ih l'
    · refine Performs.bind (Performs.effect trivial) (fun followUpMessages => ?_)
      split
      · exact ih _
      · exact emit_inRun _

theorem runLoop_inRun (config : AgentLoopConfig) (context : AgentContext)
    (newMessages : List TranscriptMessage) :
    (runLoop fuel config context newMessages).Performs AgentOp.InRun :=
  Performs.bind (Performs.effect trivial) (fun _ => loop_inRun config fuel _)

theorem runAgentLoop_inRun (prompts : List TranscriptMessage) (context : AgentContext)
    (config : AgentLoopConfig) :
    (runAgentLoop fuel prompts context config).Performs AgentOp.InRun := by
  refine (emit_inRun _).bind (fun _ => (emit_inRun _).bind (fun _ => ?_))
  exact (emitMessages_inRun prompts).bind (fun _ => runLoop_inRun _ _ _ _)

theorem runAgentLoopContinue_inRun (context : AgentContext) (config : AgentLoopConfig) :
    (runAgentLoopContinue fuel context config).Performs AgentOp.InRun := by
  unfold runAgentLoopContinue
  split
  · trivial
  · split
    · trivial
    · exact (emit_inRun _).bind (fun _ => (emit_inRun _).bind (fun _ => runLoop_inRun _ _ _ _))

theorem handleRunFailure_inRun (error : String) :
    (handleRunFailure error).Performs AgentOp.InRun :=
  Performs.bind (Performs.effect trivial) (fun _ => emit_inRun _)

end AgentProgram

/-- During a run that started in `w₀`. -/
def Running (w₀ w : AgentWorld) : Prop := w.activeRun.isSome = true ∧ Extended w₀ w

theorem extended_stable (w₀ : AgentWorld) : Stable anyRules (Extended w₀) (Extended w₀) where
  invariant := fun _ h => h
  action := fun _ _ _ h _ hact => h.trans (act_kept hact).1

theorem running_stable (w₀ : AgentWorld) : Stable anyRules (Extended w₀) (Running w₀) where
  invariant := fun _ h => h.2
  action := fun _ _ _ h _ hact =>
    ⟨(act_kept hact).2.trans h.1, h.2.trans (act_kept hact).1⟩

section Triples

variable {w₀ : AgentWorld}

theorem inRun_triple (w₀ : AgentWorld) {α : Type} {p : AgentProgram α}
    (hp : p.Performs AgentOp.InRun) :
    Triple anyRules (Extended w₀) (Running w₀) p (fun _ => Running w₀) (fun _ => Running w₀) := by
  refine Triple.of_performs (running_stable w₀) ?_ hp
  intro op hop w c r w' hw _ hres
  have hactive := respond_active hres (by rintro rfl; exact hop) (by rintro rfl; exact hop)
  exact ⟨hactive.trans hw.1, hw.2.trans (respond_extended hres (fun _ _ => hw.1))⟩

theorem call_extended {op : AgentOp} (hop : ∀ e, op ≠ .emit e) :
    Triple anyRules (Extended w₀) (Extended w₀) (AgentProgram.call op) (fun _ => Extended w₀)
      (fun _ => Extended w₀) :=
  Triple.effect (extended_stable w₀) (fun _ => extended_stable w₀) (fun _ => extended_stable w₀)
    (fun _ _ _ _ hw _ hres => hw.trans (respond_extended hres (fun e he => (hop e he).elim)))
    (fun _ _ _ _ hw _ hres => hw.trans (respond_extended hres (fun e he => (hop e he).elim)))

theorem beginRun_triple : Triple anyRules (Extended w₀) (Extended w₀) (AgentProgram.call .beginRun)
    (fun _ => Running w₀) (fun _ => Extended w₀) := by
  refine Triple.effect (extended_stable w₀) (fun _ => running_stable w₀)
    (fun _ => extended_stable w₀)
    ?_ ?_
  · intro w c a w' hw _ hres
    refine ⟨?_, hw.trans (respond_extended hres (by rintro e ⟨⟩))⟩
    cases c <;> cases hres
    rfl
  · intro w c e w' hw _ hres
    exact hw.trans (respond_extended hres (by rintro e ⟨⟩))

theorem runWithLifecycle_triple {executor : AgentProgram Unit}
    (h : executor.Performs AgentOp.InRun) :
    Triple anyRules (Extended w₀) (Extended w₀) (AgentProgram.runWithLifecycle executor)
      (fun _ => Extended w₀) (fun _ => Extended w₀) := by
  refine Triple.bind (call_extended (by rintro e ⟨⟩)) (fun active => ?_)
  split
  · exact Triple.throw (extended_stable w₀) (fun _ hw => hw)
  · refine Triple.bind beginRun_triple (fun _ => ?_)
    have hbody := inRun_triple w₀ (h.tryCatch (fun e => AgentProgram.handleRunFailure_inRun e))
    have hfinish : Triple anyRules (Extended w₀) (Running w₀) (AgentProgram.call .finishRun)
        (fun _ => Extended w₀) (fun _ => Extended w₀) :=
      (call_extended (by rintro e ⟨⟩)).pre (fun _ hw => hw.2)
    exact Triple.andFinally hbody (fun _ => hfinish) (fun _ => hfinish)
      (fun _ => extended_stable w₀) (fun _ => extended_stable w₀)

theorem runPromptMessages_triple (fuel : ℕ) (messages : List TranscriptMessage) (skip : Bool) :
    Triple anyRules (Extended w₀) (Extended w₀)
      (AgentProgram.runPromptMessages fuel messages skip) (fun _ => Extended w₀)
      (fun _ => Extended w₀) :=
  runWithLifecycle_triple (Program.Performs.bind (Program.Performs.effect trivial) fun _ =>
    Program.Performs.bind (Program.Performs.effect trivial) fun _ =>
      AgentProgram.runAgentLoop_inRun _ _ _ _)

theorem runContinuation_triple (fuel : ℕ) :
    Triple anyRules (Extended w₀) (Extended w₀) (AgentProgram.runContinuation fuel)
      (fun _ => Extended w₀) (fun _ => Extended w₀) :=
  runWithLifecycle_triple (Program.Performs.bind (Program.Performs.effect trivial) fun _ =>
    Program.Performs.bind (Program.Performs.effect trivial) fun _ =>
      AgentProgram.runAgentLoopContinue_inRun _ _ _)

theorem AgentCall.program_extended (c : AgentCall) :
    Triple anyRules (Extended w₀) (Extended w₀) c.program (fun _ => Extended w₀)
      (fun _ => Extended w₀) := by
  have hthrow : ∀ e, Triple anyRules (Extended w₀) (Extended w₀) (.throw e : AgentProgram Unit)
      (fun _ => Extended w₀) (fun _ => Extended w₀) :=
    fun e => Triple.throw (extended_stable w₀) (fun _ hw => hw)
  cases c with
  | prompt fuel messages =>
    refine Triple.bind (call_extended (by rintro e ⟨⟩)) (fun active => ?_)
    split
    · exact hthrow _
    · exact runPromptMessages_triple fuel _ false
  | «continue» fuel =>
    refine Triple.bind (call_extended (by rintro e ⟨⟩)) (fun active => ?_)
    split
    · exact hthrow _
    · refine Triple.bind (call_extended (by rintro e ⟨⟩)) (fun last => ?_)
      split
      · exact hthrow _
      · split
        · refine Triple.bind (call_extended (by rintro e ⟨⟩)) (fun queuedSteering => ?_)
          split
          · exact runPromptMessages_triple fuel _ true
          · refine Triple.bind (call_extended (by rintro e ⟨⟩)) (fun queuedFollowUps => ?_)
            split
            · exact runPromptMessages_triple fuel _ false
            · exact hthrow _
        · exact runContinuation_triple fuel

end Triples

/-- `handleRunFailure` pushed no message. -/
def Unfailed (run : List TraceItem) : Prop := ∀ m, TraceItem.failed m ∉ run

theorem transcriptOf_of_unfailed {run : List TraceItem} (h : Unfailed run) :
    transcriptOf run = endedMessages run := by
  induction run with
  | nil => rfl
  | cons item run ih =>
    have hrest : Unfailed run := fun m hm => h m (mem_cons_of_mem _ hm)
    have hcons : ∀ (x : TraceItem) (xs : List TraceItem), x :: xs = [x] ++ xs := fun _ _ => rfl
    rw [hcons, transcriptOf_append, endedMessages_append, ih hrest]
    congr 1
    cases item with
    | failed m => exact (h m (mem_cons_self ..)).elim
    | event e => cases e <;> rfl
    | _ => rfl

theorem endedMessages_length_le (run : List TraceItem) :
    (endedMessages run).length ≤ (transcriptOf run).length ∧
      ((endedMessages run).length = (transcriptOf run).length → Unfailed run) := by
  induction run with
  | nil => exact ⟨le_rfl, nofun⟩
  | cons item run ih =>
    have hcons : ∀ (x : TraceItem) (xs : List TraceItem), x :: xs = [x] ++ xs := fun _ _ => rfl
    rw [hcons, transcriptOf_append, endedMessages_append, length_append, length_append]
    have hsame : (∀ m, item ≠ .failed m) →
        (endedMessages [item]).length = (transcriptOf [item]).length := by
      intro hitem
      rw [transcriptOf_of_unfailed]
      intro m hm
      exact hitem m (mem_singleton.mp hm).symm
    by_cases hfailed : ∃ m, item = .failed m
    · obtain ⟨m, rfl⟩ := hfailed
      have hzero : (endedMessages [.failed m]).length = 0 := rfl
      have hone : (transcriptOf [.failed m]).length = 1 := rfl
      refine ⟨by omega, fun heq => ?_⟩
      omega
    · have hplain : ∀ m, item ≠ .failed m := fun m hm => hfailed ⟨m, hm⟩
      have hitem := hsame hplain
      refine ⟨by omega, fun heq m hm => ?_⟩
      obtain hm | hm := mem_append.mp hm
      · exact hplain m (mem_singleton.mp hm).symm
      · exact ih.2 (by omega) m hm

def anyGuard : Machine.Guard agentMachine where
  choice := fun _ _ _ => true
  action := fun _ _ => true

theorem anyGuard_within : anyGuard.Within anyRules :=
  ⟨fun _ _ _ _ => trivial, fun _ _ _ => trivial⟩

def throwingScript : Script := steps 10 ++ [.inl (.throws "no key"), .inl (.clock 7)] ++ steps 2

end Draht
