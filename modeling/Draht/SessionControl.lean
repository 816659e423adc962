import Draht.SessionRuns

/-!
# The control state of a session

What decides which step of a session may come next: the run, the event queue and its handler,
prompts, timers, and the counters and flags of retry and compaction. What one step does to it is
said once, whatever else the step does to messages, queues and the branch.
-/

namespace Draht

structure SessionControl where
  run : Option SessionRun
  agentEventQueue : List SessionEvent
  handler : EventHandler
  prompts : List PromptCall
  scheduled : List ContinueReason
  retryPromise : Bool
  retryAttempt : ℕ
  overflowRecoveryAttempted : Bool
  lastAssistantMessage : Option AssistantMessage

namespace SessionControl

variable (c : SessionControl)

def startRun (pendingMessages : List InjectedMessage) : SessionControl :=
  { c with run := some { pendingMessages, opened := none, newMessages := [], ended := false } }

/-- The run, now in state `r`, emits an event. -/
def emit (r : SessionRun) (e : SessionEvent) : SessionControl :=
  { c with run := some r, agentEventQueue := c.agentEventQueue ++ [e] }

def setCompaction (compaction : Option AutoCompaction) : CompactionCaller → SessionControl
  | .handler =>
    { c with
      handler :=
        match compaction with
        | some x => .compacting x
        | none => .idle }
  | .prompt i =>
    { c with
      prompts := c.prompts.modify i fun
        | .checking content _ => .checking content compaction
        | p => p }

/-- The run is settled with the outcome of its check for compaction. -/
def settle (flag : Bool) (compaction : Option AutoCompaction) : SessionControl :=
  { c.setCompaction compaction .handler with
    retryPromise := false, overflowRecoveryAttempted := flag }

def track : AgentMessage → SessionControl
  | .assistant m =>
    if m.stopReason ≠ .error then
      { c with
        lastAssistantMessage := some m, overflowRecoveryAttempted := false, retryAttempt := 0 }
    else { c with lastAssistantMessage := some m }
  | _ => c

end SessionControl

def SessionEvent.startsUser : SessionEvent → Bool
  | .messageStart { message := .user _, .. } => true
  | _ => false

def SessionEvent.isPassedOn : SessionEvent → Bool
  | .messageStart _ => true
  | .other => true
  | _ => false

/-- The calls of the user and of extensions that may leave the control state as it is. -/
def SessionAction.isCall : SessionAction → Bool
  | .prompt .. => true
  | .queueMessage .. => true
  | .sendCustomMessage .. => true
  | .recordBashResult _ => true
  | .clearQueue => true
  | _ => false

namespace AgentSession

def control (s : AgentSession) : SessionControl :=
  { run := s.run, agentEventQueue := s.agentEventQueue, handler := s.handler, prompts := s.prompts
    scheduled := s.scheduled, retryPromise := s.retryPromise, retryAttempt := s.retryAttempt
    overflowRecoveryAttempted := s.overflowRecoveryAttempted
    lastAssistantMessage := s.lastAssistantMessage }

variable {cfg : SessionConfig} {s : AgentSession}

theorem control_pushAndAppend (message : AgentMessage) (body : EntryBody) :
    (s.pushAndAppend cfg message body).control = s.control := rfl

theorem control_persist (cfg : SessionConfig) (s : AgentSession) (m : SessionMessage) :
    (s.persist cfg m).control = s.control := by
  unfold persist
  split <;> rfl

theorem control_foldl_appendBashMessage (cfg : SessionConfig) (s : AgentSession)
    (messages : List BashExecutionMessage) :
    (messages.foldl (fun s m => s.appendBashMessage cfg m) s).control = s.control := by
  induction messages generalizing s with
  | nil => rfl
  | cons m messages ih => exact (ih _).trans (control_pushAndAppend _ _)

theorem control_flushPendingBashMessages (cfg : SessionConfig) (s : AgentSession) :
    (s.flushPendingBashMessages cfg).control = s.control :=
  control_foldl_appendBashMessage cfg s s.pendingBashMessages

theorem control_recordBashResult (message : BashExecutionMessage) :
    (s.recordBashResult cfg message).control = s.control := by
  unfold recordBashResult
  split <;> rfl

theorem control_trimQueues (text : String) : (s.trimQueues text).control = s.control := by
  unfold trimQueues
  split_ifs <;> rfl

theorem control_queueMessage (queue : QueueName) (text : String) (images : List ImageContent)
    (timestamp : ℕ) : (s.queueMessage queue text images timestamp).control = s.control := by
  cases queue <;> rfl

/-- What a check for compaction finds, with the flag of the overflow recovery before and after. -/
inductive CheckOutcome (cfg : SessionConfig) (message : AssistantMessage)
    (skipAbortedCheck : Bool) : Bool → Bool → Option AutoCompaction → Prop
  | none (flag : Bool) : CheckOutcome cfg message skipAbortedCheck flag flag none
  | overflow : isContextOverflow message cfg.contextWindow = true →
      CheckOutcome cfg message skipAbortedCheck false true
        (some { reason := .overflow, saved := false })
  | threshold (flag : Bool) : ¬(skipAbortedCheck = true ∧ message.stopReason = .aborted) →
      CheckOutcome cfg message skipAbortedCheck flag flag
        (some { reason := .threshold, saved := false })

theorem checkCompaction_outcome (cfg : SessionConfig) (s : AgentSession)
    (message : AssistantMessage) (skipAbortedCheck : Bool) :
    ∃ flag, (s.checkCompaction cfg message skipAbortedCheck).1.control =
        { s.control with overflowRecoveryAttempted := flag } ∧
      CheckOutcome cfg message skipAbortedCheck s.overflowRecoveryAttempted flag
        (s.checkCompaction cfg message skipAbortedCheck).2 := by
  have hkept : ∀ c, CheckOutcome cfg message skipAbortedCheck s.overflowRecoveryAttempted
      s.overflowRecoveryAttempted c → ∃ flag, s.control =
        { s.control with overflowRecoveryAttempted := flag } ∧
      CheckOutcome cfg message skipAbortedCheck s.overflowRecoveryAttempted flag c :=
    fun c h => ⟨_, rfl, h⟩
  unfold checkCompaction
  split_ifs with henabled hskip hbefore hoverflow hflag htokens
  · exact hkept _ (.none _)
  · exact hkept _ (.none _)
  · exact hkept _ (.none _)
  · exact hkept _ (.none _)
  · refine ⟨true, rfl, ?_⟩
    rw [Bool.not_eq_true] at hflag
    rw [hflag]
    exact .overflow hoverflow.2
  · exact hkept _ (.threshold _ (by simpa using hskip))
  · exact hkept _ (.none _)

inductive ControlStep (cfg : SessionConfig) (s : AgentSession) :
    SessionAction → SessionControl → Prop
  | startInjection {r : SessionRun} {m : InjectedMessage} {rest : List InjectedMessage} :
      s.run = some r → r.ended = false → r.pendingMessages = m :: rest →
      ControlStep cfg s (.startInjection m)
        (s.control.emit { r with pendingMessages := rest, opened := some m } (.messageStart m))
  | endInjection {r : SessionRun} {m : InjectedMessage} :
      s.run = some r → r.ended = false → r.opened = some m →
      ControlStep cfg s .endInjection
        (s.control.emit
          { r with opened := none, newMessages := r.newMessages ++ [m.message.toAgentMessage] }
          (.messageEnd { serial := s.nextSerial, message := m.message.toAgentMessage }))
  | endMessage {r : SessionRun} (message : OwnMessage) :
      s.run = some r → mayGoOn r = true →
      ControlStep cfg s (.endMessage message)
        (s.control.emit
          { r with opened := none, newMessages := r.newMessages ++ [message.toAgentMessage] }
          (.messageEnd { serial := s.nextSerial, message := message.toAgentMessage }))
  | emitOther {r : SessionRun} : s.run = some r → r.ended = false →
      ControlStep cfg s .emitOther (s.control.emit r .other)
  | poll {r : SessionRun} (queue : QueueName) (messages : List InputMessage) :
      s.run = some r → mayGoOn r = true →
      ControlStep cfg s (.poll queue)
        { s.control with run := some { r with pendingMessages := injected true messages } }
  | endRun {r : SessionRun} : s.run = some r → betweenMessages r = true →
      ControlStep cfg s .endRun
        { s.control.emit { r with ended := true } (.agentEnd r.newMessages) with
          retryPromise := s.createRetryPromise cfg r.newMessages }
  | failRun {r : SessionRun} (error : String) (aborted : Bool) (timestamp : ℕ) :
      s.run = some r → betweenMessages r = true →
      ControlStep cfg s (.failRun error aborted timestamp)
        { s.control.emit { r with ended := true }
            (.agentEnd [.assistant (failureMessage cfg error aborted timestamp)]) with
          retryPromise :=
            s.createRetryPromise cfg [.assistant (failureMessage cfg error aborted timestamp)] }
  | finishRun {r : SessionRun} : s.run = some r → r.ended = true →
      ControlStep cfg s .finishRun { s.control with run := none }
  | startHandler {e : SessionEvent} {rest : List SessionEvent} :
      s.handler = .idle → s.agentEventQueue = e :: rest →
      ControlStep cfg s .startHandler
        { s.control with
          handler := .extensions e, agentEventQueue := rest
          overflowRecoveryAttempted := !e.startsUser && s.overflowRecoveryAttempted }
  | dropEvent {e : SessionEvent} : s.handler = .extensions e →
      ControlStep cfg s (.resumeHandler false) { s.control with handler := .idle }
  | passEvent {e : SessionEvent} : s.handler = .extensions e → e.isPassedOn = true →
      ControlStep cfg s (.resumeHandler true) { s.control with handler := .idle }
  | messageEnd {m : SessionMessage} : s.handler = .extensions (.messageEnd m) →
      ControlStep cfg s (.resumeHandler true)
        { s.control.track m.message with handler := .idle }
  | ignoreEnd {messages : List AgentMessage} : s.handler = .extensions (.agentEnd messages) →
      s.lastAssistantMessage = none →
      ControlStep cfg s (.resumeHandler true) { s.control with handler := .idle }
  | retry {messages : List AgentMessage} {m : AssistantMessage} :
      s.handler = .extensions (.agentEnd messages) → s.lastAssistantMessage = some m →
      isRetryableError m cfg.contextWindow = true → s.retryAttempt + 1 ≤ cfg.maxRetries →
      ControlStep cfg s (.resumeHandler true)
        { s.control with
          lastAssistantMessage := none, retryPromise := true, retryAttempt := s.retryAttempt + 1
          handler := .sleeping m false }
  | settle {messages : List AgentMessage} {m : AssistantMessage} {attempt : ℕ} {flag : Bool}
      {compaction : Option AutoCompaction} :
      s.handler = .extensions (.agentEnd messages) → s.lastAssistantMessage = some m →
      attempt = s.retryAttempt ∨ attempt = 0 ∧ isRetryableError m cfg.contextWindow = true →
      CheckOutcome cfg m true s.overflowRecoveryAttempted flag compaction →
      ControlStep cfg s (.resumeHandler true)
        ({ s.control with lastAssistantMessage := none, retryAttempt := attempt }.settle flag
          compaction)
  | wakeUp {m : AssistantMessage} : s.handler = .sleeping m false →
      ControlStep cfg s .wakeHandler
        { s.control with handler := .idle, scheduled := s.scheduled ++ [.retry] }
  | wakeAborted {m : AssistantMessage} {flag : Bool} {compaction : Option AutoCompaction} :
      s.handler = .sleeping m true →
      CheckOutcome cfg m true s.overflowRecoveryAttempted flag compaction →
      ControlStep cfg s .wakeHandler ({ s.control with retryAttempt := 0 }.settle flag compaction)
  | failCompaction {caller : CompactionCaller} {reason : CompactionReason} :
      s.compactionOf caller = some { reason, saved := false } →
      ControlStep cfg s (.failCompaction caller) (s.control.setCompaction none caller)
  | saveCompaction {caller : CompactionCaller} {reason : CompactionReason}
      (data : CompactionData) :
      s.compactionOf caller = some { reason, saved := false } →
      ControlStep cfg s (.saveCompaction caller data)
        (s.control.setCompaction (some { reason, saved := true }) caller)
  | overflowCompacted {caller : CompactionCaller} :
      s.compactionOf caller = some { reason := .overflow, saved := true } →
      ControlStep cfg s (.finishCompaction caller)
        ({ s.control with scheduled := s.scheduled ++ [ContinueReason.overflow] }.setCompaction none
          caller)
  | thresholdCompacted {caller : CompactionCaller} {scheduled : List ContinueReason} :
      s.compactionOf caller = some { reason := .threshold, saved := true } →
      scheduled = s.scheduled ∨ scheduled = s.scheduled ++ [.queued] →
      ControlStep cfg s (.finishCompaction caller)
        ({ s.control with scheduled }.setCompaction none caller)
  | continueStarts {reason : ContinueReason} (messages : List InputMessage) :
      reason ∈ s.scheduled → s.run = none →
      ControlStep cfg s (.continueAgent reason)
        ({ s.control with scheduled := s.scheduled.erase reason }.startRun
          (injected true messages))
  | continueThrows {reason : ContinueReason} : reason ∈ s.scheduled →
      { s with scheduled := s.scheduled.erase reason }.agentContinue cfg = none →
      ControlStep cfg s (.continueAgent reason)
        { s.control with scheduled := s.scheduled.erase reason }
  | checkPrompt {text : String} {images : List ImageContent} {behavior : Option QueueName}
      {timestamp : ℕ} {m : AssistantMessage} {flag : Bool} {compaction : Option AutoCompaction} :
      s.run = none →
      CheckOutcome cfg m false s.overflowRecoveryAttempted flag compaction →
      ControlStep cfg s (.prompt text images behavior true timestamp)
        { s.control with
          overflowRecoveryAttempted := flag
          prompts := s.prompts ++ [.checking (userContent text images) compaction] }
  | buildPrompt {i : ℕ} {content : List ContentBlock} (timestamp : ℕ)
      (messages : List InputMessage) : s.prompts[i]? = some (.checking content none) →
      ControlStep cfg s (.buildPrompt i timestamp)
        { s.control with prompts := s.prompts.set i (.prepared messages) }
  | submitStarts {i : ℕ} {messages : List InputMessage} (extensionMessages : List CustomMessage)
      (prompts : List InputMessage) :
      s.prompts[i]? = some (.prepared messages) → s.run = none →
      ControlStep cfg s (.submitPrompt i extensionMessages)
        ({ s.control with prompts := s.prompts.eraseIdx i }.startRun (injected false prompts))
  | submitThrows {i : ℕ} {messages : List InputMessage} (extensionMessages : List CustomMessage) :
      s.prompts[i]? = some (.prepared messages) → s.run.isSome = true →
      ControlStep cfg s (.submitPrompt i extensionMessages)
        { s.control with prompts := s.prompts.eraseIdx i }
  | triggerTurn (message : CustomMessage) (deliverAs : Option DeliverAs)
      (prompts : List InputMessage) : s.run = none → deliverAs ≠ some .nextTurn →
      ControlStep cfg s (.sendCustomMessage message true deliverAs)
        (s.control.startRun (injected false prompts))
  | quiet {a : SessionAction} : a.isCall = true → ControlStep cfg s a s.control
  | abortRetry : ControlStep cfg s .abortRetry
      { s.control with retryPromise := false, handler := s.handler.abortSleep }

theorem control_setCompaction (compaction : Option AutoCompaction) (caller : CompactionCaller) :
    (s.setCompaction compaction caller).control = s.control.setCompaction compaction caller := by
  cases caller <;> rfl

theorem settleRun_outcome (cfg : SessionConfig) (s : AgentSession) (message : AssistantMessage) :
    ∃ flag compaction, (s.settleRun cfg message).control = s.control.settle flag compaction ∧
      CheckOutcome cfg message true s.overflowRecoveryAttempted flag compaction := by
  obtain ⟨flag, hcontrol, houtcome⟩ := checkCompaction_outcome cfg s.resolveRetry message true
  refine ⟨flag, (s.resolveRetry.checkCompaction cfg message true).2, ?_, houtcome⟩
  have hsettled : (s.settleRun cfg message).control =
      { (s.resolveRetry.checkCompaction cfg message true).1.control with
        handler :=
          match (s.resolveRetry.checkCompaction cfg message true).2 with
          | some compaction => .compacting compaction
          | none => .idle } := rfl
  rw [hsettled, hcontrol]
  rfl

theorem control_startHandling (e : SessionEvent) :
    (s.startHandling e).control =
      { s.control with
        handler := .extensions e
        overflowRecoveryAttempted := !e.startsUser && s.overflowRecoveryAttempted } := by
  unfold startHandling
  split
  · have h := control_trimQueues (s := { s with overflowRecoveryAttempted := false })
    simp only [control, SessionControl.mk.injEq] at h ⊢
    simp [h, SessionEvent.startsUser]
  · rename_i hne
    cases e with
    | messageStart m =>
      obtain ⟨queued, m⟩ := m
      cases m with
      | user m => exact (hne queued m rfl).elim
      | custom m => simp [control, SessionEvent.startsUser]
    | _ => simp [control, SessionEvent.startsUser]

theorem control_trackAssistant (m : AssistantMessage) :
    (s.trackAssistant m).control = s.control.track (.assistant m) := by
  simp only [trackAssistant, SessionControl.track]
  split_ifs <;> rfl

theorem handleAgentEnd_control {messages : List AgentMessage}
    (h : s.handler = .extensions (.agentEnd messages)) :
    ControlStep cfg s (.resumeHandler true) (s.handleAgentEnd cfg).control := by
  have hsettle : ∀ (s' : AgentSession) (m : AssistantMessage) (attempt : ℕ),
      s.lastAssistantMessage = some m →
      s'.control = { s.control with
        lastAssistantMessage := none, retryAttempt := attempt, retryPromise := s'.retryPromise } →
      (attempt = s.retryAttempt ∨ attempt = 0 ∧ isRetryableError m cfg.contextWindow = true) →
      ControlStep cfg s (.resumeHandler true) (s'.settleRun cfg m).control := by
    intro s' m attempt hlast hcontrol hattempt
    obtain ⟨flag, compaction, hsettled, houtcome⟩ := settleRun_outcome cfg s' m
    have hflag : s'.overflowRecoveryAttempted = s.overflowRecoveryAttempted :=
      congrArg SessionControl.overflowRecoveryAttempted hcontrol
    rw [hsettled, hcontrol]
    exact .settle h hlast hattempt (hflag ▸ houtcome)
  unfold handleAgentEnd
  split
  · rename_i hlast
    exact .ignoreEnd h hlast
  · rename_i m hlast
    split_ifs with hretryable
    · unfold handleRetryableError
      dsimp only
      split_ifs with henabled hexhausted
      · exact hsettle _ m s.retryAttempt hlast rfl (.inl rfl)
      · exact hsettle _ m 0 hlast rfl (.inr ⟨rfl, hretryable⟩)
      · exact .retry h hlast hretryable (by omega)
    · exact hsettle _ m s.retryAttempt hlast rfl (.inl rfl)

theorem finishHandling_control {e : SessionEvent} (h : s.handler = .extensions e) :
    ControlStep cfg s (.resumeHandler true) (s.finishHandling cfg e).control := by
  cases e with
  | messageStart m => exact .passEvent h rfl
  | other => exact .passEvent h rfl
  | agentEnd messages => exact handleAgentEnd_control h
  | messageEnd m =>
    have hout : (s.finishHandling cfg (.messageEnd m)).control =
        { s.control.track m.message with handler := .idle } := by
      have hpersist := control_persist cfg s m
      simp only [finishHandling]
      split
      · rename_i a ha
        have htrack := control_trackAssistant (s := s.persist cfg m) a
        rw [hpersist] at htrack
        rw [ha, ← htrack]
        rfl
      · rename_i hne
        have htrack : s.control.track m.message = s.control := by
          unfold SessionControl.track
          split
          · rename_i a ha
            exact (hne a ha).elim
          · rfl
        rw [htrack, ← hpersist]
        rfl
    rw [hout]
    exact .messageEnd h

theorem control_finishCompaction {caller : CompactionCaller} {reason : CompactionReason}
    (h : s.compactionOf caller = some { reason, saved := true }) :
    ControlStep cfg s (.finishCompaction caller)
      ((s.finishCompaction reason).setCompaction none caller).control := by
  rw [control_setCompaction]
  cases reason with
  | overflow => exact .overflowCompacted h
  | threshold =>
    unfold finishCompaction
    split_ifs
    · exact .thresholdCompacted h (.inr rfl)
    · exact .thresholdCompacted h (.inl rfl)

variable {s' : AgentSession}

theorem agentContinue_control (h : s.agentContinue cfg = some s') :
    s.run = none ∧ ∃ messages, s'.control = s.control.startRun (injected true messages) := by
  unfold agentContinue at h
  split_ifs at h with hrun
  refine ⟨by simpa using hrun, ?_⟩
  split at h
  · cases h
  · dsimp only at h
    split_ifs at h <;> obtain rfl := Option.some.inj h <;> exact ⟨_, rfl⟩
  · cases h
    exact ⟨[], rfl⟩

theorem checkBeforePrompt_outcome (cfg : SessionConfig) (s : AgentSession) :
    ∃ m flag, (s.checkBeforePrompt cfg).1.control =
        { s.control with overflowRecoveryAttempted := flag } ∧
      CheckOutcome cfg m false s.overflowRecoveryAttempted flag (s.checkBeforePrompt cfg).2 := by
  unfold checkBeforePrompt
  split
  · rename_i m _
    obtain ⟨flag, h⟩ := checkCompaction_outcome cfg s m false
    exact ⟨m, flag, h⟩
  · exact ⟨failureMessage cfg "" false 0, _, rfl, .none _⟩

theorem prompt_control {text : String} {images : List ImageContent} {behavior : Option QueueName}
    {hasConfiguredAuth : Bool} {timestamp : ℕ}
    (h : s.prompt cfg text images behavior hasConfiguredAuth timestamp = s') :
    ControlStep cfg s (.prompt text images behavior hasConfiguredAuth timestamp) s'.control := by
  subst h
  have hflush := control_flushPendingBashMessages cfg s
  unfold prompt
  split_ifs with hstreaming hauth
  · split
    · rw [control_queueMessage]
      exact .quiet rfl
    · exact .quiet rfl
  · obtain ⟨m, flag, hcontrol, houtcome⟩ :=
      checkBeforePrompt_outcome cfg (s.flushPendingBashMessages cfg)
    have hflag : (s.flushPendingBashMessages cfg).overflowRecoveryAttempted =
        s.overflowRecoveryAttempted :=
      congrArg SessionControl.overflowRecoveryAttempted hflush
    rw [hflush] at hcontrol
    rw [hflag] at houtcome
    have hstep : ControlStep cfg s (.prompt text images behavior true timestamp) _ :=
      .checkPrompt (by simpa [isStreaming] using hstreaming) houtcome
    rw [hauth]
    simp only [control, SessionControl.mk.injEq] at hcontrol hstep ⊢
    simpa [hcontrol] using hstep
  · have hcontrol : ControlStep cfg s (.prompt text images behavior hasConfiguredAuth timestamp)
        s.control := .quiet rfl
    rwa [← hflush] at hcontrol

theorem sendCustomMessage_control (message : CustomMessage) (triggerTurn : Bool)
    (deliverAs : Option DeliverAs) :
    ControlStep cfg s (.sendCustomMessage message triggerTurn deliverAs)
      (s.sendCustomMessage cfg message triggerTurn deliverAs).control := by
  unfold sendCustomMessage
  split_ifs with hnext hstreaming hfollowUp htrigger
  · exact .quiet rfl
  · exact .quiet rfl
  · exact .quiet rfl
  · have hrun : s.run = none := by simpa [isStreaming] using hstreaming
    rw [htrigger, agentPrompt, hrun]
    exact .triggerTurn message deliverAs _ hrun hnext
  · exact .quiet rfl

theorem control_step {a : SessionAction} (h : s.step cfg a = some s') :
    ControlStep cfg s a s'.control := by
  cases step_cases h with
  | startInjection hrun hended _ hpending => exact .startInjection hrun hended hpending
  | endInjection hrun hended hopened => exact .endInjection hrun hended hopened
  | endMessage message hrun hgo => exact .endMessage message hrun hgo
  | emitOther hrun hended =>
    have hstep : ControlStep cfg s .emitOther _ := .emitOther hrun hended
    simp only [control, SessionControl.emit, handleAgentEvent, hrun] at hstep ⊢
    exact hstep
  | poll queue hrun hgo => cases queue <;> exact .poll _ _ hrun hgo
  | endRun hrun hbetween => exact .endRun hrun hbetween
  | failRun error aborted timestamp hrun hbetween =>
    exact .failRun error aborted timestamp hrun hbetween
  | finishRun hrun hended => exact .finishRun hrun hended
  | startHandler hidle hqueue =>
    rw [control_startHandling]
    exact .startHandler hidle hqueue
  | dropEvent hhandler => exact .dropEvent hhandler
  | handleEvent hhandler => exact finishHandling_control hhandler
  | wakeUp hhandler => exact .wakeUp hhandler
  | @wakeAborted m hhandler =>
    obtain ⟨flag, compaction, hsettled, houtcome⟩ :=
      settleRun_outcome cfg { s with retryAttempt := 0 } m
    rw [hsettled]
    exact .wakeAborted hhandler houtcome
  | failCompaction hcompaction =>
    rw [control_setCompaction]
    exact .failCompaction hcompaction
  | saveCompaction data hcompaction =>
    rw [control_setCompaction]
    exact .saveCompaction data hcompaction
  | finishCompaction hcompaction => exact control_finishCompaction hcompaction
  | @continueAgent reason fired hscheduled hfired =>
    subst hfired
    cases hcontinue : agentContinue cfg { s with scheduled := s.scheduled.erase reason } with
    | none => exact .continueThrows hscheduled hcontinue
    | some s' =>
      obtain ⟨hrun, messages, hcontrol⟩ := agentContinue_control hcontinue
      rw [Option.getD_some, hcontrol]
      exact .continueStarts messages hscheduled hrun
  | prompt text images behavior hasConfiguredAuth timestamp => exact prompt_control rfl
  | buildPrompt timestamp hprompt => exact .buildPrompt timestamp _ hprompt
  | submitPrompt extensionMessages hprompt =>
    unfold submitPrompt agentPrompt
    split_ifs with hrun
    · exact .submitThrows extensionMessages hprompt hrun
    · exact .submitStarts extensionMessages _ hprompt (by simpa using hrun)
  | queueMessage =>
    rw [control_queueMessage]
    exact .quiet rfl
  | sendCustomMessage message triggerTurn deliverAs =>
    exact sendCustomMessage_control message triggerTurn deliverAs
  | recordBashResult =>
    rw [control_recordBashResult]
    exact .quiet rfl
  | clearQueue => exact .quiet rfl
  | abortRetry => exact .abortRetry

end AgentSession

end Draht
