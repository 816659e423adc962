import Draht.AgentSession

/-!
# Runs of a session

The steps of the agent's runs, of the event handler, of compactions and timers, and the calls of
the user and of extensions, in any order that each of them allows.
-/

namespace Draht
open Option

/-- Which call of `_runAutoCompaction`: that of the event handler or that of a `prompt`. -/
inductive CompactionCaller where
  | handler
  | prompt (i : ℕ)
deriving DecidableEq

inductive SessionAction where
  /-- A run emits `message_start` of a message to inject, then its `message_end`. -/
  | startInjection (message : InjectedMessage)
  | endInjection
  /-- A run emits `message_end` of a response or tool result, or an event of no concern here. -/
  | endMessage (message : OwnMessage)
  | emitOther
  /-- A run polls a queue. -/
  | poll (queue : QueueName)
  /-- A run emits `agent_end` after its last message, or throws; then it is finished. -/
  | endRun
  | failRun (error : String) (aborted : Bool) (timestamp : ℕ)
  | finishRun
  /-- The handler of the next event starts; it goes on after the extensions, with listeners that
  return or not; its sleep ends. -/
  | startHandler
  | resumeHandler (listenersReturn : Bool)
  | wakeHandler
  /-- A compaction fails (or is cancelled), is saved, is completed. -/
  | failCompaction (caller : CompactionCaller)
  | saveCompaction (caller : CompactionCaller) (data : CompactionData)
  | finishCompaction (caller : CompactionCaller)
  /-- A timer calls `agent.continue()`. -/
  | continueAgent (reason : ContinueReason)
  | prompt (text : String) (images : List ImageContent) (streamingBehavior : Option QueueName)
      (hasConfiguredAuth : Bool) (timestamp : ℕ)
  | buildPrompt (i : ℕ) (timestamp : ℕ)
  | submitPrompt (i : ℕ) (extensionMessages : List CustomMessage)
  /-- `steer` and `followUp`. -/
  | queueMessage (queue : QueueName) (text : String) (images : List ImageContent) (timestamp : ℕ)
  | sendCustomMessage (message : CustomMessage) (triggerTurn : Bool)
      (deliverAs : Option AgentSession.DeliverAs)
  | recordBashResult (message : BashExecutionMessage)
  | clearQueue
  | abortRetry
deriving DecidableEq

namespace AgentSession

variable (cfg : SessionConfig) (s : AgentSession)

def startInjection (r : SessionRun) (message : InjectedMessage) : Option AgentSession :=
  match r.pendingMessages with
  | m :: rest =>
    if !r.ended ∧ r.opened = none ∧ m = message then
      some ({ s with run := some { r with pendingMessages := rest, opened := some m } }
        |>.handleAgentEvent cfg (.messageStart m))
    else none
  | [] => none

def endInjection (r : SessionRun) : Option AgentSession :=
  match r.opened with
  | some m => if !r.ended then some (s.emitMessageEnd cfg r m.message.toAgentMessage) else none
  | none => none

def poll (r : SessionRun) : QueueName → AgentSession
  | .steering =>
    let drained := drain cfg.steeringMode s.steeringQueue
    { s with
      steeringQueue := drained.2
      run := some { r with pendingMessages := injected true drained.1 } }
  | .followUp =>
    let drained := drain cfg.followUpMode s.followUpQueue
    { s with
      followUpQueue := drained.2
      run := some { r with pendingMessages := injected true drained.1 } }

/-- A run emits `agent_end`, after which it emits nothing more. -/
def endRun (r : SessionRun) (messages : List AgentMessage) : AgentSession :=
  { s with run := some { r with ended := true } }.handleAgentEvent cfg (.agentEnd messages)

/-- `handleRunFailure`. -/
def failRun (r : SessionRun) (message : AssistantMessage) : AgentSession :=
  (s.push (.assistant message)).endRun cfg r [.assistant message]

def startHandler : Option AgentSession :=
  match s.handler, s.agentEventQueue with
  | .idle, e :: rest => some ({ s with agentEventQueue := rest }.startHandling e)
  | _, _ => none

/-- A listener that throws ends the handling of its event. -/
def resumeHandler (listenersReturn : Bool) : Option AgentSession :=
  match s.handler with
  | .extensions e =>
    some (if listenersReturn then s.finishHandling cfg e else { s with handler := .idle })
  | _ => none

/-- The sleep of a retry is over: the retry is scheduled, or given up if it was aborted. -/
def wakeHandler : Option AgentSession :=
  match s.handler with
  | .sleeping _ false => some { s with handler := .idle, scheduled := s.scheduled ++ [.retry] }
  | .sleeping message true => some ({ s with retryAttempt := 0 }.settleRun cfg message)
  | _ => none

def compactionOf : CompactionCaller → Option AutoCompaction
  | .handler =>
    match s.handler with
    | .compacting c => some c
    | _ => none
  | .prompt i =>
    match s.prompts[i]? with
    | some (.checking _ compaction) => compaction
    | _ => none

/-- The caller waits for `compaction` from here on, or goes on. -/
def setCompaction (compaction : Option AutoCompaction) : CompactionCaller → AgentSession
  | .handler =>
    { s with
      handler :=
        match compaction with
        | some c => .compacting c
        | none => .idle }
  | .prompt i =>
    { s with
      prompts := s.prompts.modify i fun
        | .checking content _ => .checking content compaction
        | p => p }

def step : SessionAction → Option AgentSession
  | .startInjection message => s.run.bind fun r => s.startInjection cfg r message
  | .endInjection => s.run.bind fun r => s.endInjection cfg r
  | .endMessage message =>
    s.run.bind fun r =>
      if mayGoOn r then some (s.emitMessageEnd cfg r message.toAgentMessage) else none
  | .emitOther =>
    s.run.bind fun r => if !r.ended then some (s.handleAgentEvent cfg .other) else none
  | .poll queue =>
    s.run.bind fun r =>
      if mayGoOn r then some (s.poll cfg r queue) else none
  | .endRun =>
    s.run.bind fun r => if betweenMessages r then some (s.endRun cfg r r.newMessages) else none
  | .failRun error aborted timestamp =>
    s.run.bind fun r =>
      if betweenMessages r then
        some (s.failRun cfg r (failureMessage cfg error aborted timestamp))
      else none
  | .finishRun => s.run.bind fun r => if r.ended then some { s with run := none } else none
  | .startHandler => s.startHandler
  | .resumeHandler listenersReturn => s.resumeHandler cfg listenersReturn
  | .wakeHandler => s.wakeHandler cfg
  | .failCompaction caller =>
    match s.compactionOf caller with
    | some { saved := false, .. } => some (s.setCompaction none caller)
    | _ => none
  | .saveCompaction caller data =>
    match s.compactionOf caller with
    | some { reason, saved := false } =>
      some ((s.saveCompaction cfg data).setCompaction (some { reason, saved := true }) caller)
    | _ => none
  | .finishCompaction caller =>
    match s.compactionOf caller with
    | some { reason, saved := true } =>
      some ((s.finishCompaction reason).setCompaction none caller)
    | _ => none
  | .continueAgent reason =>
    if reason ∈ s.scheduled then
      let fired := { s with scheduled := s.scheduled.erase reason }
      some ((fired.agentContinue cfg).getD fired)
    else none
  | .prompt text images streamingBehavior hasConfiguredAuth timestamp =>
    some (s.prompt cfg text images streamingBehavior hasConfiguredAuth timestamp)
  | .buildPrompt i timestamp =>
    match s.prompts[i]? with
    | some (.checking content none) =>
      let built := s.buildPrompt content timestamp
      some { built.1 with prompts := s.prompts.set i built.2 }
    | _ => none
  | .submitPrompt i extensionMessages =>
    match s.prompts[i]? with
    | some (.prepared messages) =>
      some ({ s with prompts := s.prompts.eraseIdx i }.submitPrompt messages extensionMessages)
    | _ => none
  | .queueMessage queue text images timestamp =>
    some (s.queueMessage queue text images timestamp)
  | .sendCustomMessage message triggerTurn deliverAs =>
    some (s.sendCustomMessage cfg message triggerTurn deliverAs)
  | .recordBashResult message => some (s.recordBashResult cfg message)
  | .clearQueue => some s.clearQueue.2
  | .abortRetry => some s.abortRetry

inductive StepCases (cfg : SessionConfig) (s : AgentSession) :
    SessionAction → AgentSession → Prop
  | startInjection {r : SessionRun} {m : InjectedMessage} {rest : List InjectedMessage} :
      s.run = some r → r.ended = false → r.opened = none → r.pendingMessages = m :: rest →
      StepCases cfg s (.startInjection m)
        ({ s with run := some { r with pendingMessages := rest, opened := some m } }
          |>.handleAgentEvent cfg (.messageStart m))
  | endInjection {r : SessionRun} {m : InjectedMessage} :
      s.run = some r → r.ended = false → r.opened = some m →
      StepCases cfg s .endInjection (s.emitMessageEnd cfg r m.message.toAgentMessage)
  | endMessage {r : SessionRun} (message : OwnMessage) : s.run = some r → mayGoOn r = true →
      StepCases cfg s (.endMessage message) (s.emitMessageEnd cfg r message.toAgentMessage)
  | emitOther {r : SessionRun} : s.run = some r → r.ended = false →
      StepCases cfg s .emitOther (s.handleAgentEvent cfg .other)
  | poll {r : SessionRun} (queue : QueueName) : s.run = some r → mayGoOn r = true →
      StepCases cfg s (.poll queue) (s.poll cfg r queue)
  | endRun {r : SessionRun} : s.run = some r → betweenMessages r = true →
      StepCases cfg s .endRun (s.endRun cfg r r.newMessages)
  | failRun {r : SessionRun} (error : String) (aborted : Bool) (timestamp : ℕ) :
      s.run = some r → betweenMessages r = true →
      StepCases cfg s (.failRun error aborted timestamp)
        (s.failRun cfg r (failureMessage cfg error aborted timestamp))
  | finishRun {r : SessionRun} : s.run = some r → r.ended = true →
      StepCases cfg s .finishRun { s with run := none }
  | startHandler {e : SessionEvent} {rest : List SessionEvent} :
      s.handler = .idle → s.agentEventQueue = e :: rest →
      StepCases cfg s .startHandler ({ s with agentEventQueue := rest }.startHandling e)
  | dropEvent {e : SessionEvent} : s.handler = .extensions e →
      StepCases cfg s (.resumeHandler false) { s with handler := .idle }
  | handleEvent {e : SessionEvent} : s.handler = .extensions e →
      StepCases cfg s (.resumeHandler true) (s.finishHandling cfg e)
  | wakeUp {m : AssistantMessage} : s.handler = .sleeping m false →
      StepCases cfg s .wakeHandler
        { s with handler := .idle, scheduled := s.scheduled ++ [.retry] }
  | wakeAborted {m : AssistantMessage} : s.handler = .sleeping m true →
      StepCases cfg s .wakeHandler ({ s with retryAttempt := 0 }.settleRun cfg m)
  | failCompaction {caller : CompactionCaller} {reason : CompactionReason} :
      s.compactionOf caller = some { reason, saved := false } →
      StepCases cfg s (.failCompaction caller) (s.setCompaction none caller)
  | saveCompaction {caller : CompactionCaller} {reason : CompactionReason}
      (data : CompactionData) :
      s.compactionOf caller = some { reason, saved := false } →
      StepCases cfg s (.saveCompaction caller data)
        ((s.saveCompaction cfg data).setCompaction (some { reason, saved := true }) caller)
  | finishCompaction {caller : CompactionCaller} {reason : CompactionReason} :
      s.compactionOf caller = some { reason, saved := true } →
      StepCases cfg s (.finishCompaction caller)
        ((s.finishCompaction reason).setCompaction none caller)
  | continueAgent {reason : ContinueReason} {fired : AgentSession} : reason ∈ s.scheduled →
      fired = { s with scheduled := s.scheduled.erase reason } →
      StepCases cfg s (.continueAgent reason) ((fired.agentContinue cfg).getD fired)
  | prompt (text : String) (images : List ImageContent) (streamingBehavior : Option QueueName)
      (hasConfiguredAuth : Bool) (timestamp : ℕ) :
      StepCases cfg s (.prompt text images streamingBehavior hasConfiguredAuth timestamp)
        (s.prompt cfg text images streamingBehavior hasConfiguredAuth timestamp)
  | buildPrompt {i : ℕ} {content : List ContentBlock} (timestamp : ℕ) :
      s.prompts[i]? = some (.checking content none) →
      StepCases cfg s (.buildPrompt i timestamp)
        { (s.buildPrompt content timestamp).1 with
          prompts := s.prompts.set i (s.buildPrompt content timestamp).2 }
  | submitPrompt {i : ℕ} {messages : List InputMessage} (extensionMessages : List CustomMessage) :
      s.prompts[i]? = some (.prepared messages) →
      StepCases cfg s (.submitPrompt i extensionMessages)
        ({ s with prompts := s.prompts.eraseIdx i }.submitPrompt messages extensionMessages)
  | queueMessage (queue : QueueName) (text : String) (images : List ImageContent)
      (timestamp : ℕ) :
      StepCases cfg s (.queueMessage queue text images timestamp)
        (s.queueMessage queue text images timestamp)
  | sendCustomMessage (message : CustomMessage) (triggerTurn : Bool)
      (deliverAs : Option DeliverAs) :
      StepCases cfg s (.sendCustomMessage message triggerTurn deliverAs)
        (s.sendCustomMessage cfg message triggerTurn deliverAs)
  | recordBashResult (message : BashExecutionMessage) :
      StepCases cfg s (.recordBashResult message) (s.recordBashResult cfg message)
  | clearQueue : StepCases cfg s .clearQueue s.clearQueue.2
  | abortRetry : StepCases cfg s .abortRetry s.abortRetry

variable {cfg} {s} {s' : AgentSession}

theorem step_cases {a : SessionAction} (h : s.step cfg a = some s') : StepCases cfg s a s' := by
  cases a with
  | startInjection m =>
    obtain ⟨r, hrun, hr⟩ := bind_eq_some_iff.mp h
    unfold startInjection at hr
    split at hr
    · next hpending =>
        split_ifs at hr with hguard
        obtain ⟨hended, hopened, rfl⟩ := hguard
        cases hr
        exact .startInjection hrun (by simpa using hended) hopened hpending
    · cases hr
  | endInjection =>
    obtain ⟨r, hrun, hr⟩ := bind_eq_some_iff.mp h
    unfold endInjection at hr
    split at hr
    · next hopened =>
        split_ifs at hr with hended
        cases hr
        exact .endInjection hrun (by simpa using hended) hopened
    · cases hr
  | endMessage message =>
    obtain ⟨r, hrun, hr⟩ := bind_eq_some_iff.mp h
    split_ifs at hr with hgo
    cases hr
    exact .endMessage message hrun hgo
  | emitOther =>
    obtain ⟨r, hrun, hr⟩ := bind_eq_some_iff.mp h
    split_ifs at hr with hended
    cases hr
    exact .emitOther hrun (by simpa using hended)
  | poll queue =>
    obtain ⟨r, hrun, hr⟩ := bind_eq_some_iff.mp h
    split_ifs at hr with hgo
    cases hr
    exact .poll queue hrun hgo
  | endRun =>
    obtain ⟨r, hrun, hr⟩ := bind_eq_some_iff.mp h
    split_ifs at hr with hbetween
    cases hr
    exact .endRun hrun hbetween
  | failRun error aborted timestamp =>
    obtain ⟨r, hrun, hr⟩ := bind_eq_some_iff.mp h
    split_ifs at hr with hbetween
    cases hr
    exact .failRun error aborted timestamp hrun hbetween
  | finishRun =>
    obtain ⟨r, hrun, hr⟩ := bind_eq_some_iff.mp h
    split_ifs at hr with hended
    cases hr
    exact .finishRun hrun hended
  | startHandler =>
    simp only [step, startHandler] at h
    split at h
    · next hidle hqueue =>
        cases h
        exact .startHandler hidle hqueue
    · cases h
  | resumeHandler listenersReturn =>
    simp only [step, resumeHandler] at h
    split at h
    · next hhandler =>
        cases h
        cases listenersReturn with
        | true => exact .handleEvent hhandler
        | false => exact .dropEvent hhandler
    · cases h
  | wakeHandler =>
    simp only [step, wakeHandler] at h
    split at h
    · next hhandler =>
        cases h
        exact .wakeUp hhandler
    · next hhandler =>
        cases h
        exact .wakeAborted hhandler
    · cases h
  | failCompaction caller =>
    simp only [step] at h
    split at h
    · next hcompaction =>
        cases h
        exact .failCompaction hcompaction
    · cases h
  | saveCompaction caller data =>
    simp only [step] at h
    split at h
    · next hcompaction =>
        cases h
        exact .saveCompaction data hcompaction
    · cases h
  | finishCompaction caller =>
    simp only [step] at h
    split at h
    · next hcompaction =>
        cases h
        exact .finishCompaction hcompaction
    · cases h
  | continueAgent reason =>
    simp only [step] at h
    split_ifs at h with hscheduled
    cases h
    exact .continueAgent hscheduled rfl
  | prompt text images streamingBehavior hasConfiguredAuth timestamp =>
    cases h
    exact .prompt text images streamingBehavior hasConfiguredAuth timestamp
  | buildPrompt i timestamp =>
    simp only [step] at h
    split at h
    · next hprompt =>
        cases h
        exact .buildPrompt timestamp hprompt
    · cases h
  | submitPrompt i extensionMessages =>
    simp only [step] at h
    split at h
    · next hprompt =>
        cases h
        exact .submitPrompt extensionMessages hprompt
    · cases h
  | queueMessage queue text images timestamp =>
    cases h
    exact .queueMessage queue text images timestamp
  | sendCustomMessage message triggerTurn deliverAs =>
    cases h
    exact .sendCustomMessage message triggerTurn deliverAs
  | recordBashResult message =>
    cases h
    exact .recordBashResult message
  | clearQueue =>
    cases h
    exact .clearQueue
  | abortRetry =>
    cases h
    exact .abortRetry

structure SessionStep where
  before : AgentSession
  action : SessionAction
  after : AgentSession
deriving DecidableEq

/-- The runs from `s₀` in which every step meets `ok`, with the steps taken. -/
inductive Runs (cfg : SessionConfig) (ok : AgentSession → SessionAction → Prop)
    (s₀ : AgentSession) : List SessionStep → AgentSession → Prop
  | refl : Runs cfg ok s₀ [] s₀
  | step {steps : List SessionStep} {s s' : AgentSession} (a : SessionAction) :
      Runs cfg ok s₀ steps s → ok s a → s.step cfg a = some s' →
        Runs cfg ok s₀ (steps ++ [⟨s, a, s'⟩]) s'

variable {s₀ : AgentSession} {ok : AgentSession → SessionAction → Prop}

theorem Runs.induct {P : List SessionStep → AgentSession → Prop} (hstart : P [] s₀)
    (hstep : ∀ steps s a s', P steps s → ok s a → s.step cfg a = some s' →
      P (steps ++ [⟨s, a, s'⟩]) s')
    {steps : List SessionStep} (h : Runs cfg ok s₀ steps s) : P steps s := by
  induction h with
  | refl => exact hstart
  | step a _ hok hs ih => exact hstep _ _ a _ ih hok hs

/-- The run of a list of actions, if each of them is possible and meets `ok`. -/
def play (cfg : SessionConfig) (ok : AgentSession → SessionAction → Prop)
    [∀ s a, Decidable (ok s a)] (done : List SessionStep) (s : AgentSession) :
    List SessionAction → Option (List SessionStep × AgentSession)
  | [] => some (done, s)
  | a :: actions =>
    if ok s a then (s.step cfg a).bind fun s' => play cfg ok (done ++ [⟨s, a, s'⟩]) s' actions
    else none

theorem Runs.of_play [∀ s a, Decidable (ok s a)] {done : List SessionStep}
    {actions : List SessionAction} {out : List SessionStep × AgentSession}
    (hdone : Runs cfg ok s₀ done s) (h : play cfg ok done s actions = some out) :
    Runs cfg ok s₀ out.1 out.2 := by
  induction actions generalizing s done with
  | nil =>
    cases h
    exact hdone
  | cons a actions ih =>
    unfold play at h
    split_ifs at h with hok
    obtain ⟨s₁, hs₁, hrest⟩ := bind_eq_some_iff.mp h
    exact ih (Runs.step a hdone hok hs₁) hrest

theorem exists_run_of_play (cfg : SessionConfig) (ok : AgentSession → SessionAction → Prop)
    [∀ s a, Decidable (ok s a)] (s₀ : AgentSession) (actions : List SessionAction)
    (P : List SessionStep → AgentSession → Prop) [∀ steps s, Decidable (P steps s)]
    (h : (play cfg ok [] s₀ actions).any (fun out => P out.1 out.2) = true) :
    ∃ steps s, Runs cfg ok s₀ steps s ∧ P steps s := by
  obtain ⟨out, hout, hP⟩ := (any_eq_true _ _).mp h
  exact ⟨out.1, out.2, Runs.of_play .refl hout, of_decide_eq_true hP⟩

/-- The session is quiet: no run, no event to handle or in handling, no call scheduled. -/
structure Quiescent (s : AgentSession) : Prop where
  run : s.run = none
  agentEventQueue : s.agentEventQueue = []
  handler : s.handler = .idle
  scheduled : s.scheduled = []

instance (s : AgentSession) : Decidable s.Quiescent :=
  decidable_of_iff (s.run = none ∧ s.agentEventQueue = [] ∧ s.handler = .idle ∧ s.scheduled = [])
    ⟨fun h => ⟨h.1, h.2.1, h.2.2.1, h.2.2.2⟩, fun h => ⟨h.1, h.2, h.3, h.4⟩⟩

/-- One retry, a context window of 100 tokens, entries with the ids "e", "ee", and so on. -/
def smallConfig : SessionConfig :=
  { api := "anthropic-messages", provider := "anthropic", modelId := "model"
    contextWindow := 100, steeringMode := .all, followUpMode := .all, retryEnabled := true
    maxRetries := 1, compaction := { enabled := true, reserveTokens := 0, keepRecentTokens := 0 }
    stamp := fun n => { id := String.ofList (List.replicate (n + 1) 'e'), timestamp := n } }

def response (cfg : SessionConfig) (stopReason : StopReason) (errorMessage : Option String)
    (totalTokens timestamp : ℕ) : AssistantMessage :=
  { content := [], api := cfg.api, provider := cfg.provider, model := cfg.modelId
    usage := { input := 0, output := 0, cacheRead := 0, cacheWrite := 0, totalTokens }
    stopReason, errorMessage, timestamp }

/-- A prompt of the first call of `prompt`, up to the `message_end` of the user message. -/
def promptActions (text : String) (timestamp : ℕ) : List SessionAction :=
  [.prompt text [] none true timestamp, .buildPrompt 0 timestamp, .submitPrompt 0 [], .emitOther,
    .emitOther, .startInjection ⟨false, userMessage (userContent text []) timestamp⟩, .endInjection]

/-- The next `n` events are handled, each at once. -/
def handleEvents (n : ℕ) : List SessionAction :=
  (List.replicate n [.startHandler, .resumeHandler true]).flatten

end AgentSession

end Draht
