import Draht.AgentEvents
import Draht.Compaction
import Draht.ProviderErrors

/-!
# The session around an agent

An `AgentSession` between the agent, whose runs emit events, and the session manager, whose
branch grows by entries. The agent adds its messages to its state at once; the session handles
the events one after the other, each handler over several steps, while the agent runs on and the
user, extensions and timers act. A step of the model is what the code does between two awaits.

Listeners on the agent return, and so do listeners on the session's own notices; a listener
that an agent event is passed on to may throw.
-/

namespace Draht

/-- A message object of `agent.state.messages`. The serial is not in the code: messages are
counted in the order in which they are pushed, and a compaction summary has serial 0. -/
structure SessionMessage where
  serial : ℕ
  message : AgentMessage
deriving DecidableEq

/-- An entry on the current branch, with the serial of the message it was made from. -/
structure BranchEntry where
  serial : ℕ
  entry : SessionEntry
deriving DecidableEq

def BranchEntry.message? (b : BranchEntry) : Option SessionMessage :=
  (contextMessage? b.entry).map fun message => { serial := b.serial, message }

/-- `contextMessages` with the serials kept. -/
def branchMessages (branch : List BranchEntry) :
    Option (SessionEntry × CompactionData) → List SessionMessage
  | none => branch.filterMap BranchEntry.message?
  | some (c, data) =>
    let compactionIdx := branch.findIdx (fun b => b.entry.isCompaction && b.entry.id == c.id)
    { serial := 0, message := compactionSummaryOf c data } ::
      (((branch.take compactionIdx).dropWhile (fun b => b.entry.id ≠ data.firstKeptEntryId)
        ).filterMap BranchEntry.message? ++
        (branch.drop (compactionIdx + 1)).filterMap BranchEntry.message?)

/-- `sessionManager.buildSessionContext().messages`. -/
def branchContext (branch : List BranchEntry) : List SessionMessage :=
  branchMessages branch (pathSettings (branch.map BranchEntry.entry)).compaction

structure EntryStamp where
  id : String
  timestamp : ℕ
deriving DecidableEq

def getLatestCompactionEntry (entries : List SessionEntry) : Option SessionEntry :=
  entries.reverse.find? SessionEntry.isCompaction

/-- The messages that a session hands to the agent: those of the user and of extensions. -/
inductive InputMessage where
  | user (message : UserMessage)
  | custom (message : CustomMessage)
deriving DecidableEq

def InputMessage.toAgentMessage : InputMessage → AgentMessage
  | .user m => .user m
  | .custom m => .custom m

/-- The messages that a run makes itself: responses and tool results. -/
inductive OwnMessage where
  | assistant (message : AssistantMessage)
  | toolResult (message : ToolResultMessage)
deriving DecidableEq

def OwnMessage.toAgentMessage : OwnMessage → AgentMessage
  | .assistant m => .assistant m
  | .toolResult m => .toolResult m

/-- A message to be injected into a run; `queued` tells those drained from a queue. -/
structure InjectedMessage where
  queued : Bool
  message : InputMessage
deriving DecidableEq

/-- An event of the agent, as far as the session reads it: `message_start` of a message that was
injected, `message_end`, `agent_end`, or any other event (`message_start` of a response or tool
result among them). -/
inductive SessionEvent where
  | messageStart (message : InjectedMessage)
  | messageEnd (message : SessionMessage)
  | agentEnd (messages : List AgentMessage)
  | other
deriving DecidableEq

/-- A run of the agent: the messages it still has to inject, the one whose `message_start` is
out, the messages of the run that have ended, and whether `agent_end` is out. -/
structure SessionRun where
  pendingMessages : List InjectedMessage
  opened : Option InjectedMessage
  newMessages : List AgentMessage
  ended : Bool
deriving DecidableEq

inductive CompactionReason where
  | overflow | threshold
deriving DecidableEq

/-- `_runAutoCompaction` at work: before the compaction is saved, or after. -/
structure AutoCompaction where
  reason : CompactionReason
  saved : Bool
deriving DecidableEq

/-- What `_processAgentEvent` waits for: the extension handlers of an event, the backoff of
`_handleRetryableError` (whose signal may be aborted), or a compaction. -/
inductive EventHandler where
  | idle
  | extensions (event : SessionEvent)
  | sleeping (message : AssistantMessage) (aborted : Bool)
  | compacting (compaction : AutoCompaction)
deriving DecidableEq

def EventHandler.event? : EventHandler → Option SessionEvent
  | .extensions e => some e
  | _ => none

def EventHandler.isSleeping : EventHandler → Bool
  | .sleeping _ _ => true
  | _ => false

def EventHandler.abortSleep : EventHandler → EventHandler
  | .sleeping message _ => .sleeping message true
  | h => h

/-- A call of `prompt` past its streaming check: it checks for compaction (and waits for the one
it started), then waits with its messages for the extensions. -/
inductive PromptCall where
  | checking (content : List ContentBlock) (compaction : Option AutoCompaction)
  | prepared (messages : List InputMessage)
deriving DecidableEq

/-- Why a call of `agent.continue()` is scheduled. -/
inductive ContinueReason where
  | retry | overflow | queued
deriving DecidableEq

/-- What stays fixed while a session runs. Entry number `n` of the branch gets `stamp n`. -/
structure SessionConfig where
  api : String
  provider : String
  modelId : String
  contextWindow : ℕ
  steeringMode : QueueMode
  followUpMode : QueueMode
  retryEnabled : Bool
  maxRetries : ℕ
  compaction : CompactionSettings
  stamp : ℕ → EntryStamp

structure AgentSession where
  messages : List SessionMessage
  run : Option SessionRun
  steeringQueue : List InputMessage
  followUpQueue : List InputMessage
  agentEventQueue : List SessionEvent
  handler : EventHandler
  prompts : List PromptCall
  scheduled : List ContinueReason
  steeringMessages : List String
  followUpMessages : List String
  pendingNextTurnMessages : List CustomMessage
  pendingBashMessages : List BashExecutionMessage
  retryPromise : Bool
  retryAttempt : ℕ
  overflowRecoveryAttempted : Bool
  lastAssistantMessage : Option AssistantMessage
  branch : List BranchEntry
  nextSerial : ℕ
deriving DecidableEq

namespace AgentSession

def numbered (entries : List SessionEntry) : List BranchEntry :=
  (entries.zipIdx 1).map fun (entry, serial) => { serial, entry }

def opened (entries : List SessionEntry) : AgentSession :=
  let branch := numbered entries
  { messages := branchContext branch, run := none, steeringQueue := [], followUpQueue := []
    agentEventQueue := [], handler := .idle, prompts := [], scheduled := []
    steeringMessages := [], followUpMessages := [], pendingNextTurnMessages := []
    pendingBashMessages := [], retryPromise := false, retryAttempt := 0
    overflowRecoveryAttempted := false, lastAssistantMessage := none, branch
    nextSerial := entries.length + 1 }

variable (cfg : SessionConfig) (s : AgentSession)

def isStreaming : Bool := s.run.isSome

def hasQueuedMessages : Bool := !s.steeringQueue.isEmpty || !s.followUpQueue.isEmpty

/-- `agent.state.messages.push(message)`. -/
def push (message : AgentMessage) : AgentSession :=
  { s with
    messages := s.messages ++ [{ serial := s.nextSerial, message }]
    nextSerial := s.nextSerial + 1 }

def appendEntry (serial : ℕ) (body : EntryBody) : AgentSession :=
  let stamp := cfg.stamp s.branch.length
  { s with
    branch := s.branch ++ [{ serial, entry :=
      { id := stamp.id, parentId := s.branch.getLast?.map (fun b => b.entry.id)
        timestamp := stamp.timestamp, body } }] }

/-- `messages.slice(0, -1)`, if the last message is an assistant message that satisfies `p`. -/
def dropLastAssistant (p : AssistantMessage → Bool) (messages : List SessionMessage) :
    List SessionMessage :=
  match messages.getLast? with
  | some { message := .assistant m, .. } => if p m then messages.dropLast else messages
  | _ => messages

/-- The entry that the `message_end` of a message is persisted as; messages of the other roles
are persisted elsewhere. -/
def entryBodyOf : AgentMessage → Option EntryBody
  | .custom m =>
    some (.customMessage { customType := m.customType, content := m.content
                           display := m.display, details := m.details })
  | .user m => some (.message (.user m))
  | .assistant m => some (.message (.assistant m))
  | .toolResult m => some (.message (.toolResult m))
  | _ => none

def persist (m : SessionMessage) : AgentSession :=
  match entryBodyOf m.message with
  | some body => s.appendEntry cfg m.serial body
  | none => s

/-- A message that the session itself adds to the state of the agent and to the branch. -/
def pushAndAppend (message : AgentMessage) (body : EntryBody) : AgentSession :=
  (s.push message).appendEntry cfg s.nextSerial body

def appendBashMessage (message : BashExecutionMessage) : AgentSession :=
  s.pushAndAppend cfg (.bashExecution message) (.message (.bashExecution message))

/-- `_flushPendingBashMessages`. -/
def flushPendingBashMessages : AgentSession :=
  { s.pendingBashMessages.foldl (fun s m => s.appendBashMessage cfg m) s with
    pendingBashMessages := [] }

/-- `recordBashResult`. -/
def recordBashResult (message : BashExecutionMessage) : AgentSession :=
  if s.isStreaming then
    { s with pendingBashMessages := s.pendingBashMessages ++ [message] }
  else s.appendBashMessage cfg message

/-- `drain` of a queue: what is drained and what is left. -/
def drain (mode : QueueMode) (queue : List InputMessage) :
    List InputMessage × List InputMessage :=
  match mode with
  | .all => (queue, [])
  | .oneAtATime => (queue.take 1, queue.drop 1)

def injected (queued : Bool) (messages : List InputMessage) : List InjectedMessage :=
  messages.map fun message => { queued, message }

def startRun (pendingMessages : List InjectedMessage) : AgentSession :=
  { s with run := some { pendingMessages, opened := none, newMessages := [], ended := false } }

/-- `agent.prompt`, which throws while a run is active. -/
def agentPrompt (messages : List InputMessage) : AgentSession :=
  if s.run.isSome then s else s.startRun (injected false messages)

/-- `agent.continue`; `none` where it throws. -/
def agentContinue : Option AgentSession :=
  if s.run.isSome then none
  else
    match s.messages.getLast? with
    | none => none
    | some { message := .assistant _, .. } =>
      let steering := drain cfg.steeringMode s.steeringQueue
      let followUp := drain cfg.followUpMode s.followUpQueue
      if steering.1 ≠ [] then
        some ({ s with steeringQueue := steering.2 }.startRun (injected true steering.1))
      else if followUp.1 ≠ [] then
        some ({ s with followUpQueue := followUp.2 }.startRun (injected true followUp.1))
      else none
    | some _ => some (s.startRun [])

/-- `_findLastAssistantInMessages`. -/
def findLastAssistant (messages : List AgentMessage) : Option AssistantMessage :=
  messages.reverse.findSome? fun
    | .assistant m => some m
    | _ => none

/-- `_createRetryPromiseForAgentEnd` for the messages of an `agent_end`: is the promise defined
after it? -/
def createRetryPromise (messages : List AgentMessage) : Bool :=
  s.retryPromise ||
    (cfg.retryEnabled && (findLastAssistant messages).any (isRetryableError · cfg.contextWindow))

/-- `_handleAgentEvent`: the promise is created at once, the event queued. -/
def handleAgentEvent (e : SessionEvent) : AgentSession :=
  { s with
    retryPromise :=
      match e with
      | .agentEnd messages => s.createRetryPromise cfg messages
      | _ => s.retryPromise
    agentEventQueue := s.agentEventQueue ++ [e] }

/-- The message that `handleRunFailure` makes of an error. -/
def failureMessage (error : String) (aborted : Bool) (timestamp : ℕ) : AssistantMessage :=
  { content := [.text { text := "", textSignature := none }], api := cfg.api
    provider := cfg.provider, model := cfg.modelId
    usage := { input := 0, output := 0, cacheRead := 0, cacheWrite := 0, totalTokens := 0 }
    stopReason := if aborted then .aborted else .error, errorMessage := some error, timestamp }

/-- A run emits `message_end`: the message is pushed, then the event goes to the session. -/
def emitMessageEnd (r : SessionRun) (message : AgentMessage) : AgentSession :=
  ({ s.push message with
      run := some { r with opened := none, newMessages := r.newMessages ++ [message] } }
    ).handleAgentEvent cfg (.messageEnd { serial := s.nextSerial, message })

/-- After a failed or aborted response a run emits no message any more. -/
def closed (r : SessionRun) : Bool :=
  r.newMessages.getLast?.any fun
    | .assistant m => m.failed
    | _ => false

def betweenMessages (r : SessionRun) : Bool :=
  !r.ended && r.pendingMessages.isEmpty && r.opened.isNone

/-- A run that may respond, run tools and poll its queues. -/
def mayGoOn (r : SessionRun) : Bool := betweenMessages r && !closed r

/-- `_resolveRetry`. -/
def resolveRetry : AgentSession := { s with retryPromise := false }

/-- The timestamp of the latest compaction of the branch. -/
def compactionTimestamp : Option ℕ :=
  (getLatestCompactionEntry (s.branch.map BranchEntry.entry)).map SessionEntry.timestamp

/-- The context tokens that `_checkCompaction` compares with the threshold. -/
def contextTokens (message : AssistantMessage) : Option ℕ :=
  if message.stopReason = .error then
    let messages := s.messages.map SessionMessage.message
    let estimate := estimateContextTokens messages
    match estimate.lastUsageIndex with
    | none => none
    | some i =>
      match messages[i]? with
      | some (.assistant usageMsg) =>
        if s.compactionTimestamp.any (fun t => usageMsg.timestamp ≤ t) then none
        else some estimate.tokens
      | _ => some estimate.tokens
  else some (calculateContextTokens message.usage)

def shouldCompact (contextTokens contextWindow : ℕ) (settings : CompactionSettings) : Bool :=
  settings.enabled && (contextTokens : ℤ) > contextWindow - settings.reserveTokens

/-- `_checkCompaction` up to the start of the compaction that it finds necessary. -/
def checkCompaction (message : AssistantMessage) (skipAbortedCheck : Bool) :
    AgentSession × Option AutoCompaction :=
  if !cfg.compaction.enabled then (s, none)
  else if skipAbortedCheck && message.stopReason = .aborted then (s, none)
  else if s.compactionTimestamp.any (fun t => message.timestamp ≤ t) then (s, none)
  else if (message.provider = cfg.provider ∧ message.model = cfg.modelId) ∧
      isContextOverflow message cfg.contextWindow then
    if s.overflowRecoveryAttempted then (s, none)
    else
      ({ s with
          overflowRecoveryAttempted := true
          messages := dropLastAssistant (fun _ => true) s.messages },
        some { reason := .overflow, saved := false })
  else if (s.contextTokens message).any (fun n => shouldCompact n cfg.contextWindow cfg.compaction)
  then (s, some { reason := .threshold, saved := false })
  else (s, none)

/-- `appendCompaction`, after which the agent gets the context of the branch. -/
def saveCompaction (data : CompactionData) : AgentSession :=
  let appended := s.appendEntry cfg 0 (.compaction data)
  { appended with messages := branchContext appended.branch }

/-- The end of `_runAutoCompaction`: a compaction for an overflow is followed by a retry, any
other by a run for what is queued. -/
def finishCompaction : CompactionReason → AgentSession
  | .overflow =>
    { s with
      messages := dropLastAssistant (fun m => m.stopReason = .error) s.messages
      scheduled := s.scheduled ++ [.overflow] }
  | .threshold =>
    if s.hasQueuedMessages then { s with scheduled := s.scheduled ++ [.queued] } else s

/-- `_getUserMessageText`. -/
def userMessageText : UserContent → String
  | .string text => text
  | .blocks bs =>
    String.join (bs.filterMap fun
      | .text block => some block.text
      | .image _ => none)

/-- The text of a delivered message leaves the list of steering messages or, if it is not
there, that of the follow-ups. -/
def trimQueues (text : String) : AgentSession :=
  if text = "" then s
  else if text ∈ s.steeringMessages then
    { s with steeringMessages := s.steeringMessages.erase text }
  else { s with followUpMessages := s.followUpMessages.erase text }

/-- `_processAgentEvent` up to `await this._emitExtensionEvent(event)`. -/
def startHandling (e : SessionEvent) : AgentSession :=
  let s :=
    match e with
    | .messageStart { message := .user m, .. } =>
      { s with overflowRecoveryAttempted := false }.trimQueues (userMessageText m.content)
    | _ => s
  { s with handler := .extensions e }

/-- What `message_end` of an assistant message is tracked for. -/
def trackAssistant (m : AssistantMessage) : AgentSession :=
  let s := { s with lastAssistantMessage := some m }
  if m.stopReason ≠ .error then { s with overflowRecoveryAttempted := false, retryAttempt := 0 }
  else s

/-- The end of an `agent_end` that is not retried. -/
def settleRun (message : AssistantMessage) : AgentSession :=
  let checked := s.resolveRetry.checkCompaction cfg message true
  { checked.1 with
    handler :=
      match checked.2 with
      | some compaction => .compacting compaction
      | none => .idle }

/-- `_handleRetryableError` up to the sleep; without a retry the run is settled. -/
def handleRetryableError (message : AssistantMessage) : AgentSession :=
  if !cfg.retryEnabled then s.settleRun cfg message
  else
    let s := { s with retryPromise := true, retryAttempt := s.retryAttempt + 1 }
    if s.retryAttempt > cfg.maxRetries then { s with retryAttempt := 0 }.settleRun cfg message
    else
      { s with
        messages := dropLastAssistant (fun _ => true) s.messages
        handler := .sleeping message false }

/-- The `agent_end` part of `_processAgentEvent`. -/
def handleAgentEnd : AgentSession :=
  match s.lastAssistantMessage with
  | none => { s with handler := .idle }
  | some message =>
    let s := { s with lastAssistantMessage := none }
    if isRetryableError message cfg.contextWindow then s.handleRetryableError cfg message
    else s.settleRun cfg message

/-- `_processAgentEvent` from `this._emit(event)` on, if the listeners return. -/
def finishHandling (e : SessionEvent) : AgentSession :=
  match e with
  | .messageEnd m =>
    let s := s.persist cfg m
    let s :=
      match m.message with
      | .assistant m => s.trackAssistant m
      | _ => s
    { s with handler := .idle }
  | .agentEnd _ => s.handleAgentEnd cfg
  | _ => { s with handler := .idle }

def userContent (text : String) (images : List ImageContent) : List ContentBlock :=
  .text { text, textSignature := none } :: images.map .image

def userMessage (content : List ContentBlock) (timestamp : ℕ) : InputMessage :=
  .user { content := .blocks content, timestamp }

/-- `_queueSteer` and `_queueFollowUp`. -/
def queueMessage (queue : QueueName) (text : String) (images : List ImageContent)
    (timestamp : ℕ) : AgentSession :=
  let message := userMessage (userContent text images) timestamp
  match queue with
  | .steering =>
    { s with
      steeringMessages := s.steeringMessages ++ [text]
      steeringQueue := s.steeringQueue ++ [message] }
  | .followUp =>
    { s with
      followUpMessages := s.followUpMessages ++ [text]
      followUpQueue := s.followUpQueue ++ [message] }

/-- The check for compaction of a `prompt`, with the last assistant message of the agent. -/
def checkBeforePrompt : AgentSession × Option AutoCompaction :=
  match findLastAssistant (s.messages.map SessionMessage.message) with
  | some message => s.checkCompaction cfg message false
  | none => (s, none)

/-- `prompt` after its text is expanded. While the agent streams the message is queued, or the
call throws if it does not say how; else the call throws if the model has no credentials. -/
def prompt (text : String) (images : List ImageContent) (streamingBehavior : Option QueueName)
    (hasConfiguredAuth : Bool) (timestamp : ℕ) : AgentSession :=
  if s.isStreaming then
    match streamingBehavior with
    | some queue => s.queueMessage queue text images timestamp
    | none => s
  else
    let s := s.flushPendingBashMessages cfg
    if hasConfiguredAuth then
      let checked := s.checkBeforePrompt cfg
      { checked.1 with
        prompts := checked.1.prompts ++ [.checking (userContent text images) checked.2] }
    else s

/-- `prompt` past its check: the messages kept for this turn follow the user message. -/
def buildPrompt (content : List ContentBlock) (timestamp : ℕ) : AgentSession × PromptCall :=
  ({ s with pendingNextTurnMessages := [] },
    .prepared (userMessage content timestamp :: s.pendingNextTurnMessages.map .custom))

/-- The end of `prompt`, with the messages that extensions add. -/
def submitPrompt (messages : List InputMessage) (extensionMessages : List CustomMessage) :
    AgentSession :=
  s.agentPrompt (messages ++ extensionMessages.map .custom)

/-- The option `deliverAs` of `sendCustomMessage`. -/
inductive DeliverAs where
  | steer | followUp | nextTurn
deriving DecidableEq

def sendCustomMessage (message : CustomMessage) (triggerTurn : Bool)
    (deliverAs : Option DeliverAs) : AgentSession :=
  if deliverAs = some .nextTurn then
    { s with pendingNextTurnMessages := s.pendingNextTurnMessages ++ [message] }
  else if s.isStreaming then
    if deliverAs = some .followUp then
      { s with followUpQueue := s.followUpQueue ++ [.custom message] }
    else { s with steeringQueue := s.steeringQueue ++ [.custom message] }
  else if triggerTurn then s.agentPrompt [.custom message]
  else
    s.pushAndAppend cfg (.custom message)
      (.customMessage { customType := message.customType, content := message.content
                        display := message.display, details := message.details })

/-- `clearQueue`: the texts it returns (steering, follow-up) and the session after it. -/
def clearQueue : (List String × List String) × AgentSession :=
  ((s.steeringMessages, s.followUpMessages),
    { s with
      steeringMessages := [], followUpMessages := [], steeringQueue := [], followUpQueue := [] })

/-- `abortRetry`: the sleep is aborted, and its promise resolved at once. -/
def abortRetry : AgentSession := { s.resolveRetry with handler := s.handler.abortSleep }

end AgentSession

end Draht
