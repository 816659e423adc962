import Draht.AgentEvents
import Draht.EffectProgram

/-!
# The world of the agent

The state an `Agent` owns, the effects of the agent loop on it, and what others can do
between two effects: queue and clear messages, abort, and let running tools report and
settle. All that is observed is recorded in a trace.
-/

namespace Draht

structure AgentModel where
  api : String
  provider : String
  id : String
deriving DecidableEq

structure AgentState where
  systemPrompt : String
  model : AgentModel
  tools : List AgentTool
  messages : List TranscriptMessage
  isStreaming : Bool
  streamingMessage : Option TranscriptMessage
  pendingToolCalls : List String
  errorMessage : Option String
deriving DecidableEq

/-- A tool run that was started. It settles once, with a result or a thrown error;
`updateFailure` is the first error a listener threw at one of its updates before that. -/
structure ToolExecution where
  toolCall : ToolCall
  updateFailure : Option String
  settlement : Option (Except String AgentToolResult)

structure ActiveRun where
  aborted : Bool
deriving DecidableEq

/-- Who drains a queue: a poll of the loop, or `continue()`. -/
inductive DrainedBy where
  | poll | continuation
deriving DecidableEq

inductive TraceItem where
  | event (event : AgentEvent)
  | llmCall (context : AgentContext)
  | enqueued (message : TranscriptMessage)
  | cleared (queue : QueueName) (messages : List TranscriptMessage)
  | drained (drainedBy : DrainedBy) (queue : QueueName) (messages : List TranscriptMessage)
  | skippedPoll
  | readLast (message : Option TranscriptMessage)
  | failed (message : TranscriptMessage)
deriving DecidableEq

structure AgentWorld where
  state : AgentState
  steeringQueue : PendingMessageQueue
  followUpQueue : PendingMessageQueue
  toolExecution : ToolExecutionMode
  activeRun : Option ActiveRun
  /-- The variable that the closures of the loop's config share. -/
  skipInitialSteeringPoll : Bool
  executions : List ToolExecution
  trace : List TraceItem

def ticketsOf (messages : List TranscriptMessage) : List Ticket :=
  messages.filterMap TranscriptMessage.ticket

def serialsOf (name : QueueName) (tickets : List Ticket) : List ℕ :=
  tickets.filterMap (fun t => if t.queue = name then some t.serial else none)

def enqueuedOf : TraceItem → List TranscriptMessage
  | .enqueued m => [m]
  | _ => []

/-- The serial numbers given out for a queue, in order. -/
def issuedSerials (name : QueueName) (trace : List TraceItem) : List ℕ :=
  serialsOf name (ticketsOf (trace.flatMap enqueuedOf))

def addPending (id : String) (ids : List String) : List String :=
  if id ∈ ids then ids else ids ++ [id]

/-- The reducer of `processEvents`. -/
def AgentState.process (s : AgentState) : AgentEvent → AgentState
  | .messageStart m => { s with streamingMessage := some m }
  | .messageUpdate m _ => { s with streamingMessage := some m }
  | .messageEnd m => { s with streamingMessage := none, messages := s.messages ++ [m] }
  | .toolExecutionStart id _ _ => { s with pendingToolCalls := addPending id s.pendingToolCalls }
  | .toolExecutionEnd id _ _ _ =>
    { s with pendingToolCalls := s.pendingToolCalls.filter (fun x => x ≠ id) }
  | .turnEnd m _ =>
    match m.content with
    | .assistant a =>
      match a.errorMessage with
      | some e => if e = "" then s else { s with errorMessage := some e }
      | none => s
    | _ => s
  | .agentEnd _ => { s with streamingMessage := none }
  | _ => s

def outsideRun : String := "Agent listener invoked outside active run"

namespace AgentWorld

def record (w : AgentWorld) (item : TraceItem) : AgentWorld := { w with trace := w.trace ++ [item] }

/-- `processEvents`: the state first, then the listeners, one of which may throw. -/
def processEvents (w : AgentWorld) (event : AgentEvent) (listenerError : Option String) :
    Except String Unit × AgentWorld :=
  let w := { w with state := w.state.process event }
  match w.activeRun with
  | none => (.error outsideRun, w)
  | some _ =>
    match listenerError with
    | none => (.ok (), w.record (.event event))
    | some e => (.error e, w.record (.event event))

def queue (w : AgentWorld) : QueueName → PendingMessageQueue
  | .steering => w.steeringQueue
  | .followUp => w.followUpQueue

def setQueue (w : AgentWorld) (name : QueueName) (q : PendingMessageQueue) : AgentWorld :=
  match name with
  | .steering => { w with steeringQueue := q }
  | .followUp => { w with followUpQueue := q }

/-- `steer` and `followUp`. -/
def enqueue (w : AgentWorld) (name : QueueName) (content : AgentMessage) : AgentWorld :=
  let m : TranscriptMessage := ⟨some ⟨name, (issuedSerials name w.trace).length⟩, content⟩
  (w.setQueue name ((w.queue name).enqueue m)).record (.enqueued m)

/-- `clearSteeringQueue` and `clearFollowUpQueue`. -/
def clear (w : AgentWorld) (name : QueueName) : AgentWorld :=
  (w.setQueue name (w.queue name).clear).record (.cleared name (w.queue name).messages)

def clearAllQueues (w : AgentWorld) : AgentWorld := (w.clear .steering).clear .followUp

def drain (w : AgentWorld) (drainedBy : DrainedBy) (name : QueueName) :
    List TranscriptMessage × AgentWorld :=
  let (drained, q) := (w.queue name).drain
  (drained, (w.setQueue name q).record (.drained drainedBy name drained))

def setMode (w : AgentWorld) (name : QueueName) (mode : QueueMode) : AgentWorld :=
  w.setQueue name { w.queue name with mode := mode }

end AgentWorld

inductive AgentOp where
  | emit (event : AgentEvent)
  | getSteeringMessages
  | getFollowUpMessages
  /-- `transformContext`, `convertToLlm`, `getApiKey` and the stream function -/
  | callLlm (context : AgentContext)
  /-- `prepareArguments` and `validateToolArguments` -/
  | validateArguments (tool : AgentTool) (toolCall : ToolCall)
  | beforeToolCall (assistantMessage : AssistantMessage) (toolCall : ToolCall) (args : Json)
      (context : AgentContext)
  /-- `tool.execute` -/
  | execute (tool : AgentTool) (toolCall : ToolCall) (args : Json)
  /-- the end of the execution of the given number -/
  | settled (execution : ℕ)
  | afterToolCall (assistantMessage : AssistantMessage) (toolCall : ToolCall) (args : Json)
      (result : AgentToolResult) (isError : Bool) (context : AgentContext)
  | now
  | isActive
  | lastMessage
  | drainQueue (name : QueueName)
  | beginRun
  | createContextSnapshot
  | createLoopConfig (skipInitialSteeringPoll : Bool)
  | pushFailure (error : String)
  | finishRun

@[reducible] def AgentOp.Answer : AgentOp → Type
  | emit _ => Unit
  | getSteeringMessages => List TranscriptMessage
  | getFollowUpMessages => List TranscriptMessage
  | callLlm _ => ProviderStream
  | validateArguments _ _ => Json
  | beforeToolCall _ _ _ _ => Option BeforeToolCallResult
  | execute _ _ _ => ℕ
  | settled _ => Option String × Except String AgentToolResult
  | afterToolCall _ _ _ _ _ _ => Option AfterToolCallResult
  | now => ℕ
  | isActive => Bool
  | lastMessage => Option TranscriptMessage
  | drainQueue _ => List TranscriptMessage
  | beginRun => Unit
  | createContextSnapshot => AgentContext
  | createLoopConfig _ => AgentLoopConfig
  | pushFailure _ => TranscriptMessage
  | finishRun => Unit

/-- What an effect is answered with from outside. -/
inductive Outside where
  | nothing
  | throws (error : String)
  | stream (s : ProviderStream)
  | arguments (args : Json)
  | before (result : Option BeforeToolCallResult)
  | after (result : Option AfterToolCallResult)
  | clock (now : ℕ)

inductive AgentAction where
  | steer (message : AgentMessage)
  | followUp (message : AgentMessage)
  | clearSteeringQueue
  | clearFollowUpQueue
  | clearAllQueues
  | setQueueMode (name : QueueName) (mode : QueueMode)
  | abort
  /-- a running tool calls `onUpdate`; a listener may throw -/
  | toolUpdate (execution : ℕ) (partialResult : AgentToolResult) (listenerError : Option String)
  | toolSettle (execution : ℕ) (outcome : Except String AgentToolResult)

/-- `{ usage: EMPTY_USAGE, ... }` -/
def EMPTY_USAGE : Usage :=
  { input := 0, output := 0, cacheRead := 0, cacheWrite := 0, totalTokens := 0 }

namespace AgentWorld

def failureMessage (w : AgentWorld) (error : String) (now : ℕ) : TranscriptMessage :=
  .assistant
    { content := [.text { text := "", textSignature := none }]
      api := w.state.model.api
      provider := w.state.model.provider
      model := w.state.model.id
      usage := EMPTY_USAGE
      stopReason := if w.activeRun.any ActiveRun.aborted then .aborted else .error
      errorMessage := some error
      timestamp := now }

/-- `onUpdate`: the event is emitted; an error thrown at it counts while the tool runs. -/
def toolUpdate (w : AgentWorld) (execution : ℕ) (e : ToolExecution)
    (partialResult : AgentToolResult) (listenerError : Option String) : AgentWorld :=
  let (outcome, w) := w.processEvents (.toolExecutionUpdate e.toolCall.id e.toolCall.name
    e.toolCall.arguments partialResult) listenerError
  match outcome, e.updateFailure, e.settlement with
  | .error error, none, none =>
    { w with executions := w.executions.set execution { e with updateFailure := some error } }
  | _, _, _ => w

def respond : (op : AgentOp) → AgentWorld → Outside → Option (Except String op.Answer × AgentWorld)
  | .emit event, w, .nothing => some (w.processEvents event none)
  | .emit event, w, .throws e => some (w.processEvents event (some e))
  | .getSteeringMessages, w, .nothing =>
    if w.skipInitialSteeringPoll then
      some (.ok [], { w with skipInitialSteeringPoll := false }.record .skippedPoll)
    else
      let (drained, w) := w.drain .poll .steering
      some (.ok drained, w)
  | .getFollowUpMessages, w, .nothing =>
    let (drained, w) := w.drain .poll .followUp
    some (.ok drained, w)
  | .callLlm context, w, .stream s => some (.ok s, w.record (.llmCall context))
  | .callLlm context, w, .throws e => some (.error e, w.record (.llmCall context))
  | .validateArguments _ _, w, .arguments args => some (.ok args, w)
  | .validateArguments _ _, w, .throws e => some (.error e, w)
  | .beforeToolCall _ _ _ _, w, .before r => some (.ok r, w)
  | .beforeToolCall _ _ _ _, w, .throws e => some (.error e, w)
  | .execute _ toolCall _, w, .nothing =>
    some (.ok w.executions.length,
      { w with
        executions := w.executions ++
          [{ toolCall := toolCall, updateFailure := none, settlement := none }] })
  | .settled execution, w, .nothing =>
    match w.executions[execution]? with
    | some { updateFailure := failure, settlement := some outcome, .. } =>
      some (.ok (failure, outcome), w)
    | _ => none
  | .afterToolCall _ _ _ _ _ _, w, .after r => some (.ok r, w)
  | .afterToolCall _ _ _ _ _ _, w, .throws e => some (.error e, w)
  | .now, w, .clock now => some (.ok now, w)
  | .isActive, w, .nothing => some (.ok w.activeRun.isSome, w)
  | .lastMessage, w, .nothing =>
    some (.ok w.state.messages.getLast?, w.record (.readLast w.state.messages.getLast?))
  | .drainQueue name, w, .nothing =>
    let (drained, w) := w.drain .continuation name
    some (.ok drained, w)
  | .beginRun, w, .nothing =>
    some (.ok (),
      { w with
        activeRun := some ⟨false⟩
        state := { w.state with
          isStreaming := true, streamingMessage := none, errorMessage := none } })
  | .createContextSnapshot, w, .nothing =>
    some (.ok { systemPrompt := w.state.systemPrompt, messages := w.state.messages
                tools := w.state.tools }, w)
  | .createLoopConfig skip, w, .nothing =>
    some (.ok { toolExecution := w.toolExecution }, { w with skipInitialSteeringPoll := skip })
  | .pushFailure error, w, .clock now =>
    let failure := w.failureMessage error now
    some (.ok failure,
      { w with
        state := { w.state with
          messages := w.state.messages ++ [failure], errorMessage := some error } }.record
        (.failed failure))
  | .finishRun, w, .nothing =>
    some (.ok (),
      { w with
        activeRun := none
        state := { w.state with
          isStreaming := false, streamingMessage := none, pendingToolCalls := [] } })
  | _, _, _ => none

def act : AgentAction → AgentWorld → Option AgentWorld
  | .steer message, w => some (w.enqueue .steering message)
  | .followUp message, w => some (w.enqueue .followUp message)
  | .clearSteeringQueue, w => some (w.clear .steering)
  | .clearFollowUpQueue, w => some (w.clear .followUp)
  | .clearAllQueues, w => some w.clearAllQueues
  | .setQueueMode name mode, w => some (w.setMode name mode)
  | .abort, w => some { w with activeRun := w.activeRun.map (fun _ => ⟨true⟩) }
  | .toolUpdate execution partialResult listenerError, w =>
    (w.executions[execution]?).map fun e =>
      w.toolUpdate execution e partialResult listenerError
  | .toolSettle execution outcome, w =>
    match w.executions[execution]? with
    | some { toolCall := toolCall, updateFailure := failure, settlement := none } =>
      some { w with
        executions := w.executions.set execution
          { toolCall := toolCall, updateFailure := failure, settlement := some outcome } }
    | _ => none

end AgentWorld

def agentMachine : Machine AgentOp AgentOp.Answer String AgentWorld where
  Choice := Outside
  respond := AgentWorld.respond
  Action := AgentAction
  act := AgentWorld.act

end Draht
