import Draht.AgentWorld

/-!
# The agent loop

`runLoop` and what it calls, and the methods of `Agent` that start a run. The variables of a
loop are the arguments of its recursion. The loop takes fuel, one unit for each test of a loop
condition; a run with little fuel is a part of the run with more.
-/

namespace Draht

abbrev AgentProgram := Program AgentOp AgentOp.Answer String

namespace AgentProgram

def call (op : AgentOp) : AgentProgram op.Answer := .effect op

def emit (event : AgentEvent) : AgentProgram Unit := call (.emit event)

/-- The part of `streamAssistantResponse` after the stream: `addedPartial` tells whether the
last message of the context is a partial one. -/
def finishResponse (context : AgentContext) (addedPartial : Bool)
    (result : Except String AssistantMessage) : AgentProgram (AssistantMessage × AgentContext) := do
  let finalMessage ← Program.ofExcept result
  let message := TranscriptMessage.assistant finalMessage
  if addedPartial then
    emit (.messageEnd message)
    return (finalMessage, { context with messages := context.messages.dropLast ++ [message] })
  else
    emit (.messageStart message)
    emit (.messageEnd message)
    return (finalMessage, { context with messages := context.messages ++ [message] })

/-- The loop over the events. `partialMessage` and `addedPartial` are set together. -/
def readStream (result : Except String AssistantMessage) :
    List StreamEvent → AgentContext → Bool → AgentProgram (AssistantMessage × AgentContext)
  | [], context, addedPartial => finishResponse context addedPartial result
  | .start partialMessage :: events, context, _ => do
      let message := TranscriptMessage.assistant partialMessage
      emit (.messageStart message)
      readStream result events { context with messages := context.messages ++ [message] } true
  | .update type partialMessage :: events, context, addedPartial =>
    if addedPartial then do
      let message := TranscriptMessage.assistant partialMessage
      emit (.messageUpdate message type)
      readStream result events
        { context with messages := context.messages.dropLast ++ [message] } addedPartial
    else readStream result events context addedPartial
  | .done :: _, context, addedPartial => finishResponse context addedPartial result
  | .error :: _, context, addedPartial => finishResponse context addedPartial result

def streamAssistantResponse (context : AgentContext) :
    AgentProgram (AssistantMessage × AgentContext) := do
  let response : ProviderStream ← call (.callLlm context)
  readStream response.result response.events context false

structure PreparedToolCall where
  toolCall : ToolCall
  tool : AgentTool
  args : Json

inductive Preparation where
  | immediate (result : AgentToolResult) (isError : Bool)
  | prepared (prepared : PreparedToolCall)

def toolNotFound (name : String) : String := "Tool " ++ name ++ " not found"

/-- `beforeResult.reason || "Tool execution was blocked"`. -/
def blockedText (reason : Option String) : String :=
  (reason.filter (fun r => r ≠ "")).getD "Tool execution was blocked"

def prepareToolCall (context : AgentContext) (assistantMessage : AssistantMessage)
    (toolCall : ToolCall) : AgentProgram Preparation :=
  match context.tools.find? (fun t => t.name = toolCall.name) with
  | none => return .immediate (createErrorToolResult (toolNotFound toolCall.name)) true
  | some tool =>
    Program.tryCatch
      (do
        let args : Json ← call (.validateArguments tool toolCall)
        let before : Option BeforeToolCallResult ←
          call (.beforeToolCall assistantMessage toolCall args context)
        match before with
        | some { block := true, reason := reason } =>
          return .immediate (createErrorToolResult (blockedText reason)) true
        | _ => return .prepared { toolCall, tool, args })
      (fun error => return .immediate (createErrorToolResult error) true)

/-- The result of `executePreparedToolCall`: `await Promise.all(updateEvents)` throws on both
paths when a listener threw at an update. -/
def executedOutcome (updateFailure : Option String) (executed : Except String AgentToolResult) :
    Except String ExecutedToolCallOutcome :=
  match updateFailure with
  | some error => .error error
  | none =>
    match executed with
    | .ok result => .ok { result, isError := false }
    | .error error => .ok { result := createErrorToolResult error, isError := true }

def awaitExecution (execution : ℕ) : AgentProgram ExecutedToolCallOutcome := do
  let settled : Option String × Except String AgentToolResult ← call (.settled execution)
  Program.ofExcept (executedOutcome settled.1 settled.2)

def emitToolCallOutcome (toolCall : ToolCall) (result : AgentToolResult) (isError : Bool) :
    AgentProgram ToolResultMessage := do
  emit (.toolExecutionEnd toolCall.id toolCall.name result isError)
  let timestamp : ℕ ← call .now
  let message : ToolResultMessage :=
    { toolCallId := toolCall.id, toolName := toolCall.name, content := result.content
      details := result.details, isError, timestamp }
  emit (.messageStart (.toolResult message))
  emit (.messageEnd (.toolResult message))
  return message

def applyAfterResult (executed : ExecutedToolCallOutcome) (after : Option AfterToolCallResult) :
    ExecutedToolCallOutcome :=
  match after with
  | none => executed
  | some after =>
    { result :=
        { content := after.content.getD executed.result.content
          details := after.details.or executed.result.details }
      isError := after.isError.getD executed.isError }

def finalizeExecutedToolCall (context : AgentContext) (assistantMessage : AssistantMessage)
    (prepared : PreparedToolCall) (executed : ExecutedToolCallOutcome) :
    AgentProgram ToolResultMessage := do
  let after : Option AfterToolCallResult ←
    call (.afterToolCall assistantMessage prepared.toolCall prepared.args executed.result
      executed.isError context)
  let outcome := applyAfterResult executed after
  emitToolCallOutcome prepared.toolCall outcome.result outcome.isError

def emitToolStart (toolCall : ToolCall) : AgentProgram Unit :=
  emit (.toolExecutionStart toolCall.id toolCall.name toolCall.arguments)

/-- The rest of the body of the loop of `executeToolCallsSequential`. -/
def executeToolCall (context : AgentContext) (assistantMessage : AssistantMessage)
    (toolCall : ToolCall) : Preparation → AgentProgram ToolResultMessage
  | .immediate result isError => emitToolCallOutcome toolCall result isError
  | .prepared prepared => do
      let execution : ℕ ← call (.execute prepared.tool prepared.toolCall prepared.args)
      let executed ← awaitExecution execution
      finalizeExecutedToolCall context assistantMessage prepared executed

def executeToolCallsSequential (context : AgentContext) (assistantMessage : AssistantMessage) :
    List ToolCall → List ToolResultMessage → AgentProgram (List ToolResultMessage)
  | [], results => return results
  | toolCall :: toolCalls, results => do
      emitToolStart toolCall
      let preparation ← prepareToolCall context assistantMessage toolCall
      let result ← executeToolCall context assistantMessage toolCall preparation
      executeToolCallsSequential context assistantMessage toolCalls (results ++ [result])

/-- The first loop of `executeToolCallsParallel`: calls that need no execution are answered at
once, the others are collected. -/
def prepareToolCalls (context : AgentContext) (assistantMessage : AssistantMessage) :
    List ToolCall → List ToolResultMessage → List PreparedToolCall →
      AgentProgram (List ToolResultMessage × List PreparedToolCall)
  | [], results, runnableCalls => return (results, runnableCalls)
  | toolCall :: toolCalls, results, runnableCalls => do
      emitToolStart toolCall
      let preparation ← prepareToolCall context assistantMessage toolCall
      match preparation with
      | .immediate result isError => do
          let message ← emitToolCallOutcome toolCall result isError
          prepareToolCalls context assistantMessage toolCalls (results ++ [message]) runnableCalls
      | .prepared prepared =>
        prepareToolCalls context assistantMessage toolCalls results (runnableCalls ++ [prepared])

/-- `runnableCalls.map(...)`: all executions are started. -/
def startExecutions : List PreparedToolCall → AgentProgram (List (PreparedToolCall × ℕ))
  | [] => return []
  | prepared :: runnableCalls => do
      let execution : ℕ ← call (.execute prepared.tool prepared.toolCall prepared.args)
      let running ← startExecutions runnableCalls
      return (prepared, execution) :: running

/-- The last loop: the executions are awaited and finalized in order. -/
def finalizeExecutions (context : AgentContext) (assistantMessage : AssistantMessage) :
    List (PreparedToolCall × ℕ) → List ToolResultMessage → AgentProgram (List ToolResultMessage)
  | [], results => return results
  | (prepared, execution) :: running, results => do
      let executed ← awaitExecution execution
      let result ← finalizeExecutedToolCall context assistantMessage prepared executed
      finalizeExecutions context assistantMessage running (results ++ [result])

def executeToolCallsParallel (context : AgentContext) (assistantMessage : AssistantMessage)
    (toolCalls : List ToolCall) : AgentProgram (List ToolResultMessage) := do
  let (results, runnableCalls) ← prepareToolCalls context assistantMessage toolCalls [] []
  let running ← startExecutions runnableCalls
  finalizeExecutions context assistantMessage running results

def executeToolCalls (config : AgentLoopConfig) (context : AgentContext)
    (assistantMessage : AssistantMessage) : AgentProgram (List ToolResultMessage) :=
  match config.toolExecution with
  | .sequential =>
    executeToolCallsSequential context assistantMessage assistantMessage.toolCalls []
  | .parallel => executeToolCallsParallel context assistantMessage assistantMessage.toolCalls

/-- The variables of `runLoop`. -/
structure LoopState where
  context : AgentContext
  newMessages : List TranscriptMessage
  pendingMessages : List TranscriptMessage
  firstTurn : Bool
  hasMoreToolCalls : Bool

def emitMessages : List TranscriptMessage → AgentProgram Unit
  | [] => return ()
  | message :: messages => do
      emit (.messageStart message)
      emit (.messageEnd message)
      emitMessages messages

/-- The pending messages are injected before the next response. -/
def injectMessages (l : LoopState) : AgentProgram LoopState := do
  emitMessages l.pendingMessages
  return { l with
    context := { l.context with messages := l.context.messages ++ l.pendingMessages }
    newMessages := l.newMessages ++ l.pendingMessages
    pendingMessages := []
    firstTurn := false }

/-- The body of the inner loop up to the call of the provider. -/
def startTurn (l : LoopState) : AgentProgram LoopState :=
  if l.firstTurn then injectMessages l
  else do
    emit .turnStart
    injectMessages l

/-- `toolResults` of a turn. -/
def turnToolResults (config : AgentLoopConfig) (context : AgentContext)
    (message : AssistantMessage) : AgentProgram (List ToolResultMessage) :=
  if message.toolCalls ≠ [] then executeToolCalls config context message else return []

/-- The rest of the body of the inner loop; `none` stands for the early `return`. -/
def finishTurn (config : AgentLoopConfig) (l : LoopState) : AgentProgram (Option LoopState) := do
  let (message, context) ← streamAssistantResponse l.context
  let newMessages := l.newMessages ++ [.assistant message]
  if message.failed then
    emit (.turnEnd (.assistant message) [])
    emit (.agentEnd newMessages)
    return none
  else
    let toolResults ← turnToolResults config context message
    emit (.turnEnd (.assistant message) toolResults)
    let pendingMessages : List TranscriptMessage ← call .getSteeringMessages
    let results := toolResults.map TranscriptMessage.toolResult
    return some
      { context := { context with messages := context.messages ++ results }
        newMessages := newMessages ++ results
        pendingMessages
        firstTurn := l.firstTurn
        hasMoreToolCalls := message.toolCalls ≠ [] }

def loop (config : AgentLoopConfig) : ℕ → LoopState → AgentProgram Unit
  | 0, _ => .diverge
  | fuel + 1, l =>
    if l.hasMoreToolCalls || l.pendingMessages ≠ [] then do
      let started ← startTurn l
      let next ← finishTurn config started
      match next with
      | none => return ()
      | some l => loop config fuel l
    else do
      let followUpMessages : List TranscriptMessage ← call .getFollowUpMessages
      if followUpMessages ≠ [] then
        loop config fuel { l with pendingMessages := followUpMessages, hasMoreToolCalls := true }
      else emit (.agentEnd l.newMessages)

def runLoop (fuel : ℕ) (config : AgentLoopConfig) (context : AgentContext)
    (newMessages : List TranscriptMessage) : AgentProgram Unit := do
  let pendingMessages : List TranscriptMessage ← call .getSteeringMessages
  loop config fuel
    { context, newMessages, pendingMessages, firstTurn := true, hasMoreToolCalls := true }

def runAgentLoop (fuel : ℕ) (prompts : List TranscriptMessage) (context : AgentContext)
    (config : AgentLoopConfig) : AgentProgram Unit := do
  emit .agentStart
  emit .turnStart
  emitMessages prompts
  runLoop fuel config { context with messages := context.messages ++ prompts } prompts

def cannotContinueEmpty : String := "Cannot continue: no messages in context"

def cannotContinueAssistant : String := "Cannot continue from message role: assistant"

def runAgentLoopContinue (fuel : ℕ) (context : AgentContext) (config : AgentLoopConfig) :
    AgentProgram Unit :=
  match context.messages.getLast? with
  | none => .throw cannotContinueEmpty
  | some last =>
    if last.isAssistant then .throw cannotContinueAssistant
    else do
      emit .agentStart
      emit .turnStart
      runLoop fuel config context []

def alreadyProcessing : String := "Agent is already processing."

def alreadyProcessingPrompt : String :=
  "Agent is already processing a prompt. Use steer() or followUp() to queue messages, or wait " ++
    "for completion."

def alreadyProcessingContinue : String :=
  "Agent is already processing. Wait for completion before continuing."

def handleRunFailure (error : String) : AgentProgram Unit := do
  let failure : TranscriptMessage ← call (.pushFailure error)
  emit (.agentEnd [failure])

def runWithLifecycle (executor : AgentProgram Unit) : AgentProgram Unit := do
  let active : Bool ← call .isActive
  if active then .throw alreadyProcessing
  else do
    call .beginRun
    Program.andFinally (Program.tryCatch executor handleRunFailure) (call .finishRun)

def runPromptMessages (fuel : ℕ) (messages : List TranscriptMessage)
    (skipInitialSteeringPoll : Bool) : AgentProgram Unit :=
  runWithLifecycle do
    let context : AgentContext ← call .createContextSnapshot
    let config : AgentLoopConfig ← call (.createLoopConfig skipInitialSteeringPoll)
    runAgentLoop fuel messages context config

def runContinuation (fuel : ℕ) : AgentProgram Unit :=
  runWithLifecycle do
    let context : AgentContext ← call .createContextSnapshot
    let config : AgentLoopConfig ← call (.createLoopConfig false)
    runAgentLoopContinue fuel context config

/-- `prompt` with messages; the messages of a caller have no ticket. -/
def prompt (fuel : ℕ) (messages : List AgentMessage) : AgentProgram Unit := do
  let active : Bool ← call .isActive
  if active then .throw alreadyProcessingPrompt
  else runPromptMessages fuel (messages.map (fun m => ⟨none, m⟩)) false

/-- `continue`. -/
def continueRun (fuel : ℕ) : AgentProgram Unit := do
  let active : Bool ← call .isActive
  if active then .throw alreadyProcessingContinue
  else do
    let last : Option TranscriptMessage ← call .lastMessage
    match last with
    | none => .throw "No messages to continue from"
    | some last =>
      if last.isAssistant then do
        let queuedSteering : List TranscriptMessage ← call (.drainQueue .steering)
        if queuedSteering ≠ [] then runPromptMessages fuel queuedSteering true
        else do
          let queuedFollowUps : List TranscriptMessage ← call (.drainQueue .followUp)
          if queuedFollowUps ≠ [] then runPromptMessages fuel queuedFollowUps false
          else .throw cannotContinueAssistant
      else runContinuation fuel

end AgentProgram

inductive AgentCall where
  | prompt (fuel : ℕ) (messages : List AgentMessage)
  | continue (fuel : ℕ)

def AgentCall.program : AgentCall → AgentProgram Unit
  | .prompt fuel messages => AgentProgram.prompt fuel messages
  | .continue fuel => AgentProgram.continueRun fuel

end Draht
