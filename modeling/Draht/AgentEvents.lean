import Draht.Messages

/-!
# Agent messages, events and queues

What the agent loop reads and emits: transcript messages, provider streams, tool results,
events, and the queues of messages that wait to be injected.
-/

namespace Draht

inductive QueueName where
  | steering | followUp
deriving DecidableEq

/-- The identity of a queued message: the `serial`-th message put into its queue. -/
structure Ticket where
  queue : QueueName
  serial : ℕ
deriving DecidableEq

/-- A message object of the transcript. The ticket is not in the code: it tells apart two
messages of the same content that were queued by two calls. -/
structure TranscriptMessage where
  ticket : Option Ticket
  content : AgentMessage
deriving DecidableEq

def TranscriptMessage.assistant (m : AssistantMessage) : TranscriptMessage := ⟨none, .assistant m⟩

def TranscriptMessage.toolResult (m : ToolResultMessage) : TranscriptMessage :=
  ⟨none, .toolResult m⟩

def TranscriptMessage.isAssistant (m : TranscriptMessage) : Bool := m.content.isAssistant

inductive ToolExecutionMode where
  | sequential | parallel
deriving DecidableEq

/-- A tool; its functions are outside. -/
structure AgentTool where
  name : String
deriving DecidableEq

structure AgentToolResult where
  content : List ContentBlock
  details : Option Json
deriving DecidableEq

structure BeforeToolCallResult where
  block : Bool
  reason : Option String
deriving DecidableEq

structure AfterToolCallResult where
  content : Option (List ContentBlock)
  details : Option Json
  isError : Option Bool
deriving DecidableEq

structure ExecutedToolCallOutcome where
  result : AgentToolResult
  isError : Bool
deriving DecidableEq

def createErrorToolResult (message : String) : AgentToolResult :=
  { content := [.text { text := message, textSignature := none }], details := some (.object .nil) }

structure AgentContext where
  systemPrompt : String
  messages : List TranscriptMessage
  tools : List AgentTool
deriving DecidableEq

structure AgentLoopConfig where
  toolExecution : ToolExecutionMode
deriving DecidableEq

inductive UpdateType where
  | textStart | textDelta | textEnd
  | thinkingStart | thinkingDelta | thinkingEnd
  | toolcallStart | toolcallDelta | toolcallEnd
deriving DecidableEq

inductive StreamEvent where
  | start (partialMessage : AssistantMessage)
  | update (type : UpdateType) (partialMessage : AssistantMessage)
  | done
  | error
deriving DecidableEq

/-- The events a provider streams, and what `response.result()` gives. -/
structure ProviderStream where
  events : List StreamEvent
  result : Except String AssistantMessage

def updatesThenFinal : List StreamEvent → Bool
  | [.done] => true
  | [.error] => true
  | .update _ _ :: rest => updatesThenFinal rest
  | _ => false

/-- Streams emit `start` before partial updates, then terminate with `done` or `error`; a
request that fails at once has the final event only. -/
def ProviderStream.obeysProtocol (s : ProviderStream) : Bool :=
  match s.events with
  | [.done] => true
  | [.error] => true
  | .start _ :: rest => updatesThenFinal rest
  | _ => false

inductive AgentEvent where
  | agentStart
  | agentEnd (messages : List TranscriptMessage)
  | turnStart
  | turnEnd (message : TranscriptMessage) (toolResults : List ToolResultMessage)
  | messageStart (message : TranscriptMessage)
  | messageUpdate (message : TranscriptMessage) (type : UpdateType)
  | messageEnd (message : TranscriptMessage)
  | toolExecutionStart (toolCallId toolName : String) (args : JsonFields)
  | toolExecutionUpdate (toolCallId toolName : String) (args : JsonFields)
      (partialResult : AgentToolResult)
  | toolExecutionEnd (toolCallId toolName : String) (result : AgentToolResult) (isError : Bool)
deriving DecidableEq

inductive QueueMode where
  | all | oneAtATime
deriving DecidableEq

structure PendingMessageQueue where
  messages : List TranscriptMessage
  mode : QueueMode
deriving DecidableEq

namespace PendingMessageQueue

def enqueue (q : PendingMessageQueue) (m : TranscriptMessage) : PendingMessageQueue :=
  { q with messages := q.messages ++ [m] }

/-- `drain`: the drained messages and the queue that is left. -/
def drain (q : PendingMessageQueue) : List TranscriptMessage × PendingMessageQueue :=
  match q.mode with
  | .all => (q.messages, { q with messages := [] })
  | .oneAtATime =>
    match q.messages with
    | [] => ([], q)
    | first :: rest => ([first], { q with messages := rest })

def clear (q : PendingMessageQueue) : PendingMessageQueue := { q with messages := [] }

theorem drain_append (q : PendingMessageQueue) : q.drain.1 ++ q.drain.2.messages = q.messages := by
  unfold drain
  cases q.mode with
  | all => simp
  | oneAtATime => cases h : q.messages <;> simp [h]

theorem drain_length_le (q : PendingMessageQueue) (h : q.mode = .oneAtATime) :
    q.drain.1.length ≤ 1 := by
  unfold drain
  rw [h]
  cases q.messages <;> simp

end PendingMessageQueue

end Draht
