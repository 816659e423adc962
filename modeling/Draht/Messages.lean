import Draht.Json
import Mathlib.Data.Int.Notation

/-!
# Messages

The message types of the model providers (user, assistant, tool result) and those the
coding agent adds to a transcript (bash runs, extension messages, summaries).
-/

namespace Draht

structure TextContent where
  text : String
  textSignature : Option String
deriving DecidableEq

structure ThinkingContent where
  thinking : String
  thinkingSignature : Option String
  redacted : Bool
deriving DecidableEq

structure ImageContent where
  data : String
  mimeType : String
deriving DecidableEq

structure ToolCall where
  id : String
  name : String
  arguments : JsonFields
  thoughtSignature : Option String
deriving DecidableEq

inductive AssistantContent where
  | text (block : TextContent)
  | thinking (block : ThinkingContent)
  | toolCall (block : ToolCall)
deriving DecidableEq

inductive ContentBlock where
  | text (block : TextContent)
  | image (block : ImageContent)
deriving DecidableEq

/-- `string | (TextContent | ImageContent)[]`. -/
inductive UserContent where
  | string (s : String)
  | blocks (bs : List ContentBlock)
deriving DecidableEq

inductive StopReason where
  | stop | length | toolUse | error | aborted
deriving DecidableEq

structure Usage where
  input : ℕ
  output : ℕ
  cacheRead : ℕ
  cacheWrite : ℕ
  totalTokens : ℕ
deriving DecidableEq

structure UserMessage where
  content : UserContent
  timestamp : ℕ
deriving DecidableEq

structure AssistantMessage where
  content : List AssistantContent
  api : String
  provider : String
  model : String
  usage : Usage
  stopReason : StopReason
  errorMessage : Option String
  timestamp : ℕ
deriving DecidableEq

structure ToolResultMessage where
  toolCallId : String
  toolName : String
  content : List ContentBlock
  details : Option Json
  isError : Bool
  timestamp : ℕ
deriving DecidableEq

inductive Message where
  | user (message : UserMessage)
  | assistant (message : AssistantMessage)
  | toolResult (message : ToolResultMessage)
deriving DecidableEq

def AssistantContent.toolCall? : AssistantContent → Option ToolCall
  | .toolCall tc => some tc
  | _ => none

/-- `message.content.filter((c) => c.type === "toolCall")`. -/
def AssistantMessage.toolCalls (m : AssistantMessage) : List ToolCall :=
  m.content.filterMap AssistantContent.toolCall?

/-- `stopReason === "error" || stopReason === "aborted"`. -/
def AssistantMessage.failed (m : AssistantMessage) : Bool :=
  m.stopReason == .error || m.stopReason == .aborted

structure BashExecutionMessage where
  command : String
  output : String
  exitCode : Option ℤ
  cancelled : Bool
  truncated : Bool
  fullOutputPath : Option String
  timestamp : ℕ
  excludeFromContext : Bool
deriving DecidableEq

structure CustomMessage where
  customType : String
  content : UserContent
  display : Bool
  details : Option Json
  timestamp : ℕ
deriving DecidableEq

structure BranchSummaryMessage where
  summary : String
  fromId : String
  timestamp : ℕ
deriving DecidableEq

structure CompactionSummaryMessage where
  summary : String
  tokensBefore : ℤ
  timestamp : ℕ
deriving DecidableEq

/-- A transcript message by its role. `hookMessage` is the role that version 2
session files use for what is now a `custom` message. -/
inductive AgentMessage where
  | user (message : UserMessage)
  | assistant (message : AssistantMessage)
  | toolResult (message : ToolResultMessage)
  | bashExecution (message : BashExecutionMessage)
  | custom (message : CustomMessage)
  | branchSummary (message : BranchSummaryMessage)
  | compactionSummary (message : CompactionSummaryMessage)
  | hookMessage (message : CustomMessage)
deriving DecidableEq

def AgentMessage.isAssistant : AgentMessage → Bool
  | .assistant _ => true
  | _ => false

/-- An entry's timestamp is kept as the millisecond its ISO text names, so
`new Date(timestamp).getTime()` is the timestamp itself. -/
def createBranchSummaryMessage (summary fromId : String) (timestamp : ℕ) :
    BranchSummaryMessage :=
  { summary, fromId, timestamp }

def createCompactionSummaryMessage (summary : String) (tokensBefore : ℤ) (timestamp : ℕ) :
    CompactionSummaryMessage :=
  { summary, tokensBefore, timestamp }

def createCustomMessage (customType : String) (content : UserContent) (display : Bool)
    (details : Option Json) (timestamp : ℕ) : CustomMessage :=
  { customType, content, display, details, timestamp }

end Draht
