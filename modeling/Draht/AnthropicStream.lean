import Draht.ProviderStream

/-!
# Streams of Anthropic messages

The events of a message are about blocks with indices of their own. A block of the message has its
index until it is stopped, and an event is about the first block that has the event's index.
-/

namespace Draht.Providers

inductive ContentBlockStart where
  | text
  | thinking
  | redactedThinking (data : String)
  | toolUse (id name : String) (input : Option Json)
  | other
deriving DecidableEq

inductive ContentBlockDelta where
  | text (text : JsText)
  | thinking (thinking : JsText)
  | inputJson (partialJson : JsText)
  | signature (signature : String)
  | other
deriving DecidableEq

structure RawTokens where
  inputTokens : Option ℤ
  outputTokens : Option ℤ
  cacheReadInputTokens : Option ℤ
  cacheCreationInputTokens : Option ℤ
deriving DecidableEq

inductive AnthropicEvent where
  | messageStart (id : String) (usage : RawTokens)
  | contentBlockStart (index : ℕ) (contentBlock : ContentBlockStart)
  | contentBlockDelta (index : ℕ) (delta : ContentBlockDelta)
  | contentBlockStop (index : ℕ)
  | messageDelta (stopReason : Option String) (usage : RawTokens)
  | other
deriving DecidableEq

structure ToolNames where
  isOAuth : Bool
  tools : List String
  toLowerCase : String → String

namespace ToolNames

variable (N : ToolNames)

def fromClaudeCodeName (name : String) : String :=
  (N.tools.find? fun tool => N.toLowerCase tool = N.toLowerCase name).getD name

def nameOf (name : String) : String := if N.isOAuth then N.fromClaudeCodeName name else name

end ToolNames

/-- A block with what it has besides; `partialArgs` of a tool call is `partialJson`. -/
structure IndexedBlock where
  block : Block
  redacted : Bool
  index : Option ℕ
deriving DecidableEq

structure AnthropicMessage where
  content : List IndexedBlock
  responseId : Option String
  usage : TokenUsage
  stopReason : StopReason
  errorMessage : Option JsText
deriving DecidableEq

structure AnthropicStreaming where
  output : AnthropicMessage
  pushed : List Event
deriving DecidableEq

structure AnthropicOutcome where
  output : AnthropicMessage
  produced : List (Produced Event Unit)
deriving DecidableEq

/-- `input ?? {}`. -/
def orEmpty : Option Json → Json
  | none => .object .nil
  | some .null => .object .nil
  | some value => value

def TokenUsage.withTotal (usage : TokenUsage) : TokenUsage :=
  { usage with totalTokens := usage.input + usage.output + usage.cacheRead + usage.cacheWrite }

/-- The tokens that an event has; the others stay what they are. -/
def TokenUsage.update (usage : TokenUsage) (tokens : RawTokens) : TokenUsage :=
  { usage with
    input := tokens.inputTokens.getD usage.input
    output := tokens.outputTokens.getD usage.output
    cacheRead := tokens.cacheReadInputTokens.getD usage.cacheRead
    cacheWrite := tokens.cacheCreationInputTokens.getD usage.cacheWrite }

namespace Anthropic

def mapStopReason (reason : String) : Except JsText StopReason :=
  if reason = "end_turn" then .ok .stop
  else if reason = "max_tokens" then .ok .length
  else if reason = "tool_use" then .ok .toolUse
  else if reason = "refusal" then .ok .error
  else if reason = "pause_turn" then .ok .stop
  else if reason = "stop_sequence" then .ok .stop
  else if reason = "sensitive" then .ok .error
  else .error (utf16 ("Unhandled stop reason: " ++ reason))

end Anthropic

namespace AnthropicStreaming

def initial : AnthropicStreaming := ⟨⟨[], none, ⟨0, 0, 0, 0, 0⟩, .stop, none⟩, []⟩

variable (P : JsonParser) (N : ToolNames) (s : AnthropicStreaming)

def push (event : Event) : AnthropicStreaming := { s with pushed := s.pushed ++ [event] }

def setContent (content : List IndexedBlock) : AnthropicStreaming :=
  { s with output := { s.output with content } }

def openBlock (block : IndexedBlock) (started : ℤ → Event) : AnthropicStreaming :=
  let s := s.setContent (s.output.content ++ [block])
  s.push (started (s.output.content.length - 1))

/-- `blocks.findIndex((b) => b.index === event.index)`. -/
def findBlock (index : ℕ) : Option ℕ := s.output.content.findIdx? (·.index = some index)

def updateBlock (i : ℕ) (f : IndexedBlock → IndexedBlock) : AnthropicStreaming :=
  s.setContent (s.output.content.modify i f)

def setBlock (i : ℕ) (block : Block) : AnthropicStreaming :=
  s.updateBlock i fun b => { b with block }

def contentBlockStart (index : ℕ) : ContentBlockStart → AnthropicStreaming
  | .text => s.openBlock ⟨.text [] none, false, some index⟩ .textStart
  | .thinking => s.openBlock ⟨.thinking [] (some ""), false, some index⟩ .thinkingStart
  | .redactedThinking data =>
    s.openBlock ⟨.thinking (utf16 "[Reasoning redacted]") (some data), true, some index⟩
      .thinkingStart
  | .toolUse id name input =>
    s.openBlock ⟨.toolCall ⟨id, N.nameOf name, orEmpty input, none, some []⟩, false, some index⟩
      .toolcallStart
  | .other => s

/-- A block gets a piece of its own type. A signature is told by no event. -/
def extendBlock (i : ℕ) (delta : ContentBlockDelta) (block : Block) : AnthropicStreaming :=
  match delta, block with
  | .text delta, .text text signature =>
    (s.setBlock i (.text (text ++ delta) signature)).push (.textDelta i delta)
  | .thinking delta, .thinking thinking signature =>
    (s.setBlock i (.thinking (thinking ++ delta) signature)).push (.thinkingDelta i delta)
  | .inputJson delta, .toolCall call =>
    let partialJson := call.partialArgs.getD [] ++ delta
    (s.setBlock i (.toolCall { call with
      arguments := P.parseStreamingJson partialJson, partialArgs := some partialJson })).push
      (.toolcallDelta i delta)
  | .signature delta, .thinking thinking signature =>
    s.setBlock i (.thinking thinking (some (signature.getD "" ++ delta)))
  | _, _ => s

def contentBlockDelta (index : ℕ) (delta : ContentBlockDelta) : AnthropicStreaming :=
  match s.findBlock index with
  | none => s
  | some i =>
    match s.output.content[i]? with
    | none => s
    | some found => extendBlock P s i delta found.block

def stopBlock (i : ℕ) (block : Block) : AnthropicStreaming :=
  let s := s.updateBlock i fun b => { b with index := none }
  match block with
  | .text text _ => s.push (.textEnd i text)
  | .thinking thinking _ => s.push (.thinkingEnd i thinking)
  | .toolCall call =>
    let call := { call with
      arguments := P.parseStreamingJson (call.partialArgs.getD []), partialArgs := none }
    (s.setBlock i (.toolCall call)).push
      (.toolcallEnd i ⟨i, call.id, call.name, call.arguments⟩)

def contentBlockStop (index : ℕ) : AnthropicStreaming :=
  match s.findBlock index with
  | none => s
  | some i =>
    match s.output.content[i]? with
    | none => s
    | some found => stopBlock P s i found.block

def setUsage (usage : TokenUsage) : AnthropicStreaming :=
  { s with output := { s.output with usage := usage.withTotal } }

def messageStart (id : String) (usage : RawTokens) : AnthropicStreaming :=
  { s with output := { s.output with responseId := some id } }.setUsage
    (TokenUsage.update ⟨0, 0, 0, 0, 0⟩ usage)

/-- The stop reason comes first, and may be one that is not known. -/
def messageDelta (stopReason : Option String) (usage : RawTokens) :
    AnthropicStreaming × Option JsText :=
  match stopReason.filter (· ≠ "") with
  | none => (s.setUsage (s.output.usage.update usage), none)
  | some reason =>
    match Anthropic.mapStopReason reason with
    | .error message => (s, some message)
    | .ok stopReason =>
      ({ s with output := { s.output with stopReason } }.setUsage
        (s.output.usage.update usage), none)

def handleEvent (s : AnthropicStreaming) : AnthropicEvent → AnthropicStreaming × Option JsText
  | .messageStart id usage => (s.messageStart id usage, none)
  | .contentBlockStart index contentBlock => (contentBlockStart N s index contentBlock, none)
  | .contentBlockDelta index delta => (contentBlockDelta P s index delta, none)
  | .contentBlockStop index => (contentBlockStop P s index, none)
  | .messageDelta stopReason usage => s.messageDelta stopReason usage
  | .other => (s, none)

def finish (event : Event) : AnthropicOutcome :=
  ⟨s.output, (s.push event).pushed.map .push ++ [.ended none]⟩

def fail (aborted : Bool) (message : JsText) : AnthropicOutcome :=
  let reason : StopReason := if aborted then .aborted else .error
  let content := s.output.content.map fun b => { b with index := none }
  { s with output := { s.output with
    content, stopReason := reason, errorMessage := some message } }.finish (.error reason)

def succeed : AnthropicOutcome := s.finish (.done s.output.stopReason)

end AnthropicStreaming

structure AnthropicSource where
  events : List AnthropicEvent
  thrown : Option JsText
deriving DecidableEq

/-- `opened` is what the request gives, and `aborted` the signal at the end. -/
def streamAnthropic (P : JsonParser) (N : ToolNames) (opened : Except JsText AnthropicSource)
    (aborted : Bool) : AnthropicOutcome :=
  match opened with
  | .error message => AnthropicStreaming.initial.fail aborted message
  | .ok anthropicStream =>
    let start := AnthropicStreaming.initial.push .start
    match foldUntil (AnthropicStreaming.handleEvent P N) start anthropicStream.events with
    | (s, some message) => s.fail aborted message
    | (s, none) =>
      match anthropicStream.thrown with
      | some message => s.fail aborted message
      | none =>
        if aborted then s.fail aborted requestAborted
        else if s.output.stopReason = .aborted ∨ s.output.stopReason = .error then
          s.fail aborted unknownError
        else s.succeed

end Draht.Providers
