import Draht.Messages
import Draht.OrderedMap
import Draht.Text

/-!
# Messages for another model

A message list is prepared for a provider in two passes. The first rewrites the assistant
messages of other models, with the identifiers of their calls; the second leaves out the failed
ones and gives a result to every call that has none.
-/

namespace Draht

/-- The fields of the target model that are compared with a message. -/
structure Model where
  id : String
  api : String
  provider : String
deriving DecidableEq

/-- `normalizeToolCallId(id, model, source)`. -/
abbrev NormalizeToolCallId := String → Model → AssistantMessage → String

namespace TransformMessages

def isSameModel (model : Model) (m : AssistantMessage) : Bool :=
  m.provider == model.provider && m.api == model.api && m.model == model.id

def isTruthy (s : Option String) : Bool := s.any (fun x => x ≠ "")

def transformThinking (isSameModel : Bool) (block : ThinkingContent) : List AssistantContent :=
  if block.redacted then
    if isSameModel then [.thinking block] else []
  else if isSameModel && isTruthy block.thinkingSignature then [.thinking block]
  else if block.thinking = "" || jsTrim block.thinking = "" then []
  else if isSameModel then [.thinking block]
  else [.text { text := block.thinking, textSignature := none }]

def transformText (isSameModel : Bool) (block : TextContent) : AssistantContent :=
  if isSameModel then .text block
  else .text { text := block.text, textSignature := none }

def dropThoughtSignature (isSameModel : Bool) (toolCall : ToolCall) : ToolCall :=
  if !isSameModel && isTruthy toolCall.thoughtSignature then
    { toolCall with thoughtSignature := none }
  else toolCall

/-- A call with the identifier map it leaves. `normalize` is `none` for a message of the target
model and where no normaliser is given. -/
def transformToolCall (isSameModel : Bool) (normalize : Option (String → String))
    (toolCallIdMap : OrderedMap String String) (toolCall : ToolCall) :
    ToolCall × OrderedMap String String :=
  let normalizedToolCall := dropThoughtSignature isSameModel toolCall
  match normalize with
  | none => (normalizedToolCall, toolCallIdMap)
  | some normalize =>
    let normalizedId := normalize toolCall.id
    if normalizedId ≠ toolCall.id then
      ({ normalizedToolCall with id := normalizedId }, toolCallIdMap.set toolCall.id normalizedId)
    else (normalizedToolCall, toolCallIdMap)

/-- The `flatMap` over the blocks of an assistant message. -/
def transformContent (isSameModel : Bool) (normalize : Option (String → String))
    (toolCallIdMap : OrderedMap String String) :
    List AssistantContent → List AssistantContent × OrderedMap String String
  | [] => ([], toolCallIdMap)
  | .thinking block :: rest =>
    let (content, idMap) := transformContent isSameModel normalize toolCallIdMap rest
    (transformThinking isSameModel block ++ content, idMap)
  | .text block :: rest =>
    let (content, idMap) := transformContent isSameModel normalize toolCallIdMap rest
    (transformText isSameModel block :: content, idMap)
  | .toolCall toolCall :: rest =>
    let (normalizedToolCall, idMap) :=
      transformToolCall isSameModel normalize toolCallIdMap toolCall
    let (content, idMap) := transformContent isSameModel normalize idMap rest
    (.toolCall normalizedToolCall :: content, idMap)

def normalizeFor (model : Model) (normalizeToolCallId : Option NormalizeToolCallId)
    (m : AssistantMessage) : Option (String → String) :=
  if isSameModel model m then none
  else normalizeToolCallId.map fun normalize id => normalize id model m

def transformToolResult (toolCallIdMap : OrderedMap String String) (m : ToolResultMessage) :
    ToolResultMessage :=
  match toolCallIdMap.get m.toolCallId with
  | some normalizedId =>
    if normalizedId ≠ "" && normalizedId ≠ m.toolCallId then
      { m with toolCallId := normalizedId }
    else m
  | none => m

def transformAssistant (model : Model) (normalizeToolCallId : Option NormalizeToolCallId)
    (toolCallIdMap : OrderedMap String String) (m : AssistantMessage) :
    AssistantMessage × OrderedMap String String :=
  let (content, idMap) := transformContent (isSameModel model m)
    (normalizeFor model normalizeToolCallId m) toolCallIdMap m.content
  ({ m with content }, idMap)

def firstPass (model : Model) (normalizeToolCallId : Option NormalizeToolCallId) :
    OrderedMap String String → List Message → List Message
  | _, [] => []
  | idMap, .user m :: rest => .user m :: firstPass model normalizeToolCallId idMap rest
  | idMap, .toolResult m :: rest =>
    .toolResult (transformToolResult idMap m) :: firstPass model normalizeToolCallId idMap rest
  | idMap, .assistant m :: rest =>
    let (transformed, idMap) := transformAssistant model normalizeToolCallId idMap m
    .assistant transformed :: firstPass model normalizeToolCallId idMap rest

def syntheticResult (tc : ToolCall) (timestamp : ℕ) : ToolResultMessage :=
  { toolCallId := tc.id
    toolName := tc.name
    content := [.text { text := "No result provided", textSignature := none }]
    details := none
    isError := true
    timestamp }

/-- The results that are made up for the pending calls without one. `now` is the clock. -/
def syntheticResults (now : ToolCall → ℕ) (pendingToolCalls : List ToolCall)
    (existingToolResultIds : List String) : List Message :=
  (pendingToolCalls.filter (fun tc => tc.id ∉ existingToolResultIds)).map
    fun tc => .toolResult (syntheticResult tc (now tc))

/-- The set of results is emptied only with pending calls. -/
def existingAfterFlush (pendingToolCalls : List ToolCall) (existingToolResultIds : List String) :
    List String :=
  if 0 < pendingToolCalls.length then [] else existingToolResultIds

/-- The messages pushed from here on. The clock is read with the number of messages to come. -/
def secondPass (now : ℕ → ToolCall → ℕ) (pendingToolCalls : List ToolCall)
    (existingToolResultIds : List String) : List Message → List Message
  | [] => []
  | .assistant m :: rest =>
    syntheticResults (now rest.length) pendingToolCalls existingToolResultIds ++
      let existing := existingAfterFlush pendingToolCalls existingToolResultIds
      if m.failed then secondPass now [] existing rest
      else if 0 < m.toolCalls.length then .assistant m :: secondPass now m.toolCalls [] rest
      else .assistant m :: secondPass now [] existing rest
  | .toolResult m :: rest =>
    .toolResult m ::
      secondPass now pendingToolCalls (m.toolCallId :: existingToolResultIds) rest
  | .user m :: rest =>
    syntheticResults (now rest.length) pendingToolCalls existingToolResultIds ++
      .user m ::
        secondPass now [] (existingAfterFlush pendingToolCalls existingToolResultIds) rest

end TransformMessages

open TransformMessages in
def transformMessages (now : ℕ → ToolCall → ℕ) (messages : List Message) (model : Model)
    (normalizeToolCallId : Option NormalizeToolCallId) : List Message :=
  secondPass now [] [] (firstPass model normalizeToolCallId OrderedMap.empty messages)

end Draht
