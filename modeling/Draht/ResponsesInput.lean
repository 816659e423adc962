import Draht.RequestContext
import Draht.ToolCallIds
import Draht.TransformDialogue

/-!
# The input of a Responses request

Each block of an assistant message becomes an item of its own. An item has the id that its block
brings along, from a signature or from the call's id; a text that brings none is given the number of
its message.
-/

namespace Draht.ResponsesInput

open TransformMessages Providers
open ToolCallIds (sanitize shortHash)

def normalizeIdPart (part : String) : String :=
  String.ofList (((sanitize (utf16 part)).take 64).rdropWhile (· = '_'))

def buildForeignResponsesItemId (itemId : String) : String :=
  String.ofList (("fc_".toList ++ shortHash itemId).take 64)

/-- `id.split("|")`. -/
def idParts (id : String) : List String := (id.toList.splitOn '|').map String.ofList

/-- The part before the first `|`. -/
def callId (id : String) : String := (idParts id).headD ""

/-- The part after the first `|`. -/
def itemIdRaw (id : String) : Option String := (idParts id)[1]?

/-- `id.startsWith("fc_")`. -/
def startsWithFc (id : String) : Bool := "fc_".toList.isPrefixOf id.toList

def normalizeToolCallId (allowedToolCallProviders : List String) (model : Model) :
    NormalizeToolCallId := fun id _ source =>
  if model.provider ∉ allowedToolCallProviders then normalizeIdPart id
  else
    match itemIdRaw id with
    | none => normalizeIdPart id
    | some itemId =>
      let isForeignToolCall := source.provider ≠ model.provider || source.api ≠ model.api
      let normalizedItemId :=
        if isForeignToolCall then buildForeignResponsesItemId itemId else normalizeIdPart itemId
      normalizeIdPart (callId id) ++ "|" ++
        if startsWithFc normalizedItemId then normalizedItemId
        else normalizeIdPart ("fc_" ++ normalizedItemId)

/-- A `TextSignatureV1`, as far as it is read. -/
structure TextSignature where
  id : String
  phase : Option String
deriving DecidableEq

def signatureV1 : Json → Option TextSignature
  | .object fields =>
    match fields.get "v", fields.get "id" with
    | some (.number "1"), some (.string id) =>
      some { id, phase :=
        match fields.get "phase" with
        | some (.string "commentary") => some "commentary"
        | some (.string "final_answer") => some "final_answer"
        | _ => none }
    | _, _ => none
  | _ => none

/-- `parse` is `JSON.parse`, with nothing where it throws. -/
def parseTextSignature (parse : String → Option Json) (signature : Option String) :
    Option TextSignature :=
  match signature with
  | none => none
  | some signature =>
    if signature = "" then none
    else if signature.toList.head? = some '\x7b' then
      some (((parse signature).bind signatureV1).getD { id := signature, phase := none })
    else some { id := signature, phase := none }

/-- The id that a text brings along. A long one is hashed. -/
def textId? (parse : String → Option Json) (block : TextContent) : Option String :=
  match parseTextSignature parse block.textSignature with
  | none => none
  | some signature =>
    if signature.id = "" then none
    else if 64 < jsLength signature.id then
      some ("msg_" ++ String.ofList (shortHash signature.id))
    else some signature.id

def numberedId (msgIndex : ℕ) : String := "msg_" ++ Nat.repr msgIndex

inductive InputPart where
  | text (text : JsText)
  | image (url : JsText)
deriving DecidableEq

inductive CallOutput where
  | text (text : JsText)
  | parts (parts : List InputPart)
deriving DecidableEq

inductive InputItem where
  | system (role : String) (content : JsText)
  | user (content : List InputPart)
  | reasoning (item : Json)
  | message (text : JsText) (id : String) (phase : Option String)
  | functionCall (id : Option String) (callId : String) (name : String) (arguments : JsText)
  | functionCallOutput (callId : String) (output : CallOutput)
deriving DecidableEq

def inputPart : ContentBlock → InputPart
  | .text block => .text (sentText block)
  | .image block => .image (dataUrl block)

def InputPart.isImage : InputPart → Bool
  | .image _ => true
  | .text _ => false

def userContent (model : TargetModel) (m : UserMessage) : List InputPart :=
  match m.content with
  | .string s => [.text (sanitizeSurrogates false (utf16 s))]
  | .blocks bs =>
    if "image" ∉ model.input then (bs.map inputPart).filter (fun c => !c.isImage)
    else bs.map inputPart

def isDifferentModel (model : Model) (m : AssistantMessage) : Bool :=
  m.model ≠ model.id && m.provider = model.provider && m.api = model.api

/-- The item's id is left out for a message of another model of the provider. -/
def itemId (isDifferentModel : Bool) (id : String) : Option String :=
  if isDifferentModel && (itemIdRaw id).any startsWithFc then none else itemIdRaw id

/-- The items of a block; nothing where the signature of some reasoning is not read. -/
def convertBlock (parse : String → Option Json) (isDifferentModel : Bool) (msgIndex : ℕ) :
    AssistantContent → Option (List InputItem)
  | .thinking block =>
    if jsTrim block.thinking = "" then some []
    else
      match block.thinkingSignature with
      | none => some []
      | some signature =>
        if signature = "" then some [] else (parse signature).map fun item => [.reasoning item]
  | .text block =>
    some [.message (sentText block) ((textId? parse block).getD (numberedId msgIndex))
      ((parseTextSignature parse block.textSignature).bind TextSignature.phase)]
  | .toolCall toolCall =>
    some [.functionCall (itemId isDifferentModel toolCall.id) (callId toolCall.id) toolCall.name
      (utf16Chars (Json.object toolCall.arguments).stringify)]

def convertBlocks (parse : String → Option Json) (isDifferentModel : Bool) (msgIndex : ℕ) :
    List AssistantContent → Option (List InputItem)
  | [] => some []
  | block :: content => do
      let items ← convertBlock parse isDifferentModel msgIndex block
      let after ← convertBlocks parse isDifferentModel msgIndex content
      return items ++ after

def resultImage? : ContentBlock → Option InputPart
  | .image block => some (.image (dataUrl block))
  | .text _ => none

def callOutput (model : TargetModel) (m : ToolResultMessage) : CallOutput :=
  let textResult := [10].intercalate (m.content.filterMap resultText?)
  let images := m.content.filterMap resultImage?
  if 0 < images.length && "image" ∈ model.input then
    .parts ((if 0 < textResult.length then [.text (sanitizeSurrogates false textResult)] else []) ++
      images)
  else
    .text (sanitizeSurrogates false
      (if 0 < textResult.length then textResult else utf16 "(see attached image)"))

def convertMessage (parse : String → Option Json) (model : TargetModel) (msgIndex : ℕ) :
    Message → Option (List InputItem)
  | .user m =>
    let filteredContent := userContent model m
    some (if filteredContent.length = 0 then [] else [.user filteredContent])
  | .assistant m => convertBlocks parse (isDifferentModel model.toModel m) msgIndex m.content
  | .toolResult m => some [.functionCallOutput (callId m.toolCallId) (callOutput model m)]

/-- The loop over the messages. A message without items is not counted. -/
def convertFrom (parse : String → Option Json) (model : TargetModel) (msgIndex : ℕ) :
    List Message → Option (List InputItem)
  | [] => some []
  | m :: rest => do
      let items ← convertMessage parse model msgIndex m
      let after ← convertFrom parse model (if items.length = 0 then msgIndex else msgIndex + 1) rest
      return items ++ after

def systemItems (model : TargetModel) (context : Context) (includeSystemPrompt : Option Bool) :
    List InputItem :=
  match context.systemPrompt with
  | some prompt =>
    if includeSystemPrompt.getD true && prompt ≠ "" then
      [.system (if model.reasoning then "developer" else "system")
        (sanitizeSurrogates false (utf16 prompt))]
    else []
  | none => []

def preparedMessages (now : ℕ → ToolCall → ℕ) (model : TargetModel) (context : Context)
    (allowedToolCallProviders : List String) : List Message :=
  transformMessages now context.messages model.toModel
    (some (normalizeToolCallId allowedToolCallProviders model.toModel))

def convertResponsesMessages (now : ℕ → ToolCall → ℕ) (parse : String → Option Json)
    (model : TargetModel) (context : Context) (allowedToolCallProviders : List String)
    (includeSystemPrompt : Option Bool) : Option (List InputItem) :=
  (convertFrom parse model 0 (preparedMessages now model context allowedToolCallProviders)).map
    (systemItems model context includeSystemPrompt ++ ·)

end Draht.ResponsesInput
