import Draht.AssistantStream
import Draht.Utf16

/-!
# Responses streams

The events of a response come over three routes: the client of the plain provider, the event stream
of the Codex provider, and its web socket. One processor serves them all; what comes before and
after it differs.
-/

namespace Draht.Responses

inductive ResponseStatus where
  | completed | incomplete | failed | cancelled | inProgress | queued
  | other (status : JsText)
deriving DecidableEq

structure ResponseUsage where
  inputTokens : ℤ
  outputTokens : ℤ
  totalTokens : ℤ
  cachedTokens : ℤ
deriving DecidableEq

structure ResponseError where
  code : Option JsText
  message : Option JsText
deriving DecidableEq

structure Response where
  id : Option JsText
  status : Option ResponseStatus
  usage : Option ResponseUsage
  error : Option ResponseError
  incompleteReason : Option JsText
deriving DecidableEq

inductive Phase where
  | commentary | finalAnswer
deriving DecidableEq

inductive ContentPart where
  | outputText (text : JsText)
  | refusal (refusal : JsText)
  | reasoningText (text : JsText)
deriving DecidableEq

/-- An item of the output; `json` is `JSON.stringify(item)`. -/
inductive OutputItem where
  | reasoning (summary : List JsText) (json : JsText)
  | message (id : JsText) (phase : Option Phase) (content : List ContentPart)
  | functionCall (callId id name arguments : JsText)
  | other
deriving DecidableEq

/-- `other` is an event of a type that is not handled, `untyped` an event without a type. -/
inductive ResponseEvent where
  | created (id : JsText)
  | outputItemAdded (item : OutputItem)
  | reasoningSummaryPartAdded (text : JsText)
  | reasoningSummaryTextDelta (delta : JsText)
  | reasoningSummaryPartDone
  | contentPartAdded (part : ContentPart)
  | outputTextDelta (delta : JsText)
  | refusalDelta (delta : JsText)
  | functionCallArgumentsDelta (delta : JsText)
  | functionCallArgumentsDone (arguments : JsText)
  | outputItemDone (item : OutputItem)
  | completed (response : Option Response)
  | incomplete (response : Option Response)
  | responseDone (response : Option Response)
  | failed (response : Option Response)
  | error (code message : Option JsText) (json : JsText)
  | other
  | untyped
deriving DecidableEq

inductive Block where
  | text (text : JsText) (textSignature : Option JsText)
  | thinking (thinking : JsText) (thinkingSignature : Option JsText)
  | toolCall (id name : JsText) (arguments : Json) (partialJson : JsText)
deriving DecidableEq

structure ToolCallEnd where
  id : JsText
  name : JsText
  arguments : Json
deriving DecidableEq

structure TokenUsage where
  input : ℤ
  output : ℤ
  cacheRead : ℤ
  cacheWrite : ℤ
  totalTokens : ℤ
deriving DecidableEq

structure Output where
  content : List Block
  responseId : Option JsText
  usage : TokenUsage
  stopReason : StopReason
  errorMessage : Option JsText
deriving DecidableEq

abbrev Event := AssistantMessageEvent ToolCallEnd

inductive CurrentItem where
  | reasoning (summary : List JsText)
  | message (content : List ContentPart)
  | functionCall
deriving DecidableEq

structure Processing where
  output : Output
  currentItem : Option CurrentItem
  hasCurrentBlock : Bool
  pushed : List Event
deriving DecidableEq

/-- What the processor is given from outside: the parsers, and the writing of a JSON string. -/
structure Format extends JsonParser where
  quote : JsText → JsText

def initialOutput : Output where
  content := []
  responseId := none
  usage := ⟨0, 0, 0, 0, 0⟩
  stopReason := .stop
  errorMessage := none

namespace Processing

def initial : Processing := ⟨initialOutput, none, false, []⟩

def blockIndex (p : Processing) : ℤ := p.output.content.length - 1

def currentBlock (p : Processing) : Option Block :=
  if p.hasCurrentBlock then p.output.content.getLast? else none

def push (p : Processing) (event : Event) : Processing := { p with pushed := p.pushed ++ [event] }

def setItem (p : Processing) (item : CurrentItem) : Processing := { p with currentItem := some item }

def setContent (p : Processing) (content : List Block) (hasCurrentBlock : Bool) : Processing :=
  { p with output := { p.output with content }, hasCurrentBlock }

def openBlock (p : Processing) (item : CurrentItem) (block : Block) (started : ℤ → Event) :
    Processing :=
  let p := (p.setItem item).setContent (p.output.content ++ [block]) true
  p.push (started p.blockIndex)

def setBlock (p : Processing) (block : Block) : Processing :=
  p.setContent (p.output.content.dropLast ++ [block]) true

/-- The block is done, and is no longer the current one. -/
def closeBlock (p : Processing) (block : Block) (ended : ℤ → Event) : Processing :=
  let p := p.setContent (p.output.content.dropLast ++ [block]) false
  p.push (ended p.blockIndex)

end Processing

def encodeTextSignatureV1 (F : Format) (id : JsText) (phase : Option Phase) : JsText :=
  utf16 "\x7b\"v\":1,\"id\":" ++ F.quote id ++
    (match phase with
      | some .commentary => utf16 ",\"phase\":\"commentary\""
      | some .finalAnswer => utf16 ",\"phase\":\"final_answer\""
      | none => []) ++
    utf16 "\x7d"

def mapStopReason : Option ResponseStatus → Except JsText StopReason
  | none => .ok .stop
  | some .completed => .ok .stop
  | some .incomplete => .ok .length
  | some .failed => .ok .error
  | some .cancelled => .ok .error
  | some .inProgress => .ok .stop
  | some .queued => .ok .stop
  | some (.other []) => .ok .stop
  | some (.other status) => .error (utf16 "Unhandled stop reason: " ++ status)

/-- `item.summary?.map((s) => s.text).join("\n\n") || ""`. -/
def summaryText (summary : List JsText) : JsText := [10, 10].intercalate summary

def partText : ContentPart → JsText
  | .outputText text => text
  | .refusal refusal => refusal
  | .reasoningText _ => []

def truthy (text : Option JsText) : Option JsText := text.filter (· ≠ [])

def toolCallId (callId id : JsText) : JsText := callId ++ utf16 "|" ++ id

def isToolCall : Block → Bool
  | .toolCall _ _ _ _ => true
  | _ => false

namespace Processing

def itemAdded (p : Processing) : OutputItem → Processing
  | .reasoning summary _ => p.openBlock (.reasoning summary) (.thinking [] none) .thinkingStart
  | .message _ _ content => p.openBlock (.message content) (.text [] none) .textStart
  | .functionCall callId id name arguments =>
    p.openBlock .functionCall (.toolCall (toolCallId callId id) name (.object .nil) arguments)
      .toolcallStart
  | .other => p

/-- A piece of the summary is added to the last part of the summary and to the block. -/
def summaryDelta (p : Processing) (delta : JsText) : Processing :=
  match p.currentItem, p.currentBlock with
  | some (.reasoning summary), some (.thinking thinking signature) =>
    match summary.getLast? with
    | none => p
    | some lastPart =>
      ((p.setItem (.reasoning (summary.dropLast ++ [lastPart ++ delta]))).setBlock
        (.thinking (thinking ++ delta) signature)).push (.thinkingDelta p.blockIndex delta)
  | _, _ => p

/-- A piece of a text, if the last part of the message is of its kind. -/
def partDelta (p : Processing) (extend : ContentPart → Option ContentPart) (delta : JsText) :
    Processing :=
  match p.currentItem, p.currentBlock with
  | some (.message content), some (.text text signature) =>
    match content.getLast?.bind extend with
    | none => p
    | some part =>
      ((p.setItem (.message (content.dropLast ++ [part]))).setBlock
        (.text (text ++ delta) signature)).push (.textDelta p.blockIndex delta)
  | _, _ => p

def extendText (delta : JsText) : ContentPart → Option ContentPart
  | .outputText text => some (.outputText (text ++ delta))
  | _ => none

def extendRefusal (delta : JsText) : ContentPart → Option ContentPart
  | .refusal refusal => some (.refusal (refusal ++ delta))
  | _ => none

def argumentsDelta (F : Format) (p : Processing) (delta : JsText) : Processing :=
  match p.currentItem, p.currentBlock with
  | some .functionCall, some (.toolCall id name _ partialJson) =>
    (p.setBlock (.toolCall id name (F.parseStreamingJson (partialJson ++ delta))
      (partialJson ++ delta))).push (.toolcallDelta p.blockIndex delta)
  | _, _ => p

def argumentsDone (F : Format) (p : Processing) (arguments : JsText) : Processing :=
  match p.currentItem, p.currentBlock with
  | some .functionCall, some (.toolCall id name _ previousPartialJson) =>
    let p := p.setBlock (.toolCall id name (F.parseStreamingJson arguments) arguments)
    let delta := arguments.drop previousPartialJson.length
    if previousPartialJson.isPrefixOf arguments && delta ≠ [] then
      p.push (.toolcallDelta p.blockIndex delta)
    else p
  | _, _ => p

def itemDone (F : Format) (p : Processing) : OutputItem → Processing
  | .reasoning summary json =>
    match p.currentBlock with
    | some (.thinking _ _) =>
      p.closeBlock (.thinking (summaryText summary) (some json))
        (.thinkingEnd · (summaryText summary))
    | _ => p
  | .message id phase content =>
    match p.currentBlock with
    | some (.text _ _) =>
      let text := content.flatMap partText
      p.closeBlock (.text text (some (encodeTextSignatureV1 F id phase))) (.textEnd · text)
    | _ => p
  | .functionCall callId id name arguments =>
    let fromItem := F.parseStreamingJson (if arguments = [] then utf16 "\x7b\x7d" else arguments)
    let args :=
      match p.currentBlock with
      | some (.toolCall _ _ _ partialJson) =>
        if partialJson ≠ [] then F.parseStreamingJson partialJson else fromItem
      | _ => fromItem
    { p with hasCurrentBlock := false }.push
      (.toolcallEnd p.blockIndex ⟨toolCallId callId id, name, args⟩)
  | .other => p

/-- The end of a response. What is set before the status is mapped stays. -/
def responseCompleted (p : Processing) (response : Option Response) :
    Processing × Option JsText :=
  let responseId := (response.bind fun r => truthy r.id).or p.output.responseId
  let usage := ((response.bind (·.usage)).map fun usage => ({
    input := usage.inputTokens - usage.cachedTokens
    output := usage.outputTokens
    cacheRead := usage.cachedTokens
    cacheWrite := 0
    totalTokens := usage.totalTokens } : TokenUsage)).getD p.output.usage
  let p := { p with output := { p.output with responseId, usage } }
  match mapStopReason (response.bind (·.status)) with
  | .error message => (p, some message)
  | .ok stopReason =>
    let stopReason :=
      if p.output.content.any isToolCall && stopReason = .stop then .toolUse else stopReason
    ({ p with output := { p.output with stopReason } }, none)

end Processing

def failedMessage (response : Option Response) : JsText :=
  match response.bind (·.error) with
  | some error =>
    (truthy error.code).getD (utf16 "unknown") ++ utf16 ": " ++
      (truthy error.message).getD (utf16 "no message")
  | none =>
    match truthy (response.bind (·.incompleteReason)) with
    | some reason => utf16 "incomplete: " ++ reason
    | none => utf16 "Unknown error (no error details in response)"

def processEvent (F : Format) (p : Processing) : ResponseEvent → Processing × Option JsText
  | .created id => ({ p with output := { p.output with responseId := some id } }, none)
  | .outputItemAdded item => (p.itemAdded item, none)
  | .reasoningSummaryPartAdded text =>
    match p.currentItem with
    | some (.reasoning summary) => (p.setItem (.reasoning (summary ++ [text])), none)
    | _ => (p, none)
  | .reasoningSummaryTextDelta delta => (p.summaryDelta delta, none)
  | .reasoningSummaryPartDone => (p.summaryDelta [10, 10], none)
  | .contentPartAdded part =>
    match p.currentItem, part with
    | some (.message _), .reasoningText _ => (p, none)
    | some (.message content), part => (p.setItem (.message (content ++ [part])), none)
    | _, _ => (p, none)
  | .outputTextDelta delta => (p.partDelta (Processing.extendText delta) delta, none)
  | .refusalDelta delta => (p.partDelta (Processing.extendRefusal delta) delta, none)
  | .functionCallArgumentsDelta delta => (p.argumentsDelta F delta, none)
  | .functionCallArgumentsDone arguments => (p.argumentsDone F arguments, none)
  | .outputItemDone item => (p.itemDone F item, none)
  | .completed response => p.responseCompleted response
  | .error code message _ =>
    (p, some (utf16 "Error Code " ++ code.getD (utf16 "null") ++ utf16 ": " ++
      message.getD (utf16 "undefined")))
  | .failed response => (p, some (failedMessage response))
  | .incomplete _ => (p, none)
  | .responseDone _ => (p, none)
  | .other => (p, none)
  | .untyped => (p, none)

/-- The events of a source, and the exception that it may end in. -/
structure Source where
  events : List ResponseEvent
  thrown : Option JsText
deriving DecidableEq

def processResponsesStream (F : Format) (thrown : Option JsText) :
    Processing → List ResponseEvent → Processing × Option JsText
  | p, [] => (p, thrown)
  | p, event :: events =>
    match processEvent F p event with
    | (p, some message) => (p, some message)
    | (p, none) => processResponsesStream F thrown p events

def requestAborted : JsText := utf16 "Request was aborted"

/-- The `catch` of both providers. -/
def fail (aborted : Bool) (p : Processing) (message : JsText) :
    Output × List (Produced Event Unit) :=
  let reason : StopReason := if aborted then .aborted else .error
  ({ p.output with stopReason := reason, errorMessage := some message },
    p.pushed.map .push ++ [.push (.error reason), .ended none])

def succeed (p : Processing) : Output × List (Produced Event Unit) :=
  (p.output, p.pushed.map .push ++ [.push (.done p.output.stopReason), .ended none])

/-- `opened` is what the request gives: the source of the events, or an exception. -/
def streamOpenAIResponses (F : Format) (opened : Except JsText Source) (aborted : Bool) :
    Output × List (Produced Event Unit) :=
  match opened with
  | .error message => fail aborted .initial message
  | .ok openaiStream =>
    let start := Processing.initial.push .start
    match processResponsesStream F openaiStream.thrown start openaiStream.events with
    | (p, some message) => fail aborted p message
    | (p, none) =>
      if aborted then fail aborted p requestAborted
      else if p.output.stopReason = .aborted || p.output.stopReason = .error then
        fail aborted p (utf16 "An unknown error occurred")
      else succeed p

def normalizeCodexStatus : Option ResponseStatus → Option ResponseStatus
  | some (.other _) => none
  | status => status

def completedOf (response : Option Response) : ResponseEvent :=
  .completed (response.map fun r => { r with status := normalizeCodexStatus r.status })

def mapCodexEvents (thrown : Option JsText) : List ResponseEvent → Source
  | [] => ⟨[], thrown⟩
  | .untyped :: events => mapCodexEvents thrown events
  | .error code message json :: _ =>
    ⟨[], some (utf16 "Codex error: " ++
      (truthy message).getD ((truthy code).getD json))⟩
  | .failed response :: _ =>
    ⟨[], some ((truthy ((response.bind (·.error)).bind (·.message))).getD
      (utf16 "Codex response failed"))⟩
  | .responseDone response :: _ => ⟨[completedOf response], none⟩
  | .completed response :: _ => ⟨[completedOf response], none⟩
  | .incomplete response :: _ => ⟨[completedOf response], none⟩
  | event :: events =>
    let rest := mapCodexEvents thrown events
    ⟨event :: rest.events, rest.thrown⟩

def processStream (F : Format) (p : Processing) (source : Source) : Processing × Option JsText :=
  let mapped := mapCodexEvents source.thrown source.events
  processResponsesStream F mapped.thrown p mapped.events

/-- How a web socket ends; the texts are those of the errors made of the events. -/
inductive SocketEnd where
  | closed (closeError : JsText)
  | error (message : JsText)
  | aborted
deriving DecidableEq

structure Listeners where
  queue : List ResponseEvent
  failed : Option JsText
  sawCompletion : Bool

def ResponseEvent.isCompletion : ResponseEvent → Bool
  | .completed _ => true
  | .responseDone _ => true
  | .incomplete _ => true
  | _ => false

def Listeners.onMessage (l : Listeners) : Option ResponseEvent → Listeners
  | none => l
  | some parsed =>
    { l with
      queue := l.queue ++ [parsed]
      sawCompletion := l.sawCompletion || parsed.isCompletion }

def Listeners.onEnd (l : Listeners) : SocketEnd → Listeners
  | .closed closeError =>
    if l.sawCompletion then l else { l with failed := l.failed.or (some closeError) }
  | .error message => { l with failed := some message }
  | .aborted => { l with failed := some requestAborted }

/-- The queue is emptied before the end of the socket counts. -/
def parseWebSocket (messages : List (Option ResponseEvent)) (socketEnd : SocketEnd) : Source :=
  let l := (messages.foldl Listeners.onMessage ⟨[], none, false⟩).onEnd socketEnd
  ⟨l.queue,
    match l.failed with
    | some message => some message
    | none =>
      if l.sawCompletion then none
      else some (utf16 "WebSocket stream closed before response.completed")⟩

inductive Transport where
  | sse | websocket | auto
deriving DecidableEq

structure SocketRun where
  messages : List (Option ResponseEvent)
  socketEnd : SocketEnd
deriving DecidableEq

/-- `setup` is an exception before the transport is chosen, `socket` the socket or an exception
before the request is sent over it, `response` what the requests with their retries give. -/
structure CodexRun where
  setup : Option JsText
  transport : Transport
  socket : Except JsText SocketRun
  response : Except JsText Source

def codexEnd (aborted : Bool) : Processing × Option JsText → Output × List (Produced Event Unit)
  | (p, some message) => fail aborted p message
  | (p, none) => if aborted then fail aborted p requestAborted else succeed p

def streamOpenAICodexResponses (F : Format) (run : CodexRun) (aborted : Bool) :
    Output × List (Produced Event Unit) :=
  let start := Processing.initial.push .start
  let overSse :=
    match run.response with
    | .error message => fail aborted .initial message
    | .ok source => codexEnd aborted (processStream F start source)
  match run.setup with
  | some message => fail aborted .initial message
  | none =>
    match run.transport, run.socket with
    | .sse, _ => overSse
    | _, .ok socket =>
      codexEnd aborted (processStream F start (parseWebSocket socket.messages socket.socketEnd))
    | .websocket, .error message => fail aborted .initial message
    | .auto, .error _ => overSse

end Draht.Responses
