import Draht.ProviderStream
import Draht.ProxyStream

/-!
# Streams of the Google providers

Both providers get the same chunks, one from its client and the other as lines of an event stream.
The second asks again when it is answered with nothing.
-/

namespace Draht.Providers

structure FunctionCall where
  id : Option String
  name : Option String
  args : Option Json
deriving DecidableEq

structure Part where
  text : Option JsText
  thought : Bool
  thoughtSignature : Option String
  functionCall : Option FunctionCall
deriving DecidableEq

structure UsageMetadata where
  promptTokenCount : Option ℤ
  candidatesTokenCount : Option ℤ
  thoughtsTokenCount : Option ℤ
  totalTokenCount : Option ℤ
  cachedContentTokenCount : Option ℤ
deriving DecidableEq

/-- The first candidate. A part may be `null`. -/
structure Candidate where
  parts : List (Option Part)
  finishReason : Option String
deriving DecidableEq

structure GenerateContentResponse where
  responseId : Option String
  candidate : Option Candidate
  usageMetadata : Option UsageMetadata
deriving DecidableEq

/-- What a line of data is: no JSON, something that cannot be read, or a chunk, which may lack its
response. -/
inductive ParsedLine where
  | invalid
  | throws (message : JsText)
  | chunk (response : Option GenerateContentResponse)
deriving DecidableEq

/-- The clock, which is read when an id is generated, and the parser of lines. -/
structure GoogleFormat where
  dateNow : ℕ → ℕ
  parseLine : List Char → ParsedLine

/-- What is built up, with the counter of generated ids. The plain provider has always started. -/
structure GoogleStreaming extends Streaming where
  started : Bool
  hasContent : Bool
  toolCallCounter : ℕ
deriving DecidableEq

def retainThoughtSignature (existing incoming : Option String) : Option String :=
  if incoming.any (· ≠ "") then incoming else existing

def mapStopReason (reason : String) : Except JsText StopReason :=
  if reason = "STOP" then .ok .stop
  else if reason = "MAX_TOKENS" then .ok .length
  else if reason ∈ ["BLOCKLIST", "PROHIBITED_CONTENT", "SPII", "SAFETY", "IMAGE_SAFETY",
      "IMAGE_PROHIBITED_CONTENT", "IMAGE_RECITATION", "IMAGE_OTHER", "RECITATION",
      "FINISH_REASON_UNSPECIFIED", "OTHER", "LANGUAGE", "MALFORMED_FUNCTION_CALL",
      "UNEXPECTED_TOOL_CALL", "NO_IMAGE"] then .ok .error
  else .error (utf16 ("Unhandled stop reason: " ++ reason))

def mapStopReasonString (reason : String) : StopReason :=
  if reason = "STOP" then .stop else if reason = "MAX_TOKENS" then .length else .error

namespace GoogleStreaming

variable (s : GoogleStreaming)

def lift (f : Streaming → Streaming) : GoogleStreaming := { s with toStreaming := f s.toStreaming }

@[simp] theorem lift_toStreaming (f : Streaming → Streaming) :
    (s.lift f).toStreaming = f s.toStreaming := rfl

@[simp] theorem lift_started (f : Streaming → Streaming) : (s.lift f).started = s.started := rfl

@[simp] theorem lift_hasContent (f : Streaming → Streaming) :
    (s.lift f).hasContent = s.hasContent := rfl

def ensureStarted : GoogleStreaming :=
  if s.started then s else { s.lift (·.push .start) with started := true }

def continues (isThinking : Bool) : Bool :=
  match s.current with
  | some (.thinking _ _) => isThinking
  | some (.text _ _) => !isThinking
  | _ => false

def openBlock (isThinking : Bool) : GoogleStreaming :=
  let block : Block := if isThinking then .thinking [] none else .text [] none
  let opened := s.lift fun b =>
    { b.pushBlock block with currentBlock := some b.output.content.length }
  opened.ensureStarted.lift fun b =>
    b.push (if isThinking then .thinkingStart b.blockIndex else .textStart b.blockIndex)

def appendText (text : JsText) (signature : Option String) : GoogleStreaming :=
  match s.currentBlock, s.current with
  | some i, some (.thinking thinking thinkingSignature) =>
    s.lift fun b =>
      (b.setBlock i (.thinking (thinking ++ text)
        (retainThoughtSignature thinkingSignature signature))).push
          (.thinkingDelta b.blockIndex text)
  | some i, some (.text existing textSignature) =>
    s.lift fun b =>
      (b.setBlock i (.text (existing ++ text)
        (retainThoughtSignature textSignature signature))).push (.textDelta b.blockIndex text)
  | _, _ => s

def handleText (part : Part) (text : JsText) : GoogleStreaming :=
  let s := { s with hasContent := true }
  let s := if s.continues part.thought then s else (s.lift (·.finishText)).openBlock part.thought
  s.appendText text part.thoughtSignature

/-- The id that was given, unless there is none or another call has it. -/
def toolCallId (F : GoogleFormat) (call : FunctionCall) : String × ℕ :=
  match call.id.filter fun id => id ≠ "" && !s.output.content.any (hasCallId id) with
  | some id => (id, s.toolCallCounter)
  | none =>
    (call.name.getD "undefined" ++ "_" ++ Nat.repr (F.dateNow s.toolCallCounter) ++ "_" ++
      Nat.repr (s.toolCallCounter + 1), s.toolCallCounter + 1)

def pushToolCall (toolCall : ToolCall) : GoogleStreaming :=
  (s.lift (·.pushBlock (.toolCall toolCall))).ensureStarted.lift fun b =>
    ((b.push (.toolcallStart b.blockIndex)).push
      (.toolcallDelta b.blockIndex (utf16Chars toolCall.arguments.stringify))).push
        (.toolcallEnd b.blockIndex
          ⟨b.blockIndex, toolCall.id, toolCall.name, toolCall.arguments⟩)

def handleFunctionCall (F : GoogleFormat) (call : FunctionCall) (signature : Option String) :
    GoogleStreaming :=
  let s := { s with hasContent := true }.lift (·.finishText)
  let (id, toolCallCounter) := s.toolCallId F call
  { s.pushToolCall
      { id := id, name := call.name.getD "", arguments := call.args.getD (.object .nil)
        thoughtSignature := signature.filter (· ≠ ""), partialArgs := none } with
    toolCallCounter }

def handlePart (F : GoogleFormat) (s : GoogleStreaming) :
    Option Part → GoogleStreaming × Option JsText
  | none => (s, some (utf16 "Cannot read properties of null (reading 'text')"))
  | some part =>
    let s := match part.text with
      | some text => s.handleText part text
      | none => s
    let s := match part.functionCall with
      | some call => s.handleFunctionCall F call part.thoughtSignature
      | none => s
    (s, none)

def setOutput (f : Output → Output) : GoogleStreaming :=
  s.lift fun b => { b with output := { f b.output with content := b.output.content } }

def usageOf (usage : UsageMetadata) : TokenUsage where
  input := usage.promptTokenCount.getD 0 - usage.cachedContentTokenCount.getD 0
  output := usage.candidatesTokenCount.getD 0 + usage.thoughtsTokenCount.getD 0
  cacheRead := usage.cachedContentTokenCount.getD 0
  cacheWrite := 0
  totalTokens := usage.totalTokenCount.getD 0

def handleEnd (mapStop : String → Except JsText StopReason) (chunk : GenerateContentResponse) :
    GoogleStreaming × Option JsText :=
  match ((chunk.candidate.bind (·.finishReason)).filter (· ≠ "")).map mapStop with
  | some (.error message) => (s, some message)
  | some (.ok stopReason) =>
    let stopReason := if s.output.content.any isToolCall then .toolUse else stopReason
    (s.setOutput fun o => { o with
      stopReason, usage := (chunk.usageMetadata.map usageOf).getD o.usage }, none)
  | none =>
    (s.setOutput fun o => { o with
      usage := (chunk.usageMetadata.map usageOf).getD o.usage }, none)

def handleChunk (F : GoogleFormat) (mapStop : String → Except JsText StopReason)
    (s : GoogleStreaming) (chunk : GenerateContentResponse) : GoogleStreaming × Option JsText :=
  let s := s.setOutput fun o => { o with responseId := orAssign o.responseId chunk.responseId }
  match foldUntil (handlePart F) s ((chunk.candidate.map (·.parts)).getD []) with
  | (s, some message) => (s, some message)
  | (s, none) => s.handleEnd mapStop chunk

end GoogleStreaming

/-- The chunks of the client, and what it throws at last. -/
structure GoogleSource where
  chunks : List GenerateContentResponse
  thrown : Option JsText
deriving DecidableEq

def GoogleStreaming.conclude (s : GoogleStreaming) (aborted : Bool) : Outcome :=
  if aborted then s.fail aborted requestAborted
  else if s.output.stopReason = .aborted || s.output.stopReason = .error then
    s.fail aborted unknownError
  else s.succeed

/-- `opened` is what the request gives, and `aborted` the signal at the end. -/
def streamGoogle (F : GoogleFormat) (toolCallCounter : ℕ) (opened : Except JsText GoogleSource)
    (aborted : Bool) : Outcome :=
  match opened with
  | .error message => Streaming.initial.fail aborted message
  | .ok googleStream =>
    let s : GoogleStreaming := ⟨Streaming.initial.push .start, true, false, toolCallCounter⟩
    match foldUntil (GoogleStreaming.handleChunk F mapStopReason) s googleStream.chunks with
    | (s, some message) => s.fail aborted message
    | (s, none) =>
      match googleStream.thrown with
      | some message => s.fail aborted message
      | none => (s.lift (·.finishText)).conclude aborted

/-- A read of the body: whether the signal is aborted before it, and what is read. -/
structure BodyRead where
  aborted : Bool
  value : List UInt8
deriving DecidableEq

/-- All reads of a body but the last one, which finds its end or throws. -/
structure ResponseBody where
  reads : List BodyRead
  abortedAtEnd : Bool
  thrown : Option JsText
deriving DecidableEq

def dataOf (line : List Char) : Option (List Char) :=
  if "data:".toList.isPrefixOf line then
    let data := trim isWhiteSpace (line.drop 5)
    if data = [] then none else some data
  else none

namespace GoogleStreaming

def handleLine (F : GoogleFormat) (s : GoogleStreaming) (line : List Char) :
    GoogleStreaming × Option JsText :=
  match (dataOf line).map F.parseLine with
  | some (.throws message) => (s, some message)
  | some (.chunk (some response)) =>
    s.handleChunk F (fun reason => .ok (mapStopReasonString reason)) response
  | _ => (s, none)

def handleRead (F : GoogleFormat) (p : GoogleStreaming × Proxy.BodyReader) (read : BodyRead) :
    (GoogleStreaming × Proxy.BodyReader) × Option JsText :=
  if read.aborted then (p, some requestAborted)
  else
    let (lines, reader) := p.2.read read.value
    let (s, thrown) := foldUntil (handleLine F) p.1 lines
    ((s, reader), thrown)

/-- `hasContent` is what it returns. -/
def streamResponse (F : GoogleFormat) (s : GoogleStreaming) (body : Option ResponseBody) :
    GoogleStreaming × Option JsText :=
  match body with
  | none => (s, some (utf16 "No response body"))
  | some body =>
    let s := { s.lift ({ · with currentBlock := none }) with hasContent := false }
    match foldUntil (handleRead F) (s, Proxy.BodyReader.start) body.reads with
    | ((s, _), some message) => (s, some message)
    | ((s, _), none) =>
      if body.abortedAtEnd then (s, some requestAborted)
      else
        match body.thrown with
        | some message => (s, some message)
        | none => (s.lift (·.finishText), none)

def resetOutput (s : GoogleStreaming) : GoogleStreaming :=
  { s.lift fun b => { b with output := { initialOutput with responseId := b.output.responseId } }
    with started := false }

end GoogleStreaming

def MAX_EMPTY_STREAM_RETRIES : ℕ := 2

/-- A new request after an empty answer: whether the signal is aborted, what the wait and the
request throw, and the answer with its status if it is not ok. -/
structure EmptyRetry where
  aborted : Bool
  thrown : Option JsText
  failed : Option (ℕ × JsText)
  body : Option ResponseBody
deriving DecidableEq

def EmptyRetry.response (retry : EmptyRetry) : Except JsText (Option ResponseBody) :=
  if retry.aborted then .error requestAborted
  else
    match retry.thrown, retry.failed with
    | some message, _ => .error message
    | none, some (status, errorText) =>
      .error (utf16 ("Cloud Code Assist API error (" ++ Nat.repr status ++ "): ") ++ errorText)
    | none, none => .ok retry.body

/-- The answers until one has content. `response` is the one that comes first, and `left` says how
many may come after it. -/
def streamAttempts (F : GoogleFormat) (retries : ℕ → EmptyRetry) :
    ℕ → GoogleStreaming → Option ResponseBody → GoogleStreaming × Option JsText
  | left, s, response =>
    match s.streamResponse F response with
    | (s, some message) => (s, some message)
    | (s, none) =>
      if s.hasContent then (s, none)
      else
        match left with
        | 0 => (s, some (utf16 "Cloud Code Assist API returned an empty response"))
        | left + 1 =>
          match (retries left).response with
          | .error message => (s.resetOutput, some message)
          | .ok response => streamAttempts F retries left s.resetOutput response

def MAX_RETRIES : ℕ := 3

structure FetchError where
  name : JsText
  message : JsText
  cause : Option JsText
deriving DecidableEq

/-- The answer to a request: its body, its status and text if it is not ok, or an exception. -/
inductive FetchResult where
  | ok (body : Option ResponseBody)
  | failed (status : ℕ) (errorText : JsText)
  | thrown (error : FetchError)
deriving DecidableEq

/-- A request: whether the signal is aborted before it, the answer, and what the wait after it
throws. -/
structure FetchAttempt where
  aborted : Bool
  result : FetchResult
  sleepThrown : Option JsText
deriving DecidableEq

/-- What is read off the text of an error, and the longest delay that is accepted. -/
structure RetryPolicy where
  isRetryableError : ℕ → JsText → Bool
  extractRetryDelay : JsText → Option ℕ
  extractErrorMessage : JsText → JsText
  maxRetryDelayMs : ℕ

def newError (message : JsText) : FetchError := ⟨utf16 "Error", message, none⟩

/-- An answer that is not ok: whether the next endpoint is next, and what is thrown, if there is no
other request. -/
def afterFailure (R : RetryPolicy) (sleepThrown : Option JsText) (attempt status : ℕ)
    (errorText : JsText) (hasNext : Bool) : Bool × Option FetchError :=
  if (status = 403 || status = 404) && hasNext then (true, none)
  else if attempt < MAX_RETRIES && R.isRetryableError status errorText then
    let serverDelay := (R.extractRetryDelay errorText).getD 0
    if 0 < R.maxRetryDelayMs && R.maxRetryDelayMs < serverDelay then
      (hasNext, some (newError (utf16 ("Server requested " ++
        Nat.repr ((serverDelay + 999) / 1000) ++ "s retry delay (max: " ++
        Nat.repr ((R.maxRetryDelayMs + 999) / 1000) ++ "s). ") ++
          R.extractErrorMessage errorText)))
    else (hasNext, sleepThrown.map newError)
  else
    (false, some (newError (utf16 ("Cloud Code Assist API error (" ++ Nat.repr status ++ "): ") ++
      R.extractErrorMessage errorText)))

def FetchError.describe (error : FetchError) : JsText :=
  match error.cause with
  | some cause =>
    if error.message = utf16 "fetch failed" then utf16 "Network error: " ++ cause
    else error.message
  | none => error.message

/-- The requests from `attempt` on, of which `left` may still be made. What is thrown for an answer
is caught and asks for another request, too. -/
def fetchWithRetries (R : RetryPolicy) (fetches : ℕ → FetchAttempt) (endpoints : ℕ) :
    ℕ → ℕ → ℕ → Option JsText → Except JsText (Option ResponseBody)
  | 0, _, _, lastError => .error (lastError.getD (utf16 "Failed to get response after retries"))
  | left + 1, attempt, endpointIndex, lastError =>
    let fetched := fetches attempt
    if fetched.aborted then .error requestAborted
    else
      match fetched.result with
      | .ok body => .ok body
      | .failed status errorText =>
        let after := afterFailure R fetched.sleepThrown attempt status errorText
          (endpointIndex + 1 < endpoints)
        let endpointIndex := if after.1 then endpointIndex + 1 else endpointIndex
        match after.2 with
        | none =>
          fetchWithRetries R fetches endpoints left (attempt + 1) endpointIndex lastError
        | some error => caught fetched.sleepThrown left attempt endpointIndex error
      | .thrown error => caught fetched.sleepThrown left attempt endpointIndex error
where
  /-- The `catch` around a request. -/
  caught (sleepThrown : Option JsText) (left attempt endpointIndex : ℕ) (error : FetchError) :
      Except JsText (Option ResponseBody) :=
    if error.name = utf16 "AbortError" || error.message = requestAborted then .error requestAborted
    else if attempt < MAX_RETRIES then
      match sleepThrown with
      | some message => .error message
      | none =>
        fetchWithRetries R fetches endpoints left (attempt + 1) endpointIndex
          (some error.describe)
    else .error error.describe

/-- What the provider meets on its way: the number of endpoints or an exception before the first
request, the requests, the requests after empty answers, and the signal at the end. -/
structure GeminiRun where
  prepared : Except JsText ℕ
  policy : RetryPolicy
  fetches : ℕ → FetchAttempt
  retries : ℕ → EmptyRetry
  abortedBeforeStream : Bool
  aborted : Bool

def streamGoogleGeminiCli (F : GoogleFormat) (toolCallCounter : ℕ) (run : GeminiRun) : Outcome :=
  let s : GoogleStreaming := ⟨Streaming.initial, false, false, toolCallCounter⟩
  match run.prepared with
  | .error message => s.fail run.aborted message
  | .ok endpoints =>
    match fetchWithRetries run.policy run.fetches endpoints (MAX_RETRIES + 1) 0 0 none with
    | .error message => s.fail run.aborted message
    | .ok response =>
      if run.abortedBeforeStream then s.fail run.aborted requestAborted
      else
        match streamAttempts F run.retries MAX_EMPTY_STREAM_RETRIES s response with
        | (s, some message) => s.fail run.aborted message
        | (s, none) => s.conclude run.aborted

end Draht.Providers
