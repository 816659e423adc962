import Draht.EventStream
import Draht.TransformMessages
import Draht.Utf8

/-!
# Streams through a proxy

An answer that comes through a proxy server: the body is read in chunks of bytes, its data lines are
events without the partial message, and the message is built up from them. `JSON.parse` and the
parser of incomplete JSON are parameters.
-/

namespace Draht.Proxy

/-- `ProxyAssistantMessageEvent`; an event of a type that is not handled is `other`. -/
inductive ProxyEvent where
  | start
  | textStart (contentIndex : ℕ)
  | textDelta (contentIndex : ℕ) (delta : JsText)
  | textEnd (contentIndex : ℕ) (contentSignature : Option JsText)
  | thinkingStart (contentIndex : ℕ)
  | thinkingDelta (contentIndex : ℕ) (delta : JsText)
  | thinkingEnd (contentIndex : ℕ) (contentSignature : Option JsText)
  | toolcallStart (contentIndex : ℕ) (id toolName : JsText)
  | toolcallDelta (contentIndex : ℕ) (delta : JsText)
  | toolcallEnd (contentIndex : ℕ)
  | done (reason : StopReason) (usage : Usage)
  | error (reason : StopReason) (errorMessage : Option JsText) (usage : Usage)
  | other
deriving DecidableEq

/-- A block that is built up. Only a tool call that is not finished has its text. -/
inductive ProxyBlock where
  | text (text : JsText) (textSignature : Option JsText)
  | thinking (thinking : JsText) (thinkingSignature : Option JsText)
  | toolCall (id name : JsText) (arguments : Json) (partialJson : Option JsText)
deriving DecidableEq

/-- The message that is built up. Its list of blocks may have holes. -/
structure ProxyMessage where
  content : List (Option ProxyBlock)
  api : String
  provider : String
  model : String
  usage : Usage
  stopReason : StopReason
  errorMessage : Option JsText
  timestamp : ℕ
deriving DecidableEq

/-- `AssistantMessageEvent`. Each event also refers to the message, which is one for all of them. -/
inductive ProxyOutput where
  | start
  | textStart (contentIndex : ℕ)
  | textDelta (contentIndex : ℕ) (delta : JsText)
  | textEnd (contentIndex : ℕ) (content : JsText)
  | thinkingStart (contentIndex : ℕ)
  | thinkingDelta (contentIndex : ℕ) (delta : JsText)
  | thinkingEnd (contentIndex : ℕ) (content : JsText)
  | toolcallStart (contentIndex : ℕ)
  | toolcallDelta (contentIndex : ℕ) (delta : JsText)
  | toolcallEnd (contentIndex : ℕ) (toolCall : ProxyBlock)
  | done (reason : StopReason)
  | error (reason : StopReason)
deriving DecidableEq

/-- What parses the texts: an event (or the message of the exception), JSON, and JSON of which the
end is missing. -/
structure ProxyFormat where
  parseEvent : List Char → Except JsText ProxyEvent
  parseJson : JsText → Option Json
  partialParse : JsText → Option Json

namespace ProxyFormat

variable (F : ProxyFormat)

def parseStreamingJson (partialJson : JsText) : Json :=
  if trim (fun c => isWhiteSpaceCode c.toNat) partialJson = [] then .object .nil
  else
    match F.parseJson partialJson with
    | some value => value
    | none =>
      match F.partialParse partialJson with
      | some .null => .object .nil
      | some value => value
      | none => .object .nil

end ProxyFormat

def isFalsy : Json → Bool
  | .null => true
  | .bool b => !b
  | .number text => text = "0"
  | .string s => s = ""
  | .array _ => false
  | .object _ => false

/-- `parseStreamingJson(partialJson) || {}`. -/
def argumentsOf (F : ProxyFormat) (partialJson : JsText) : Json :=
  let value := F.parseStreamingJson partialJson
  if isFalsy value then .object .nil else value

/-- `content[contentIndex] = block`. -/
def setBlock (content : List (Option ProxyBlock)) (contentIndex : ℕ) (block : ProxyBlock) :
    List (Option ProxyBlock) :=
  (content ++ List.replicate (contentIndex + 1 - content.length) none).set contentIndex (some block)

def blockAt (message : ProxyMessage) (contentIndex : ℕ) : Option ProxyBlock :=
  (message.content[contentIndex]?).join

def withBlock (message : ProxyMessage) (contentIndex : ℕ) (block : ProxyBlock) : ProxyMessage :=
  { message with content := setBlock message.content contentIndex block }

def processProxyEvent (F : ProxyFormat) (message : ProxyMessage) :
    ProxyEvent → Except JsText (ProxyMessage × Option ProxyOutput)
  | .start => .ok (message, some .start)
  | .textStart i => .ok (withBlock message i (.text [] none), some (.textStart i))
  | .textDelta i delta =>
    match blockAt message i with
    | some (.text text signature) =>
      .ok (withBlock message i (.text (text ++ delta) signature), some (.textDelta i delta))
    | _ => .error (utf16 "Received text_delta for non-text content")
  | .textEnd i contentSignature =>
    match blockAt message i with
    | some (.text text _) =>
      .ok (withBlock message i (.text text contentSignature), some (.textEnd i text))
    | _ => .error (utf16 "Received text_end for non-text content")
  | .thinkingStart i => .ok (withBlock message i (.thinking [] none), some (.thinkingStart i))
  | .thinkingDelta i delta =>
    match blockAt message i with
    | some (.thinking thinking signature) =>
      .ok (withBlock message i (.thinking (thinking ++ delta) signature),
        some (.thinkingDelta i delta))
    | _ => .error (utf16 "Received thinking_delta for non-thinking content")
  | .thinkingEnd i contentSignature =>
    match blockAt message i with
    | some (.thinking thinking _) =>
      .ok (withBlock message i (.thinking thinking contentSignature),
        some (.thinkingEnd i thinking))
    | _ => .error (utf16 "Received thinking_end for non-thinking content")
  | .toolcallStart i id toolName =>
    .ok (withBlock message i (.toolCall id toolName (.object .nil) (some [])),
      some (.toolcallStart i))
  | .toolcallDelta i delta =>
    match blockAt message i with
    | some (.toolCall id name _ partialJson) =>
      -- a call that has ended has no text: the delta is added to `undefined`
      let partialJson := partialJson.getD (utf16 "undefined") ++ delta
      .ok (withBlock message i
        (.toolCall id name (argumentsOf F partialJson) (some partialJson)),
        some (.toolcallDelta i delta))
    | _ => .error (utf16 "Received toolcall_delta for non-toolCall content")
  | .toolcallEnd i =>
    match blockAt message i with
    | some (.toolCall id name arguments _) =>
      let toolCall := .toolCall id name arguments none
      .ok (withBlock message i toolCall, some (.toolcallEnd i toolCall))
    | _ => .ok (message, none)
  | .done reason usage => .ok ({ message with stopReason := reason, usage }, some (.done reason))
  | .error reason errorMessage usage =>
    .ok ({ message with stopReason := reason, errorMessage, usage }, some (.error reason))
  | .other => .ok (message, none)

/-- The decoder of a body, whether nothing was decoded yet (a byte order mark is then left out), and
the line that is not complete. -/
structure BodyReader where
  decoder : Utf8.Decoder
  atStart : Bool
  buffer : List Char
deriving DecidableEq

namespace BodyReader

def start : BodyReader := ⟨Utf8.start, true, []⟩

/-- `decoder.decode(value, { stream: true })`. -/
def decode (r : BodyReader) (bytes : List UInt8) : List Char × BodyReader :=
  let out := r.decoder.readAll bytes
  let text := if r.atStart && out.1.head? = some '\uFEFF' then out.1.tail else out.1
  (text, { r with decoder := out.2, atStart := r.atStart && out.1.isEmpty })

def read (r : BodyReader) (bytes : List UInt8) : List (List Char) × BodyReader :=
  let (text, r) := r.decode bytes
  let lines := (r.buffer ++ text).splitOn '\n'
  (lines.dropLast, { r with buffer := lines.getLastD [] })

end BodyReader

def lineData (line : List Char) : Option (List Char) :=
  if "data: ".toList.isPrefixOf line then
    let data := trim isWhiteSpace (line.drop 6)
    if data = [] then none else some data
  else none

structure Progress where
  message : ProxyMessage
  pushed : List ProxyOutput
deriving DecidableEq

def Progress.processLine (F : ProxyFormat) (p : Progress) (line : List Char) :
    Except JsText Progress :=
  match lineData line with
  | none => .ok p
  | some data =>
    match F.parseEvent data with
    | .error message => .error message
    | .ok proxyEvent =>
      match processProxyEvent F p.message proxyEvent with
      | .error message => .error message
      | .ok (message, event) => .ok ⟨message, p.pushed ++ event.toList⟩

/-- The lines of a chunk. What was done before an exception stays. -/
def Progress.processLines (F : ProxyFormat) (p : Progress) :
    List (List Char) → Progress × Option JsText
  | [] => (p, none)
  | line :: lines =>
    match p.processLine F line with
    | .ok p => p.processLines F lines
    | .error message => (p, some message)

/-- A read that gives bytes, and whether the request is aborted when it returns. -/
structure BodyRead where
  bytes : List UInt8
  aborted : Bool
deriving DecidableEq

inductive BodyEnd where
  | done (aborted : Bool)
  | failed (message : JsText) (aborted : Bool)
deriving DecidableEq

/-- An exception, and whether the request is aborted when it is caught. -/
structure Thrown where
  message : JsText
  aborted : Bool
deriving DecidableEq

def abortedByUser : Thrown := ⟨utf16 "Request aborted by user", true⟩

def readBody (F : ProxyFormat) (bodyEnd : BodyEnd) :
    BodyReader → Progress → List BodyRead → Progress × Option Thrown
  | _, p, [] =>
    match bodyEnd with
    | .done aborted => (p, if aborted then some abortedByUser else none)
    | .failed message aborted => (p, some ⟨message, aborted⟩)
  | r, p, read :: reads =>
    if read.aborted then (p, some abortedByUser)
    else
      let (lines, r) := r.read read.bytes
      match p.processLines F lines with
      | (p, some message) => (p, some ⟨message, false⟩)
      | (p, none) => readBody F bodyEnd r p reads

/-- What `fetch` gives: an exception, a response that is not `ok`, with the text of its error if it
has one, or a body. -/
inductive Fetched where
  | rejected (thrown : Thrown)
  | notOk (status : ℕ) (statusText : JsText) (errorData : Option JsText) (aborted : Bool)
  | ok (reads : List BodyRead) (bodyEnd : BodyEnd)
deriving DecidableEq

def proxyError (status : ℕ) (statusText : JsText) (errorData : Option JsText) : JsText :=
  match errorData with
  | some (u :: us) => utf16 "Proxy error: " ++ u :: us
  | _ => utf16 "Proxy error: " ++ utf16 (Nat.repr status) ++ utf16 " " ++ statusText

def initialMessage (model : Model) (timestamp : ℕ) : ProxyMessage :=
  { content := []
    api := model.api
    provider := model.provider
    model := model.id
    usage := ⟨0, 0, 0, 0, 0⟩
    stopReason := .stop
    errorMessage := none
    timestamp }

def isTerminal : ProxyOutput → Bool
  | .done _ => true
  | .error _ => true
  | _ => false

/-- The result is the message that all events refer to. -/
def completion : Completion ProxyOutput Unit := ⟨isTerminal, fun _ => ()⟩

def abortReason (aborted : Bool) : StopReason := if aborted then .aborted else .error

/-- The message in the end, and what was done to the event stream. -/
def streamProxy (F : ProxyFormat) (model : Model) (timestamp : ℕ) (fetched : Fetched) :
    ProxyMessage × List (Produced ProxyOutput Unit) :=
  let start : Progress := ⟨initialMessage model timestamp, []⟩
  let (p, thrown) :=
    match fetched with
    | .rejected thrown => (start, some thrown)
    | .notOk status statusText errorData aborted =>
      (start, some ⟨proxyError status statusText errorData, aborted⟩)
    | .ok reads bodyEnd => readBody F bodyEnd .start start reads
  match thrown with
  | none => (p.message, p.pushed.map .push ++ [.ended none])
  | some thrown =>
    let reason := abortReason thrown.aborted
    ({ p.message with stopReason := reason, errorMessage := some thrown.message },
      p.pushed.map .push ++ [.push (.error reason), .ended none])

end Draht.Proxy
