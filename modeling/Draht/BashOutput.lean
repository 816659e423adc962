import Draht.RollingCapture
import Draht.Truncation

/-!
# The output of a command

`executeBashWithOperations` and the bash tool take the output of a command in chunks. Both keep the
latest chunks in memory, write a temp file once more than `DEFAULT_MAX_BYTES` came in, and report
what `truncateTail` makes of the chunks that are left. The first decodes and sanitizes each chunk as
it comes, the second decodes the bytes that it has kept.
-/

namespace Draht

open Utf8

abbrev Bytes := List UInt8

/-- `DEFAULT_MAX_BYTES * 2`. -/
def maxOutputBytes : ℕ := DEFAULT_MAX_BYTES * 2

/-- `truncateTail(text)` with the default limits. -/
def truncateOutput (text : OutputText) : TruncationResult :=
  truncateTail text { maxLines := none, maxBytes := none }

/-- How `exec` ends: with an exit code (none for a killed process), or with an error. -/
inductive ExecOutcome where
  | exited (exitCode : Option ℤ)
  | failed (message : String)
deriving DecidableEq

/-- `new TextDecoder()`: a byte order mark at the start is dropped. -/
structure TextDecoder where
  decoder : Decoder
  bomSeen : Bool

def TextDecoder.new : TextDecoder := { decoder := start, bomSeen := false }

def dropBom : OutputText → OutputText
  | c :: text => if c = '\uFEFF' then text else c :: text
  | [] => []

/-- `decoder.decode(data, { stream: true })`. -/
def TextDecoder.decodeChunk (d : TextDecoder) (data : Bytes) : OutputText × TextDecoder :=
  let out := d.decoder.readAll data
  (if d.bomSeen then out.1 else dropBom out.1,
    { decoder := out.2, bomSeen := d.bomSeen || !out.1.isEmpty })

/-- `new TextDecoder().decode(data)`. -/
def decodeOutput (data : Bytes) : OutputText := dropBom (decode data)

def sanitizeBinaryOutput (str : OutputText) : OutputText :=
  str.filter fun char =>
    let code := char.toNat
    if code = 0x09 ∨ code = 0x0A ∨ code = 0x0D then true
    else if code ≤ 0x1F then false
    else if code ≥ 0xFFF9 ∧ code ≤ 0xFFFB then false
    else true

/-- `sanitizeBinaryOutput(stripAnsi(text)).replace(/\r/g, "")`. -/
def cleanOutput (stripAnsi : OutputText → OutputText) (text : OutputText) : OutputText :=
  (sanitizeBinaryOutput (stripAnsi text)).filter fun char => char ≠ '\r'

structure BashExecution where
  capture : Capture OutputText
  decoder : TextDecoder

def BashExecution.new : BashExecution := { capture := Capture.empty, decoder := TextDecoder.new }

def BashExecution.onData (stripAnsi : OutputText → OutputText) (e : BashExecution)
    (data : Bytes) : BashExecution :=
  let decoded := e.decoder.decodeChunk data
  let text := cleanOutput stripAnsi decoded.1
  { capture := e.capture.receive unitLength DEFAULT_MAX_BYTES maxOutputBytes data.length text
    decoder := decoded.2 }

structure BashResult where
  output : OutputText
  exitCode : Option ℤ
  cancelled : Bool
  truncated : Bool
  fullOutputPath : Option String
deriving DecidableEq

/-- The result for what is kept, and what is in the temp file. -/
def Capture.bashResult (c : Capture OutputText) (tempFilePath : String) (exitCode : Option ℤ)
    (cancelled : Bool) : BashResult × Option OutputText :=
  let fullOutput := c.chunks.flatten
  let truncationResult := truncateOutput fullOutput
  let c := if truncationResult.truncated then c.ensureFile else c
  ({ output := if truncationResult.truncated then truncationResult.content else fullOutput
     exitCode, cancelled, truncated := truncationResult.truncated
     fullOutputPath := c.file.map fun _ => tempFilePath },
    c.file.map List.flatten)

/-- `executeBashWithOperations` for the chunks of a command; an error is thrown unless the signal
was aborted. -/
def executeBashWithOperations (stripAnsi : OutputText → OutputText) (tempFilePath : String)
    (chunks : List Bytes) (outcome : ExecOutcome) (aborted : Bool) :
    Except String (BashResult × Option OutputText) :=
  let e := chunks.foldl (BashExecution.onData stripAnsi) BashExecution.new
  match outcome with
  | .exited exitCode =>
    .ok (e.capture.bashResult tempFilePath (if aborted then none else exitCode) aborted)
  | .failed message =>
    if aborted then .ok (e.capture.bashResult tempFilePath none true) else .error message

structure BashToolDetails where
  truncation : Option TruncationResult
  fullOutputPath : Option String
deriving DecidableEq

/-- A text with its details; an error has none. -/
structure BashToolReport where
  text : OutputText
  details : Option BashToolDetails
  isError : Bool
deriving DecidableEq

structure BashToolCall where
  capture : Capture Bytes
  updates : List (OutputText × BashToolDetails)

def BashToolCall.new : BashToolCall := { capture := Capture.empty, updates := [] }

/-- `Buffer.concat(chunks).toString("utf-8")`. -/
def keptText (c : Capture Bytes) : OutputText := decode c.chunks.flatten

def BashToolCall.handleData (onUpdate : Bool) (tempFilePath : String) (t : BashToolCall)
    (data : Bytes) : BashToolCall :=
  let c := t.capture.receive List.length DEFAULT_MAX_BYTES maxOutputBytes data.length data
  if onUpdate then
    let truncation := truncateOutput (keptText c)
    let c := if truncation.truncated then c.ensureFile else c
    { capture := c
      updates := t.updates ++
        [(truncation.content,
          { truncation := if truncation.truncated then some truncation else none
            fullOutputPath := c.file.map fun _ => tempFilePath })] }
  else { t with capture := c }

def truncationNotice (truncation : TruncationResult) (fullOutput : OutputText)
    (tempFilePath : String) : String :=
  let startLine := truncation.totalLines - truncation.outputLines + 1
  let endLine := truncation.totalLines
  if truncation.lastLinePartial then
    "\n\n[Showing last " ++ formatSize truncation.outputBytes ++ " of line " ++ toString endLine ++
      " (line is " ++ formatSize (byteLength (lastLine fullOutput)) ++ "). Full output: " ++
      tempFilePath ++ "]"
  else if truncation.truncatedBy = some .lines then
    "\n\n[Showing lines " ++ toString startLine ++ "-" ++ toString endLine ++ " of " ++
      toString truncation.totalLines ++ ". Full output: " ++ tempFilePath ++ "]"
  else
    "\n\n[Showing lines " ++ toString startLine ++ "-" ++ toString endLine ++ " of " ++
      toString truncation.totalLines ++ " (" ++ formatSize DEFAULT_MAX_BYTES ++
      " limit). Full output: " ++ tempFilePath ++ "]"

/-- The final report for an output; the command may have failed. -/
def exitReport (tempFilePath : String) (exitCode : Option ℤ) (fullOutput : OutputText) :
    BashToolReport :=
  let truncation := truncateOutput fullOutput
  let shown := if truncation.content = [] then "(no output)".toList else truncation.content
  let outputText :=
    if truncation.truncated then
      shown ++ (truncationNotice truncation fullOutput tempFilePath).toList
    else shown
  let details :=
    if truncation.truncated then
      some { truncation := some truncation, fullOutputPath := some tempFilePath : BashToolDetails }
    else none
  match exitCode with
  | none => { text := outputText, details, isError := false }
  | some code =>
    if code ≠ 0 then
      { text := outputText ++ ("\n\nCommand exited with code " ++ toString code).toList
        details := none, isError := true }
    else { text := outputText, details, isError := false }

/-- The text of an error for an aborted or timed out command; other errors are passed on. -/
def failureText (message : String) (output : OutputText) : OutputText :=
  let before := if output = [] then [] else output ++ "\n\n".toList
  if message = "aborted" then before ++ "Command aborted".toList
  else if message.startsWith "timeout:" then
    before ++ ("Command timed out after " ++ ((message.splitOn ":")[1]?).getD "undefined" ++
      " seconds").toList
  else message.toList

/-- `execute` for the chunks of a command: the report, and what is in the temp file. -/
def executeBashTool (onUpdate : Bool) (tempFilePath : String) (chunks : List Bytes)
    (outcome : ExecOutcome) : BashToolReport × Option Bytes :=
  let t := chunks.foldl (BashToolCall.handleData onUpdate tempFilePath) BashToolCall.new
  let fullOutput := keptText t.capture
  match outcome with
  | .exited exitCode =>
    let c := if (truncateOutput fullOutput).truncated then t.capture.ensureFile else t.capture
    (exitReport tempFilePath exitCode fullOutput, c.file.map List.flatten)
  | .failed message =>
    ({ text := failureText message fullOutput, details := none, isError := true },
      t.capture.file.map List.flatten)

end Draht
