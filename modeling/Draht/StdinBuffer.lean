import Draht.GuardedRun
import Draht.Text
import Draht.TextSearch
import Draht.Utf8

/-!
# The buffer of the standard input

Input arrives in chunks that may end inside an escape sequence. The buffer emits characters and
complete sequences, keeps an unfinished sequence for a while, and collects what is between the
markers of a paste. Texts are lists of code units.
-/

namespace Draht

def esc : UInt16 := 0x1B

def bracketedPasteStart : JsText := utf16 "\x1b[200~"

def bracketedPasteEnd : JsText := utf16 "\x1b[201~"

inductive SequenceStatus where
  | complete | incomplete | notEscape
deriving DecidableEq

def completeIf (b : Bool) : SequenceStatus := if b then .complete else .incomplete

/-- `/^\d+$/`. -/
def isDigits (text : JsText) : Bool := text ≠ [] && text.all isDigitUnit

/-- `/^<\d+;\d+;\d+[Mm]$/`. -/
def isSgrMouse (payload : JsText) : Bool :=
  let fields := (payload.drop 1).dropLast.splitOn 0x3B
  payload.head? = some 0x3C && (payload.getLast? = some 0x4D || payload.getLast? = some 0x6D) &&
    fields.length = 3 && fields.all isDigits

def isCompleteCsiSequence (data : JsText) : SequenceStatus :=
  if !(utf16 "\x1b[").isPrefixOf data then .complete
  else if data.length < 3 then .incomplete
  else
    let payload := data.drop 2
    let lastCharCode := payload.getLastD 0
    if 0x40 ≤ lastCharCode ∧ lastCharCode ≤ 0x7E then
      if (utf16 "<").isPrefixOf payload then
        if isSgrMouse payload then .complete
        else if lastCharCode = 0x4D ∨ lastCharCode = 0x6D then
          let parts := (payload.drop 1).dropLast.splitOn 0x3B
          completeIf (parts.length = 3 && parts.all isDigits)
        else .incomplete
      else .complete
    else .incomplete

def isCompleteOscSequence (data : JsText) : SequenceStatus :=
  if !(utf16 "\x1b]").isPrefixOf data then .complete
  else completeIf ((utf16 "\x1b\\").isSuffixOf data || (utf16 "\x07").isSuffixOf data)

/-- A sequence with this introducer that ends with a string terminator (ESC and a backslash). -/
def isCompleteStringSequence (introducer data : JsText) : SequenceStatus :=
  if !introducer.isPrefixOf data then .complete
  else completeIf ((utf16 "\x1b\\").isSuffixOf data)

def isCompleteDcsSequence (data : JsText) : SequenceStatus :=
  isCompleteStringSequence (utf16 "\x1bP") data

def isCompleteApcSequence (data : JsText) : SequenceStatus :=
  isCompleteStringSequence (utf16 "\x1b_") data

def isCompleteSequence (data : JsText) : SequenceStatus :=
  if !(utf16 "\x1b").isPrefixOf data then .notEscape
  else if data.length = 1 then .incomplete
  else
    let afterEsc := data.drop 1
    if (utf16 "[").isPrefixOf afterEsc then
      if (utf16 "[M").isPrefixOf afterEsc then completeIf (6 ≤ data.length)
      else isCompleteCsiSequence data
    else if (utf16 "]").isPrefixOf afterEsc then isCompleteOscSequence data
    else if (utf16 "P").isPrefixOf afterEsc then isCompleteDcsSequence data
    else if (utf16 "_").isPrefixOf afterEsc then isCompleteApcSequence data
    else if (utf16 "O").isPrefixOf afterEsc then completeIf (2 ≤ afterEsc.length)
    else .complete

/-- The length of the first prefix that is not incomplete. -/
def sequenceEnd (remaining : JsText) : Option ℕ :=
  (List.range' 1 remaining.length).find? fun n =>
    isCompleteSequence (remaining.take n) ≠ .incomplete

/-- The loop of `extractCompleteSequences`; every turn takes at least one unit. -/
def extractFrom : ℕ → JsText → List JsText × JsText
  | 0, remaining => ([], remaining)
  | _ + 1, [] => ([], [])
  | fuel + 1, c :: rest =>
    if c = esc then
      match sequenceEnd (c :: rest) with
      | some n =>
        let result := extractFrom fuel ((c :: rest).drop n)
        ((c :: rest).take n :: result.1, result.2)
      | none => ([], c :: rest)
    else
      let result := extractFrom fuel rest
      ([c] :: result.1, result.2)

def extractCompleteSequences (buffer : JsText) : List JsText × JsText :=
  extractFrom buffer.length buffer

/-- What is emitted; `flushed` is what a call of `flush` returns to its caller. -/
inductive StdinEvent where
  | data (sequence : JsText)
  | paste (content : JsText)
  | flushed (sequences : List JsText)
deriving DecidableEq

/-- `timeout` says whether the timer is set. -/
structure StdinBuffer where
  buffer : JsText
  timeout : Bool
  pasteMode : Bool
  pasteBuffer : JsText
  emitted : List StdinEvent
deriving DecidableEq

/-- A chunk of the standard input: a string, or the bytes of a `Buffer`. -/
inductive StdinChunk where
  | text (str : JsText)
  | bytes (data : List UInt8)

/-- A single high byte stands for ESC and the byte without its high bit. -/
def StdinChunk.str : StdinChunk → JsText
  | .text str => str
  | .bytes [b] =>
    if 127 < b.toNat then [esc, UInt16.ofNat (b.toNat - 128)] else utf16Chars (Utf8.decode [b])
  | .bytes data => utf16Chars (Utf8.decode data)

namespace StdinBuffer

def initial : StdinBuffer :=
  { buffer := [], timeout := false, pasteMode := false, pasteBuffer := [], emitted := [] }

variable (s : StdinBuffer)

def emit (e : StdinEvent) : StdinBuffer := { s with emitted := s.emitted ++ [e] }

def emitAll (sequences : List JsText) : StdinBuffer :=
  { s with emitted := s.emitted ++ sequences.map .data }

/-- In paste mode: if the end of the paste is there, the paste is emitted, and `process` goes on
with what follows. -/
def finishPaste (process : StdinBuffer → JsText → StdinBuffer) : StdinBuffer :=
  match indexOf? bracketedPasteEnd s.pasteBuffer with
  | some endIndex =>
    let pastedContent := s.pasteBuffer.take endIndex
    let remaining := s.pasteBuffer.drop (endIndex + bracketedPasteEnd.length)
    let left := { s with pasteMode := false, pasteBuffer := [] }.emit (.paste pastedContent)
    if remaining = [] then left else process left remaining
  | none => s

/-- `process`, for a chunk that is a string; a call of itself gets a shorter one. -/
def processFrom : ℕ → StdinBuffer → JsText → StdinBuffer
  | 0, s, _ => s
  | fuel + 1, s, str =>
    let cleared := { s with timeout := false }
    if str = [] ∧ s.buffer = [] then cleared.emit (.data [])
    else if s.pasteMode then
      finishPaste
        { cleared with pasteBuffer := s.pasteBuffer ++ (s.buffer ++ str), buffer := [] }
        (processFrom fuel)
    else
      let buffer := s.buffer ++ str
      match indexOf? bracketedPasteStart buffer with
      | some startIndex =>
        let before := (extractCompleteSequences (buffer.take startIndex)).1
        finishPaste
          { cleared.emitAll before with
            pasteMode := true
            pasteBuffer := buffer.drop (startIndex + bracketedPasteStart.length)
            buffer := [] }
          (processFrom fuel)
      | none =>
        let result := extractCompleteSequences buffer
        { cleared.emitAll result.1 with buffer := result.2, timeout := result.2 ≠ [] }

def process (chunk : StdinChunk) : StdinBuffer :=
  s.processFrom (s.pasteBuffer.length + s.buffer.length + chunk.str.length + 1) chunk.str

/-- The sequences that `flush` returns, and the buffer after it. -/
def flush : List JsText × StdinBuffer :=
  (if s.buffer = [] then [] else [s.buffer], { s with timeout := false, buffer := [] })

end StdinBuffer

/-- A chunk arrives, the timer fires, or `flush` is called. -/
inductive StdinAction where
  | process (chunk : StdinChunk)
  | timeout
  | flush

namespace StdinBuffer

def step (s : StdinBuffer) : StdinAction → Option StdinBuffer
  | .process chunk => some (s.process chunk)
  | .timeout => if s.timeout then some (s.flush.2.emitAll s.flush.1) else none
  | .flush => some (s.flush.2.emit (.flushed s.flush.1))

end StdinBuffer

end Draht
