import Draht.EditDiff
import Draht.OrderedMap

/-!
# The visual lines of the editor

Lines, the classes of characters, paste markers and the kill ring; how a text falls into graphemes
and how wide they are is a parameter. A line that is too wide is wrapped at words, and the visual
lines of a text say where the cursor goes when it moves up or down.
-/

namespace Draht

/-- The graphemes of a text, and the columns that a text takes. -/
structure TextUnits where
  segment : JsText → List JsText
  visibleWidth : JsText → ℕ

/-- `text.split("\n")`. -/
def textLines (text : JsText) : List JsText := text.splitOn 10

/-- `lines.join("\n")`. -/
def linesText (lines : List JsText) : JsText := [(10 : UInt16)].intercalate lines

/-- Line ends become `\n`, and a tab becomes four spaces. -/
def normalizeText (text : JsText) : JsText :=
  (EditDiff.normalizeToLF text).flatMap fun c => if c = 9 then [32, 32, 32, 32] else [c]

/-- `/\s/.test(char)`. -/
def isWhitespaceChar (char : JsText) : Bool := char.any fun c => isWhiteSpaceCode c.toNat

def isPunctuationChar (char : JsText) : Bool :=
  char.any fun c =>
    c ∈ ([40, 41, 123, 125, 91, 93, 60, 62, 46, 44, 59, 58, 39, 34, 33, 63, 43, 45, 61, 42, 47, 92,
      124, 38, 37, 94, 36, 35, 64, 126, 96] : JsText)

/-- `/\w/.test(c)`. -/
def isWordUnit (c : UInt16) : Bool :=
  isDigitUnit c || (65 ≤ c && c ≤ 90) || c == 95 || (97 ≤ c && c ≤ 122)

/-- `\d+` at the start of a text: the digits and the rest. -/
def digitsFrom (text : JsText) : Option (JsText × JsText) :=
  match text.takeWhile isDigitUnit with
  | [] => none
  | digits => some (digits, text.dropWhile isDigitUnit)

/-- `( (\+\d+ lines|\d+ chars))` at the start of a text: the rest. -/
def countFrom (text : JsText) : Option JsText :=
  match text.dropPrefix? (utf16 " +") with
  | some rest => (digitsFrom rest).bind fun d => d.2.dropPrefix? (utf16 " lines")
  | none =>
    (text.dropPrefix? (utf16 " ")).bind fun rest =>
      (digitsFrom rest).bind fun d => d.2.dropPrefix? (utf16 " chars")

/-- `\[paste #(\d+)( (\+\d+ lines|\d+ chars))?\]` at the start of a text: the digits of the id, and
the rest. -/
def markerFrom (text : JsText) : Option (JsText × JsText) :=
  (text.dropPrefix? (utf16 "[paste #")).bind fun rest =>
    (digitsFrom rest).bind fun d =>
      ((((countFrom d.2).getD d.2).dropPrefix? (utf16 "]"))).map fun rest => (d.1, rest)

structure Marker where
  id : ℕ
  start : ℕ
  stop : ℕ
deriving DecidableEq

/-- The matches in a text that begins at `index`; `taken` units of it belong to the last match. -/
def markersFrom : ℕ → ℕ → JsText → List Marker
  | _, _, [] => []
  | index, taken + 1, _ :: text => markersFrom (index + 1) taken text
  | index, 0, c :: text =>
    match markerFrom (c :: text) with
    | none => markersFrom (index + 1) 0 text
    | some (digits, rest) =>
      let length := (c :: text).length - rest.length
      ⟨parseDigits digits, index, index + length⟩ ::
        markersFrom (index + 1) (length - 1) text

def isPasteMarker (segment : JsText) : Bool :=
  decide (10 ≤ segment.length) && (markerFrom segment).any fun m => m.2 == []

structure Segment where
  text : JsText
  index : ℕ
deriving DecidableEq

/-- The segments of a text that begins at `index`. -/
def indexed : ℕ → List JsText → List Segment
  | _, [] => []
  | index, text :: texts => ⟨text, index⟩ :: indexed (index + text.length) texts

def baseSegments (U : TextUnits) (text : JsText) : List Segment := indexed 0 (U.segment text)

/-- The loop over the segments; `markers` are those that have not ended before. -/
def mergeMarkers (text : JsText) : List Marker → List Segment → List Segment
  | _, [] => []
  | markers, seg :: segments =>
    match markers.dropWhile fun m => decide (m.stop ≤ seg.index) with
    | [] => seg :: mergeMarkers text [] segments
    | marker :: later =>
      if marker.start ≤ seg.index ∧ seg.index < marker.stop then
        if seg.index = marker.start then
          ⟨(text.drop marker.start).take (marker.stop - marker.start), marker.start⟩ ::
            mergeMarkers text (marker :: later) segments
        else mergeMarkers text (marker :: later) segments
      else seg :: mergeMarkers text (marker :: later) segments

def segmentWithMarkers (U : TextUnits) (text : JsText) (validIds : List ℕ) : List Segment :=
  match (markersFrom 0 0 text).filter fun m => m.id ∈ validIds with
  | [] => baseSegments U text
  | markers => mergeMarkers text markers (baseSegments U text)

namespace KillRing

def push (ring : List JsText) (text : JsText) (prepend accumulate : Bool) : List JsText :=
  if text = [] then ring
  else
    match accumulate, ring.getLast? with
    | true, some last => ring.dropLast ++ [if prepend then text ++ last else last ++ text]
    | _, _ => ring ++ [text]

def peek (ring : List JsText) : Option JsText := ring.getLast?

def rotate (ring : List JsText) : List JsText :=
  if ring.length > 1 then ring.getLast?.toList ++ ring.dropLast else ring

end KillRing

structure TextChunk where
  text : JsText
  startIndex : ℕ
  endIndex : ℕ
deriving DecidableEq

/-- The variables of the loop that wraps a line; a wrap opportunity is an index and a width. -/
structure WordWrap where
  chunks : List TextChunk
  currentWidth : ℕ
  chunkStart : ℕ
  wrapOpp : Option (ℕ × ℕ)

section Wrapping

variable (U : TextUnits) (line : JsText) (maxWidth : ℕ)

def WordWrap.pushUntil (w : WordWrap) (stop : ℕ) : WordWrap :=
  let text := (line.drop w.chunkStart).take (stop - w.chunkStart)
  { w with chunks := w.chunks ++ [⟨text, w.chunkStart, stop⟩], chunkStart := stop }

/-- The check before a grapheme of width `gWidth` at `charIndex` is added. -/
def WordWrap.overflow (w : WordWrap) (gWidth charIndex : ℕ) : WordWrap :=
  if w.currentWidth + gWidth > maxWidth then
    let forced :=
      if w.chunkStart < charIndex then { w.pushUntil line charIndex with currentWidth := 0 } else w
    let broken := match w.wrapOpp with
      | some (wrapOppIndex, wrapOppWidth) =>
        if w.currentWidth - wrapOppWidth + gWidth ≤ maxWidth then
          { w.pushUntil line wrapOppIndex with currentWidth := w.currentWidth - wrapOppWidth }
        else forced
      | none => forced
    { broken with wrapOpp := none }
  else w

/-- Whether a line may be broken between two segments. -/
def wrapsBetween (seg next : Segment) : Bool :=
  (!isPasteMarker seg.text && isWhitespaceChar seg.text) &&
    (isPasteMarker next.text || !isWhitespaceChar next.text)

/-- The loop; `wrapSub` wraps a segment that is wider than the line, and may not return. -/
def wrapSegments (wrapSub : JsText → Option (List TextChunk)) :
    WordWrap → List Segment → Option WordWrap
  | w, [] => some w
  | w, seg :: segments =>
    let gWidth := U.visibleWidth seg.text
    let w := w.overflow line maxWidth gWidth seg.index
    if gWidth > maxWidth then
      (wrapSub seg.text).bind fun subChunks =>
        match subChunks.getLast? with
        | none => none
        | some last =>
          let moved := subChunks.dropLast.map fun c =>
            ⟨c.text, seg.index + c.startIndex, seg.index + c.endIndex⟩
          wrapSegments wrapSub
            { chunks := w.chunks ++ moved, chunkStart := seg.index + last.startIndex
              currentWidth := U.visibleWidth last.text, wrapOpp := none } segments
    else
      let currentWidth := w.currentWidth + gWidth
      let wrapOpp := match segments.head? with
        | some next =>
          if wrapsBetween seg next then some (next.index, currentWidth) else w.wrapOpp
        | none => w.wrapOpp
      wrapSegments wrapSub { w with currentWidth, wrapOpp } segments

/-- `wordWrapLine`; it does not return when a grapheme is wider than a line. -/
def wordWrapLine : ℕ → JsText → List Segment → Option (List TextChunk)
  | 0, _, _ => none
  | fuel + 1, line, segments =>
    if line = [] ∨ maxWidth = 0 then some [⟨[], 0, 0⟩]
    else if U.visibleWidth line ≤ maxWidth then some [⟨line, 0, line.length⟩]
    else
      (wrapSegments U line maxWidth (fun sub => wordWrapLine fuel sub (baseSegments U sub))
        { chunks := [], currentWidth := 0, chunkStart := 0, wrapOpp := none } segments).map
        fun w => w.chunks ++ [⟨line.drop w.chunkStart, w.chunkStart, line.length⟩]

end Wrapping

structure VisualLine where
  logicalLine : ℕ
  startCol : ℕ
  length : ℕ
deriving DecidableEq

/-- The visual lines of the lines from the line `i` on. A segment is shorter than its line, or the
line itself is one marker; more fuel than that is never used. -/
def buildVisualLineMap (U : TextUnits) (validIds : List ℕ) (width : ℕ) :
    ℕ → List JsText → Option (List VisualLine)
  | _, [] => some []
  | i, line :: lines =>
    let here :=
      if line = [] then some [⟨i, 0, 0⟩]
      else if U.visibleWidth line ≤ width then some [⟨i, 0, line.length⟩]
      else
        (wordWrapLine U width (line.length + 2) line (segmentWithMarkers U line validIds)).map
          fun chunks => chunks.map fun c => ⟨i, c.startIndex, c.endIndex - c.startIndex⟩
    here.bind fun visual =>
      (buildVisualLineMap U validIds width (i + 1) lines).map fun rest => visual ++ rest

/-- Whether the visual line `i` is the last one of its line. -/
def isLastSegment (visualLines : List VisualLine) (i : ℕ) (vl : VisualLine) : Bool :=
  match visualLines[i + 1]? with
  | none => true
  | some next => next.logicalLine != vl.logicalLine

def holdsCursor (visualLines : List VisualLine) (cursorLine cursorCol i : ℕ) : Bool :=
  match visualLines[i]? with
  | none => false
  | some vl =>
    decide (vl.logicalLine = cursorLine) && decide (vl.startCol ≤ cursorCol) &&
      (decide (cursorCol - vl.startCol < vl.length) ||
        (isLastSegment visualLines i vl && decide (cursorCol - vl.startCol ≤ vl.length)))

def findCurrentVisualLine (visualLines : List VisualLine) (cursorLine cursorCol : ℕ) : ℕ :=
  ((List.range visualLines.length).find? (holdsCursor visualLines cursorLine cursorCol)).getD
    (visualLines.length - 1)

/-- The column that a vertical move goes to, and the preferred column after it. -/
def computeVerticalMoveColumn (preferredVisualCol : Option ℕ)
    (currentVisualCol sourceMaxVisualCol targetMaxVisualCol : ℕ) : ℕ × Option ℕ :=
  let cursorInMiddle := currentVisualCol < sourceMaxVisualCol
  let targetTooShort := targetMaxVisualCol < currentVisualCol
  let fresh :=
    if targetTooShort then (targetMaxVisualCol, some currentVisualCol) else (currentVisualCol, none)
  match preferredVisualCol with
  | none => fresh
  | some preferred =>
    if cursorInMiddle then fresh
    else if targetTooShort ∨ targetMaxVisualCol < preferred then
      (targetMaxVisualCol, some preferred)
    else (preferred, none)

/-- The cursor is moved out of a segment of several units. -/
def snapToSegment (up : Bool) (cursorCol : ℕ) : List Segment → ℕ
  | [] => cursorCol
  | seg :: segments =>
    if seg.index > cursorCol then cursorCol
    else if seg.text.length ≤ 1 then snapToSegment up cursorCol segments
    else if cursorCol < seg.index + seg.text.length then
      if up then seg.index else seg.index + seg.text.length
    else snapToSegment up cursorCol segments

end Draht
