import Draht.EditorLayout

/-!
# The editor

The state of the editor and its operations. The keys that call them are left out; what an
autocomplete provider makes of the text is a parameter of the operation that applies it.
-/

namespace Draht

structure EditorState where
  lines : List JsText
  cursorLine : ℕ
  cursorCol : ℕ
deriving DecidableEq

inductive LastAction where
  | kill | yank | typeWord
deriving DecidableEq

/-- The newest snapshot and the most recent prompt come first; `-1` means that no prompt of the
history is shown. -/
structure Editor where
  state : EditorState
  lastWidth : ℕ
  pastes : OrderedMap ℕ JsText
  pasteCounter : ℕ
  history : List JsText
  historyIndex : ℤ
  killRing : List JsText
  lastAction : Option LastAction
  preferredVisualCol : Option ℕ
  undoStack : List EditorState

inductive Direction where
  | up | down | left | right
deriving DecidableEq

namespace EditorState

variable (s : EditorState)

/-- `lines[i] || ""`. -/
def lineAt (i : ℕ) : JsText := s.lines.getD i []

def currentLine : JsText := s.lineAt s.cursorLine

def beforeCursor : JsText := s.currentLine.take s.cursorCol

def afterCursor : JsText := s.currentLine.drop s.cursorCol

def getText : JsText := linesText s.lines

def setLine (i : ℕ) (line : JsText) : EditorState := { s with lines := s.lines.set i line }

/-- `lines.splice(start, deleteCount, ...inserted)`. -/
def splice (start deleteCount : ℕ) (inserted : List JsText) : EditorState :=
  { s with lines := s.lines.take start ++ inserted ++ s.lines.drop (start + deleteCount) }

end EditorState

namespace Editor

def initial : Editor :=
  { state := ⟨[[]], 0, 0⟩, lastWidth := 80, pastes := .empty, pasteCounter := 0, history := []
    historyIndex := -1, killRing := [], lastAction := none, preferredVisualCol := none
    undoStack := [] }

variable (U : TextUnits) (e : Editor)

def segment (text : JsText) : List Segment := segmentWithMarkers U text e.pastes.keys

def setCursorCol (col : ℕ) : Editor :=
  { e with state := { e.state with cursorCol := col }, preferredVisualCol := none }

def setCursor (line col : ℕ) : Editor :=
  { e with state := { e.state with cursorLine := line } }.setCursorCol col

def pushUndoSnapshot : Editor := { e with undoStack := e.state :: e.undoStack }

def exitHistory : Editor := { e with historyIndex := -1 }

def act (action : Option LastAction) : Editor := { e with lastAction := action }

def kill (text : JsText) (prepend : Bool) : Editor :=
  { e with
    killRing := KillRing.push e.killRing text prepend (e.lastAction = some .kill)
    lastAction := some .kill }

def setTextInternal (text : JsText) : Editor :=
  let lines := textLines text
  { e with state := { e.state with lines } }.setCursor (lines.length - 1)
    (lines.getD (lines.length - 1) []).length

def setText (text : JsText) : Editor :=
  let e := (e.act none).exitHistory
  let normalized := normalizeText text
  let e := if e.state.getText ≠ normalized then e.pushUndoSnapshot else e
  e.setTextInternal normalized

/-- Lines are inserted at the cursor, which goes to their end. -/
def insertLines (lines : List JsText) : Editor :=
  let s := e.state
  match lines with
  | [] => e
  | [line] =>
    { e with
      state := s.setLine s.cursorLine
        (s.beforeCursor ++ line ++ s.afterCursor) }.setCursorCol (s.cursorCol + line.length)
  | first :: rest =>
    let last := rest.getLast?.getD []
    { e with
      state := s.splice s.cursorLine 1
        ([s.beforeCursor ++ first] ++ rest.dropLast ++ [last ++ s.afterCursor]) }.setCursor
      (s.cursorLine + (lines.length - 1)) last.length

def insertTextAtCursorInternal (text : JsText) : Editor :=
  if text = [] then e else e.insertLines (textLines (normalizeText text))

def insertTextAtCursor (text : JsText) : Editor :=
  if text = [] then e
  else ((e.pushUndoSnapshot.act none).exitHistory).insertTextAtCursorInternal text

def insertCharacter (char : JsText) : Editor :=
  let e := e.exitHistory
  let e := if isWhitespaceChar char = true ∨ e.lastAction ≠ some .typeWord then e.pushUndoSnapshot
    else e
  let s := e.state
  { e with
    state := s.setLine s.cursorLine (s.beforeCursor ++ char ++ s.afterCursor)
    lastAction := some .typeWord }.setCursorCol (s.cursorCol + char.length)

/-- A path that is pasted after a word gets a space before it. -/
def pathSpace (text : JsText) : JsText :=
  match text.head?, e.state.beforeCursor.getLast? with
  | some c, some before =>
    if (c = 47 ∨ c = 126 ∨ c = 46) ∧ isWordUnit before = true then [32] else []
  | _, _ => []

def pasteMarker (pasteId : ℕ) (text : JsText) : JsText :=
  let pastedLines := textLines text
  if pastedLines.length > 10 then
    utf16 ("[paste #" ++ toString pasteId ++ " +" ++ toString pastedLines.length ++ " lines]")
  else utf16 ("[paste #" ++ toString pasteId ++ " " ++ toString text.length ++ " chars]")

def handlePaste (pastedText : JsText) : Editor :=
  let e := (e.exitHistory.act none).pushUndoSnapshot
  let printable := (normalizeText pastedText).filter fun c => c == 10 || 32 ≤ c
  let filteredText := e.pathSpace printable ++ printable
  if (textLines filteredText).length > 10 ∨ filteredText.length > 1000 then
    let pasteId := e.pasteCounter + 1
    { e with
      pasteCounter := pasteId
      pastes := e.pastes.set pasteId filteredText }.insertTextAtCursorInternal
      (pasteMarker pasteId filteredText)
  else e.insertTextAtCursorInternal filteredText

def addNewLine : Editor :=
  let e := (e.exitHistory.act none).pushUndoSnapshot
  let s := e.state
  { e with
    state := (s.setLine s.cursorLine s.beforeCursor).splice (s.cursorLine + 1) 0
      [s.afterCursor] }.setCursor (s.cursorLine + 1) 0

/-- The line of the cursor is joined to the one before it. -/
def mergeWithPrevious : Editor :=
  let s := e.state
  let previousLine := s.lineAt (s.cursorLine - 1)
  { e with
    state := (s.setLine (s.cursorLine - 1) (previousLine ++ s.currentLine)).splice s.cursorLine 1
      [] }.setCursor (s.cursorLine - 1) previousLine.length

def mergeWithNext : Editor :=
  let s := e.state
  { e with
    state := (s.setLine s.cursorLine (s.currentLine ++ s.lineAt (s.cursorLine + 1))).splice
      (s.cursorLine + 1) 1 [] }

/-- The units between two columns are taken out of the line of the cursor. -/
def cut (start stop : ℕ) : Editor :=
  let s := e.state
  { e with state := s.setLine s.cursorLine (s.currentLine.take start ++ s.currentLine.drop stop) }

def isLastLine : Prop := ¬ e.state.cursorLine < e.state.lines.length - 1

instance : Decidable e.isLastLine := inferInstanceAs (Decidable (¬ _))

def lastLength (segments : List Segment) : ℕ :=
  match segments.getLast? with
  | some seg => seg.text.length
  | none => 1

def firstLength (segments : List Segment) : ℕ :=
  match segments.head? with
  | some seg => seg.text.length
  | none => 1

def handleBackspace : Editor :=
  let e := e.exitHistory.act none
  let s := e.state
  if s.cursorCol > 0 then
    let graphemeLength := lastLength (e.segment U s.beforeCursor)
    (e.pushUndoSnapshot.cut (s.cursorCol - graphemeLength) s.cursorCol).setCursorCol
      (s.cursorCol - graphemeLength)
  else if s.cursorLine > 0 then e.pushUndoSnapshot.mergeWithPrevious
  else e

def handleForwardDelete : Editor :=
  let e := e.exitHistory.act none
  let s := e.state
  if s.cursorCol < s.currentLine.length then
    e.pushUndoSnapshot.cut s.cursorCol (s.cursorCol + firstLength (e.segment U s.afterCursor))
  else if e.isLastLine then e
  else e.pushUndoSnapshot.mergeWithNext

def deleteToStartOfLine : Editor :=
  let e := e.exitHistory
  let s := e.state
  if s.cursorCol > 0 then
    ((e.pushUndoSnapshot.kill s.beforeCursor true).cut 0 s.cursorCol).setCursorCol 0
  else if s.cursorLine > 0 then (e.pushUndoSnapshot.kill [10] true).mergeWithPrevious
  else e

def deleteToEndOfLine : Editor :=
  let e := e.exitHistory
  let s := e.state
  if s.cursorCol < s.currentLine.length then
    (e.pushUndoSnapshot.kill s.afterCursor false).cut s.cursorCol s.currentLine.length
  else if e.isLastLine then e
  else (e.pushUndoSnapshot.kill [10] false).mergeWithNext

def totalLength (segments : List Segment) : ℕ :=
  segments.foldr (fun seg n => seg.text.length + n) 0

/-- The white space and the word that come first, or one marker, or a run of punctuation. -/
def wordLength (segments : List Segment) : ℕ :=
  let space := fun seg : Segment => !isPasteMarker seg.text && isWhitespaceChar seg.text
  let rest := segments.dropWhile space
  totalLength (segments.takeWhile space) +
    match rest with
    | [] => 0
    | seg :: _ =>
      if isPasteMarker seg.text then seg.text.length
      else if isPunctuationChar seg.text then
        totalLength (rest.takeWhile fun seg =>
          isPunctuationChar seg.text && !isPasteMarker seg.text)
      else
        totalLength (rest.takeWhile fun seg => !isWhitespaceChar seg.text &&
          !isPunctuationChar seg.text && !isPasteMarker seg.text)

def moveWordBackwards : Editor :=
  let e := e.act none
  let s := e.state
  if s.cursorCol = 0 then
    if s.cursorLine > 0 then e.setCursor (s.cursorLine - 1) (s.lineAt (s.cursorLine - 1)).length
    else e
  else e.setCursorCol (s.cursorCol - wordLength (e.segment U s.beforeCursor).reverse)

def moveWordForwards : Editor :=
  let e := e.act none
  let s := e.state
  if s.cursorCol ≥ s.currentLine.length then
    if e.isLastLine then e else e.setCursor (s.cursorLine + 1) 0
  else e.setCursorCol (s.cursorCol + wordLength (e.segment U s.afterCursor))

def deleteWordBackwards : Editor :=
  let e := e.exitHistory
  let s := e.state
  if s.cursorCol = 0 then
    if s.cursorLine > 0 then (e.pushUndoSnapshot.kill [10] true).mergeWithPrevious else e
  else
    let deleteFrom := (e.moveWordBackwards U).state.cursorCol
    let deletedText := (s.currentLine.take s.cursorCol).drop deleteFrom
    ((e.pushUndoSnapshot.kill deletedText true).cut deleteFrom s.cursorCol).setCursorCol deleteFrom

def deleteWordForward : Editor :=
  let e := e.exitHistory
  let s := e.state
  if s.cursorCol ≥ s.currentLine.length then
    if e.isLastLine then e else (e.pushUndoSnapshot.kill [10] false).mergeWithNext
  else
    let deleteTo := (e.moveWordForwards U).state.cursorCol
    let deletedText := (s.currentLine.take deleteTo).drop s.cursorCol
    ((e.pushUndoSnapshot.kill deletedText false).cut s.cursorCol deleteTo).setCursorCol s.cursorCol

def insertYankedText (text : JsText) : Editor := e.exitHistory.insertLines (textLines text)

def deleteYankedText (yankedText : JsText) : Editor :=
  let s := e.state
  match textLines yankedText with
  | [] => e
  | [_] =>
    (e.cut (s.cursorCol - yankedText.length) s.cursorCol).setCursorCol
      (s.cursorCol - yankedText.length)
  | first :: rest =>
    let startLine := s.cursorLine - rest.length
    let startCol := (s.lineAt startLine).length - first.length
    { e with
      state := s.splice startLine (rest.length + 1)
        [(s.lineAt startLine).take startCol ++ s.afterCursor] }.setCursor startLine startCol

def yank : Editor :=
  match KillRing.peek e.killRing with
  | none => e
  | some text => (e.pushUndoSnapshot.insertYankedText text).act (some .yank)

def yankPop : Editor :=
  if e.lastAction ≠ some .yank ∨ e.killRing.length ≤ 1 then e
  else
    let deleted := e.pushUndoSnapshot.deleteYankedText ((KillRing.peek e.killRing).getD [])
    let ring := KillRing.rotate e.killRing
    ({ deleted with killRing := ring }.insertYankedText ((KillRing.peek ring).getD [])).act
      (some .yank)

def undo : Editor :=
  let e := e.exitHistory
  match e.undoStack with
  | [] => e
  | snapshot :: stack =>
    { e with
      state := snapshot, undoStack := stack, lastAction := none, preferredVisualCol := none }

def newIndex (up : Bool) : ℤ := if up then e.historyIndex + 1 else e.historyIndex - 1

/-- Whether the history goes further in this direction. -/
def hasPrompt (up : Bool) : Prop :=
  e.history ≠ [] ∧ -1 ≤ e.newIndex up ∧ e.newIndex up < e.history.length

instance (up : Bool) : Decidable (e.hasPrompt up) := inferInstanceAs (Decidable (_ ∧ _))

def navigateHistory (up : Bool) : Editor :=
  let newIndex := e.newIndex up
  if e.hasPrompt up then
    let e := e.act none
    let e := if e.historyIndex = -1 ∧ newIndex ≥ 0 then e.pushUndoSnapshot else e
    { e with historyIndex := newIndex }.setTextInternal
      (if newIndex = -1 then [] else e.history.getD newIndex.toNat [])
  else e.act none

/-- The result of `applyCompletion` replaces the text and the cursor. -/
def applyCompletion (result : EditorState) : Editor :=
  let e := e.pushUndoSnapshot.act none
  { e with state := { e.state with lines := result.lines } }.setCursor result.cursorLine
    result.cursorCol

def addToHistory (text : JsText) : Editor :=
  let trimmed := trim (fun c => isWhiteSpaceCode c.toNat) text
  if trimmed = [] ∨ e.history.head? = some trimmed then e
  else { e with history := (trimmed :: e.history).take 100 }

/-- The markers of one paste are replaced; `taken` units belong to the last marker. -/
def replaceMarkers (digits content : JsText) : ℕ → JsText → JsText
  | _, [] => []
  | taken + 1, _ :: text => replaceMarkers digits content taken text
  | 0, c :: text =>
    match markerFrom (c :: text) with
    | none => c :: replaceMarkers digits content 0 text
    | some (d, rest) =>
      if d = digits then
        content ++ replaceMarkers digits content (text.length - rest.length) text
      else c :: replaceMarkers digits content 0 text

def expandPasteMarkers (text : JsText) : JsText :=
  e.pastes.entries.foldl
    (fun result paste => replaceMarkers (utf16 (toString paste.1)) paste.2 0 result) text

def getExpandedText : JsText := e.expandPasteMarkers e.state.getText

/-- The text that `submitValue` hands over. -/
def submitted : JsText := trim (fun c => isWhiteSpaceCode c.toNat) e.getExpandedText

def submitValue : Editor :=
  { e with
    state := ⟨[[]], 0, 0⟩, pastes := .empty, pasteCounter := 0, historyIndex := -1
    undoStack := [], lastAction := none }

def visualLines : Option (List VisualLine) :=
  buildVisualLineMap U e.pastes.keys e.lastWidth 0 e.state.lines

def moveToVisualLine (visualLines : List VisualLine) (current target : ℕ) : Editor :=
  match visualLines[current]?, visualLines[target]? with
  | some currentVL, some targetVL =>
    let maxCol := fun (i : ℕ) (vl : VisualLine) =>
      if isLastSegment visualLines i vl then vl.length else vl.length - 1
    let move := computeVerticalMoveColumn e.preferredVisualCol
      (e.state.cursorCol - currentVL.startCol) (maxCol current currentVL) (maxCol target targetVL)
    let logicalLine := e.state.lineAt targetVL.logicalLine
    let col := min (targetVL.startCol + move.1) logicalLine.length
    { e with
      state := ⟨e.state.lines, targetVL.logicalLine,
        snapToSegment (target < current) col (e.segment U logicalLine)⟩
      preferredVisualCol := move.2 }
  | _, _ => e

def moveToLineStart : Editor := (e.act none).setCursorCol 0

def moveToLineEnd : Editor := (e.act none).setCursorCol e.state.currentLine.length

def moveRight (visualLines : List VisualLine) : Editor :=
  let s := e.state
  if s.cursorCol < s.currentLine.length then
    e.setCursorCol (s.cursorCol + firstLength (e.segment U s.afterCursor))
  else if e.isLastLine then
    match visualLines[findCurrentVisualLine visualLines s.cursorLine s.cursorCol]? with
    | some vl => { e with preferredVisualCol := some (s.cursorCol - vl.startCol) }
    | none => e
  else e.setCursor (s.cursorLine + 1) 0

def moveLeft : Editor :=
  let s := e.state
  if s.cursorCol > 0 then
    e.setCursorCol (s.cursorCol - lastLength (e.segment U s.beforeCursor))
  else if s.cursorLine > 0 then
    e.setCursor (s.cursorLine - 1) (s.lineAt (s.cursorLine - 1)).length
  else e

/-- Without visual lines the move has failed after it has reset the last action. -/
def moveCursor (direction : Direction) : Editor :=
  let e := e.act none
  match e.visualLines U with
  | none => e
  | some visualLines =>
    let current := findCurrentVisualLine visualLines e.state.cursorLine e.state.cursorCol
    match direction with
    | .up => if current = 0 then e else e.moveToVisualLine U visualLines current (current - 1)
    | .down =>
      if current + 1 < visualLines.length then
        e.moveToVisualLine U visualLines current (current + 1)
      else e
    | .right => e.moveRight U visualLines
    | .left => e.moveLeft U

def pageScroll (up : Bool) (pageSize : ℕ) : Editor :=
  let e := e.act none
  match e.visualLines U with
  | none => e
  | some visualLines =>
    let current := findCurrentVisualLine visualLines e.state.cursorLine e.state.cursorCol
    e.moveToVisualLine U visualLines current
      (min (visualLines.length - 1) (if up then current - pageSize else current + pageSize))

/-- `line.indexOf(char, start)`; a start beyond the line counts as its end. -/
def indexFrom (char line : JsText) (start : ℕ) : Option ℕ :=
  (indexOf? char (line.drop start)).map (· + min start line.length)

/-- `line.lastIndexOf(char, start)`; a start below zero counts as zero. -/
def lastIndexFrom (char line : JsText) (start : ℕ) : Option ℕ :=
  (List.range (min start line.length + 1)).reverse.find? fun i => char.isPrefixOf (line.drop i)

def jumpToChar (char : JsText) (isForward : Bool) : Editor :=
  let e := e.act none
  let s := e.state
  let search := fun lineIdx =>
    let line := s.lineAt lineIdx
    let found :=
      if isForward then
        indexFrom char line (if lineIdx = s.cursorLine then s.cursorCol + 1 else 0)
      else
        lastIndexFrom char line (if lineIdx = s.cursorLine then s.cursorCol - 1 else line.length)
    found.map fun idx => (lineIdx, idx)
  let lineIdxs :=
    if isForward then List.range' s.cursorLine (s.lines.length - s.cursorLine)
    else (List.range (s.cursorLine + 1)).reverse
  match lineIdxs.findSome? search with
  | some (lineIdx, idx) => e.setCursor lineIdx idx
  | none => e

end Editor

inductive EditorOp where
  | insertCharacter (char : JsText)
  | insertTextAtCursor (text : JsText)
  | setText (text : JsText)
  | handlePaste (text : JsText)
  | addNewLine
  | handleBackspace
  | handleForwardDelete
  | deleteToStartOfLine
  | deleteToEndOfLine
  | deleteWordBackwards
  | deleteWordForward
  | yank
  | yankPop
  | undo
  | navigateHistory (up : Bool)
  | applyCompletion (result : EditorState)
  | addToHistory (text : JsText)
  | moveToLineStart
  | moveToLineEnd
  | moveWordBackwards
  | moveWordForwards
  | moveCursor (direction : Direction)
  | pageScroll (up : Bool) (pageSize : ℕ)
  | jumpToChar (char : JsText) (isForward : Bool)
  | render (layoutWidth : ℕ)
  | submitValue
deriving DecidableEq

def Editor.apply (U : TextUnits) (e : Editor) : EditorOp → Editor
  | .insertCharacter char => e.insertCharacter char
  | .insertTextAtCursor text => e.insertTextAtCursor text
  | .setText text => e.setText text
  | .handlePaste text => e.handlePaste text
  | .addNewLine => e.addNewLine
  | .handleBackspace => e.handleBackspace U
  | .handleForwardDelete => e.handleForwardDelete U
  | .deleteToStartOfLine => e.deleteToStartOfLine
  | .deleteToEndOfLine => e.deleteToEndOfLine
  | .deleteWordBackwards => e.deleteWordBackwards U
  | .deleteWordForward => e.deleteWordForward U
  | .yank => e.yank
  | .yankPop => e.yankPop
  | .undo => e.undo
  | .navigateHistory up => e.navigateHistory up
  | .applyCompletion result => e.applyCompletion result
  | .addToHistory text => e.addToHistory text
  | .moveToLineStart => e.moveToLineStart
  | .moveToLineEnd => e.moveToLineEnd
  | .moveWordBackwards => e.moveWordBackwards U
  | .moveWordForwards => e.moveWordForwards U
  | .moveCursor direction => e.moveCursor U direction
  | .pageScroll up pageSize => e.pageScroll U up pageSize
  | .jumpToChar char isForward => e.jumpToChar char isForward
  | .render layoutWidth => { e with lastWidth := layoutWidth }
  | .submitValue => e.submitValue

end Draht
