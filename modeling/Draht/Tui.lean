import Draht.ScrollScreen
import Draht.Text
import Draht.TextSearch

/-!
# Differential rendering

A frame is drawn by as few terminal operations as the frame before it allows: a first rendering
on a clean screen, a full redrawing, the clearing of lines at the end, or the redrawing of the
lines that changed. The escape sequences of the code are the operations of the terminal.
-/

namespace Draht

def asciiUnits (s : String) : JsText := s.toList.map fun c => c.toNat.toUInt16

namespace Tui

abbrev Ops := List (ScreenOp JsText)

def CURSOR_MARKER : JsText := asciiUnits "\x1b_pi:c\x07"

def SEGMENT_RESET : JsText := asciiUnits "\x1b[0m\x1b]8;;\x07"

def KITTY_PREFIX : JsText := asciiUnits "\x1b_G"

def ITERM2_PREFIX : JsText := asciiUnits "\x1b]1337;File="

/-- `line.includes(pattern)`. -/
def includes (line pattern : JsText) : Bool := (indexOf? pattern line).isSome

def isImageLine (line : JsText) : Bool :=
  if KITTY_PREFIX.isPrefixOf line || ITERM2_PREFIX.isPrefixOf line then true
  else includes line KITTY_PREFIX || includes line ITERM2_PREFIX

/-- What a rendering takes from outside: the terminal, the environment, and the overlays. -/
structure RenderEnv where
  columns : ℕ
  rows : ℕ
  visibleWidth : JsText → ℕ
  compositeOverlays : List JsText → List JsText
  isTermuxSession : Bool
  crashLogPath : String

structure State where
  previousLines : List JsText
  previousWidth : ℤ
  previousHeight : ℤ
  cursorRow : ℕ
  hardwareCursorRow : ℕ
  showHardwareCursor : Bool
  clearOnShrink : Bool
  maxLinesRendered : ℕ
  previousViewportTop : ℕ
  fullRedrawCount : ℕ
  stopped : Bool
  overlayStackLength : ℕ

def initial (showHardwareCursor clearOnShrink : Bool) : State where
  previousLines := []
  previousWidth := 0
  previousHeight := 0
  cursorRow := 0
  hardwareCursorRow := 0
  showHardwareCursor
  clearOnShrink
  maxLinesRendered := 0
  previousViewportTop := 0
  fullRedrawCount := 0
  stopped := false
  overlayStackLength := 0

def setClearOnShrink (tui : State) (enabled : Bool) : State := { tui with clearOnShrink := enabled }

/-- `requestRender(true)`, up to the rendering it asks for. -/
def forceRender (tui : State) : State :=
  { tui with
    previousLines := []
    previousWidth := -1
    previousHeight := -1
    cursorRow := 0
    hardwareCursorRow := 0
    maxLinesRendered := 0
    previousViewportTop := 0 }

structure CursorPos where
  row : ℕ
  col : ℕ

def applyLineResets (lines : List JsText) : List JsText :=
  lines.map fun line => if isImageLine line then line else line ++ SEGMENT_RESET

/-- The last row from `viewportTop` on with the marker, and where it is in the line. -/
def findMarker (lines : List JsText) (viewportTop : ℕ) : Option (ℕ × ℕ) :=
  ((List.range lines.length).reverse.filter (fun row => viewportTop ≤ row)).findSome? fun row =>
    (indexOf? CURSOR_MARKER (lines[row]?.getD [])).map fun markerIndex => (row, markerIndex)

def extractCursorPosition (visibleWidth : JsText → ℕ) (lines : List JsText) (height : ℕ) :
    Option CursorPos × List JsText :=
  match findMarker lines (lines.length - height) with
  | none => (none, lines)
  | some (row, markerIndex) =>
    let line := lines[row]?.getD []
    (some { row, col := visibleWidth (line.take markerIndex) },
      lines.set row (line.take markerIndex ++ line.drop (markerIndex + CURSOR_MARKER.length)))

def lineAt (lines : List JsText) (i : ℕ) : JsText := lines[i]?.getD []

def changedRows (previousLines newLines : List JsText) : List ℕ :=
  (List.range (max newLines.length previousLines.length)).filter fun i =>
    lineAt previousLines i ≠ lineAt newLines i

/-- The first and the last changed row; `none` stands for `firstChanged === -1`. -/
def changedRange (previousLines newLines : List JsText) : Option (ℕ × ℕ) :=
  let rows := changedRows previousLines newLines
  if previousLines.length < newLines.length then
    some (rows.head?.getD previousLines.length, newLines.length - 1)
  else
    rows.head?.bind fun firstChanged =>
      rows.getLast?.map fun lastChanged => (firstChanged, lastChanged)

def crlf : Ops := [.carriageReturn, .lineFeed]

/-- Relative movement; none for a difference of zero. -/
def moveBy (lineDiff : ℤ) : Ops :=
  if 0 < lineDiff then [.cursorDown lineDiff.toNat]
  else if lineDiff < 0 then [.cursorUp (-lineDiff).toNat]
  else []

/-- The loop over lines, which are separated by line breaks. -/
def writeLines (erase : Ops) : List JsText → Ops
  | [] => []
  | line :: lines =>
    erase ++ .text line :: lines.flatMap fun line => crlf ++ erase ++ [.text line]

def clearLines : ℕ → Ops
  | 0 => []
  | 1 => [.carriageReturn, .eraseLine]
  | extraLines + 2 =>
    .carriageReturn :: .eraseLine :: .cursorDown 1 :: clearLines (extraLines + 1)

def clearExtraLines (extraLines : ℕ) : Ops :=
  (if 0 < extraLines then [.cursorDown 1] else []) ++ clearLines extraLines ++
    if 0 < extraLines then [.cursorUp extraLines] else []

def computeLineDiff (hardwareCursorRow prevViewportTop viewportTop targetRow : ℕ) : ℤ :=
  let currentScreenRow : ℤ := hardwareCursorRow - prevViewportTop
  let targetScreenRow : ℤ := targetRow - viewportTop
  targetScreenRow - currentScreenRow

def positionHardwareCursor (tui : State) (cursorPos : Option CursorPos) (totalLines : ℕ) :
    State × Ops :=
  match cursorPos with
  | none => (tui, [.hideCursor])
  | some pos =>
    if totalLines = 0 then (tui, [.hideCursor])
    else
      let targetRow := min pos.row (totalLines - 1)
      ({ tui with hardwareCursorRow := targetRow },
        moveBy ((targetRow : ℤ) - tui.hardwareCursorRow) ++ [.cursorColumn (pos.col + 1)] ++
          [if tui.showHardwareCursor then .showCursor else .hideCursor])

def remember (env : RenderEnv) (tui : State) (newLines : List JsText) : State :=
  { tui with
    previousLines := newLines
    previousWidth := env.columns
    previousHeight := env.rows }

variable (env : RenderEnv)

def fullRender (tui : State) (newLines : List JsText) (cursorPos : Option CursorPos)
    (clear : Bool) : State × Ops :=
  let ops : Ops := .beginSync ::
    (if clear then [.eraseScreen, .cursorHome, .eraseScrollback] else []) ++
      writeLines [] newLines ++ [.endSync]
  let cursorRow := newLines.length - 1
  let bufferLength := max env.rows newLines.length
  let (tui, cursorOps) := positionHardwareCursor
    { tui with
      fullRedrawCount := tui.fullRedrawCount + 1
      cursorRow
      hardwareCursorRow := cursorRow
      maxLinesRendered :=
        if clear then newLines.length else max tui.maxLinesRendered newLines.length
      previousViewportTop := bufferLength - env.rows } cursorPos newLines.length
  (remember env tui newLines, ops ++ cursorOps)

def renderDeletedLines (tui : State) (newLines : List JsText) (cursorPos : Option CursorPos)
    (prevViewportTop : ℕ) : State × Ops :=
  let finish := fun (tui : State) (ops : Ops) =>
    let (tui, cursorOps) := positionHardwareCursor tui cursorPos newLines.length
    ({ remember env tui newLines with previousViewportTop := prevViewportTop }, ops ++ cursorOps)
  if newLines.length < tui.previousLines.length then
    let targetRow := newLines.length - 1
    let extraLines := tui.previousLines.length - newLines.length
    if targetRow < prevViewportTop then fullRender env tui newLines cursorPos true
    else if env.rows < extraLines then fullRender env tui newLines cursorPos true
    else
      let lineDiff :=
        computeLineDiff tui.hardwareCursorRow prevViewportTop prevViewportTop targetRow
      finish { tui with cursorRow := targetRow, hardwareCursorRow := targetRow }
        (.beginSync :: moveBy lineDiff ++ [.carriageReturn] ++ clearExtraLines extraLines ++
          [.endSync])
  else finish tui []

def stop (tui : State) : State × Ops :=
  ({ tui with stopped := true },
    (if 0 < tui.previousLines.length then
      moveBy ((tui.previousLines.length : ℤ) - tui.hardwareCursorRow) ++ crlf
    else []) ++ [.showCursor])

/-- A rendering that stops the program. -/
structure RenderCrash where
  message : String
  tui : State
  ops : Ops

def crashMessage (i : ℕ) (line : JsText) : String :=
  "\n".intercalate
    ["Rendered line " ++ toString i ++ " exceeds terminal width (" ++
        toString (env.visibleWidth line) ++ " > " ++ toString env.columns ++ ").",
      "",
      "This is likely caused by a custom TUI component not truncating its output.",
      "Use visibleWidth() to measure and truncateToWidth() to truncate lines.",
      "",
      "Debug log written to: " ++ env.crashLogPath]

/-- The scrolling before a row below the screen is drawn, with the rows it leaves. -/
def scrollTo (hardwareCursorRow prevViewportTop moveTargetRow : ℕ) : ℕ × ℕ × Ops :=
  let prevViewportBottom : ℤ := prevViewportTop + env.rows - 1
  if prevViewportBottom < moveTargetRow then
    let currentScreenRow : ℤ := max 0 (min (env.rows - 1) (hardwareCursorRow - prevViewportTop))
    let moveToBottom : ℤ := env.rows - 1 - currentScreenRow
    let scroll := (moveTargetRow - prevViewportBottom).toNat
    (moveTargetRow, prevViewportTop + scroll,
      (if 0 < moveToBottom then [.cursorDown moveToBottom.toNat] else []) ++
        (List.replicate scroll crlf).flatten)
  else (hardwareCursorRow, prevViewportTop, [])

/-- The clearing of the lines that are left of a longer frame. -/
def clearRest (renderEnd previousLength newLength : ℕ) : ℕ × Ops :=
  if newLength < previousLength then
    let extraLines := previousLength - newLength
    (if renderEnd < newLength - 1 then newLength - 1 else renderEnd,
      (if renderEnd < newLength - 1 then [.cursorDown (newLength - 1 - renderEnd)] else []) ++
        (List.replicate extraLines (crlf ++ [.eraseLine])).flatten ++ [.cursorUp extraLines])
  else (renderEnd, [])

/-- The lines from the first changed one to the last are drawn. -/
def renderChangedLines (tui : State) (newLines : List JsText) (cursorPos : Option CursorPos)
    (prevViewportTop firstChanged lastChanged : ℕ) : Except RenderCrash (State × Ops) :=
  let appendStart := tui.previousLines.length < newLines.length &&
    firstChanged = tui.previousLines.length && 0 < firstChanged
  let moveTargetRow := if appendStart then firstChanged - 1 else firstChanged
  let (hardwareCursorRow, prevViewportTop, scrollOps) :=
    scrollTo env tui.hardwareCursorRow prevViewportTop moveTargetRow
  let lineDiff := computeLineDiff hardwareCursorRow prevViewportTop prevViewportTop moveTargetRow
  let renderEnd := min lastChanged (newLines.length - 1)
  let changedLines := (newLines.drop firstChanged).take (renderEnd + 1 - firstChanged)
  match changedLines.findIdx? fun line =>
      !isImageLine line && env.columns < env.visibleWidth line with
  | some k =>
    let (stopped, ops) := stop tui
    let i := firstChanged + k
    .error { message := crashMessage env i (lineAt newLines i), tui := stopped, ops }
  | none =>
    let (finalCursorRow, clearOps) :=
      clearRest renderEnd tui.previousLines.length newLines.length
    let ops := .beginSync :: scrollOps ++ moveBy lineDiff ++
      (if appendStart then crlf else [.carriageReturn]) ++
        writeLines [.eraseLine] changedLines ++ clearOps ++ [.endSync]
    let (tui, cursorOps) := positionHardwareCursor
      { tui with
        cursorRow := newLines.length - 1
        hardwareCursorRow := finalCursorRow
        maxLinesRendered := max tui.maxLinesRendered newLines.length
        previousViewportTop := max prevViewportTop (finalCursorRow + 1 - env.rows) }
      cursorPos newLines.length
    .ok (remember env tui newLines, ops ++ cursorOps)

/-- The lines to draw, with the position of the cursor in them. -/
def prepareLines (tui : State) (rendered : List JsText) : Option CursorPos × List JsText :=
  let composed := if 0 < tui.overlayStackLength then env.compositeOverlays rendered else rendered
  let (cursorPos, lines) := extractCursorPosition env.visibleWidth composed env.rows
  (cursorPos, applyLineResets lines)

/-- `rendered` is what the components have rendered for the width of the terminal. -/
def doRender (tui : State) (rendered : List JsText) : Except RenderCrash (State × Ops) :=
  if tui.stopped then .ok (tui, [])
  else
    let widthChanged : Bool := tui.previousWidth ≠ 0 && tui.previousWidth ≠ env.columns
    let heightChanged : Bool := tui.previousHeight ≠ 0 && tui.previousHeight ≠ env.rows
    let previousBufferLength : ℤ :=
      if 0 < tui.previousHeight then tui.previousViewportTop + tui.previousHeight else env.rows
    let prevViewportTop :=
      if heightChanged then (previousBufferLength - env.rows).toNat else tui.previousViewportTop
    let (cursorPos, newLines) := prepareLines env tui rendered
    if tui.previousLines.length = 0 && !widthChanged && !heightChanged then
      .ok (fullRender env tui newLines cursorPos false)
    else if widthChanged then .ok (fullRender env tui newLines cursorPos true)
    else if heightChanged && !env.isTermuxSession then
      .ok (fullRender env tui newLines cursorPos true)
    else if tui.clearOnShrink && newLines.length < tui.maxLinesRendered &&
        tui.overlayStackLength = 0 then
      .ok (fullRender env tui newLines cursorPos true)
    else
      match changedRange tui.previousLines newLines with
      | none =>
        let (tui, cursorOps) := positionHardwareCursor tui cursorPos newLines.length
        .ok ({ tui with previousViewportTop := prevViewportTop, previousHeight := env.rows },
          cursorOps)
      | some (firstChanged, lastChanged) =>
        if newLines.length ≤ firstChanged then
          .ok (renderDeletedLines env tui newLines cursorPos prevViewportTop)
        else if firstChanged < prevViewportTop then
          .ok (fullRender env tui newLines cursorPos true)
        else
          renderChangedLines env tui newLines cursorPos prevViewportTop firstChanged lastChanged

end Tui

end Draht
