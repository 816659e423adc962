import Draht.AnsiText

/-!
# Lines with an overlay

A line of an overlay is put into a line of the base at a column. The base is read once, and gives
what stands before the overlay and what stands behind it.
-/

namespace Draht.AnsiText

variable {γ : Type} (G : Graphemes γ)

def Cell.graphemeWidth : Cell γ → ℕ
  | .grapheme g => G.graphemeWidth g
  | .space => 1
  | .tab | .newline | .code _ => 0

/-- A loop over codes and graphemes, which ends behind a grapheme when `stop` holds. -/
def walk {σ : Type} (step : σ → Cell γ → σ) (stop : σ → Bool) : σ → Text γ → σ
  | s, [] => s
  | s, .code c :: rest => walk step stop (step s (.code c)) rest
  | s, c :: rest => if stop (step s c) then step s c else walk step stop (step s c) rest

structure SliceState (γ : Type) where
  result : Text γ
  resultWidth : ℕ
  currentCol : ℕ
  pendingAnsi : Text γ

def sliceStep (startCol endCol : ℕ) (strict : Bool) (s : SliceState γ) (c : Cell γ) :
    SliceState γ :=
  match c with
  | .code code =>
    if startCol ≤ s.currentCol ∧ s.currentCol < endCol then
      { s with result := s.result ++ [.code code] }
    else if s.currentCol < startCol then
      { s with pendingAnsi := s.pendingAnsi ++ [.code code] }
    else s
  | c =>
    let w := c.graphemeWidth G
    let inRange := startCol ≤ s.currentCol ∧ s.currentCol < endCol
    let fits := strict = false ∨ s.currentCol + w ≤ endCol
    let s := if inRange ∧ fits then
      { s with
        result := s.result ++ s.pendingAnsi ++ [c], resultWidth := s.resultWidth + w
        pendingAnsi := [] } else s
    { s with currentCol := s.currentCol + w }

def sliceWithWidth (line : Text γ) (startCol length : ℕ) (strict : Bool) : Text γ × ℕ :=
  if length = 0 then ([], 0)
  else
    let endCol := startCol + length
    let s := walk (sliceStep G startCol endCol strict) (fun s => endCol ≤ s.currentCol)
      { result := [], resultWidth := 0, currentCol := 0, pendingAnsi := [] } line
    (s.result, s.resultWidth)

def sliceByColumn (line : Text γ) (startCol length : ℕ) (strict : Bool) : Text γ :=
  (sliceWithWidth G line startCol length strict).1

structure SegmentState (γ : Type) where
  before : Text γ
  beforeWidth : ℕ
  after : Text γ
  afterWidth : ℕ
  currentCol : ℕ
  pendingAnsiBefore : Text γ
  afterStarted : Bool
  styleTracker : AnsiCodeTracker

def segmentStep (beforeEnd afterStart : ℕ) (afterEnd : ℤ) (strictAfter : Bool)
    (s : SegmentState γ) (c : Cell γ) : SegmentState γ :=
  match c with
  | .code code =>
    let s := { s with styleTracker := s.styleTracker.process code }
    if s.currentCol < beforeEnd then
      { s with pendingAnsiBefore := s.pendingAnsiBefore ++ [.code code] }
    else if afterStart ≤ s.currentCol ∧ s.currentCol < afterEnd ∧ s.afterStarted then
      { s with after := s.after ++ [.code code] }
    else s
  | c =>
    let w := c.graphemeWidth G
    let s := if s.currentCol < beforeEnd then
        { s with
          before := s.before ++ s.pendingAnsiBefore ++ [c], beforeWidth := s.beforeWidth + w
          pendingAnsiBefore := [] }
      else if (afterStart ≤ s.currentCol ∧ s.currentCol < afterEnd) ∧
          (strictAfter = false ∨ s.currentCol + w ≤ afterEnd) then
        let after := if s.afterStarted then s.after
          else s.after ++ s.styleTracker.getActiveCodes
        { s with after := after ++ [c], afterWidth := s.afterWidth + w, afterStarted := true }
      else s
    { s with currentCol := s.currentCol + w }

/-- What stands before `beforeEnd`, and what stands in `afterLen` columns from `afterStart`. -/
structure Segments (γ : Type) where
  before : Text γ
  beforeWidth : ℕ
  after : Text γ
  afterWidth : ℕ

def extractSegments (line : Text γ) (beforeEnd afterStart : ℕ) (afterLen : ℤ)
    (strictAfter : Bool) : Segments γ :=
  let afterEnd := afterStart + afterLen
  let s := walk (segmentStep G beforeEnd afterStart afterEnd strictAfter)
    (fun s => if afterLen ≤ 0 then beforeEnd ≤ s.currentCol else afterEnd ≤ s.currentCol)
    { before := [], beforeWidth := 0, after := [], afterWidth := 0, currentCol := 0
      pendingAnsiBefore := [], afterStarted := false, styleTracker := .reset } line
  { before := s.before, beforeWidth := s.beforeWidth, after := s.after
    afterWidth := s.afterWidth }

/-- `SEGMENT_RESET`: the plain style, and no link. -/
def segmentReset : Text γ := [.code (.sgr ["0"]), .code (.osc8 ";;")]

def spaces (n : ℕ) : Text γ := List.replicate n .space

def compositeLineAt (baseLine overlayLine : Text γ) (startCol overlayWidth totalWidth : ℕ) :
    Text γ :=
  let afterStart := startCol + overlayWidth
  let base := extractSegments G baseLine startCol afterStart ((totalWidth : ℤ) - afterStart) true
  let (overlay, overlayLength) := sliceWithWidth G overlayLine 0 overlayWidth true
  let beforePad := startCol - base.beforeWidth
  let overlayPad := overlayWidth - overlayLength
  let actualBeforeWidth := max startCol base.beforeWidth
  let actualOverlayWidth := max overlayWidth overlayLength
  let afterTarget := totalWidth - actualBeforeWidth - actualOverlayWidth
  let afterPad := afterTarget - base.afterWidth
  let result := base.before ++ spaces beforePad ++ segmentReset ++ overlay ++ spaces overlayPad ++
    segmentReset ++ base.after ++ spaces afterPad
  if visibleWidth G result ≤ totalWidth then result
  else sliceByColumn G result 0 totalWidth true

end Draht.AnsiText
