import Draht.Editor
import Draht.SplitOn

/-!
# The text of the editor as one string

The lines and the cursor are a string and an offset in it. What is left of the cursor and what is
right of it say how the parts of an operation change them.
-/

namespace Draht
open List

structure FlatText where
  text : JsText
  offset : ℕ
deriving DecidableEq

namespace FlatText

def left (f : FlatText) : JsText := f.text.take f.offset

def right (f : FlatText) : JsText := f.text.drop f.offset

/-- The units of the line of the cursor before it, and after it. -/
def lineBefore (f : FlatText) : JsText := f.left.rtakeWhile (· ≠ 10)

def lineAfter (f : FlatText) : JsText := f.right.takeWhile (· ≠ 10)

/-- `back` units before the cursor and `forth` units after it are replaced; the cursor goes to the
end of what is inserted. -/
def splice (f : FlatText) (back forth : ℕ) (inserted : JsText) : FlatText :=
  { text := f.text.take (f.offset - back) ++ inserted ++ f.text.drop (f.offset + forth)
    offset := f.offset - back + inserted.length }

end FlatText

/-- Each line with its newline, as before the line of the cursor. -/
def endedLines (lines : List JsText) : JsText := lines.flatMap fun line => line ++ [10]

/-- Each line after a newline, as after the line of the cursor. -/
def begunLines (lines : List JsText) : JsText := lines.flatMap fun line => 10 :: line

theorem linesText_cons (line : JsText) (lines : List JsText) :
    linesText (line :: lines) = line ++ begunLines lines := by
  induction lines generalizing line with
  | nil => simp [linesText, begunLines]
  | cons next lines ih =>
    have hrest := ih next
    unfold linesText begunLines at hrest ⊢
    rw [intercalate_cons_cons, hrest]
    simp

theorem linesText_append (before : List JsText) (line : JsText) (after : List JsText) :
    linesText (before ++ line :: after) = endedLines before ++ line ++ begunLines after := by
  induction before with
  | nil => exact linesText_cons line after
  | cons first before ih =>
    have hcons : linesText (first :: (before ++ line :: after)) =
        first ++ 10 :: linesText (before ++ line :: after) := by
      unfold linesText
      cases before <;> simp [intercalate_cons_cons]
    rw [cons_append, hcons, ih]
    simp [endedLines]

theorem not_mem_of_mem_textLines {text line : JsText} (h : line ∈ textLines text) : 10 ∉ line :=
  not_mem_of_mem_splitOn h

theorem textLines_ne_nil (text : JsText) : textLines text ≠ [] := splitOn_ne_nil _ _

theorem linesText_textLines (text : JsText) : linesText (textLines text) = text :=
  intercalate_splitOn 10

namespace EditorState

def left (s : EditorState) : JsText := endedLines (s.lines.take s.cursorLine) ++ s.beforeCursor

def right (s : EditorState) : JsText :=
  s.afterCursor ++ begunLines (s.lines.drop (s.cursorLine + 1))

def flat (s : EditorState) : FlatText :=
  { text := s.getText, offset := (endedLines (s.lines.take s.cursorLine)).length + s.cursorCol }

/-- There is a line, no line has a newline, and the cursor is in the text. -/
structure Sound (s : EditorState) : Prop where
  row : s.cursorLine < s.lines.length
  col : s.cursorCol ≤ s.currentLine.length
  noNewline : ∀ line ∈ s.lines, 10 ∉ line

/-- The line of the cursor, between the lines before and after it. -/
def focus (before : List JsText) (line : JsText) (after : List JsText) (col : ℕ) : EditorState :=
  ⟨before ++ line :: after, before.length, col⟩

section Focus

variable (before : List JsText) (line : JsText) (after : List JsText) (col : ℕ)

@[simp] theorem currentLine_focus : (focus before line after col).currentLine = line := by
  simp [currentLine, lineAt, focus]

@[simp] theorem beforeCursor_focus :
    (focus before line after col).beforeCursor = line.take col := by
  rw [beforeCursor, currentLine_focus]
  rfl

@[simp] theorem afterCursor_focus :
    (focus before line after col).afterCursor = line.drop col := by
  rw [afterCursor, currentLine_focus]
  rfl

@[simp] theorem left_focus :
    (focus before line after col).left = endedLines before ++ line.take col := by
  rw [left, beforeCursor_focus]
  simp [focus]

@[simp] theorem right_focus :
    (focus before line after col).right = line.drop col ++ begunLines after := by
  rw [right, afterCursor_focus]
  simp [focus]

variable {before line after col}

theorem sound_focus (hcol : col ≤ line.length)
    (hlines : ∀ l ∈ before ++ line :: after, 10 ∉ l) : (focus before line after col).Sound where
  row := by simp [focus]
  col := by
    rw [currentLine_focus]
    exact hcol
  noNewline := hlines

end Focus

variable {s : EditorState}

theorem Sound.exists_focus (h : s.Sound) :
    ∃ before line after col, s = focus before line after col ∧ col ≤ line.length ∧
      ∀ l ∈ before ++ line :: after, 10 ∉ l := by
  have hrow := h.row
  have hlines : s.lines.take s.cursorLine ++ s.lines[s.cursorLine] ::
      s.lines.drop (s.cursorLine + 1) = s.lines := by
    rw [cons_getElem_drop_succ, take_append_drop]
  have hcurrent : s.currentLine = s.lines[s.cursorLine] := by
    simp [currentLine, lineAt, hrow]
  refine ⟨s.lines.take s.cursorLine, s.lines[s.cursorLine], s.lines.drop (s.cursorLine + 1),
    s.cursorCol, ?_, hcurrent ▸ h.col, ?_⟩
  · unfold focus
    rw [hlines, length_take, Nat.min_eq_left hrow.le]
  · rw [hlines]
    exact h.noNewline

theorem Sound.getText_eq (h : s.Sound) : s.getText = s.left ++ s.right := by
  obtain ⟨before, line, after, col, rfl, -, -⟩ := h.exists_focus
  rw [left_focus, right_focus]
  calc (focus before line after col).getText
      = endedLines before ++ line ++ begunLines after := linesText_append before line after
    _ = endedLines before ++ (line.take col ++ line.drop col) ++ begunLines after := by
        rw [take_append_drop]
    _ = _ := by simp only [append_assoc]

theorem Sound.offset_eq (h : s.Sound) : s.flat.offset = s.left.length := by
  unfold flat left beforeCursor
  rw [length_append, length_take, Nat.min_eq_left h.col]

theorem Sound.left_flat (h : s.Sound) : s.flat.left = s.left := by
  rw [FlatText.left, h.offset_eq]
  exact (congrArg (List.take _) h.getText_eq).trans take_left

theorem Sound.right_flat (h : s.Sound) : s.flat.right = s.right := by
  rw [FlatText.right, h.offset_eq]
  exact (congrArg (List.drop _) h.getText_eq).trans drop_left

theorem Sound.flat_splice {s' : EditorState} (h : s.Sound) (h' : s'.Sound) {back forth : ℕ}
    {inserted : JsText} (hleft : s'.left = s.left.take (s.left.length - back) ++ inserted)
    (hright : s'.right = s.right.drop forth) : s'.flat = s.flat.splice back forth inserted := by
  have htext : s.flat.text = s.left ++ s.right := h.getText_eq
  have htake : (s.left ++ s.right).take (s.left.length - back) =
      s.left.take (s.left.length - back) :=
    take_append_of_le_length (Nat.sub_le _ _)
  have hdrop : (s.left ++ s.right).drop (s.left.length + forth) = s.right.drop forth := by
    rw [← drop_drop, drop_left]
  have htext' : s'.flat.text = s.left.take (s.left.length - back) ++ inserted ++
      s.right.drop forth := by
    rw [← hleft, ← hright]
    exact h'.getText_eq
  have hoffset' : s'.flat.offset = s.left.length - back + inserted.length := by
    rw [h'.offset_eq, hleft, length_append, length_take,
      Nat.min_eq_left (Nat.sub_le _ _)]
  unfold FlatText.splice
  rw [h.offset_eq, htext, htake, hdrop, ← htext', ← hoffset']

end EditorState

end Draht
