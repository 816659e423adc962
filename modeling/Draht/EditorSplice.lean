import Draht.GuardedRun
import Draht.EditorFlat
import Draht.EditorSegments

/-!
# The editor edits one string

Every editing operation is a splice of the joined text at the offset of the cursor. The lines stay
sound under all operations.
-/

namespace Draht
open List

@[simp] theorem endedLines_append (xs ys : List JsText) :
    endedLines (xs ++ ys) = endedLines xs ++ endedLines ys := by
  simp [endedLines]

@[simp] theorem endedLines_singleton (line : JsText) : endedLines [line] = line ++ [10] := by
  simp [endedLines]

@[simp] theorem begunLines_cons (line : JsText) (lines : List JsText) :
    begunLines (line :: lines) = 10 :: (line ++ begunLines lines) := by
  simp [begunLines]

namespace EditorState

/-- The state after a splice is sound, and its sides are those of the splice. -/
structure Splices (s s' : EditorState) (back forth : ℕ) (inserted : JsText) : Prop where
  sound : s'.Sound
  left : s'.left = s.left.take (s.left.length - back) ++ inserted
  right : s'.right = s.right.drop forth

theorem Splices.flat {s s' : EditorState} {back forth : ℕ} {inserted : JsText} (h : s.Sound)
    (hs : Splices s s' back forth inserted) : s'.flat = s.flat.splice back forth inserted :=
  h.flat_splice hs.sound hs.left hs.right

section Focus

variable {before : List JsText} {line : JsText} {after : List JsText} {col : ℕ}

@[simp] theorem setLine_focus (x : JsText) :
    (focus before line after col).setLine before.length x = focus before x after col := by
  simp [setLine, focus]

@[simp] theorem cursorLine_focus : (focus before line after col).cursorLine = before.length := rfl

@[simp] theorem cursorCol_focus : (focus before line after col).cursorCol = col := rfl

theorem splices_line {line' : JsText} {col' back forth : ℕ} {inserted : JsText}
    (hcol : col ≤ line.length) (hno : ∀ l ∈ before ++ line :: after, 10 ∉ l) (hline' : 10 ∉ line')
    (hback : back ≤ col) (hleft : line'.take col' = line.take (col - back) ++ inserted)
    (hright : line'.drop col' = line.drop (col + forth)) (hcol' : col' ≤ line'.length)
    (hforth : col + forth ≤ line.length) :
    Splices (focus before line after col) (focus before line' after col') back forth inserted where
  sound := by
    refine sound_focus hcol' fun l hl => ?_
    obtain hl | hl := mem_append.mp hl
    · exact hno l (mem_append_left _ hl)
    · obtain rfl | hl := mem_cons.mp hl
      · exact hline'
      · exact hno l (mem_append_right _ (mem_cons_of_mem _ hl))
  left := by
    have htake : (line.take col).take (col - back) = line.take (col - back) := by
      rw [take_take, Nat.min_eq_left (Nat.sub_le _ _)]
    rw [left_focus, left_focus, hleft, length_append, length_take,
      Nat.min_eq_left hcol, Nat.add_sub_assoc hback, take_length_add_append, htake,
      append_assoc]
  right := by
    rw [right_focus, right_focus, hright, drop_append_of_le_length, drop_drop]
    rw [length_drop]
    omega

end Focus

end EditorState

namespace Editor

open EditorState

variable {e : Editor}

theorem splices_insertLines (h : e.state.Sound) {lines : List JsText} (hne : lines ≠ [])
    (hlines : ∀ l ∈ lines, 10 ∉ l) :
    Splices e.state (e.insertLines lines).state 0 0 (linesText lines) := by
  obtain ⟨before, line, after, col, hs, hcol, hno⟩ := h.exists_focus
  obtain ⟨first, rest, rfl⟩ := exists_cons_of_ne_nil hne
  have hline : 10 ∉ line := hno line (by simp)
  have hfirst : 10 ∉ first := hlines first mem_cons_self
  have htake : 10 ∉ line.take col := fun hmem => hline (mem_of_mem_take hmem)
  have hdrop : 10 ∉ line.drop col := fun hmem => hline (mem_of_mem_drop hmem)
  have hlength : (line.take col).length = col := by
    rw [length_take, Nat.min_eq_left hcol]
  cases rest with
  | nil =>
    have hstate : (e.insertLines [first]).state =
        focus before (line.take col ++ first ++ line.drop col) after (col + first.length) := by
      unfold insertLines
      simp only [hs, beforeCursor_focus, afterCursor_focus, cursorLine_focus, setLine_focus]
      rfl
    rw [hstate, hs]
    have hsides : (line.take col ++ first).length = col + first.length := by
      rw [length_append, hlength]
    refine splices_line hcol hno (by simp [htake, hfirst, hdrop]) (Nat.zero_le _) ?_ ?_ ?_ hcol
    · rw [← hsides, take_left]
      simp [linesText]
    · rw [← hsides, drop_left]
      rfl
    · rw [← hsides]
      exact (prefix_append _ _).length_le
  | cons second rest =>
    obtain ⟨middle, last, hrest⟩ : ∃ middle last, second :: rest = middle ++ [last] :=
      ⟨_, _, (dropLast_append_getLast (cons_ne_nil second rest)).symm⟩
    have hstate : (e.insertLines (first :: second :: rest)).state =
        focus (before ++ (line.take col ++ first) :: middle) (last ++ line.drop col) after
          last.length := by
      unfold insertLines setCursor setCursorCol
      simp only [hs, beforeCursor_focus, afterCursor_focus, cursorLine_focus, hrest,
        getLast?_concat, Option.getD_some, dropLast_concat]
      simp [focus, splice]
    rw [hrest] at hlines hstate ⊢
    have hlast : 10 ∉ last := hlines last (by simp)
    have hmiddle : ∀ l ∈ middle, 10 ∉ l := fun l hl => hlines l (by simp [hl])
    have htext : linesText (first :: (middle ++ [last])) =
        endedLines (first :: middle) ++ last := by
      have h := linesText_append (first :: middle) last []
      rwa [show begunLines [] = [] from rfl, append_nil] at h
    rw [hstate, hs, htext]
    refine ⟨sound_focus (by simp) ?_, ?_, ?_⟩
    · intro l hl
      simp only [mem_append, mem_cons] at hl
      obtain (hl | rfl | hl) | rfl | hl := hl
      · exact hno l (by simp [hl])
      · simp [htake, hfirst]
      · exact hmiddle l hl
      · simp [hlast, hdrop]
      · exact hno l (by simp [hl])
    · rw [left_focus, left_focus, Nat.sub_zero, take_length]
      simp [endedLines]
    · simp

theorem splices_cutBack (h : e.state.Sound) {back : ℕ} (hback : back ≤ e.state.cursorCol) :
    Splices e.state ((e.cut (e.state.cursorCol - back) e.state.cursorCol).setCursorCol
      (e.state.cursorCol - back)).state back 0 [] := by
  obtain ⟨before, line, after, col, hs, hcol, hno⟩ := h.exists_focus
  have hline : 10 ∉ line := hno line (by simp)
  rw [hs, cursorCol_focus] at hback ⊢
  have hlength : (line.take (col - back)).length = col - back := by
    rw [length_take]
    omega
  have hstate : ((e.cut (col - back) col).setCursorCol (col - back)).state =
      focus before (line.take (col - back) ++ line.drop col) after (col - back) := by
    unfold cut setCursorCol
    simp only [hs, currentLine_focus, cursorLine_focus, setLine_focus]
    rfl
  rw [hstate]
  refine splices_line hcol hno ?_ hback ?_ ?_ ?_ hcol
  · simp only [mem_append, not_or]
    exact ⟨fun hm => hline (mem_of_mem_take hm), fun hm => hline (mem_of_mem_drop hm)⟩
  · rw [append_nil, take_append_of_le_length hlength.ge, take_take, Nat.min_self]
  · rw [drop_append_of_le_length hlength.ge, drop_of_length_le hlength.le]
    rfl
  · rw [length_append, hlength]
    exact Nat.le_add_right _ _

theorem splices_cutForth (h : e.state.Sound) {forth : ℕ}
    (hforth : e.state.cursorCol + forth ≤ e.state.currentLine.length) :
    Splices e.state (e.cut e.state.cursorCol (e.state.cursorCol + forth)).state 0 forth [] := by
  obtain ⟨before, line, after, col, hs, hcol, hno⟩ := h.exists_focus
  have hline : 10 ∉ line := hno line (by simp)
  rw [hs, cursorCol_focus, currentLine_focus] at hforth
  rw [hs, cursorCol_focus]
  have hlength : (line.take col).length = col := by
    rw [length_take, Nat.min_eq_left hcol]
  have hstate : (e.cut col (col + forth)).state =
      focus before (line.take col ++ line.drop (col + forth)) after col := by
    unfold cut
    simp [hs]
  rw [hstate]
  refine splices_line hcol hno ?_ (Nat.zero_le _) ?_ ?_ ?_ hforth
  · simp only [mem_append, not_or]
    exact ⟨fun hm => hline (mem_of_mem_take hm), fun hm => hline (mem_of_mem_drop hm)⟩
  · rw [append_nil, Nat.sub_zero, take_append_of_le_length hlength.ge, take_take,
      Nat.min_self]
  · rw [drop_append_of_le_length hlength.ge, drop_of_length_le hlength.le]
    rfl
  · rw [length_append, hlength]
    exact Nat.le_add_right _ _

theorem splices_mergeWithPrevious (h : e.state.Sound) (hcol : e.state.cursorCol = 0)
    (hrow : 0 < e.state.cursorLine) : Splices e.state e.mergeWithPrevious.state 1 0 [] := by
  obtain ⟨before, line, after, col, hs, -, hno⟩ := h.exists_focus
  rw [hs, cursorCol_focus] at hcol
  rw [hs, cursorLine_focus] at hrow
  obtain rfl | ⟨before, previous, rfl⟩ := eq_nil_or_concat' before
  · exact absurd hrow (Nat.lt_irrefl 0)
  have hstate : e.mergeWithPrevious.state =
      focus before (previous ++ line) after previous.length := by
    unfold mergeWithPrevious setCursor setCursorCol
    simp only [hs, currentLine_focus, cursorLine_focus]
    simp only [focus, splice, setLine, lineAt, EditorState.mk.injEq]
    simp [take_length_add_append, Nat.add_assoc, drop_length_add_append]
  rw [hstate, hs, hcol]
  refine ⟨sound_focus (by simp) ?_, ?_, ?_⟩
  · intro l hl
    simp only [mem_append, mem_cons] at hl
    obtain hl | rfl | hl := hl
    · exact hno l (by simp [hl])
    · simp [hno previous (by simp), hno line (by simp)]
    · exact hno l (by simp [hl])
  · simp [take_length_add_append]
  · simp

theorem splices_mergeWithNext (h : e.state.Sound)
    (hcol : e.state.currentLine.length ≤ e.state.cursorCol) (hlast : ¬e.isLastLine) :
    Splices e.state e.mergeWithNext.state 0 1 [] := by
  obtain ⟨before, line, after, col, hs, hle, hno⟩ := h.exists_focus
  rw [hs, cursorCol_focus, currentLine_focus] at hcol
  obtain rfl : col = line.length := Nat.le_antisymm hle hcol
  unfold isLastLine at hlast
  rw [hs, cursorLine_focus] at hlast
  cases after with
  | nil => simp [focus] at hlast
  | cons next after =>
    have hstate : e.mergeWithNext.state = focus before (line ++ next) after line.length := by
      unfold mergeWithNext
      simp only [hs, currentLine_focus, cursorLine_focus]
      simp only [focus, splice, setLine, lineAt, EditorState.mk.injEq]
      simp [take_length_add_append, Nat.add_assoc, drop_length_add_append]
    rw [hstate, hs]
    refine ⟨sound_focus (by simp) ?_, ?_, ?_⟩
    · intro l hl
      simp only [mem_append, mem_cons] at hl
      obtain hl | rfl | hl := hl
      · exact hno l (by simp [hl])
      · simp [hno line (by simp), hno next (by simp)]
      · exact hno l (by simp [hl])
    · simp
    · simp

theorem splices_addNewLine (h : e.state.Sound) :
    Splices e.state e.addNewLine.state 0 0 [10] := by
  obtain ⟨before, line, after, col, hs, hcol, hno⟩ := h.exists_focus
  have hline : 10 ∉ line := hno line (by simp)
  have hstate : e.addNewLine.state = focus (before ++ [line.take col]) (line.drop col) after 0 := by
    have hpushed : ((e.exitHistory.act none).pushUndoSnapshot).state =
        focus before line after col := hs
    unfold addNewLine setCursor setCursorCol
    simp only [hpushed, beforeCursor_focus, afterCursor_focus, cursorLine_focus, setLine_focus]
    simp [focus, splice, take_length_add_append]
  rw [hstate, hs]
  refine ⟨sound_focus (Nat.zero_le _) ?_, ?_, ?_⟩
  · intro l hl
    simp only [mem_append, mem_cons, not_mem_nil, or_false] at hl
    obtain (hl | rfl) | rfl | hl := hl
    · exact hno l (by simp [hl])
    · exact fun hm => hline (mem_of_mem_take hm)
    · exact fun hm => hline (mem_of_mem_drop hm)
    · exact hno l (by simp [hl])
  · rw [left_focus, left_focus, Nat.sub_zero, take_length]
    simp
  · simp

end Editor

theorem rtakeWhile_append_of_forall {p : UInt16 → Bool} (xs : JsText) {ys : JsText}
    (h : ∀ c ∈ ys, p c = true) : (xs ++ ys).rtakeWhile p = xs.rtakeWhile p ++ ys := by
  induction ys using reverseRecOn with
  | nil => rw [append_nil, append_nil]
  | append_singleton ys c ih =>
    rw [← append_assoc, rtakeWhile_concat_pos _ _ _ (h c (by simp)),
      ih fun d hd => h d (by simp [hd]), append_assoc]

namespace EditorState.Sound

variable {s : EditorState}

theorem lineBefore_flat (h : s.Sound) : s.flat.lineBefore = s.beforeCursor := by
  rw [FlatText.lineBefore, h.left_flat]
  obtain ⟨before, line, after, col, rfl, -, hno⟩ := h.exists_focus
  have htake : ∀ c ∈ line.take col, decide (c ≠ 10) = true := by
    intro c hc
    have hline := hno line (by simp)
    exact decide_eq_true fun heq => hline (heq ▸ mem_of_mem_take hc)
  rw [left_focus, beforeCursor_focus, rtakeWhile_append_of_forall _ htake]
  obtain rfl | ⟨before, previous, rfl⟩ := eq_nil_or_concat' before
  · rfl
  · rw [endedLines_append, endedLines_singleton, ← append_assoc,
      rtakeWhile_concat_neg _ _ _ (by decide)]
    rfl

theorem lineAfter_flat (h : s.Sound) : s.flat.lineAfter = s.afterCursor := by
  rw [FlatText.lineAfter, h.right_flat]
  obtain ⟨before, line, after, col, rfl, -, hno⟩ := h.exists_focus
  have hdrop : ∀ c ∈ line.drop col, decide (c ≠ 10) = true := by
    intro c hc
    have hline := hno line (by simp)
    exact decide_eq_true fun heq => hline (heq ▸ mem_of_mem_drop hc)
  rw [right_focus, afterCursor_focus, takeWhile_append_of_pos hdrop]
  cases after with
  | nil => exact append_nil _
  | cons next after => simp

theorem length_beforeCursor (h : s.Sound) : s.beforeCursor.length = s.cursorCol := by
  rw [beforeCursor, length_take, Nat.min_eq_left h.col]

theorem beforeCursor_eq_nil_iff (h : s.Sound) : s.beforeCursor = [] ↔ s.cursorCol = 0 := by
  rw [← length_eq_zero_iff, h.length_beforeCursor]

theorem length_afterCursor (_ : s.Sound) :
    s.afterCursor.length = s.currentLine.length - s.cursorCol := by
  rw [afterCursor, length_drop]

theorem afterCursor_eq_nil_iff (h : s.Sound) :
    s.afterCursor = [] ↔ s.currentLine.length ≤ s.cursorCol := by
  rw [← length_eq_zero_iff, h.length_afterCursor]
  omega

theorem splices_start (h : s.Sound) (hcol : s.cursorCol = 0) (hrow : ¬s.cursorLine > 0)
    (back : ℕ) : Splices s s back 0 [] := by
  obtain ⟨before, line, after, col, rfl, -, -⟩ := h.exists_focus
  rw [cursorLine_focus] at hrow
  obtain rfl : before = [] := length_eq_zero_iff.mp (by omega)
  obtain rfl : col = 0 := hcol
  exact ⟨h, by simp [endedLines], rfl⟩

theorem splices_end (h : s.Sound) (hcol : s.currentLine.length ≤ s.cursorCol)
    (hrow : ¬s.cursorLine < s.lines.length - 1) (forth : ℕ) : Splices s s 0 forth [] := by
  obtain ⟨before, line, after, col, rfl, -, -⟩ := h.exists_focus
  rw [currentLine_focus, cursorCol_focus] at hcol
  obtain rfl : after = [] := by
    simp only [focus, length_append, length_cons] at hrow
    exact length_eq_zero_iff.mp (by omega)
  refine ⟨h, by simp, ?_⟩
  rw [right_focus, drop_eq_nil_of_le hcol]
  simp [begunLines]

end EditorState.Sound

namespace FlatText

/-- What an editing operation replaces, by the text alone: the numbers of units before and after
the cursor that go, and the text that comes. -/
def edit (U : TextUnits) (validIds : List ℕ) (yanked : JsText) (f : FlatText) :
    EditorOp → Option (ℕ × ℕ × JsText)
  | .insertCharacter char => some (0, 0, char)
  | .insertTextAtCursor text => some (0, 0, normalizeText text)
  | .addNewLine => some (0, 0, [10])
  | .handleBackspace =>
    some (if f.lineBefore = [] then 1
      else Editor.lastLength (segmentWithMarkers U f.lineBefore validIds), 0, [])
  | .handleForwardDelete =>
    some (0, if f.lineAfter = [] then 1
      else Editor.firstLength (segmentWithMarkers U f.lineAfter validIds), [])
  | .deleteToStartOfLine => some (if f.lineBefore = [] then 1 else f.lineBefore.length, 0, [])
  | .deleteToEndOfLine => some (0, if f.lineAfter = [] then 1 else f.lineAfter.length, [])
  | .deleteWordBackwards =>
    some (if f.lineBefore = [] then 1
      else Editor.wordLength (segmentWithMarkers U f.lineBefore validIds).reverse, 0, [])
  | .deleteWordForward =>
    some (0, if f.lineAfter = [] then 1
      else Editor.wordLength (segmentWithMarkers U f.lineAfter validIds), [])
  | .yank => some (0, 0, yanked)
  | _ => none

end FlatText

namespace Editor

open EditorState

variable {U : TextUnits} {e : Editor}

theorem splices_refl (h : e.state.Sound) : Splices e.state e.state 0 0 [] :=
  ⟨h, by simp, rfl⟩

theorem splices_insertCharacter (h : e.state.Sound) {char : JsText} (hchar : 10 ∉ char) :
    Splices e.state (e.insertCharacter char).state 0 0 char := by
  have hinsert := splices_insertLines h (cons_ne_nil char [])
    (fun l hl => by rwa [mem_singleton.mp hl])
  have htext : linesText [char] = char := by simp [linesText]
  have hstate : (e.insertCharacter char).state = (e.insertLines [char]).state := by
    unfold insertCharacter insertLines
    simp only
    split_ifs <;> rfl
  rwa [htext, ← hstate] at hinsert

theorem splices_insertTextAtCursorInternal (h : e.state.Sound) (text : JsText) :
    Splices e.state (e.insertTextAtCursorInternal text).state 0 0 (normalizeText text) := by
  unfold insertTextAtCursorInternal
  by_cases hempty : text = []
  · rw [if_pos hempty, hempty]
    exact splices_refl h
  · rw [if_neg hempty]
    have hinsert := splices_insertLines h (textLines_ne_nil (normalizeText text))
      fun l hl => not_mem_of_mem_textLines hl
    rwa [linesText_textLines] at hinsert

theorem splices_insertTextAtCursor (h : e.state.Sound) (text : JsText) :
    Splices e.state (e.insertTextAtCursor text).state 0 0 (normalizeText text) := by
  unfold insertTextAtCursor
  by_cases hempty : text = []
  · rw [if_pos hempty, hempty]
    exact splices_refl h
  · rw [if_neg hempty]
    exact splices_insertTextAtCursorInternal (e := (e.pushUndoSnapshot.act none).exitHistory) h text

theorem splices_yank (h : e.state.Sound) :
    Splices e.state e.yank.state 0 0 ((KillRing.peek e.killRing).getD []) := by
  unfold yank
  cases KillRing.peek e.killRing with
  | none => exact splices_refl h
  | some text =>
    have hinsert := splices_insertLines (e := e.pushUndoSnapshot.exitHistory) h
      (textLines_ne_nil text) fun l hl => not_mem_of_mem_textLines hl
    rwa [linesText_textLines] at hinsert

theorem lastLength_le (hU : U.Lawful) {text : JsText} (hpos : 0 < text.length) :
    lastLength (e.segment U text) ≤ text.length :=
  (inOrder_segmentWithMarkers hU text _).lastLength_le hpos

theorem firstLength_le (hU : U.Lawful) {text : JsText} (hpos : 0 < text.length) :
    firstLength (e.segment U text) ≤ text.length :=
  (inOrder_segmentWithMarkers hU text _).firstLength_le hpos

theorem wordLength_segment_le (hU : U.Lawful) (text : JsText) :
    wordLength (e.segment U text) ≤ text.length := by
  have htotal := (inOrder_segmentWithMarkers hU text e.pastes.keys).totalLength_le
  exact (wordLength_le _).trans htotal

theorem wordLength_reverse_le (hU : U.Lawful) (text : JsText) :
    wordLength (e.segment U text).reverse ≤ text.length := by
  have htotal := (inOrder_segmentWithMarkers hU text e.pastes.keys).totalLength_le
  refine (wordLength_le _).trans ?_
  rw [totalLength_reverse]
  exact htotal

theorem splices_handleBackspace (hU : U.Lawful) (h : e.state.Sound) :
    Splices e.state (e.handleBackspace U).state
      (if e.state.beforeCursor = [] then 1
        else lastLength (e.segment U e.state.beforeCursor)) 0 [] := by
  change Splices e.state (Editor.state (if e.state.cursorCol > 0 then _
    else if e.state.cursorLine > 0 then _ else _)) _ _ []
  by_cases hcol : e.state.cursorCol = 0
  · rw [if_pos (h.beforeCursor_eq_nil_iff.mpr hcol), if_neg (show ¬e.state.cursorCol > 0 by omega)]
    split_ifs with hrow
    · exact splices_mergeWithPrevious (e := (e.exitHistory.act none).pushUndoSnapshot) h hcol hrow
    · exact h.splices_start hcol hrow 1
  · rw [if_neg fun hnil => hcol (h.beforeCursor_eq_nil_iff.mp hnil),
      if_pos (show e.state.cursorCol > 0 by omega)]
    refine splices_cutBack (e := (e.exitHistory.act none).pushUndoSnapshot) h ?_
    have hpos : 0 < e.state.beforeCursor.length := by rw [h.length_beforeCursor]; omega
    have hle := lastLength_le (e := e) hU hpos
    rwa [h.length_beforeCursor] at hle

theorem splices_handleForwardDelete (hU : U.Lawful) (h : e.state.Sound) :
    Splices e.state (e.handleForwardDelete U).state 0
      (if e.state.afterCursor = [] then 1
        else firstLength (e.segment U e.state.afterCursor)) [] := by
  change Splices e.state (Editor.state (if e.state.cursorCol < e.state.currentLine.length then _
    else if e.isLastLine then _ else _)) _ _ []
  by_cases hcol : e.state.currentLine.length ≤ e.state.cursorCol
  · rw [if_pos (h.afterCursor_eq_nil_iff.mpr hcol),
      if_neg (show ¬e.state.cursorCol < e.state.currentLine.length by omega)]
    split_ifs with hrow
    · exact h.splices_end hcol hrow 1
    · exact splices_mergeWithNext (e := (e.exitHistory.act none).pushUndoSnapshot) h hcol hrow
  · rw [if_neg fun hnil => hcol (h.afterCursor_eq_nil_iff.mp hnil),
      if_pos (show e.state.cursorCol < e.state.currentLine.length by omega)]
    refine splices_cutForth (e := (e.exitHistory.act none).pushUndoSnapshot) h ?_
    have hpos : 0 < e.state.afterCursor.length := by rw [h.length_afterCursor]; omega
    have hle := firstLength_le (e := e) hU hpos
    rw [h.length_afterCursor] at hle
    change e.state.cursorCol + firstLength (e.segment U e.state.afterCursor) ≤
      e.state.currentLine.length
    omega

theorem splices_deleteToStartOfLine (h : e.state.Sound) :
    Splices e.state e.deleteToStartOfLine.state
      (if e.state.beforeCursor = [] then 1 else e.state.beforeCursor.length) 0 [] := by
  change Splices e.state (Editor.state (if e.state.cursorCol > 0 then _
    else if e.state.cursorLine > 0 then _ else _)) _ _ []
  by_cases hcol : e.state.cursorCol = 0
  · rw [if_pos (h.beforeCursor_eq_nil_iff.mpr hcol), if_neg (show ¬e.state.cursorCol > 0 by omega)]
    split_ifs with hrow
    · exact splices_mergeWithPrevious (e := e.exitHistory.pushUndoSnapshot.kill [10] true) h hcol
        hrow
    · exact h.splices_start hcol hrow 1
  · rw [if_neg fun hnil => hcol (h.beforeCursor_eq_nil_iff.mp hnil),
      if_pos (show e.state.cursorCol > 0 by omega), h.length_beforeCursor]
    have hcut := splices_cutBack
      (e := e.exitHistory.pushUndoSnapshot.kill e.state.beforeCursor true) h le_rfl
    simp only [Nat.sub_self] at hcut
    exact hcut

theorem splices_deleteToEndOfLine (h : e.state.Sound) :
    Splices e.state e.deleteToEndOfLine.state 0
      (if e.state.afterCursor = [] then 1 else e.state.afterCursor.length) [] := by
  change Splices e.state (Editor.state (if e.state.cursorCol < e.state.currentLine.length then _
    else if e.isLastLine then _ else _)) _ _ []
  by_cases hcol : e.state.currentLine.length ≤ e.state.cursorCol
  · rw [if_pos (h.afterCursor_eq_nil_iff.mpr hcol),
      if_neg (show ¬e.state.cursorCol < e.state.currentLine.length by omega)]
    split_ifs with hrow
    · exact h.splices_end hcol hrow 1
    · exact splices_mergeWithNext (e := e.exitHistory.pushUndoSnapshot.kill [10] false) h hcol hrow
  · rw [if_neg fun hnil => hcol (h.afterCursor_eq_nil_iff.mp hnil),
      if_pos (show e.state.cursorCol < e.state.currentLine.length by omega), h.length_afterCursor]
    have hsum : e.state.cursorCol + (e.state.currentLine.length - e.state.cursorCol) =
        e.state.currentLine.length := by omega
    have hcut : Splices e.state ((e.exitHistory.pushUndoSnapshot.kill e.state.afterCursor false).cut
        e.state.cursorCol (e.state.cursorCol +
          (e.state.currentLine.length - e.state.cursorCol))).state 0 _ [] :=
      splices_cutForth (e := e.exitHistory.pushUndoSnapshot.kill e.state.afterCursor false) h
        hsum.le
    rw [hsum] at hcut
    exact hcut

theorem splices_deleteWordBackwards (hU : U.Lawful) (h : e.state.Sound) :
    Splices e.state (e.deleteWordBackwards U).state
      (if e.state.beforeCursor = [] then 1
        else wordLength (e.segment U e.state.beforeCursor).reverse) 0 [] := by
  change Splices e.state (Editor.state (if e.state.cursorCol = 0 then
    if e.state.cursorLine > 0 then _ else _ else _)) _ _ []
  by_cases hcol : e.state.cursorCol = 0
  · rw [if_pos (h.beforeCursor_eq_nil_iff.mpr hcol),
      if_pos hcol]
    split_ifs with hrow
    · exact splices_mergeWithPrevious (e := e.exitHistory.pushUndoSnapshot.kill [10] true) h hcol
        hrow
    · exact h.splices_start hcol hrow 1
  · rw [if_neg fun hnil => hcol (h.beforeCursor_eq_nil_iff.mp hnil),
      if_neg hcol]
    have hword : (e.exitHistory.moveWordBackwards U).state.cursorCol =
        e.state.cursorCol - wordLength (e.segment U e.state.beforeCursor).reverse := by
      exact congrArg (fun e' : Editor => e'.state.cursorCol) (if_neg hcol)
    rw [hword]
    have hle := wordLength_reverse_le (e := e) hU e.state.beforeCursor
    rw [h.length_beforeCursor] at hle
    exact splices_cutBack (e := e.exitHistory.pushUndoSnapshot.kill _ true) h hle

theorem splices_deleteWordForward (hU : U.Lawful) (h : e.state.Sound) :
    Splices e.state (e.deleteWordForward U).state 0
      (if e.state.afterCursor = [] then 1
        else wordLength (e.segment U e.state.afterCursor)) [] := by
  change Splices e.state (Editor.state (if e.state.cursorCol ≥ e.state.currentLine.length then
    if e.isLastLine then _ else _ else _)) _ _ []
  by_cases hcol : e.state.currentLine.length ≤ e.state.cursorCol
  · rw [if_pos (h.afterCursor_eq_nil_iff.mpr hcol),
      if_pos (show e.state.cursorCol ≥ e.state.currentLine.length from hcol)]
    split_ifs with hrow
    · exact h.splices_end hcol hrow 1
    · exact splices_mergeWithNext (e := e.exitHistory.pushUndoSnapshot.kill [10] false) h hcol hrow
  · rw [if_neg fun hnil => hcol (h.afterCursor_eq_nil_iff.mp hnil),
      if_neg (show ¬e.state.cursorCol ≥ e.state.currentLine.length from hcol)]
    have hword : (e.exitHistory.moveWordForwards U).state.cursorCol =
        e.state.cursorCol + wordLength (e.segment U e.state.afterCursor) := by
      exact congrArg (fun e' : Editor => e'.state.cursorCol) (if_neg hcol)
    rw [hword]
    have hle := wordLength_segment_le (e := e) hU e.state.afterCursor
    rw [h.length_afterCursor] at hle
    refine splices_cutForth (e := e.exitHistory.pushUndoSnapshot.kill _ false) h ?_
    change e.state.cursorCol + wordLength (e.segment U e.state.afterCursor) ≤
      e.state.currentLine.length
    omega

theorem splices_edit (hU : U.Lawful) (h : e.state.Sound) {op : EditorOp}
    (hchar : ∀ char, op = .insertCharacter char → 10 ∉ char) {back forth : ℕ} {inserted : JsText}
    (hedit : e.state.flat.edit U e.pastes.keys ((KillRing.peek e.killRing).getD []) op =
      some (back, forth, inserted)) :
    Splices e.state (e.apply U op).state back forth inserted := by
  unfold FlatText.edit at hedit
  rw [h.lineBefore_flat, h.lineAfter_flat] at hedit
  cases op with
  | insertCharacter char =>
    cases hedit
    exact splices_insertCharacter h (hchar _ rfl)
  | insertTextAtCursor text =>
    cases hedit
    exact splices_insertTextAtCursor h text
  | addNewLine =>
    cases hedit
    exact splices_addNewLine h
  | handleBackspace =>
    cases hedit
    exact splices_handleBackspace hU h
  | handleForwardDelete =>
    cases hedit
    exact splices_handleForwardDelete hU h
  | deleteToStartOfLine =>
    cases hedit
    exact splices_deleteToStartOfLine h
  | deleteToEndOfLine =>
    cases hedit
    exact splices_deleteToEndOfLine h
  | deleteWordBackwards =>
    cases hedit
    exact splices_deleteWordBackwards hU h
  | deleteWordForward =>
    cases hedit
    exact splices_deleteWordForward hU h
  | yank =>
    cases hedit
    exact splices_yank h
  | _ => cases hedit

end Editor

end Draht
