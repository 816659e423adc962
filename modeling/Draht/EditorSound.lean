import Draht.EditorUndo
import Draht.EditorSplice

/-!
# Sound states of the editor

Every operation keeps the lines sound: moves stay in the text, and what is inserted is split at its
newlines. So every state that is reached without a completion is sound, and every editing operation
on it is a splice of the joined text.
-/

namespace Draht
open List Option

/-- A typed character has no newline, and nothing is completed. -/
def EditorOp.isInput : EditorOp → Bool
  | .insertCharacter char => decide (10 ∉ char)
  | .applyCompletion _ => false
  | _ => true

namespace Editor

open EditorState

variable {U : TextUnits} {e : Editor}

variable {start idx col : ℕ} {visualLines : List VisualLine} {char line : JsText}

theorem sound_setCursor (h : e.state.Sound) {line : ℕ} (hrow : line < e.state.lines.length)
    (hcol : col ≤ (e.state.lineAt line).length) : (e.setCursor line col).state.Sound :=
  ⟨hrow, hcol, h.noNewline⟩

theorem sound_setCursorCol (h : e.state.Sound) (hcol : col ≤ e.state.currentLine.length) :
    (e.setCursorCol col).state.Sound :=
  ⟨h.row, hcol, h.noNewline⟩

theorem sound_previousLine (h : e.state.Sound) :
    (e.setCursor (e.state.cursorLine - 1)
      (e.state.lineAt (e.state.cursorLine - 1)).length).state.Sound :=
  sound_setCursor h ((Nat.sub_le _ _).trans_lt h.row) le_rfl

theorem sound_nextLine (h : e.state.Sound) (hlast : ¬e.isLastLine) :
    (e.setCursor (e.state.cursorLine + 1) 0).state.Sound := by
  have hnext : e.state.cursorLine < e.state.lines.length - 1 := not_not.mp hlast
  exact sound_setCursor h (by omega) (Nat.zero_le _)

theorem sound_moveWordBackwards (h : e.state.Sound) : (e.moveWordBackwards U).state.Sound := by
  unfold moveWordBackwards
  simp only
  split_ifs
  · exact sound_previousLine (e := e.act none) h
  · exact h
  · exact sound_setCursorCol (e := e.act none) h ((Nat.sub_le _ _).trans h.col)

theorem sound_moveWordForwards (hU : U.Lawful) (h : e.state.Sound) :
    (e.moveWordForwards U).state.Sound := by
  unfold moveWordForwards
  simp only
  split_ifs with hend hlast
  · exact h
  · exact sound_nextLine (e := e.act none) h hlast
  · refine sound_setCursorCol (e := e.act none) h ?_
    have hle := wordLength_segment_le (e := e) hU e.state.afterCursor
    have hcol := h.col
    rw [h.length_afterCursor] at hle
    change e.state.cursorCol + wordLength (e.segment U e.state.afterCursor) ≤
      e.state.currentLine.length
    omega

theorem sound_moveLeft (h : e.state.Sound) : (e.moveLeft U).state.Sound := by
  unfold moveLeft
  simp only
  split_ifs
  · exact sound_setCursorCol h ((Nat.sub_le _ _).trans h.col)
  · exact sound_previousLine h
  · exact h

theorem sound_moveRight (hU : U.Lawful) (h : e.state.Sound) (visualLines : List VisualLine) :
    (e.moveRight U visualLines).state.Sound := by
  unfold moveRight
  simp only
  split_ifs with hcol hlast
  · refine sound_setCursorCol h ?_
    have hpos : 0 < e.state.afterCursor.length := by rw [h.length_afterCursor]; omega
    have hle := firstLength_le (e := e) hU hpos
    rw [h.length_afterCursor] at hle
    omega
  · split <;> exact h
  · exact sound_nextLine h hlast

theorem logicalLine_lt {validIds : List ℕ} {width i : ℕ} {lines : List JsText}
    (h : buildVisualLineMap U validIds width i lines =
      some visualLines) {vl : VisualLine} (hvl : vl ∈ visualLines) :
    vl.logicalLine < i + lines.length := by
  induction lines generalizing i visualLines with
  | nil =>
    cases h
    cases hvl
  | cons line lines ih =>
    obtain ⟨here, hhere, h⟩ := bind_eq_some_iff.mp h
    obtain ⟨rest, hrest, rfl⟩ := map_eq_some_iff.mp h
    rw [length_cons]
    obtain hvl | hvl := mem_append.mp hvl
    · have hi : vl.logicalLine = i := by
        split_ifs at hhere
        · cases hhere
          rw [mem_singleton.mp hvl]
        · cases hhere
          rw [mem_singleton.mp hvl]
        · obtain ⟨chunks, -, rfl⟩ := map_eq_some_iff.mp hhere
          obtain ⟨chunk, -, rfl⟩ := mem_map.mp hvl
          rfl
      omega
    · have hlater := ih hrest hvl
      omega

theorem snapToSegment_le {stop : ℕ} {segments : List Segment} (up : Bool)
    (h : InOrder stop start segments) (hcol : col ≤ stop) :
    snapToSegment up col segments ≤ stop := by
  induction segments generalizing start with
  | nil => exact hcol
  | cons seg segments ih =>
    have hseg := h.mem mem_cons_self
    unfold snapToSegment
    split_ifs
    · exact hcol
    · exact ih h.2
    · omega
    · exact hseg.2
    · exact ih h.2

theorem sound_moveToVisualLine (hU : U.Lawful) (h : e.state.Sound)
    (hlines : e.visualLines U = some visualLines) (current target : ℕ) :
    (e.moveToVisualLine U visualLines current target).state.Sound := by
  unfold moveToVisualLine
  split
  · rename_i currentVL targetVL hcurrent htarget
    have hrow := logicalLine_lt hlines (mem_of_getElem? htarget)
    rw [Nat.zero_add] at hrow
    exact ⟨hrow, snapToSegment_le _ (inOrder_segmentWithMarkers hU _ _) (Nat.min_le_right _ _),
      h.noNewline⟩
  · exact h

theorem sound_moveCursor (hU : U.Lawful) (h : e.state.Sound) (direction : Direction) :
    (e.moveCursor U direction).state.Sound := by
  unfold moveCursor
  simp only
  cases hlines : (e.act none).visualLines U with
  | none => exact h
  | some visualLines =>
    cases direction with
    | up =>
      simp only
      split_ifs
      · exact h
      · exact sound_moveToVisualLine (e := e.act none) hU h hlines _ _
    | down =>
      simp only
      split_ifs
      · exact sound_moveToVisualLine (e := e.act none) hU h hlines _ _
      · exact h
    | left => exact sound_moveLeft (e := e.act none) h
    | right => exact sound_moveRight (e := e.act none) hU h _

theorem sound_pageScroll (hU : U.Lawful) (h : e.state.Sound) (up : Bool) (pageSize : ℕ) :
    (e.pageScroll U up pageSize).state.Sound := by
  unfold pageScroll
  simp only
  cases hlines : (e.act none).visualLines U with
  | none => exact h
  | some visualLines => exact sound_moveToVisualLine (e := e.act none) hU h hlines _ _

theorem indexFrom_le (h : indexFrom char line start = some idx) : idx ≤ line.length := by
  obtain ⟨i, hi, rfl⟩ := map_eq_some_iff.mp h
  have hle := add_length_le_of_mem_positions (indexOf?_mem hi)
  rw [length_drop] at hle
  omega

theorem lastIndexFrom_le (h : lastIndexFrom char line start = some idx) : idx ≤ line.length := by
  have hmem := mem_of_find?_eq_some h
  rw [mem_reverse, mem_range] at hmem
  omega

theorem sound_jumpToChar (h : e.state.Sound) (char : JsText) (isForward : Bool) :
    (e.jumpToChar char isForward).state.Sound := by
  unfold jumpToChar
  simp only
  split
  · rename_i lineIdx idx hfound
    obtain ⟨i, hi, hsearch⟩ := exists_of_findSome?_eq_some hfound
    obtain ⟨found, hindex, heq⟩ := map_eq_some_iff.mp hsearch
    obtain ⟨rfl, rfl⟩ := Prod.mk.inj heq
    have hrow := h.row
    refine sound_setCursor (e := e.act none) h ?_ ?_
    · change i < e.state.lines.length
      split_ifs at hi
      · rw [mem_range'_1] at hi
        change e.state.cursorLine ≤ i ∧ i < e.state.cursorLine +
          (e.state.lines.length - e.state.cursorLine) at hi
        omega
      · rw [mem_reverse, mem_range] at hi
        change i < e.state.cursorLine + 1 at hi
        omega
    · split_ifs at hindex
      · exact indexFrom_le hindex
      · exact indexFrom_le hindex
      · exact lastIndexFrom_le hindex
      · exact lastIndexFrom_le hindex
  · exact h

theorem sound_setTextInternal (text : JsText) : (e.setTextInternal text).state.Sound := by
  have hne := textLines_ne_nil text
  have hpos : 0 < (textLines text).length := length_pos_of_ne_nil hne
  refine ⟨?_, ?_, fun line hline => not_mem_of_mem_textLines hline⟩
  · change (textLines text).length - 1 < (textLines text).length
    omega
  · exact le_refl _

theorem sound_setText (text : JsText) : (e.setText text).state.Sound :=
  sound_setTextInternal _

theorem sound_navigateHistory (h : e.state.Sound) (up : Bool) :
    (e.navigateHistory up).state.Sound := by
  unfold navigateHistory
  simp only
  split_ifs
  · exact sound_setTextInternal _
  · exact sound_setTextInternal _
  · exact sound_setTextInternal _
  · exact sound_setTextInternal _
  · exact h

theorem sound_handlePaste (h : e.state.Sound) (text : JsText) :
    (e.handlePaste text).state.Sound := by
  unfold handlePaste
  simp only
  split_ifs
  · exact (splices_insertTextAtCursorInternal (e := { (e.exitHistory.act none).pushUndoSnapshot with
      pasteCounter := _, pastes := _ }) h _).sound
  · exact (splices_insertTextAtCursorInternal (e := (e.exitHistory.act none).pushUndoSnapshot) h
      _).sound

theorem not_mem_lineAt (h : e.state.Sound) (i : ℕ) : 10 ∉ e.state.lineAt i := by
  unfold lineAt
  rw [getD_eq_getElem?_getD]
  cases hline : e.state.lines[i]? with
  | none => exact not_mem_nil
  | some line => exact h.noNewline line (mem_of_getElem? hline)

theorem sound_deleteYankedText (h : e.state.Sound) (text : JsText) :
    (e.deleteYankedText text).state.Sound := by
  unfold deleteYankedText
  simp only
  split
  · exact h
  · have hsame : e.state.cursorCol - min text.length e.state.cursorCol =
        e.state.cursorCol - text.length := by omega
    have hcut := splices_cutBack h (Nat.min_le_right text.length e.state.cursorCol)
    rw [hsame] at hcut
    exact hcut.sound
  · rename_i first rest _ _
    have hrow := h.row
    generalize hstart : e.state.cursorLine - rest.length = startLine
    generalize hcol : (e.state.lineAt startLine).length - first.length = startCol
    have hlength : (e.state.lines.take startLine).length = startLine := by
      rw [length_take]
      omega
    have hjoined : startCol ≤
        ((e.state.lineAt startLine).take startCol ++ e.state.afterCursor).length := by
      rw [length_append, length_take]
      omega
    have hno : 10 ∉ (e.state.lineAt startLine).take startCol ++ e.state.afterCursor := by
      simp only [mem_append, not_or]
      exact ⟨fun hm => not_mem_lineAt h _ (mem_of_mem_take hm),
        fun hm => not_mem_lineAt h _ (mem_of_mem_drop hm)⟩
    generalize (e.state.lineAt startLine).take startCol ++ e.state.afterCursor = joined
      at hjoined hno
    have hstate : EditorState.mk (e.state.splice startLine (rest.length + 1) [joined]).lines
        startLine startCol = focus (e.state.lines.take startLine) joined
          (e.state.lines.drop (startLine + (rest.length + 1))) startCol := by
      simp [splice, focus, hlength]
    have hsound : (focus (e.state.lines.take startLine) joined
        (e.state.lines.drop (startLine + (rest.length + 1))) startCol).Sound := by
      refine sound_focus hjoined fun l hl => ?_
      simp only [mem_append, mem_cons] at hl
      obtain hl | rfl | hl := hl
      · exact h.noNewline l (mem_of_mem_take hl)
      · exact hno
      · exact h.noNewline l (mem_of_mem_drop hl)
    rw [← hstate] at hsound
    exact hsound

theorem sound_yankPop (h : e.state.Sound) : e.yankPop.state.Sound := by
  unfold yankPop
  split_ifs
  · exact h
  · have hdeleted := sound_deleteYankedText (e := e.pushUndoSnapshot) h
      ((KillRing.peek e.killRing).getD [])
    refine (splices_insertLines (e := { (e.pushUndoSnapshot.deleteYankedText _).exitHistory with
      killRing := _ }) hdeleted (textLines_ne_nil _) fun l hl => not_mem_of_mem_textLines hl).sound

theorem sound_undo (h : e.state.Sound) (hstack : ∀ s ∈ e.undoStack, s.Sound) :
    e.undo.state.Sound := by
  unfold undo
  simp only
  split
  · exact h
  · rename_i snapshot stack hcons
    exact hstack snapshot (hcons ▸ mem_cons_self)

theorem sound_apply (hU : U.Lawful) (h : e.state.Sound) (hstack : ∀ s ∈ e.undoStack, s.Sound)
    {op : EditorOp} (hop : op.isInput = true) : (e.apply U op).state.Sound := by
  cases op with
  | insertCharacter char => exact (splices_insertCharacter h (of_decide_eq_true hop)).sound
  | insertTextAtCursor text => exact (splices_insertTextAtCursor h text).sound
  | setText text => exact sound_setText text
  | handlePaste text => exact sound_handlePaste h text
  | addNewLine => exact (splices_addNewLine h).sound
  | handleBackspace => exact (splices_handleBackspace hU h).sound
  | handleForwardDelete => exact (splices_handleForwardDelete hU h).sound
  | deleteToStartOfLine => exact (splices_deleteToStartOfLine h).sound
  | deleteToEndOfLine => exact (splices_deleteToEndOfLine h).sound
  | deleteWordBackwards => exact (splices_deleteWordBackwards hU h).sound
  | deleteWordForward => exact (splices_deleteWordForward hU h).sound
  | yank => exact (splices_yank h).sound
  | yankPop => exact sound_yankPop h
  | undo => exact sound_undo h hstack
  | navigateHistory up => exact sound_navigateHistory h up
  | applyCompletion result => exact absurd hop Bool.false_ne_true
  | addToHistory text =>
    have hsame : (e.addToHistory text).state = e.state := by
      unfold addToHistory
      simp only
      split_ifs <;> rfl
    exact hsame ▸ h
  | moveToLineStart => exact sound_setCursorCol (e := e.act none) h (Nat.zero_le _)
  | moveToLineEnd => exact sound_setCursorCol (e := e.act none) h le_rfl
  | moveWordBackwards => exact sound_moveWordBackwards h
  | moveWordForwards => exact sound_moveWordForwards hU h
  | moveCursor direction => exact sound_moveCursor hU h direction
  | pageScroll up pageSize => exact sound_pageScroll hU h up pageSize
  | jumpToChar char isForward => exact sound_jumpToChar h char isForward
  | render layoutWidth => exact h
  | submitValue => exact ⟨Nat.one_pos, le_refl _, by simp [apply, submitValue]⟩

theorem mem_undoStack_apply (op : EditorOp) {s : EditorState}
    (h : s ∈ (e.apply U op).undoStack) : s ∈ e.undoStack ∨ s = e.state := by
  by_cases hsubmit : op = .submitValue
  · subst hsubmit
    cases h
  · have hcases := undoStep_apply U e hsubmit
    have hpushed {e' : Editor} (hstack : e'.undoStack = e.state :: e.undoStack)
        (h : s ∈ e'.undoStack) : s ∈ e.undoStack ∨ s = e.state := by
      rw [hstack] at h
      exact (mem_cons.mp h).symm
    generalize e.apply U op = e' at hcases h
    cases hcases with
    | quiet hquiet => exact .inl (hquiet.undoStack ▸ h)
    | edited hedits =>
      obtain ⟨action, -, hmarks⟩ := hedits
      exact hpushed (of_marks hmarks).1 h
    | typedNew _ hmarks => exact hpushed (of_marks hmarks).1 h
    | typedOn _ _ hmarks => exact .inl ((of_marks hmarks).1 ▸ h)
    | completed hmarks => exact hpushed (of_marks hmarks).1 h
    | browsedNew _ hmarks => exact hpushed (of_marks hmarks).1 h
    | browsedOn _ _ hmarks => exact .inl ((of_marks hmarks).1 ▸ h)
    | undone hstack _ hmarks =>
      rw [hstack]
      exact .inl (mem_cons_of_mem _ ((of_marks hmarks).1 ▸ h))

end Editor

def Editor.step (U : TextUnits) (e : Editor) (op : EditorOp) : Option Editor := some (e.apply U op)

def Editor.TakesInput (_ : Editor) (op : EditorOp) : Prop := op.isInput = true

instance (e : Editor) (op : EditorOp) : Decidable (e.TakesInput op) :=
  inferInstanceAs (Decidable (op.isInput = true))

/-- Every state that is reached is sound, and every editing operation is a splice of its text. -/
theorem editor_refines_flatText {U : TextUnits} (hU : U.Lawful)
    {steps : List (Transition Editor EditorOp)} {e : Editor}
    (hrun : GuardedRun (Editor.step U) Editor.TakesInput .initial steps e) :
    e.state.Sound ∧ ∀ op back forth inserted, op.isInput = true →
      e.state.flat.edit U e.pastes.keys ((KillRing.peek e.killRing).getD []) op =
        some (back, forth, inserted) →
      (e.apply U op).state.flat = e.state.flat.splice back forth inserted := by
  have hsound : e.state.Sound ∧ ∀ s ∈ e.undoStack, s.Sound := by
    refine hrun.invariant (I := fun e => e.state.Sound ∧ ∀ s ∈ e.undoStack, s.Sound)
      ⟨⟨Nat.one_pos, le_refl _, by simp [Editor.initial]⟩, by simp [Editor.initial]⟩ ?_
    rintro e op e' ⟨hstate, hstack⟩ hop hstep
    cases hstep
    refine ⟨Editor.sound_apply hU hstate hstack hop, fun s hs => ?_⟩
    obtain hold | rfl := Editor.mem_undoStack_apply op hs
    · exact hstack s hold
    · exact hstate
  refine ⟨hsound.1, fun op back forth inserted hop hedit => ?_⟩
  refine (Editor.splices_edit hU hsound.1 ?_ hedit).flat hsound.1
  rintro char rfl
  exact of_decide_eq_true hop

theorem unitSegments_lawful : unitSegments.Lawful where
  flatten text := by
    change (text.map ([·])).flatten = text
    induction text with
    | nil => rfl
    | cons c text ih => rw [map_cons, flatten_cons, ih, singleton_append]
  nonempty text := by simp [unitSegments]

/-- Two lines, a word that is killed and yanked, and a move up. -/
def twoLines : List EditorOp :=
  [.insertTextAtCursor (utf16 "ab cd"), .addNewLine, .insertCharacter (utf16 "e"),
    .moveCursor .up, .moveToLineEnd, .deleteWordBackwards, .yank, .moveCursor .left]

theorem editor_refines_flatText_twoLines : ∃ steps e,
    GuardedRun (Editor.step unitSegments) Editor.TakesInput .initial steps e ∧
      e.state = ⟨[utf16 "ab cd", utf16 "e"], 0, 4⟩ ∧ e.state.Sound ∧
        (e.apply unitSegments .deleteWordBackwards).state.flat = e.state.flat.splice 1 0 [] := by
  obtain ⟨steps, e, hrun, hstate, hedit⟩ := GuardedRun.exists_of_play
    (Editor.step unitSegments) Editor.TakesInput .initial twoLines
    (fun _ e => e.state = ⟨[utf16 "ab cd", utf16 "e"], 0, 4⟩ ∧
      e.state.flat.edit unitSegments e.pastes.keys ((KillRing.peek e.killRing).getD [])
        .deleteWordBackwards = some (1, 0, []))
    (by decide +kernel)
  have hrefines := editor_refines_flatText unitSegments_lawful hrun
  exact ⟨steps, e, hrun, hstate, hrefines.1, hrefines.2 _ _ _ _ rfl hedit⟩

end Draht
