import Draht.EditorSound

/-!
# The kill ring of the editor

What a deletion puts into the ring is the part of the text that it takes out. After a yank the text
before the cursor ends with the newest text of the ring, so a yank that is popped is taken out
again.
-/

namespace Draht
open List

namespace Editor

open EditorState

def clip (e : Editor) : List JsText × Option LastAction := (e.killRing, e.lastAction)

section Clip

variable (e : Editor)

@[simp] theorem clip_insertLines (lines : List JsText) : (e.insertLines lines).clip = e.clip := by
  unfold insertLines
  split <;> rfl

@[simp] theorem clip_insertTextAtCursorInternal (text : JsText) :
    (e.insertTextAtCursorInternal text).clip = e.clip := by
  unfold insertTextAtCursorInternal
  split_ifs <;> simp

end Clip

/-- The ring stays, and a yank is the last action only where nothing has happened since. -/
structure KeepsClip (e e' : Editor) : Prop where
  killRing : e'.killRing = e.killRing
  yanked : e'.lastAction = some .yank → e.lastAction = some .yank ∧ e'.state = e.state

variable {U : TextUnits} {e e' : Editor}

theorem KeepsClip.refl : KeepsClip e e := ⟨rfl, fun h => ⟨h, rfl⟩⟩

theorem KeepsClip.exitHistory : KeepsClip e e.exitHistory := ⟨rfl, fun h => ⟨h, rfl⟩⟩

theorem keepsClip_of_clip {action : Option LastAction} (hne : action ≠ some .yank)
    (h : e'.clip = (e.killRing, action)) : KeepsClip e e' := by
  obtain ⟨hring, haction⟩ := Prod.mk.inj h
  exact ⟨hring, fun hyank => absurd (haction.symm.trans hyank) hne⟩

theorem keepsClip_of_reset (h : e'.clip = (e.killRing, none)) : KeepsClip e e' :=
  keepsClip_of_clip (by decide) h

variable (char : JsText) (up : Bool)

theorem keepsClip_insertCharacter : KeepsClip e (e.insertCharacter char) := by
  have htyped : (e.insertCharacter char).clip = (e.killRing, some .typeWord) := by
    unfold insertCharacter
    simp only
    split_ifs <;> rfl
  exact keepsClip_of_clip (by decide) htyped

theorem keepsClip_insertTextAtCursor (text : JsText) :
    KeepsClip e (e.insertTextAtCursor text) := by
  unfold insertTextAtCursor
  split_ifs
  · exact .refl
  · refine keepsClip_of_reset ?_
    rw [clip_insertTextAtCursorInternal]
    rfl

theorem keepsClip_setText (text : JsText) : KeepsClip e (e.setText text) := by
  refine keepsClip_of_reset ?_
  unfold setText
  simp only
  split_ifs <;> rfl

theorem keepsClip_handlePaste (text : JsText) : KeepsClip e (e.handlePaste text) := by
  refine keepsClip_of_reset ?_
  unfold handlePaste
  simp only
  split_ifs <;>
    · rw [clip_insertTextAtCursorInternal]
      rfl

theorem keepsClip_handleBackspace : KeepsClip e (e.handleBackspace U) := by
  refine keepsClip_of_reset ?_
  unfold handleBackspace
  simp only
  split_ifs <;> rfl

theorem keepsClip_handleForwardDelete : KeepsClip e (e.handleForwardDelete U) := by
  refine keepsClip_of_reset ?_
  unfold handleForwardDelete
  simp only
  split_ifs <;> rfl

theorem keepsClip_undo : KeepsClip e e.undo := by
  unfold undo
  simp only
  split
  · exact .exitHistory
  · exact keepsClip_of_reset rfl

theorem keepsClip_navigateHistory : KeepsClip e (e.navigateHistory up) := by
  refine keepsClip_of_reset ?_
  unfold navigateHistory
  simp only
  split_ifs <;> rfl

theorem keepsClip_addToHistory (text : JsText) : KeepsClip e (e.addToHistory text) := by
  unfold addToHistory
  simp only
  split_ifs
  · exact .refl
  · exact ⟨rfl, fun h => ⟨h, rfl⟩⟩

theorem keepsClip_moveWordBackwards : KeepsClip e (e.moveWordBackwards U) := by
  refine keepsClip_of_reset ?_
  unfold moveWordBackwards
  simp only
  split_ifs <;> rfl

theorem keepsClip_moveWordForwards : KeepsClip e (e.moveWordForwards U) := by
  refine keepsClip_of_reset ?_
  unfold moveWordForwards
  simp only
  split_ifs <;> rfl

theorem clip_moveToVisualLine (visualLines : List VisualLine) (current target : ℕ) :
    (e.moveToVisualLine U visualLines current target).clip = e.clip := by
  unfold moveToVisualLine
  split <;> rfl

theorem keepsClip_moveCursor (direction : Direction) :
    KeepsClip e (e.moveCursor U direction) := by
  refine keepsClip_of_reset ?_
  unfold moveCursor
  simp only
  cases (e.act none).visualLines U with
  | none => rfl
  | some visualLines =>
    cases direction with
    | up =>
      simp only
      split_ifs
      · rfl
      · exact clip_moveToVisualLine _ _ _
    | down =>
      simp only
      split_ifs
      · exact clip_moveToVisualLine _ _ _
      · rfl
    | left =>
      simp only [moveLeft]
      split_ifs <;> rfl
    | right =>
      simp only [moveRight]
      split_ifs
      · rfl
      · split <;> rfl
      · rfl

theorem keepsClip_pageScroll (pageSize : ℕ) : KeepsClip e (e.pageScroll U up pageSize) := by
  refine keepsClip_of_reset ?_
  unfold pageScroll
  simp only
  cases (e.act none).visualLines U with
  | none => rfl
  | some visualLines => exact clip_moveToVisualLine _ _ _

theorem keepsClip_jumpToChar (isForward : Bool) : KeepsClip e (e.jumpToChar char isForward) := by
  refine keepsClip_of_reset ?_
  unfold jumpToChar
  simp only
  split <;> rfl

end Editor

/-- The deletions that put what they take out into the ring; the flag says where it goes if the
last action was such a deletion too. -/
def EditorOp.kills? : EditorOp → Option Bool
  | .deleteToStartOfLine | .deleteWordBackwards => some true
  | .deleteToEndOfLine | .deleteWordForward => some false
  | _ => none

namespace Editor

open EditorState

variable {U : TextUnits} {e e' : Editor}

theorem keepsClip_apply {op : EditorOp} (hkills : op.kills? = none) (hyank : op ≠ .yank)
    (hpop : op ≠ .yankPop) : KeepsClip e (e.apply U op) := by
  cases op with
  | insertCharacter char => exact keepsClip_insertCharacter char
  | insertTextAtCursor text => exact keepsClip_insertTextAtCursor text
  | setText text => exact keepsClip_setText text
  | handlePaste text => exact keepsClip_handlePaste text
  | addNewLine => exact keepsClip_of_reset rfl
  | handleBackspace => exact keepsClip_handleBackspace
  | handleForwardDelete => exact keepsClip_handleForwardDelete
  | undo => exact keepsClip_undo
  | navigateHistory up => exact keepsClip_navigateHistory up
  | applyCompletion result => exact keepsClip_of_reset rfl
  | addToHistory text => exact keepsClip_addToHistory text
  | moveToLineStart => exact keepsClip_of_reset rfl
  | moveToLineEnd => exact keepsClip_of_reset rfl
  | moveWordBackwards => exact keepsClip_moveWordBackwards
  | moveWordForwards => exact keepsClip_moveWordForwards
  | moveCursor direction => exact keepsClip_moveCursor direction
  | pageScroll up pageSize => exact keepsClip_pageScroll up pageSize
  | jumpToChar char isForward => exact keepsClip_jumpToChar char isForward
  | render layoutWidth => exact ⟨rfl, fun h => ⟨h, rfl⟩⟩
  | submitValue => exact keepsClip_of_reset rfl
  | yank => exact absurd rfl hyank
  | yankPop => exact absurd rfl hpop
  | deleteToStartOfLine => cases hkills
  | deleteToEndOfLine => cases hkills
  | deleteWordBackwards => cases hkills
  | deleteWordForward => cases hkills

end Editor

namespace EditorState.Sound

variable {s : EditorState}

theorem drop_left_beforeCursor (h : s.Sound) {n : ℕ} (hn : n ≤ s.cursorCol) :
    s.left.drop (s.left.length - n) = s.beforeCursor.drop (s.cursorCol - n) := by
  unfold left
  rw [length_append, h.length_beforeCursor, Nat.add_sub_assoc hn, drop_length_add_append]

theorem drop_left_newline (h : s.Sound) (hcol : s.cursorCol = 0) (hrow : s.cursorLine > 0) :
    s.left.drop (s.left.length - 1) = [10] := by
  obtain ⟨before, line, after, col, rfl, -, -⟩ := h.exists_focus
  obtain rfl : col = 0 := hcol
  obtain rfl | ⟨before, previous, rfl⟩ := eq_nil_or_concat' before
  · exact absurd hrow (Nat.lt_irrefl 0)
  · rw [left_focus, endedLines_append, endedLines_singleton, take_zero, append_nil,
      ← append_assoc, length_append, length_singleton, Nat.add_sub_cancel,
      drop_left]

theorem left_eq_nil (h : s.Sound) (hcol : s.cursorCol = 0) (hrow : ¬s.cursorLine > 0) :
    s.left = [] := by
  obtain ⟨before, line, after, col, rfl, -, -⟩ := h.exists_focus
  rw [cursorLine_focus] at hrow
  obtain rfl : before = [] := length_eq_zero_iff.mp (by omega)
  obtain rfl : col = 0 := hcol
  rfl

theorem take_right_afterCursor {n : ℕ} (hn : n ≤ s.afterCursor.length) :
    s.right.take n = s.afterCursor.take n := take_append_of_le_length hn

theorem take_right_newline (h : s.Sound) (hcol : s.currentLine.length ≤ s.cursorCol)
    (hrow : s.cursorLine < s.lines.length - 1) : s.right.take 1 = [10] := by
  obtain ⟨before, line, after, col, rfl, -, -⟩ := h.exists_focus
  rw [currentLine_focus, cursorCol_focus] at hcol
  cases after with
  | nil => simp [focus] at hrow
  | cons next after =>
    rw [right_focus, begunLines_cons, drop_eq_nil_of_le hcol]
    rfl

theorem right_eq_nil (h : s.Sound) (hcol : s.currentLine.length ≤ s.cursorCol)
    (hrow : ¬s.cursorLine < s.lines.length - 1) : s.right = [] := by
  obtain ⟨before, line, after, col, rfl, -, -⟩ := h.exists_focus
  rw [currentLine_focus, cursorCol_focus] at hcol
  obtain rfl : after = [] := by
    simp only [focus, length_append, length_cons] at hrow
    exact length_eq_zero_iff.mp (by omega)
  rw [right_focus, drop_eq_nil_of_le hcol]
  rfl

theorem drop_take_flat (h : s.Sound) (back forth : ℕ) :
    (s.flat.text.take (s.flat.offset + forth)).drop (s.flat.offset - back) =
      s.left.drop (s.left.length - back) ++ s.right.take forth := by
  have htext : s.flat.text = s.left ++ s.right := h.getText_eq
  rw [h.offset_eq, htext, take_length_add_append, drop_append_of_le_length (Nat.sub_le _ _)]

end EditorState.Sound

namespace Editor

structure Kills (e e' : Editor) (prepend : Bool) (text : JsText) : Prop where
  killRing : e'.killRing =
    KillRing.push e.killRing text prepend (decide (e.lastAction = some .kill))
  yanked : e'.lastAction = some .yank →
    e.lastAction = some .yank ∧ e'.state = e.state ∧ e'.killRing = e.killRing

variable {U : TextUnits} {e e' : Editor} {prepend : Bool} {text : JsText}

theorem kills_of_clip (h : e'.clip =
    (KillRing.push e.killRing text prepend (decide (e.lastAction = some .kill)), some .kill)) :
    Kills e e' prepend text := by
  obtain ⟨hring, haction⟩ := Prod.mk.inj h
  exact ⟨hring, fun hyank => absurd (haction.symm.trans hyank) (by decide)⟩

theorem kills_nothing : Kills e e.exitHistory prepend [] := ⟨rfl, fun h => ⟨h, rfl, rfl⟩⟩

theorem kills_deleteToStartOfLine (h : e.state.Sound) :
    Kills e e.deleteToStartOfLine true (e.state.left.drop (e.state.left.length -
      if e.state.beforeCursor = [] then 1 else e.state.beforeCursor.length)) := by
  change Kills e (if e.state.cursorCol > 0 then _ else if e.state.cursorLine > 0 then _ else _)
    true _
  by_cases hcol : e.state.cursorCol = 0
  · rw [if_pos (h.beforeCursor_eq_nil_iff.mpr hcol), if_neg (show ¬e.state.cursorCol > 0 by omega)]
    split_ifs with hrow
    · rw [h.drop_left_newline hcol hrow]
      exact kills_of_clip rfl
    · rw [h.left_eq_nil hcol hrow]
      exact kills_nothing
  · rw [if_neg fun hnil => hcol (h.beforeCursor_eq_nil_iff.mp hnil),
      if_pos (show e.state.cursorCol > 0 by omega), h.length_beforeCursor,
      h.drop_left_beforeCursor le_rfl, Nat.sub_self]
    exact kills_of_clip rfl

theorem kills_deleteWordBackwards (hU : U.Lawful) (h : e.state.Sound) :
    Kills e (e.deleteWordBackwards U) true (e.state.left.drop (e.state.left.length -
      if e.state.beforeCursor = [] then 1
        else wordLength (e.segment U e.state.beforeCursor).reverse)) := by
  change Kills e (if e.state.cursorCol = 0 then
    if e.state.cursorLine > 0 then _ else _ else _) true _
  by_cases hcol : e.state.cursorCol = 0
  · rw [if_pos (h.beforeCursor_eq_nil_iff.mpr hcol), if_pos hcol]
    split_ifs with hrow
    · rw [h.drop_left_newline hcol hrow]
      exact kills_of_clip rfl
    · rw [h.left_eq_nil hcol hrow]
      exact kills_nothing
  · have hle := wordLength_reverse_le (e := e) hU e.state.beforeCursor
    rw [h.length_beforeCursor] at hle
    rw [if_neg fun hnil => hcol (h.beforeCursor_eq_nil_iff.mp hnil), if_neg hcol,
      h.drop_left_beforeCursor hle]
    have hword : (e.exitHistory.moveWordBackwards U).state.cursorCol =
        e.state.cursorCol - wordLength (e.segment U e.state.beforeCursor).reverse := by
      exact congrArg (fun e' : Editor => e'.state.cursorCol) (if_neg hcol)
    rw [hword]
    exact kills_of_clip rfl

theorem kills_deleteToEndOfLine (h : e.state.Sound) :
    Kills e e.deleteToEndOfLine false (e.state.right.take
      (if e.state.afterCursor = [] then 1 else e.state.afterCursor.length)) := by
  change Kills e (if e.state.cursorCol < e.state.currentLine.length then _
    else if e.isLastLine then _ else _) false _
  by_cases hcol : e.state.currentLine.length ≤ e.state.cursorCol
  · rw [if_pos (h.afterCursor_eq_nil_iff.mpr hcol),
      if_neg (show ¬e.state.cursorCol < e.state.currentLine.length by omega)]
    split_ifs with hrow
    · rw [h.right_eq_nil hcol hrow]
      exact kills_nothing
    · rw [h.take_right_newline hcol (not_not.mp hrow)]
      exact kills_of_clip rfl
  · rw [if_neg fun hnil => hcol (h.afterCursor_eq_nil_iff.mp hnil),
      if_pos (show e.state.cursorCol < e.state.currentLine.length by omega),
      EditorState.Sound.take_right_afterCursor le_rfl, take_length]
    exact kills_of_clip rfl

theorem kills_deleteWordForward (hU : U.Lawful) (h : e.state.Sound) :
    Kills e (e.deleteWordForward U) false (e.state.right.take
      (if e.state.afterCursor = [] then 1 else wordLength (e.segment U e.state.afterCursor))) := by
  change Kills e (if e.state.cursorCol ≥ e.state.currentLine.length then
    if e.isLastLine then _ else _ else _) false _
  by_cases hcol : e.state.currentLine.length ≤ e.state.cursorCol
  · rw [if_pos (h.afterCursor_eq_nil_iff.mpr hcol),
      if_pos (show e.state.cursorCol ≥ e.state.currentLine.length from hcol)]
    split_ifs with hrow
    · rw [h.right_eq_nil hcol hrow]
      exact kills_nothing
    · rw [h.take_right_newline hcol (not_not.mp hrow)]
      exact kills_of_clip rfl
  · have hle := wordLength_segment_le (e := e) hU e.state.afterCursor
    rw [if_neg fun hnil => hcol (h.afterCursor_eq_nil_iff.mp hnil),
      if_neg (show ¬e.state.cursorCol ≥ e.state.currentLine.length from hcol),
      EditorState.Sound.take_right_afterCursor hle]
    have hword : (e.exitHistory.moveWordForwards U).state.cursorCol =
        e.state.cursorCol + wordLength (e.segment U e.state.afterCursor) := by
      exact congrArg (fun e' : Editor => e'.state.cursorCol) (if_neg hcol)
    have hkilled : (e.state.currentLine.take
        (e.state.cursorCol + wordLength (e.segment U e.state.afterCursor))).drop e.state.cursorCol =
        e.state.afterCursor.take (wordLength (e.segment U e.state.afterCursor)) := by
      rw [drop_take, Nat.add_sub_cancel_left]
      rfl
    rw [hword, ← hkilled]
    exact kills_of_clip rfl

theorem kills_apply (hU : U.Lawful) (h : e.state.Sound) {op : EditorOp}
    (hop : op.kills? = some prepend) {yanked inserted : JsText} {back forth : ℕ}
    (hedit : e.state.flat.edit U e.pastes.keys yanked op = some (back, forth, inserted)) :
    Kills e (e.apply U op) prepend
      ((e.state.flat.text.take (e.state.flat.offset + forth)).drop
        (e.state.flat.offset - back)) := by
  rw [h.drop_take_flat]
  unfold FlatText.edit at hedit
  rw [h.lineBefore_flat, h.lineAfter_flat] at hedit
  cases op with
  | deleteToStartOfLine =>
    cases hop
    cases hedit
    rw [take_zero, append_nil]
    exact kills_deleteToStartOfLine h
  | deleteWordBackwards =>
    cases hop
    cases hedit
    rw [take_zero, append_nil]
    exact kills_deleteWordBackwards hU h
  | deleteToEndOfLine =>
    cases hop
    cases hedit
    rw [Nat.sub_zero, drop_length, nil_append]
    exact kills_deleteToEndOfLine h
  | deleteWordForward =>
    cases hop
    cases hedit
    rw [Nat.sub_zero, drop_length, nil_append]
    exact kills_deleteWordForward hU h
  | _ => cases hop

end Editor

theorem textLines_linesText {lines : List JsText} (h : ∀ l ∈ lines, 10 ∉ l) (hne : lines ≠ []) :
    textLines (linesText lines) = lines := splitOn_intercalate 10 h hne

theorem textLines_append {kept text last first : JsText} {start rest : List JsText}
    (hkept : textLines kept = start ++ [last]) (htext : textLines text = first :: rest) :
    textLines (kept ++ text) = start ++ (last ++ first) :: rest :=
  splitOn_append hkept htext

theorem textLines_left {before after : List JsText} {line : JsText} {col : ℕ}
    (hno : ∀ l ∈ before ++ line :: after, 10 ∉ l) :
    textLines (endedLines before ++ line.take col) = before ++ [line.take col] := by
  have hjoined := linesText_append before (line.take col) []
  rw [show begunLines [] = [] from rfl, append_nil] at hjoined
  rw [← hjoined]
  refine textLines_linesText (fun l hl => ?_) (by simp)
  obtain hl | hl := mem_append.mp hl
  · exact hno l (mem_append_left _ hl)
  · rw [mem_singleton.mp hl]
    exact fun hmem => hno line (by simp) (mem_of_mem_take hmem)

namespace Editor

open EditorState

variable {U : TextUnits} {e : Editor}

theorem state_deleteYankedText {start middle after : List JsText} {first last final line : JsText}
    {text : JsText} {col : ℕ}
    (hs : e.state = focus (start ++ (last ++ first) :: middle) line after col)
    (htext : textLines text = first :: (middle ++ [final])) :
    (e.deleteYankedText text).state = focus start (last ++ line.drop col) after last.length := by
  have hline : (focus (start ++ (last ++ first) :: middle) line after col).lineAt
      start.length = last ++ first := by
    simp [lineAt, focus]
  have hjoined : (last ++ first).take last.length = last := take_left
  have hcolumn : (last ++ first).length - first.length = last.length := by
    rw [length_append, Nat.add_sub_cancel]
  unfold deleteYankedText
  simp only [hs]
  rw [htext]
  cases hmiddle : middle ++ [final] with
  | nil => exact absurd hmiddle (by simp)
  | cons second later =>
    have hcount : (second :: later).length = middle.length + 1 := by
      rw [← hmiddle, length_append, length_singleton]
    have hstart : (focus (start ++ (last ++ first) :: middle) line after col).cursorLine -
        (second :: later).length = start.length := by
      rw [hcount, cursorLine_focus, length_append, length_cons]
      omega
    dsimp only
    rw [hstart, hline, hcolumn, hjoined, afterCursor_focus, hcount]
    simp only [setCursor, setCursorCol, focus, splice, EditorState.mk.injEq]
    simp [drop_length_add_append, Nat.add_assoc]

theorem splices_deleteYankedText (h : e.state.Sound) {text : JsText}
    (hsuffix : text <:+ e.state.left) :
    Splices e.state (e.deleteYankedText text).state text.length 0 [] := by
  obtain ⟨before, line, after, col, hs, hcol, hno⟩ := h.exists_focus
  obtain ⟨kept, hkept⟩ := hsuffix
  obtain ⟨first, rest, hfirst⟩ := exists_cons_of_ne_nil (textLines_ne_nil text)
  obtain ⟨start, last, hlast⟩ : ∃ start last, textLines kept = start ++ [last] :=
    ⟨_, _, (dropLast_append_getLast (textLines_ne_nil kept)).symm⟩
  have hlines := textLines_append hlast hfirst
  rw [hkept, hs, left_focus, textLines_left hno] at hlines
  cases rest using reverseRecOn with
  | nil =>
    -- The text is a part of the line of the cursor.
    obtain ⟨-, hone⟩ := append_inj' hlines rfl
    have htake : line.take col = last ++ first := (cons.inj hone).1
    have htext : text = first := by
      have hjoined := congrArg linesText hfirst
      rw [linesText_textLines] at hjoined
      simpa [linesText] using hjoined
    have hback : text.length ≤ e.state.cursorCol := by
      have hlength := congrArg List.length htake
      rw [length_take, Nat.min_eq_left hcol, length_append, ← htext] at hlength
      rw [hs, cursorCol_focus]
      omega
    unfold deleteYankedText
    rw [hfirst]
    exact splices_cutBack h hback
  | append_singleton middle final _ =>
    -- The text begins in an earlier line.
    have hsplit : before ++ [line.take col] =
        (start ++ (last ++ first) :: middle) ++ [final] := by simpa using hlines
    obtain ⟨rfl, -⟩ := append_inj' hsplit rfl
    have hlastLine : 10 ∉ last :=
      not_mem_of_mem_textLines (show last ∈ textLines kept by simp [hlast])
    have hkeptText : kept = endedLines start ++ last := by
      have hwhole := linesText_append start last []
      rw [← hlast, linesText_textLines] at hwhole
      exact hwhole.trans (append_nil _)
    rw [state_deleteYankedText hs hfirst]
    refine ⟨sound_focus (by simp) fun l hl => ?_, ?_, ?_⟩
    · obtain hl | hl := mem_append.mp hl
      · exact hno l (by simp [hl])
      · obtain rfl | hl := mem_cons.mp hl
        · simp only [mem_append, not_or]
          exact ⟨hlastLine, fun hmem => hno line (by simp) (mem_of_mem_drop hmem)⟩
        · exact hno l (by simp [hl])
    · rw [left_focus, take_left, append_nil, ← hkept, length_append,
        Nat.add_sub_cancel, take_left, hkeptText]
    · rw [hs, right_focus, right_focus, drop_left]
      rfl

/-- Whether a yank is replaced by the text before it in the ring. -/
def popsYank (e : Editor) : Prop := ¬(e.lastAction ≠ some .yank ∨ e.killRing.length ≤ 1)

instance (e : Editor) : Decidable e.popsYank := inferInstanceAs (Decidable (¬ _))

theorem yankPop_of_not_popsYank (h : ¬e.popsYank) : e.yankPop = e := if_pos (not_not.mp h)

theorem yankPop_of_popsYank (h : e.popsYank) :
    e.yankPop = ({ e.pushUndoSnapshot.deleteYankedText ((KillRing.peek e.killRing).getD []) with
      killRing := KillRing.rotate e.killRing }.insertYankedText
        ((KillRing.peek (KillRing.rotate e.killRing)).getD [])).act (some .yank) := if_neg h

theorem killRing_insertLines (lines : List JsText) :
    (e.insertLines lines).killRing = e.killRing := congrArg Prod.fst (clip_insertLines e lines)

theorem killRing_yank : e.yank.killRing = e.killRing := by
  unfold yank
  cases KillRing.peek e.killRing with
  | none => rfl
  | some text => exact killRing_insertLines _

theorem killRing_yankPop (h : e.popsYank) : e.yankPop.killRing = KillRing.rotate e.killRing := by
  rw [yankPop_of_popsYank h]
  exact killRing_insertLines _

theorem splices_yankPop (h : e.state.Sound) (hpop : e.popsYank)
    (hyanked : (KillRing.peek e.killRing).getD [] <:+ e.state.left) :
    Splices e.state e.yankPop.state ((KillRing.peek e.killRing).getD []).length 0
      ((KillRing.peek (KillRing.rotate e.killRing)).getD []) := by
  rw [yankPop_of_popsYank hpop]
  have hdeleted := splices_deleteYankedText (e := e.pushUndoSnapshot) h hyanked
  have hlines : ∀ l ∈ textLines ((KillRing.peek (KillRing.rotate e.killRing)).getD []), 10 ∉ l :=
    fun l hl => not_mem_of_mem_textLines hl
  have hinserted := splices_insertLines (e := { (e.pushUndoSnapshot.deleteYankedText
    ((KillRing.peek e.killRing).getD [])).exitHistory with
      killRing := KillRing.rotate e.killRing }) hdeleted.sound (textLines_ne_nil _) hlines
  rw [linesText_textLines] at hinserted
  refine ⟨hinserted.sound, hinserted.left.trans ?_, hinserted.right.trans ?_⟩
  · have hkept := hdeleted.left
    rw [append_nil] at hkept
    rw [Nat.sub_zero, take_length]
    exact congrArg (· ++ _) hkept
  · exact hdeleted.right

end Editor

end Draht
