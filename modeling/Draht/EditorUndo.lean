import Draht.GuardedRun
import Draht.Editor

/-!
# Undo

The steps of a run that are not undone fall into units: single operations, words that are typed
without a break, and walks through the history. Each snapshot is the state before the first step of
its unit. A completion that is applied while the history is shown does not end the walk, and the
next step of the walk replaces it without a snapshot.
-/

namespace Draht
open List

namespace Editor

/-- What decides whether the next operation takes a snapshot. -/
def marks (e : Editor) : List EditorState × ℤ × Option LastAction :=
  (e.undoStack, e.historyIndex, e.lastAction)

theorem of_marks {e : Editor} {stack : List EditorState} {index : ℤ} {action : Option LastAction}
    (h : e.marks = (stack, index, action)) :
    e.undoStack = stack ∧ e.historyIndex = index ∧ e.lastAction = action := by
  obtain ⟨hstack, hrest⟩ := Prod.mk.inj h
  exact ⟨hstack, Prod.mk.inj hrest⟩

section Marks

variable (e : Editor)

@[simp] theorem marks_insertLines (lines : List JsText) :
    (e.insertLines lines).marks = e.marks := by
  unfold insertLines
  split <;> rfl

@[simp] theorem marks_insertTextAtCursorInternal (text : JsText) :
    (e.insertTextAtCursorInternal text).marks = e.marks := by
  unfold insertTextAtCursorInternal
  split_ifs <;> simp

@[simp] theorem marks_deleteYankedText (text : JsText) :
    (e.deleteYankedText text).marks = e.marks := by
  unfold deleteYankedText
  split <;> rfl

@[simp] theorem marks_act (action : Option LastAction) :
    (e.act action).marks = (e.undoStack, e.historyIndex, action) := rfl

@[simp] theorem marks_insertYankedText (text : JsText) :
    (e.insertYankedText text).marks = (e.undoStack, -1, e.lastAction) := by
  unfold insertYankedText
  rw [marks_insertLines]
  rfl

end Marks

/-- An operation that takes no snapshot and leaves the text; a typed word goes on only where
nothing has changed. -/
structure Quiet (e e' : Editor) : Prop where
  text : e'.state.getText = e.state.getText
  undoStack : e'.undoStack = e.undoStack
  historyIndex : e'.historyIndex = e.historyIndex ∨ e'.historyIndex = -1
  typing : e'.lastAction = some .typeWord → e.lastAction = some .typeWord ∧ e'.state = e.state

/-- An operation that takes a snapshot and ends what went before. -/
def Edits (e e' : Editor) : Prop :=
  ∃ action, action ≠ some LastAction.typeWord ∧ e'.marks = (e.state :: e.undoStack, -1, action)

variable {U : TextUnits} {e : Editor}

theorem Quiet.refl : Quiet e e := ⟨rfl, rfl, .inl rfl, fun h => ⟨h, rfl⟩⟩

theorem Quiet.exitHistory : Quiet e e.exitHistory := ⟨rfl, rfl, .inr rfl, fun h => ⟨h, rfl⟩⟩

theorem quiet_of_move {e' : Editor} (hlines : e'.state.lines = e.state.lines)
    (hmarks : e'.marks = (e.undoStack, e.historyIndex, none)) : Quiet e e' := by
  obtain ⟨hstack, hrest⟩ := Prod.mk.inj hmarks
  obtain ⟨hindex, hlast⟩ := Prod.mk.inj hrest
  refine ⟨congrArg linesText hlines, hstack, .inl hindex, fun h => ?_⟩
  rw [hlast] at h
  exact absurd h (by decide)

theorem quiet_moveToLineStart : Quiet e e.moveToLineStart := quiet_of_move rfl rfl

theorem quiet_moveToLineEnd : Quiet e e.moveToLineEnd := quiet_of_move rfl rfl

theorem quiet_moveWordBackwards : Quiet e (e.moveWordBackwards U) := by
  unfold moveWordBackwards
  simp only
  split_ifs <;> exact quiet_of_move rfl rfl

theorem quiet_moveWordForwards : Quiet e (e.moveWordForwards U) := by
  unfold moveWordForwards
  simp only
  split_ifs <;> exact quiet_of_move rfl rfl

variable (visualLines : List VisualLine)

theorem quiet_moveToVisualLine (current target : ℕ) :
    Quiet e ((e.act none).moveToVisualLine U visualLines current target) := by
  unfold moveToVisualLine
  split <;> exact quiet_of_move rfl rfl

theorem quiet_moveRight : Quiet e ((e.act none).moveRight U visualLines) := by
  unfold moveRight
  simp only
  split_ifs
  · exact quiet_of_move rfl rfl
  · split <;> exact quiet_of_move rfl rfl
  · exact quiet_of_move rfl rfl

theorem quiet_moveLeft : Quiet e ((e.act none).moveLeft U) := by
  unfold moveLeft
  simp only
  split_ifs <;> exact quiet_of_move rfl rfl

theorem quiet_moveCursor (direction : Direction) : Quiet e (e.moveCursor U direction) := by
  unfold moveCursor
  simp only
  cases (e.act none).visualLines U with
  | none => exact quiet_of_move rfl rfl
  | some visualLines =>
    cases direction with
    | up =>
      simp only
      split_ifs
      · exact quiet_of_move rfl rfl
      · exact quiet_moveToVisualLine _ _ _
    | down =>
      simp only
      split_ifs
      · exact quiet_moveToVisualLine _ _ _
      · exact quiet_of_move rfl rfl
    | left => exact quiet_moveLeft
    | right => exact quiet_moveRight _

theorem quiet_pageScroll (up : Bool) (pageSize : ℕ) : Quiet e (e.pageScroll U up pageSize) := by
  unfold pageScroll
  simp only
  cases (e.act none).visualLines U with
  | none => exact quiet_of_move rfl rfl
  | some visualLines => exact quiet_moveToVisualLine _ _ _

theorem quiet_jumpToChar (char : JsText) (isForward : Bool) :
    Quiet e (e.jumpToChar char isForward) := by
  unfold jumpToChar
  simp only
  split <;> exact quiet_of_move rfl rfl

theorem edits_reset {e' : Editor} (hmarks : e'.marks = (e.state :: e.undoStack, -1, none)) :
    Edits e e' := ⟨none, by decide, hmarks⟩

theorem edits_kill {e' : Editor}
    (hmarks : e'.marks = (e.state :: e.undoStack, -1, some .kill)) : Edits e e' :=
  ⟨some .kill, by decide, hmarks⟩

theorem edits_yank {e' : Editor}
    (hmarks : e'.marks = (e.state :: e.undoStack, -1, some .yank)) : Edits e e' :=
  ⟨some .yank, by decide, hmarks⟩

theorem getText_setTextInternal (text : JsText) : (e.setTextInternal text).state.getText = text :=
  intercalate_splitOn 10

theorem quiet_of_reset {e' : Editor} (htext : e'.state.getText = e.state.getText)
    (hmarks : e'.marks = (e.undoStack, -1, none)) : Quiet e e' := by
  obtain ⟨hstack, hrest⟩ := Prod.mk.inj hmarks
  obtain ⟨hindex, hlast⟩ := Prod.mk.inj hrest
  refine ⟨htext, hstack, .inr hindex, fun h => ?_⟩
  rw [hlast] at h
  exact absurd h (by decide)

theorem quiet_reset : Quiet e (e.exitHistory.act none) := quiet_of_reset rfl rfl

theorem setText_cases (text : JsText) : Quiet e (e.setText text) ∨ Edits e (e.setText text) := by
  unfold setText
  simp only
  split_ifs with hchanged
  · exact .inr (edits_reset rfl)
  · refine .inl (quiet_of_reset ?_ rfl)
    rw [getText_setTextInternal]
    exact (not_not.mp hchanged).symm

theorem insertTextAtCursor_cases (text : JsText) :
    Quiet e (e.insertTextAtCursor text) ∨ Edits e (e.insertTextAtCursor text) := by
  unfold insertTextAtCursor
  split_ifs
  · exact .inl .refl
  · refine .inr (edits_reset ?_)
    rw [marks_insertTextAtCursorInternal]
    rfl

theorem edits_handlePaste (text : JsText) : Edits e (e.handlePaste text) := by
  unfold handlePaste
  simp only
  split_ifs <;>
    exact edits_reset (by rw [marks_insertTextAtCursorInternal]; rfl)

theorem edits_addNewLine : Edits e e.addNewLine := edits_reset rfl

theorem handleBackspace_cases : Quiet e (e.handleBackspace U) ∨ Edits e (e.handleBackspace U) := by
  unfold handleBackspace
  simp only
  split_ifs
  · exact .inr (edits_reset rfl)
  · exact .inr (edits_reset rfl)
  · exact .inl quiet_reset

theorem handleForwardDelete_cases :
    Quiet e (e.handleForwardDelete U) ∨ Edits e (e.handleForwardDelete U) := by
  unfold handleForwardDelete
  simp only
  split_ifs
  · exact .inr (edits_reset rfl)
  · exact .inl quiet_reset
  · exact .inr (edits_reset rfl)

theorem deleteToStartOfLine_cases :
    Quiet e e.deleteToStartOfLine ∨ Edits e e.deleteToStartOfLine := by
  unfold deleteToStartOfLine
  simp only
  split_ifs
  · exact .inr (edits_kill rfl)
  · exact .inr (edits_kill rfl)
  · exact .inl .exitHistory

theorem deleteToEndOfLine_cases : Quiet e e.deleteToEndOfLine ∨ Edits e e.deleteToEndOfLine := by
  unfold deleteToEndOfLine
  simp only
  split_ifs
  · exact .inr (edits_kill rfl)
  · exact .inl .exitHistory
  · exact .inr (edits_kill rfl)

theorem deleteWordBackwards_cases :
    Quiet e (e.deleteWordBackwards U) ∨ Edits e (e.deleteWordBackwards U) := by
  unfold deleteWordBackwards
  simp only
  split_ifs
  · exact .inr (edits_kill rfl)
  · exact .inl .exitHistory
  · exact .inr (edits_kill rfl)

theorem deleteWordForward_cases :
    Quiet e (e.deleteWordForward U) ∨ Edits e (e.deleteWordForward U) := by
  unfold deleteWordForward
  simp only
  split_ifs
  · exact .inl .exitHistory
  · exact .inr (edits_kill rfl)
  · exact .inr (edits_kill rfl)

theorem marks_yanked (text : JsText) :
    ((e.insertYankedText text).act (some .yank)).marks = (e.undoStack, -1, some .yank) := by
  obtain ⟨hstack, hrest⟩ := Prod.mk.inj (marks_insertYankedText e text)
  rw [marks_act, hstack, (Prod.mk.inj hrest).1]

theorem yank_cases : Quiet e e.yank ∨ Edits e e.yank := by
  unfold yank
  cases KillRing.peek e.killRing with
  | none => exact .inl .refl
  | some text => exact .inr (edits_yank (marks_yanked text))

theorem yankPop_cases : Quiet e e.yankPop ∨ Edits e e.yankPop := by
  unfold yankPop
  split_ifs
  · exact .inl .refl
  · refine .inr (edits_yank ((marks_yanked _).trans ?_))
    have hdeleted := marks_deleteYankedText e.pushUndoSnapshot ((KillRing.peek e.killRing).getD [])
    have hstack := congrArg Prod.fst hdeleted
    exact congrArg (fun stack => (stack, (-1 : ℤ), some LastAction.yank)) hstack

end Editor

/-- What an operation other than a submit does to the snapshots. -/
inductive UndoStep (e : Editor) : EditorOp → Editor → Prop
  | quiet {op : EditorOp} {e' : Editor} (h : e.Quiet e') : UndoStep e op e'
  | edited {op : EditorOp} {e' : Editor} (h : e.Edits e') : UndoStep e op e'
  | typedNew {char : JsText} {e' : Editor}
      (hnew : isWhitespaceChar char = true ∨ e.lastAction ≠ some .typeWord)
      (hmarks : e'.marks = (e.state :: e.undoStack, -1, some .typeWord)) :
      UndoStep e (.insertCharacter char) e'
  | typedOn {char : JsText} {e' : Editor} (hword : isWhitespaceChar char = false)
      (htyping : e.lastAction = some .typeWord)
      (hmarks : e'.marks = (e.undoStack, -1, some .typeWord)) :
      UndoStep e (.insertCharacter char) e'
  | completed {result : EditorState} {e' : Editor}
      (hmarks : e'.marks = (e.state :: e.undoStack, e.historyIndex, none)) :
      UndoStep e (.applyCompletion result) e'
  | browsedNew {up : Bool} {e' : Editor} {index : ℤ} (hindex : e.historyIndex = -1)
      (hmarks : e'.marks = (e.state :: e.undoStack, index, none)) (hshown : 0 ≤ index) :
      UndoStep e (.navigateHistory up) e'
  | browsedOn {up : Bool} {e' : Editor} {index : ℤ} (hprompt : e.hasPrompt up)
      (hindex : e.historyIndex ≠ -1) (hmarks : e'.marks = (e.undoStack, index, none))
      (hrange : -1 ≤ index) : UndoStep e (.navigateHistory up) e'
  | undone {snapshot : EditorState} {stack : List EditorState} {e' : Editor}
      (hstack : e.undoStack = snapshot :: stack) (hstate : e'.state = snapshot)
      (hmarks : e'.marks = (stack, -1, none)) : UndoStep e .undo e'

namespace UndoStep

variable {U : TextUnits} {e : Editor}

theorem of_cases {op : EditorOp} {e' : Editor} (h : e.Quiet e' ∨ e.Edits e') : UndoStep e op e' :=
  h.elim .quiet .edited

theorem insertCharacter (char : JsText) :
    UndoStep e (.insertCharacter char) (e.insertCharacter char) := by
  by_cases hnew : isWhitespaceChar char = true ∨ e.lastAction ≠ some .typeWord
  · refine .typedNew hnew ?_
    unfold Editor.insertCharacter
    simp only
    rw [if_pos (show _ ∨ e.exitHistory.lastAction ≠ _ from hnew)]
    rfl
  · obtain ⟨hword, htyping⟩ := not_or.mp hnew
    refine .typedOn (by simpa using hword) (not_not.mp htyping) ?_
    unfold Editor.insertCharacter
    simp only
    rw [if_neg (show ¬(_ ∨ e.exitHistory.lastAction ≠ _) from hnew)]
    rfl

theorem navigateHistory (up : Bool) :
    UndoStep e (.navigateHistory up) (e.navigateHistory up) := by
  unfold Editor.navigateHistory
  simp only
  by_cases hprompt : e.hasPrompt up
  · rw [if_pos hprompt]
    by_cases hindex : e.historyIndex = -1
    · have hshown : 0 ≤ e.newIndex up := by
        have hle := hprompt.2.1
        unfold Editor.newIndex at hle ⊢
        split_ifs at hle ⊢ <;> omega
      rw [if_pos ⟨hindex, hshown⟩]
      exact .browsedNew hindex rfl hshown
    · rw [if_neg fun h => hindex h.1]
      exact .browsedOn hprompt hindex rfl hprompt.2.1
  · rw [if_neg hprompt]
    exact .quiet (Editor.quiet_of_move rfl rfl)

theorem undo : UndoStep e .undo e.undo := by
  unfold Editor.undo
  simp only
  cases hstack : e.undoStack with
  | nil =>
    have hsame : e.exitHistory.undoStack = [] := hstack
    rw [hsame]
    exact .quiet .exitHistory
  | cons snapshot stack =>
    have hsame : e.exitHistory.undoStack = snapshot :: stack := hstack
    rw [hsame]
    exact .undone hstack rfl rfl

end UndoStep

theorem Editor.undoStep_apply (U : TextUnits) (e : Editor) {op : EditorOp}
    (hsubmit : op ≠ .submitValue) : UndoStep e op (e.apply U op) := by
  cases op with
  | insertCharacter char => exact .insertCharacter char
  | insertTextAtCursor text => exact .of_cases (insertTextAtCursor_cases text)
  | setText text => exact .of_cases (setText_cases text)
  | handlePaste text => exact .edited (edits_handlePaste text)
  | addNewLine => exact .edited edits_addNewLine
  | handleBackspace => exact .of_cases handleBackspace_cases
  | handleForwardDelete => exact .of_cases handleForwardDelete_cases
  | deleteToStartOfLine => exact .of_cases deleteToStartOfLine_cases
  | deleteToEndOfLine => exact .of_cases deleteToEndOfLine_cases
  | deleteWordBackwards => exact .of_cases deleteWordBackwards_cases
  | deleteWordForward => exact .of_cases deleteWordForward_cases
  | yank => exact .of_cases yank_cases
  | yankPop => exact .of_cases yankPop_cases
  | undo => exact .undo
  | navigateHistory up => exact .navigateHistory up
  | applyCompletion result => exact .completed rfl
  | addToHistory text =>
    refine .quiet ?_
    simp only [apply, Editor.addToHistory]
    split_ifs
    · exact .refl
    · exact ⟨rfl, rfl, .inl rfl, fun h => ⟨h, rfl⟩⟩
  | moveToLineStart => exact .quiet quiet_moveToLineStart
  | moveToLineEnd => exact .quiet quiet_moveToLineEnd
  | moveWordBackwards => exact .quiet quiet_moveWordBackwards
  | moveWordForwards => exact .quiet quiet_moveWordForwards
  | moveCursor direction => exact .quiet (quiet_moveCursor direction)
  | pageScroll up pageSize => exact .quiet (quiet_pageScroll up pageSize)
  | jumpToChar char isForward => exact .quiet (quiet_jumpToChar char isForward)
  | render layoutWidth => exact .quiet ⟨rfl, rfl, .inl rfl, fun h => ⟨h, rfl⟩⟩
  | submitValue => exact absurd rfl hsubmit

/-- The editor, and whether a completion has been applied since a prompt of the history is shown. -/
structure EditorSession where
  editor : Editor
  completed : Bool

namespace EditorSession

def start : EditorSession := ⟨.initial, false⟩

def step (U : TextUnits) (s : EditorSession) (op : EditorOp) : Option EditorSession :=
  let editor := s.editor.apply U op
  let completes := match op with
    | .applyCompletion _ => true
    | _ => false
  some ⟨editor, decide (0 ≤ editor.historyIndex) && (s.completed || completes)⟩

/-- No submit, and no step through the history away from a completed text. -/
def KeepsCompletion (s : EditorSession) (op : EditorOp) : Prop :=
  op ≠ .submitValue ∧ ∀ up, op = .navigateHistory up → s.editor.hasPrompt up → s.completed = false

end EditorSession

abbrev EditorStep := Transition EditorSession EditorOp

namespace EditorStep

def textBefore (t : EditorStep) : JsText := t.before.editor.state.getText

def textAfter (t : EditorStep) : JsText := t.after.editor.state.getText

end EditorStep

def Chained (text : JsText) : List EditorStep → JsText → Prop
  | [], text' => text' = text
  | t :: steps, text' => t.textBefore = text ∧ Chained t.textAfter steps text'

structure UndoUnit where
  first : EditorStep
  rest : List EditorStep

namespace UndoUnit

def steps (u : UndoUnit) : List EditorStep := u.first :: u.rest

def start (u : UndoUnit) : EditorState := u.first.before.editor.state

def stop (u : UndoUnit) : EditorState := (u.rest.getLast?.getD u.first).after.editor.state

/-- A character, and characters that are no white space, each typed where the one before ended. -/
inductive Typed : UndoUnit → Prop
  | first {t : EditorStep} {char : JsText} (ht : t.action = .insertCharacter char) : Typed ⟨t, []⟩
  | next {first t : EditorStep} {rest : List EditorStep} {char : JsText} (h : Typed ⟨first, rest⟩)
      (ht : t.action = .insertCharacter char) (hword : isWhitespaceChar char = false)
      (hstart : t.before.editor.state = stop ⟨first, rest⟩) : Typed ⟨first, rest ++ [t]⟩

/-- Steps through the history, all but the first from a prompt that is shown. -/
inductive Browsed : UndoUnit → Prop
  | first {t : EditorStep} {up : Bool} (ht : t.action = .navigateHistory up) : Browsed ⟨t, []⟩
  | next {first t : EditorStep} {rest : List EditorStep} {up : Bool} (h : Browsed ⟨first, rest⟩)
      (ht : t.action = .navigateHistory up) (hshown : 0 ≤ t.before.editor.historyIndex) :
      Browsed ⟨first, rest ++ [t]⟩

/-- A single operation, a word, or a walk through the history. -/
def IsUnit (u : UndoUnit) : Prop := u.rest = [] ∨ u.Typed ∨ u.Browsed

end UndoUnit

/-- The steps that are not undone are units in the order of the run, they make the text out of the
text at the start, and the snapshots are the states before them. -/
structure Undoable (text₀ : JsText) (steps : List EditorStep) (e : Editor) (units : List UndoUnit) :
    Prop where
  sublist : (units.flatMap UndoUnit.steps).Sublist steps
  isUnit : ∀ u ∈ units, u.IsUnit
  chained : Chained text₀ (units.flatMap UndoUnit.steps) e.state.getText
  snapshots : e.undoStack = (units.map UndoUnit.start).reverse

/-- A character that is typed right after another begins a unit if it is white space, and else joins
the unit of the other. -/
def WordsCoalesce (steps : List EditorStep) : Prop :=
  ∀ before after t₁ t₂ char₁ char₂, steps = before ++ t₁ :: t₂ :: after →
    t₁.action = .insertCharacter char₁ → t₂.action = .insertCharacter char₂ →
      t₂.after.editor.undoStack =
        if isWhitespaceChar char₂ then t₂.before.editor.state :: t₂.before.editor.undoStack
        else t₂.before.editor.undoStack

/-- Undo restores the state before the last unit; all undos together restore the text at the
start. -/
structure UndoExact (text₀ : JsText) (steps : List EditorStep) (e : Editor) : Prop where
  units : ∃ units, Undoable text₀ steps e units ∧
    ∀ u ∈ units.getLast?, e.undo.state = u.start
  undone : (Editor.undo^[e.undoStack.length] e).undoStack = [] ∧
    (Editor.undo^[e.undoStack.length] e).state.getText = text₀
  words : WordsCoalesce steps

section Steps

variable {text₀ text : JsText} {steps : List EditorStep} {t : EditorStep} {units : List UndoUnit}
  {u : UndoUnit} {e e' : Editor}

theorem Chained.concat (h : Chained text₀ steps text) (ht : t.textBefore = text) :
    Chained text₀ (steps ++ [t]) t.textAfter := by
  induction steps generalizing text₀ with
  | nil => exact ⟨ht.trans h, rfl⟩
  | cons first steps ih => exact ⟨h.1, ih h.2⟩

theorem Chained.of_append {after : List EditorStep} (h : Chained text₀ (steps ++ t :: after) text) :
    Chained text₀ steps t.textBefore := by
  induction steps generalizing text₀ with
  | nil => exact h.1
  | cons first steps ih => exact ⟨h.1, ih h.2⟩

@[simp] theorem UndoUnit.flatMap_concat :
    (units ++ [u]).flatMap UndoUnit.steps = units.flatMap UndoUnit.steps ++ u.first :: u.rest := by
  simp [UndoUnit.steps]

namespace Undoable

theorem start : Undoable Editor.initial.state.getText [] Editor.initial [] :=
  ⟨Sublist.refl _, by simp, rfl, rfl⟩

theorem quiet (h : Undoable text₀ steps e units) (htext : e'.state.getText = e.state.getText)
    (hstack : e'.undoStack = e.undoStack) : Undoable text₀ (steps ++ [t]) e' units where
  sublist := h.sublist.trans (sublist_append_left _ _)
  isUnit := h.isUnit
  chained := htext ▸ h.chained
  snapshots := hstack.trans h.snapshots

theorem newUnit (h : Undoable text₀ steps t.before.editor units)
    (hstack : t.after.editor.undoStack = t.before.editor.state :: t.before.editor.undoStack) :
    Undoable text₀ (steps ++ [t]) t.after.editor (units ++ [⟨t, []⟩]) where
  sublist := by
    rw [UndoUnit.flatMap_concat]
    exact h.sublist.append_right [t]
  isUnit := by
    intro u hu
    obtain hu | hu := mem_append.mp hu
    · exact h.isUnit u hu
    · rw [mem_singleton.mp hu]
      exact .inl rfl
  chained := by
    rw [UndoUnit.flatMap_concat]
    exact h.chained.concat rfl
  snapshots := by
    rw [hstack, h.snapshots, map_append, reverse_append]
    rfl

theorem moreUnit (h : Undoable text₀ steps t.before.editor (units ++ [u]))
    (hunit : UndoUnit.IsUnit ⟨u.first, u.rest ++ [t]⟩)
    (hstack : t.after.editor.undoStack = t.before.editor.undoStack) :
    Undoable text₀ (steps ++ [t]) t.after.editor (units ++ [⟨u.first, u.rest ++ [t]⟩]) where
  sublist := by
    have hsublist := h.sublist
    rw [UndoUnit.flatMap_concat] at hsublist ⊢
    rw [← cons_append, ← append_assoc]
    exact hsublist.append_right [t]
  isUnit := by
    intro v hv
    obtain hv | hv := mem_append.mp hv
    · exact h.isUnit v (mem_append_left _ hv)
    · rw [mem_singleton.mp hv]
      exact hunit
  chained := by
    have hchained := h.chained
    rw [UndoUnit.flatMap_concat] at hchained ⊢
    rw [← cons_append, ← append_assoc]
    exact hchained.concat rfl
  snapshots := by
    rw [hstack, h.snapshots, map_append, map_append]
    rfl

theorem undone {snapshot : EditorState} {stack : List EditorState}
    (h : Undoable text₀ steps e units) (hstack : e.undoStack = snapshot :: stack)
    (hstate : e'.state = snapshot) (hstack' : e'.undoStack = stack) :
    ∃ older, Undoable text₀ (steps ++ [t]) e' older := by
  have hsnapshots := h.snapshots
  rw [hstack] at hsnapshots
  obtain rfl | ⟨older, u, rfl⟩ := eq_nil_or_concat' units
  · exact absurd hsnapshots (cons_ne_nil _ _)
  · have hsublist := h.sublist
    have hchained := h.chained
    rw [UndoUnit.flatMap_concat] at hsublist hchained
    rw [map_append, reverse_append] at hsnapshots
    obtain ⟨hstart, hrest⟩ := cons.inj hsnapshots
    refine ⟨older, ?_, fun v hv => h.isUnit v (mem_append_left _ hv), ?_, ?_⟩
    · exact ((sublist_append_left _ _).trans hsublist).trans (sublist_append_left _ _)
    · rw [hstate, hstart]
      exact hchained.of_append
    · exact hstack'.trans hrest

end Undoable

/-- A word goes on where the last unit ends, and a walk through the history belongs to the last
unit until a completion is applied. -/
structure UndoInvariant (steps : List EditorStep) (s : EditorSession) (units : List UndoUnit) :
    Prop where
  undoable : Undoable Editor.initial.state.getText steps s.editor units
  typing : s.editor.lastAction = some .typeWord →
    ∃ older u, units = older ++ [u] ∧ u.Typed ∧ u.stop = s.editor.state
  browsing : 0 ≤ s.editor.historyIndex → s.completed = false →
    ∃ older u, units = older ++ [u] ∧ u.Browsed
  index : -1 ≤ s.editor.historyIndex

namespace UndoInvariant

theorem start : UndoInvariant [] .start [] :=
  ⟨.start, fun h => absurd h (by decide), fun h => absurd h (by decide), by decide⟩

theorem after_step {U : TextUnits} (h : t.before.step U t.action = some t.after) :
    t.after.editor = t.before.editor.apply U t.action ∧
      (0 ≤ t.after.editor.historyIndex → t.after.completed = false →
        t.before.completed = false ∧ ∀ result, t.action ≠ .applyCompletion result) := by
  have hafter := Option.some.inj h
  rw [← hafter]
  refine ⟨rfl, fun hshown hcompleted => ?_⟩
  simp only [decide_eq_true hshown, Bool.true_and, Bool.or_eq_false_iff] at hcompleted
  refine ⟨hcompleted.1, fun result haction => ?_⟩
  simp [haction] at hcompleted

theorem step {U : TextUnits} (h : UndoInvariant steps t.before units)
    (hok : t.before.KeepsCompletion t.action) (hstep : t.before.step U t.action = some t.after) :
    ∃ units', UndoInvariant (steps ++ [t]) t.after units' := by
  obtain ⟨hafter, hcompleted⟩ := after_step hstep
  have hcases := Editor.undoStep_apply U t.before.editor hok.1
  rw [← hafter] at hcases
  have hrange := h.index
  generalize haction : t.action = op at hcases
  cases hcases with
  | quiet hquiet =>
    refine ⟨units, h.undoable.quiet hquiet.text hquiet.undoStack, ?_, ?_, ?_⟩
    · intro htyping
      obtain ⟨hbefore, hsame⟩ := hquiet.typing htyping
      rw [hsame]
      exact h.typing hbefore
    · intro hshown hfalse
      have hindex := hquiet.historyIndex
      exact h.browsing (by omega) (hcompleted hshown hfalse).1
    · have hindex := hquiet.historyIndex
      omega
  | edited hedits =>
    obtain ⟨action, hother, hmarks⟩ := hedits
    obtain ⟨hstack, hindex, hlast⟩ := Editor.of_marks hmarks
    refine ⟨units ++ [⟨t, []⟩], h.undoable.newUnit hstack, ?_, ?_, by omega⟩
    · exact fun htyping => absurd (hlast.symm.trans htyping) hother
    · intro hshown
      omega
  | typedNew hnew hmarks =>
    obtain ⟨hstack, hindex, -⟩ := Editor.of_marks hmarks
    refine ⟨units ++ [⟨t, []⟩], h.undoable.newUnit hstack, ?_, ?_, by omega⟩
    · exact fun _ => ⟨units, _, rfl, .first haction, rfl⟩
    · intro hshown
      omega
  | typedOn hword htyping hmarks =>
    obtain ⟨hstack, hindex, -⟩ := Editor.of_marks hmarks
    obtain ⟨older, u, rfl, htyped, hstop⟩ := h.typing htyping
    have hmore : UndoUnit.Typed ⟨u.first, u.rest ++ [t]⟩ := .next htyped haction hword hstop.symm
    refine ⟨older ++ [⟨u.first, u.rest ++ [t]⟩],
      h.undoable.moreUnit (.inr (.inl hmore)) hstack, ?_, ?_, by omega⟩
    · refine fun _ => ⟨older, _, rfl, hmore, ?_⟩
      simp [UndoUnit.stop]
    · intro hshown
      omega
  | completed hmarks =>
    obtain ⟨hstack, hindex, hlast⟩ := Editor.of_marks hmarks
    refine ⟨units ++ [⟨t, []⟩], h.undoable.newUnit hstack, ?_, ?_, by omega⟩
    · exact fun htyping => absurd (hlast.symm.trans htyping) (by decide)
    · exact fun hshown hfalse => absurd haction ((hcompleted hshown hfalse).2 _)
  | browsedNew hindex hmarks hshown =>
    obtain ⟨hstack, hafterIndex, hlast⟩ := Editor.of_marks hmarks
    refine ⟨units ++ [⟨t, []⟩], h.undoable.newUnit hstack, ?_, ?_, by omega⟩
    · exact fun htyping => absurd (hlast.symm.trans htyping) (by decide)
    · exact fun _ _ => ⟨units, _, rfl, .first haction⟩
  | browsedOn hprompt hindex hmarks hle =>
    obtain ⟨hstack, hafterIndex, hlast⟩ := Editor.of_marks hmarks
    have hshown : 0 ≤ t.before.editor.historyIndex := by omega
    obtain ⟨older, u, rfl, hbrowsed⟩ := h.browsing hshown (hok.2 _ haction hprompt)
    have hmore : UndoUnit.Browsed ⟨u.first, u.rest ++ [t]⟩ := .next hbrowsed haction hshown
    refine ⟨older ++ [⟨u.first, u.rest ++ [t]⟩],
      h.undoable.moreUnit (.inr (.inr hmore)) hstack, ?_, ?_, by omega⟩
    · exact fun htyping => absurd (hlast.symm.trans htyping) (by decide)
    · exact fun _ _ => ⟨older, _, rfl, hmore⟩
  | undone hstack hstate hmarks =>
    obtain ⟨hstack', hindex, hlast⟩ := Editor.of_marks hmarks
    obtain ⟨older, holder⟩ := h.undoable.undone hstack hstate hstack'
    refine ⟨older, holder, ?_, ?_, by omega⟩
    · exact fun htyping => absurd (hlast.symm.trans htyping) (by decide)
    · intro hshown
      omega

end UndoInvariant

end Steps

theorem Editor.undoStack_insertCharacter {e : Editor} (h : e.lastAction = some .typeWord)
    (char : JsText) : (e.insertCharacter char).undoStack =
      if isWhitespaceChar char then e.state :: e.undoStack else e.undoStack := by
  have htyping : e.exitHistory.lastAction = some .typeWord := h
  unfold insertCharacter
  simp only [htyping, ne_eq, not_true_eq_false, or_false]
  split_ifs <;> rfl

theorem WordsCoalesce.concat {U : TextUnits} {steps : List EditorStep} {t : EditorStep}
    (h : WordsCoalesce steps) (hstep : t.before.step U t.action = some t.after)
    (hlast : ∀ t₁ ∈ steps.getLast?, ∀ char, t₁.action = .insertCharacter char →
      t.before.editor.lastAction = some .typeWord) : WordsCoalesce (steps ++ [t]) := by
  intro before after t₁ t₂ char₁ char₂ hsteps h₁ h₂
  induction after using reverseRecOn with
  | nil =>
    have hsplit : steps ++ [t] = (before ++ [t₁]) ++ [t₂] := by
      rw [hsteps, append_assoc]
      rfl
    obtain ⟨rfl, hlastStep⟩ := append_inj' hsplit rfl
    obtain rfl := singleton_inj.mp hlastStep
    have htyping := hlast t₁ (by simp) char₁ h₁
    rw [(UndoInvariant.after_step hstep).1, h₂]
    exact Editor.undoStack_insertCharacter htyping char₂
  | append_singleton after last =>
    have hsplit : steps ++ [t] = (before ++ t₁ :: t₂ :: after) ++ [last] := by
      rw [hsteps, append_assoc]
      rfl
    exact h before after t₁ t₂ char₁ char₂ (append_inj' hsplit rfl).1 h₁ h₂

theorem Editor.iterate_undo (e : Editor) :
    (undo^[e.undoStack.length] e).undoStack = [] ∧
      (undo^[e.undoStack.length] e).state = e.undoStack.getLast?.getD e.state := by
  generalize hstack : e.undoStack = stack
  induction stack generalizing e with
  | nil => exact ⟨hstack, rfl⟩
  | cons snapshot stack ih =>
    have hundo : e.undo.undoStack = stack ∧ e.undo.state = snapshot := by
      have hsame : e.exitHistory.undoStack = snapshot :: stack := hstack
      unfold undo
      simp only [hsame]
      exact ⟨trivial, trivial⟩
    obtain ⟨hempty, hstate⟩ := ih e.undo hundo.1
    refine ⟨hempty, hstate.trans ?_⟩
    rw [hundo.2, getLast?_cons]
    rfl

theorem Undoable.text_undone {text₀ : JsText} {steps : List EditorStep} {e : Editor}
    {units : List UndoUnit} (h : Undoable text₀ steps e units) :
    (Editor.undo^[e.undoStack.length] e).state.getText = text₀ := by
  rw [e.iterate_undo.2, h.snapshots, getLast?_reverse]
  have hchained := h.chained
  cases units with
  | nil => exact hchained
  | cons u units => exact hchained.1

theorem Undoable.undo_state {text₀ : JsText} {steps : List EditorStep} {e : Editor}
    {units : List UndoUnit} (h : Undoable text₀ steps e units) {u : UndoUnit}
    (hu : u ∈ units.getLast?) : e.undo.state = u.start := by
  obtain ⟨older, rfl⟩ := getLast?_eq_some_iff.mp hu
  have hstack := h.snapshots
  rw [map_append, reverse_append] at hstack
  have hsame : e.exitHistory.undoStack = u.start :: (older.map UndoUnit.start).reverse := hstack
  unfold Editor.undo
  simp [hsame]

/-- Every run without a submit, in which no completed text is left through the history, can be
undone unit by unit. -/
theorem undo_exact (U : TextUnits) {steps : List EditorStep} {s : EditorSession}
    (hrun : GuardedRun (EditorSession.step U) EditorSession.KeepsCompletion .start steps s) :
    UndoExact Editor.initial.state.getText steps s.editor := by
  have hinvariant : (∃ units, UndoInvariant steps s units) ∧ WordsCoalesce steps ∧
      ∀ t ∈ steps.getLast?, ∀ char, t.action = .insertCharacter char →
        s.editor.lastAction = some .typeWord := by
    refine hrun.induct (P := fun steps s => (∃ units, UndoInvariant steps s units) ∧
      WordsCoalesce steps ∧ ∀ t ∈ steps.getLast?, ∀ char, t.action = .insertCharacter char →
        s.editor.lastAction = some .typeWord) ?_ ?_
    · refine ⟨⟨[], .start⟩, ?_, by simp⟩
      intro before after t₁ t₂ char₁ char₂ hsteps
      simp at hsteps
    · intro steps s op s' ⟨⟨units, hunits⟩, hwords, hlast⟩ hok hstep
      refine ⟨hunits.step (t := ⟨s, op, s'⟩) hok hstep,
        hwords.concat (t := ⟨s, op, s'⟩) hstep hlast, ?_⟩
      intro t ht char haction
      rw [getLast?_concat, Option.mem_some_iff] at ht
      subst ht
      rw [(UndoInvariant.after_step (t := ⟨s, op, s'⟩) hstep).1]
      rw [haction]
      rfl
  obtain ⟨⟨units, hunits⟩, hwords, -⟩ := hinvariant
  exact ⟨⟨units, hunits.undoable, fun u hu => hunits.undoable.undo_state hu⟩,
    ⟨s.editor.iterate_undo.1, hunits.undoable.text_undone⟩, hwords⟩

instance (s : EditorSession) (op : EditorOp) : Decidable (s.KeepsCompletion op) :=
  inferInstanceAs (Decidable (_ ∧ ∀ _ : Bool, _))

/-- Each unit of a text is a segment, one column wide. -/
def unitSegments : TextUnits :=
  { segment := fun text => text.map ([·]), visibleWidth := List.length }

/-- Two words, a walk through the history that is undone, and a deletion. -/
def editedRun : List EditorOp :=
  [.addToHistory (utf16 "b"), .navigateHistory true, .undo, .insertCharacter (utf16 "a"),
    .insertCharacter (utf16 " "), .insertCharacter (utf16 "c"), .insertCharacter (utf16 "d"),
    .moveCursor .left, .handleBackspace]

theorem undo_exact_editedRun : ∃ steps s,
    GuardedRun (EditorSession.step unitSegments) EditorSession.KeepsCompletion .start steps s ∧
      (s.editor.state.getText = utf16 "a d" ∧ s.editor.undoStack.length = 3) ∧
      UndoExact Editor.initial.state.getText steps s.editor := by
  obtain ⟨steps, s, hrun, hend⟩ := GuardedRun.exists_of_play (EditorSession.step unitSegments)
    EditorSession.KeepsCompletion .start editedRun
    (fun _ s => s.editor.state.getText = utf16 "a d" ∧ s.editor.undoStack.length = 3)
    (by decide +kernel)
  exact ⟨steps, s, hrun, hend, undo_exact unitSegments hrun⟩

theorem UndoUnit.Typed.action {u : UndoUnit} (h : u.Typed) :
    ∃ char, u.first.action = .insertCharacter char := by
  induction h with
  | first ht => exact ⟨_, ht⟩
  | next _ _ _ _ ih => exact ih

theorem UndoUnit.Browsed.action {u : UndoUnit} (h : u.Browsed) :
    ∃ up, u.first.action = .navigateHistory up := by
  induction h with
  | first ht => exact ⟨_, ht⟩
  | next _ _ _ ih => exact ih

theorem Chained.eq_textAfter {text₀ text : JsText} {steps : List EditorStep} {t : EditorStep}
    (h : Chained text₀ (steps ++ [t]) text) : text = t.textAfter := by
  induction steps generalizing text₀ with
  | nil => exact h.2
  | cons first steps ih => exact ih h.2

theorem UndoExact.last_unit {text₀ : JsText} {steps : List EditorStep} {e : Editor}
    {snapshot : EditorState} {stack : List EditorState} (h : UndoExact text₀ steps e)
    (hstack : e.undoStack = snapshot :: stack) : ∃ t ∈ steps, t.before.editor.state = snapshot ∧
      (t.textAfter = e.state.getText ∨ (∃ char, t.action = .insertCharacter char) ∨
        ∃ up, t.action = .navigateHistory up) := by
  obtain ⟨units, hunits, -⟩ := h.units
  have hsnapshots := hunits.snapshots
  rw [hstack] at hsnapshots
  obtain rfl | ⟨older, u, rfl⟩ := eq_nil_or_concat' units
  · exact absurd hsnapshots (cons_ne_nil _ _)
  have hsublist := hunits.sublist
  have hchained := hunits.chained
  rw [UndoUnit.flatMap_concat] at hsublist hchained
  rw [map_append, reverse_append] at hsnapshots
  refine ⟨u.first, hsublist.subset (by simp), (cons.inj hsnapshots).1.symm, ?_⟩
  obtain hsingle | htyped | hbrowsed := hunits.isUnit u (by simp)
  · rw [hsingle] at hchained
    exact .inl hchained.eq_textAfter.symm
  · exact .inr (.inl htyped.action)
  · exact .inr (.inr hbrowsed.action)

def EditorOp.isTyping : EditorOp → Bool
  | .insertCharacter _ => true
  | _ => false

def EditorOp.isBrowsing : EditorOp → Bool
  | .navigateHistory _ => true
  | _ => false

def completedRun : List EditorOp :=
  [.addToHistory (utf16 "b"), .addToHistory (utf16 "a"), .navigateHistory true,
    .applyCompletion ⟨[utf16 "ab"], 0, 2⟩, .navigateHistory true]

/-- The completed text is replaced without a snapshot. -/
theorem completedText_unreachable : ∃ steps s,
    GuardedRun (EditorSession.step unitSegments) (fun _ op => op ≠ .submitValue) .start steps s ∧
      ¬UndoExact Editor.initial.state.getText steps s.editor := by
  obtain ⟨steps, s, hrun, hstack, hmade, htyped, hwalk⟩ := GuardedRun.exists_of_play
    (EditorSession.step unitSegments) (fun _ op => op ≠ .submitValue) .start completedRun
    (fun steps s => s.editor.undoStack = [⟨[utf16 "a"], 0, 1⟩, ⟨[[]], 0, 0⟩] ∧
      (∀ t ∈ steps, t.before.editor.state = ⟨[utf16 "a"], 0, 1⟩ →
        EditorStep.textAfter t ≠ s.editor.state.getText) ∧
      (∀ t ∈ steps, ¬t.action.isTyping = true) ∧
      ∀ t ∈ steps, t.before.editor.state = ⟨[utf16 "a"], 0, 1⟩ → ¬t.action.isBrowsing = true)
    (by decide +kernel)
  refine ⟨steps, s, hrun, fun hexact => ?_⟩
  obtain ⟨t, ht, hbefore, hafter | ⟨char, haction⟩ | ⟨up, haction⟩⟩ := hexact.last_unit hstack
  · exact hmade t ht hbefore hafter
  · exact htyped t ht (by rw [haction]; rfl)
  · exact hwalk t ht hbefore (by rw [haction]; rfl)

end Draht
