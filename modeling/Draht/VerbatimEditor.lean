import Draht.PasteMarkers
import Draht.EditorKills

/-!
# The editor with its pastes verbatim

An editor that keeps every large paste as one piece of its text. It shows what the editor shows, an
operation replaces the same part of what is shown, and a paste goes as a whole. As long as no
operation cuts a marker it stays what the editor shows, and where the text is readable it is the
text that the editor expands.
-/

namespace Draht

theorem shownText_append (xs ys : List Piece) :
    shownText (xs ++ ys) = shownText xs ++ shownText ys := List.flatMap_append

@[simp] theorem shownText_units (text : JsText) : shownText (text.map .unit) = text := by
  induction text with
  | nil => rfl
  | cons c text ih => exact congrArg (c :: ·) ih

/-- The cursor is an offset in what is shown. -/
structure PieceText where
  pieces : List Piece
  offset : ℕ
deriving DecidableEq

namespace PieceText

def shown (t : PieceText) : FlatText := ⟨shownText t.pieces, t.offset⟩

def plain (text : JsText) : PieceText := ⟨text.map .unit, text.length⟩

/-- The number of pieces that lie in the first `n` units shown. -/
def within : ℕ → List Piece → ℕ
  | _, [] => 0
  | n, p :: pieces =>
    if (p.render []).length ≤ n then within (n - (p.render []).length) pieces + 1 else 0

def Between (n : ℕ) (pieces : List Piece) : Prop :=
  shownText (pieces.take (within n pieces)) = (shownText pieces).take n

instance (n : ℕ) (pieces : List Piece) : Decidable (Between n pieces) :=
  inferInstanceAs (Decidable (_ = _))

/-- `back` and `forth` count units shown; a paste is replaced as a whole. -/
def splice (t : PieceText) (back forth : ℕ) (inserted : List Piece) : PieceText :=
  { pieces := t.pieces.take (within (t.offset - back) t.pieces) ++ inserted ++
      t.pieces.drop (within (t.offset + forth) t.pieces)
    offset := t.offset - back + (shownText inserted).length }

def removed (t : PieceText) (back forth : ℕ) : List Piece :=
  (t.pieces.take (within (t.offset + forth) t.pieces)).drop (within (t.offset - back) t.pieces)

/-- A splice that cuts no marker, or changes nothing. -/
def Splits (t : PieceText) (back forth : ℕ) (inserted : List Piece) : Prop :=
  back = 0 ∧ forth = 0 ∧ inserted = [] ∨
    Between (t.offset - back) t.pieces ∧ Between (t.offset + forth) t.pieces

instance (t : PieceText) (back forth : ℕ) (inserted : List Piece) :
    Decidable (t.Splits back forth inserted) := inferInstanceAs (Decidable (_ ∨ _))

theorem within_mono {m n : ℕ} (h : m ≤ n) (pieces : List Piece) :
    within m pieces ≤ within n pieces := by
  induction pieces generalizing m n with
  | nil => exact le_refl _
  | cons p pieces ih =>
    unfold within
    split_ifs with hm hn
    · exact Nat.succ_le_succ (ih (Nat.sub_le_sub_right h _))
    · exact absurd (hm.trans h) hn
    · exact Nat.zero_le _
    · exact le_refl _

theorem Between.drop {n : ℕ} {pieces : List Piece} (h : Between n pieces) :
    shownText (pieces.drop (within n pieces)) = (shownText pieces).drop n := by
  have hwhole : shownText (pieces.take (within n pieces)) ++
      shownText (pieces.drop (within n pieces)) =
        (shownText pieces).take n ++ (shownText pieces).drop n := by
    rw [← shownText_append, List.take_append_drop, List.take_append_drop]
  rw [h] at hwhole
  exact List.append_cancel_left hwhole

variable {back forth : ℕ} {inserted : List Piece}

theorem shown_splice {t : PieceText}
    (h : t.Splits back forth inserted) :
    (t.splice back forth inserted).shown = t.shown.splice back forth (shownText inserted) := by
  obtain ⟨rfl, rfl, rfl⟩ | ⟨hback, hforth⟩ := h
  · simp [splice, shown, FlatText.splice, shownText, renderText]
  · unfold splice shown FlatText.splice
    simp only [shownText_append]
    rw [hback, hforth.drop]

theorem shown_removed {t : PieceText}
    (h : t.Splits back forth inserted) : shownText (t.removed back forth) =
      ((shownText t.pieces).take (t.offset + forth)).drop (t.offset - back) := by
  obtain ⟨rfl, rfl, -⟩ | ⟨hback, hforth⟩ := h
  · simp [removed, shownText, renderText]
  · have hmono : within (t.offset - back) t.pieces ≤ within (t.offset + forth) t.pieces :=
      within_mono (by omega) _
    have htake : (t.pieces.take (within (t.offset + forth) t.pieces)).take
        (within (t.offset - back) t.pieces) =
          t.pieces.take (within (t.offset - back) t.pieces) := by
      rw [List.take_take, Nat.min_eq_left hmono]
    have hwhole : (shownText t.pieces).take (t.offset - back) ++
        shownText (t.removed back forth) = (shownText t.pieces).take (t.offset + forth) := by
      rw [← hback, ← hforth, ← htake, ← shownText_append, removed, List.take_append_drop]
    have hsplit : (shownText t.pieces).take (t.offset - back) ++
        ((shownText t.pieces).take (t.offset + forth)).drop (t.offset - back) =
          (shownText t.pieces).take (t.offset + forth) := by
      have hmin : (shownText t.pieces).take (t.offset - back) =
          ((shownText t.pieces).take (t.offset + forth)).take (t.offset - back) := by
        rw [List.take_take, Nat.min_eq_left (by omega)]
      rw [hmin, List.take_append_drop]
    exact List.append_cancel_left (hwhole.trans hsplit.symm)

theorem shown_plain (text : JsText) : (plain text).shown = ⟨text, text.length⟩ := by
  unfold plain shown
  rw [shownText_units]

end PieceText

namespace PieceRing

def push (ring : List (List Piece)) (pieces : List Piece) (prepend accumulate : Bool) :
    List (List Piece) :=
  if pieces = [] then ring
  else
    match accumulate, ring.getLast? with
    | true, some last => ring.dropLast ++ [if prepend then pieces ++ last else last ++ pieces]
    | _, _ => ring ++ [pieces]

def peek (ring : List (List Piece)) : List Piece := ring.getLast?.getD []

def rotate (ring : List (List Piece)) : List (List Piece) :=
  if ring.length > 1 then ring.getLast?.toList ++ ring.dropLast else ring

variable (ring : List (List Piece))

theorem shownText_eq_nil_iff {pieces : List Piece} : shownText pieces = [] ↔ pieces = [] := by
  constructor
  · intro h
    cases pieces with
    | nil => rfl
    | cons p pieces =>
      obtain ⟨hp, -⟩ := List.append_eq_nil_iff.mp ((renderText_cons [] p pieces).symm.trans h)
      cases p with
      | unit c => exact absurd hp (List.cons_ne_nil c [])
      | paste id content => exact absurd hp (Editor.pasteMarker_ne_nil id content)
  · rintro rfl
    rfl

theorem map_push (pieces : List Piece) (prepend accumulate : Bool) :
    (push ring pieces prepend accumulate).map shownText =
      KillRing.push (ring.map shownText) (shownText pieces) prepend accumulate := by
  unfold push KillRing.push
  by_cases hempty : pieces = []
  · rw [if_pos hempty, if_pos (shownText_eq_nil_iff.mpr hempty)]
  · rw [if_neg hempty, if_neg fun h => hempty (shownText_eq_nil_iff.mp h), List.getLast?_map]
    cases accumulate with
    | false => simp
    | true =>
      cases ring.getLast? with
      | none => simp
      | some last => cases prepend <;> simp [List.map_dropLast, shownText_append]

theorem peek_map : ((KillRing.peek (ring.map shownText)).getD []) = shownText (peek ring) := by
  unfold KillRing.peek peek
  rw [List.getLast?_map]
  cases ring.getLast? with
  | none => rfl
  | some last => rfl

theorem map_rotate : (rotate ring).map shownText = KillRing.rotate (ring.map shownText) := by
  unfold rotate KillRing.rotate
  rw [List.length_map]
  split_ifs
  · rw [List.map_append, List.map_dropLast, List.getLast?_map]
    cases ring.getLast? <;> rfl
  · rfl

end PieceRing

namespace Editor

variable (e : Editor)

def pasted (pastedText : JsText) : List Piece :=
  let printable := (normalizeText pastedText).filter fun c => c == 10 || 32 ≤ c
  let filteredText := e.pathSpace printable ++ printable
  if (textLines filteredText).length > 10 ∨ filteredText.length > 1000 then
    [.paste (e.pasteCounter + 1) filteredText]
  else (normalizeText filteredText).map .unit

end Editor

structure VerbatimEditor where
  text : PieceText
  killRing : List (List Piece)
  undoStack : List PieceText
deriving DecidableEq

namespace VerbatimEditor

/-! `e` is the editor before the operation. The ids of the pastes, whether a snapshot is taken, what
the history has and where a move goes are read off it. -/

variable (U : TextUnits) (e : Editor) (v : VerbatimEditor)

/-- The units shown before and after the cursor that an operation replaces, and the pieces that
come for them. -/
def edit : EditorOp → Option (ℕ × ℕ × List Piece)
  | .handlePaste text => some (0, 0, e.pasted text)
  | .yank => some (0, 0, PieceRing.peek v.killRing)
  | .yankPop =>
    some (if e.popsYank then
      ((shownText (PieceRing.peek v.killRing)).length, 0,
        PieceRing.peek (PieceRing.rotate v.killRing))
    else (0, 0, []))
  | op =>
    (v.text.shown.edit U e.pastes.keys [] op).map fun replaced =>
      (replaced.1, replaced.2.1, replaced.2.2.map .unit)

def textAfter (op : EditorOp) : PieceText :=
  match op with
  | .setText text => .plain (normalizeText text)
  | .navigateHistory up =>
    if e.hasPrompt up then
      .plain (if e.newIndex up = -1 then [] else e.history.getD (e.newIndex up).toNat [])
    else v.text
  | .undo => v.undoStack.head?.getD v.text
  | .submitValue => .plain []
  | op =>
    match v.edit U e op with
    | some (back, forth, inserted) => v.text.splice back forth inserted
    | none => { v.text with offset := (e.apply U op).state.flat.offset }

def removed (op : EditorOp) : List Piece :=
  match v.edit U e op with
  | some (back, forth, _) => v.text.removed back forth
  | none => []

def killRingAfter (op : EditorOp) : List (List Piece) :=
  let accumulate := decide (e.lastAction = some .kill)
  match op with
  | .deleteToStartOfLine | .deleteWordBackwards =>
    PieceRing.push v.killRing (v.removed U e op) true accumulate
  | .deleteToEndOfLine | .deleteWordForward =>
    PieceRing.push v.killRing (v.removed U e op) false accumulate
  | .yankPop => if e.popsYank then PieceRing.rotate v.killRing else v.killRing
  | _ => v.killRing

def undoStackAfter (op : EditorOp) : List PieceText :=
  match op with
  | .undo => v.undoStack.tail
  | .submitValue => []
  | op =>
    if e.undoStack.length < (e.apply U op).undoStack.length then v.text :: v.undoStack
    else v.undoStack

def apply (op : EditorOp) : VerbatimEditor :=
  ⟨v.textAfter U e op, v.killRingAfter U e op, v.undoStackAfter U e op⟩

end VerbatimEditor

structure PasteSession where
  editor : Editor
  verbatim : VerbatimEditor

namespace PasteSession

def start : PasteSession := ⟨.initial, ⟨.plain [], [], []⟩⟩

def step (U : TextUnits) (s : PasteSession) (op : EditorOp) : Option PasteSession :=
  some ⟨s.editor.apply U op, s.verbatim.apply U s.editor op⟩

def KeepsMarkers (U : TextUnits) (s : PasteSession) (op : EditorOp) : Prop :=
  op.isInput = true ∧ ∀ replaced ∈ s.verbatim.edit U s.editor op,
    s.verbatim.text.Splits replaced.1 replaced.2.1 replaced.2.2

instance (U : TextUnits) (s : PasteSession) (op : EditorOp) : Decidable (s.KeepsMarkers U op) :=
  inferInstanceAs (Decidable (_ ∧ _))

structure Agrees (s : PasteSession) : Prop where
  sound : s.editor.state.Sound
  stackSound : ∀ state ∈ s.editor.undoStack, state.Sound
  text : s.editor.state.flat = s.verbatim.text.shown
  killRing : s.editor.killRing = s.verbatim.killRing.map shownText
  undoStack : s.editor.undoStack.map EditorState.flat = s.verbatim.undoStack.map PieceText.shown
  yanked : s.editor.lastAction = some .yank →
    (KillRing.peek s.editor.killRing).getD [] <:+ s.editor.state.left

end PasteSession

namespace Editor

open EditorState

variable {U : TextUnits} {e : Editor}

theorem splices_handlePaste (h : e.state.Sound) (text : JsText) :
    Splices e.state (e.handlePaste text).state 0 0 (shownText (e.pasted text)) := by
  unfold handlePaste pasted
  simp only
  split_ifs with hlarge hlarge' hlarge'
  · have hmarker : shownText [.paste (e.pasteCounter + 1) (e.pathSpace ((normalizeText text).filter
        fun c => c == 10 || 32 ≤ c) ++ (normalizeText text).filter fun c => c == 10 || 32 ≤ c)] =
          normalizeText (pasteMarker (e.pasteCounter + 1) (e.pathSpace ((normalizeText text).filter
            fun c => c == 10 || 32 ≤ c) ++ (normalizeText text).filter
              fun c => c == 10 || 32 ≤ c)) := by
      rw [normalizeText_of_le fun c hc => le_of_mem_pasteMarker hc]
      exact List.append_nil _
    rw [hmarker]
    exact splices_insertTextAtCursorInternal (e := { (e.exitHistory.act none).pushUndoSnapshot with
      pasteCounter := _, pastes := _ }) h _
  · exact absurd hlarge hlarge'
  · exact absurd hlarge' hlarge
  · rw [shownText_units]
    exact splices_insertTextAtCursorInternal (e := (e.exitHistory.act none).pushUndoSnapshot) h _

theorem flat_setTextInternal (text : JsText) :
    (e.setTextInternal text).state.flat = ⟨text, text.length⟩ := by
  have hsound : (e.setTextInternal text).state.Sound := sound_setTextInternal text
  have hright : (e.setTextInternal text).state.right = [] :=
    hsound.right_eq_nil (le_refl _) (Nat.lt_irrefl _)
  have htext : (e.setTextInternal text).state.getText = text := getText_setTextInternal text
  have hleft : (e.setTextInternal text).state.left = text := by
    have hsides := hsound.getText_eq
    rw [hright, List.append_nil, htext] at hsides
    exact hsides.symm
  have hoffset := hsound.offset_eq
  rw [hleft] at hoffset
  rw [← hoffset]
  exact congrArg (FlatText.mk · _) htext

theorem flat_navigateHistory {up : Bool} (h : e.hasPrompt up) :
    (e.navigateHistory up).state.flat = (PieceText.plain
      (if e.newIndex up = -1 then [] else e.history.getD (e.newIndex up).toNat [])).shown := by
  rw [PieceText.shown_plain]
  unfold navigateHistory
  simp only
  rw [if_pos h]
  by_cases hpush : (e.act none).historyIndex = -1 ∧ e.newIndex up ≥ 0
  · rw [if_pos hpush]
    exact flat_setTextInternal _
  · rw [if_neg hpush]
    exact flat_setTextInternal _

theorem undo_nil (h : e.undoStack = []) : e.undo = e.exitHistory := by
  have hsame : e.exitHistory.undoStack = [] := h
  unfold undo
  simp only
  rw [hsame]

theorem undo_cons {snapshot : EditorState} {stack : List EditorState}
    (h : e.undoStack = snapshot :: stack) :
    e.undo.state = snapshot ∧ e.undo.undoStack = stack := by
  have hsame : e.exitHistory.undoStack = snapshot :: stack := h
  unfold undo
  simp only
  rw [hsame]
  exact ⟨rfl, rfl⟩

theorem undoStack_apply {op : EditorOp} (hundo : op ≠ .undo) (hsubmit : op ≠ .submitValue) :
    (e.apply U op).undoStack = e.undoStack ∨
      (e.apply U op).undoStack = e.state :: e.undoStack := by
  have hcases := undoStep_apply U e hsubmit
  generalize e.apply U op = e' at hcases ⊢
  cases hcases with
  | quiet hquiet => exact Or.inl hquiet.undoStack
  | edited hedits =>
    obtain ⟨action, -, hmarks⟩ := hedits
    exact Or.inr (of_marks hmarks).1
  | typedNew _ hmarks => exact Or.inr (of_marks hmarks).1
  | typedOn _ _ hmarks => exact Or.inl (of_marks hmarks).1
  | completed hmarks => exact Or.inr (of_marks hmarks).1
  | browsedNew _ hmarks => exact Or.inr (of_marks hmarks).1
  | browsedOn _ _ hmarks => exact Or.inl (of_marks hmarks).1
  | undone => exact absurd rfl hundo

end Editor

theorem FlatText.edit_yanked (U : TextUnits) (validIds : List ℕ) (f : FlatText) {op : EditorOp}
    (hyank : op ≠ .yank) (yanked yanked' : JsText) :
    f.edit U validIds yanked op = f.edit U validIds yanked' op := by
  cases op with
  | yank => exact absurd rfl hyank
  | _ => rfl

namespace PasteSession.Agrees

open EditorState

variable {U : TextUnits} {s : PasteSession} {op : EditorOp}

theorem peek_killRing (h : s.Agrees) : (KillRing.peek s.editor.killRing).getD [] =
    shownText (PieceRing.peek s.verbatim.killRing) := by
  rw [h.killRing, PieceRing.peek_map]

theorem peek_rotate (h : s.Agrees) : (KillRing.peek (KillRing.rotate s.editor.killRing)).getD [] =
    shownText (PieceRing.peek (PieceRing.rotate s.verbatim.killRing)) := by
  rw [h.killRing, ← PieceRing.map_rotate, PieceRing.peek_map]

theorem splices (hU : U.Lawful) (h : s.Agrees) (hinput : op.isInput = true)
    (hedit : s.verbatim.edit U s.editor op = some (back, forth, inserted)) :
    Splices s.editor.state (s.editor.apply U op).state back forth (shownText inserted) := by
  unfold VerbatimEditor.edit at hedit
  split at hedit
  · cases hedit
    exact Editor.splices_handlePaste h.sound _
  · cases hedit
    rw [← h.peek_killRing]
    exact Editor.splices_yank h.sound
  · split_ifs at hedit with hpop
    · cases hedit
      rw [← h.peek_killRing, ← h.peek_rotate]
      exact Editor.splices_yankPop h.sound hpop (h.yanked (not_not.mp (not_or.mp hpop).1))
    · cases hedit
      change Splices _ s.editor.yankPop.state 0 0 []
      rw [Editor.yankPop_of_not_popsYank hpop]
      exact Editor.splices_refl h.sound
  · rename_i hyank _
    obtain ⟨replaced, hflat, heq⟩ := Option.map_eq_some_iff.mp hedit
    cases heq
    rw [← h.text, FlatText.edit_yanked U _ _ hyank []
      ((KillRing.peek s.editor.killRing).getD [])] at hflat
    rw [shownText_units]
    refine Editor.splices_edit hU h.sound ?_ hflat
    rintro char rfl
    exact of_decide_eq_true hinput

theorem flat_edit (hU : U.Lawful) (h : s.Agrees) (hok : s.KeepsMarkers U op)
    (hedit : s.verbatim.edit U s.editor op = some (back, forth, inserted)) :
    (s.editor.apply U op).state.flat = (s.verbatim.text.splice back forth inserted).shown := by
  rw [(h.splices hU hok.1 hedit).flat h.sound, h.text, PieceText.shown_splice (hok.2 _ hedit)]

theorem flat_move (h : s.Agrees) (hquiet : s.editor.Quiet (s.editor.apply U op)) :
    (s.editor.apply U op).state.flat = PieceText.shown
      { s.verbatim.text with offset := (s.editor.apply U op).state.flat.offset } := by
  have htext : s.editor.state.getText = shownText s.verbatim.text.pieces :=
    congrArg FlatText.text h.text
  exact congrArg (FlatText.mk · _) (hquiet.text.trans htext)

theorem flat_undo (h : s.Agrees) :
    s.editor.undo.state.flat = (s.verbatim.undoStack.head?.getD s.verbatim.text).shown := by
  have hstacks := h.undoStack
  cases hstack : s.editor.undoStack with
  | nil =>
    rw [hstack] at hstacks
    rw [Editor.undo_nil hstack, List.map_eq_nil_iff.mp hstacks.symm]
    exact h.text
  | cons snapshot stack =>
    rw [hstack, List.map_cons] at hstacks
    obtain ⟨text, texts, hcons, hsnapshot, -⟩ := List.map_eq_cons_iff.mp hstacks.symm
    rw [(Editor.undo_cons hstack).1, hcons]
    exact hsnapshot.symm

theorem text_apply (hU : U.Lawful) (h : s.Agrees) (hok : s.KeepsMarkers U op) :
    (s.editor.apply U op).state.flat = (s.verbatim.textAfter U s.editor op).shown := by
  cases op with
  | insertCharacter char => exact h.flat_edit hU hok rfl
  | insertTextAtCursor text => exact h.flat_edit hU hok rfl
  | handlePaste text => exact h.flat_edit hU hok rfl
  | addNewLine => exact h.flat_edit hU hok rfl
  | handleBackspace => exact h.flat_edit hU hok rfl
  | handleForwardDelete => exact h.flat_edit hU hok rfl
  | deleteToStartOfLine => exact h.flat_edit hU hok rfl
  | deleteToEndOfLine => exact h.flat_edit hU hok rfl
  | deleteWordBackwards => exact h.flat_edit hU hok rfl
  | deleteWordForward => exact h.flat_edit hU hok rfl
  | yank => exact h.flat_edit hU hok rfl
  | yankPop => exact h.flat_edit hU hok rfl
  | setText text =>
    exact (Editor.flat_setTextInternal _).trans (PieceText.shown_plain _).symm
  | navigateHistory up =>
    change (s.editor.navigateHistory up).state.flat =
      PieceText.shown (if s.editor.hasPrompt up then _ else s.verbatim.text)
    by_cases hprompt : s.editor.hasPrompt up
    · rw [if_pos hprompt]
      exact Editor.flat_navigateHistory hprompt
    · have hsame : s.editor.navigateHistory up = s.editor.act none := if_neg hprompt
      rw [if_neg hprompt, hsame]
      exact h.text
  | undo => exact h.flat_undo
  | submitValue => rfl
  | applyCompletion result => exact absurd hok.1 Bool.false_ne_true
  | addToHistory text =>
    refine h.flat_move ?_
    simp only [Editor.apply, Editor.addToHistory]
    split_ifs
    · exact .refl
    · exact ⟨rfl, rfl, Or.inl rfl, fun h => ⟨h, rfl⟩⟩
  | moveToLineStart => exact h.flat_move Editor.quiet_moveToLineStart
  | moveToLineEnd => exact h.flat_move Editor.quiet_moveToLineEnd
  | moveWordBackwards => exact h.flat_move Editor.quiet_moveWordBackwards
  | moveWordForwards => exact h.flat_move Editor.quiet_moveWordForwards
  | moveCursor direction => exact h.flat_move (Editor.quiet_moveCursor direction)
  | pageScroll up pageSize => exact h.flat_move (Editor.quiet_pageScroll up pageSize)
  | jumpToChar char isForward => exact h.flat_move (Editor.quiet_jumpToChar char isForward)
  | render layoutWidth => exact h.flat_move ⟨rfl, rfl, Or.inl rfl, fun h => ⟨h, rfl⟩⟩

theorem edit_of_kills {prepend : Bool} (hkills : op.kills? = some prepend) :
    ∃ back forth, s.verbatim.text.shown.edit U s.editor.pastes.keys [] op =
        some (back, forth, []) ∧
      s.verbatim.edit U s.editor op = some (back, forth, []) := by
  cases op with
  | deleteToStartOfLine => exact ⟨_, _, rfl, rfl⟩
  | deleteToEndOfLine => exact ⟨_, _, rfl, rfl⟩
  | deleteWordBackwards => exact ⟨_, _, rfl, rfl⟩
  | deleteWordForward => exact ⟨_, _, rfl, rfl⟩
  | _ => cases hkills

theorem kills (hU : U.Lawful) (h : s.Agrees) (hok : s.KeepsMarkers U op) {prepend : Bool}
    (hkills : op.kills? = some prepend) :
    Editor.Kills s.editor (s.editor.apply U op) prepend
      (shownText (s.verbatim.removed U s.editor op)) := by
  obtain ⟨back, forth, hflat, hedit⟩ := edit_of_kills (U := U) (s := s) hkills
  have hremoved : s.verbatim.removed U s.editor op = s.verbatim.text.removed back forth := by
    unfold VerbatimEditor.removed
    rw [hedit]
  rw [hremoved, PieceText.shown_removed (hok.2 _ hedit)]
  rw [← h.text] at hflat
  have hkilled := Editor.kills_apply hU h.sound hkills hflat
  rw [h.text] at hkilled
  exact hkilled

theorem killRingAfter_of_kills {prepend : Bool} (hkills : op.kills? = some prepend) :
    s.verbatim.killRingAfter U s.editor op = PieceRing.push s.verbatim.killRing
      (s.verbatim.removed U s.editor op) prepend (decide (s.editor.lastAction = some .kill)) := by
  cases op with
  | deleteToStartOfLine =>
    cases hkills
    rfl
  | deleteToEndOfLine =>
    cases hkills
    rfl
  | deleteWordBackwards =>
    cases hkills
    rfl
  | deleteWordForward =>
    cases hkills
    rfl
  | _ => cases hkills

theorem killRingAfter_of_keeps (hkills : op.kills? = none) (hpop : op ≠ .yankPop) :
    s.verbatim.killRingAfter U s.editor op = s.verbatim.killRing := by
  cases op with
  | deleteToStartOfLine => cases hkills
  | deleteToEndOfLine => cases hkills
  | deleteWordBackwards => cases hkills
  | deleteWordForward => cases hkills
  | yankPop => exact absurd rfl hpop
  | _ => rfl

theorem killRing_apply (hU : U.Lawful) (h : s.Agrees) (hok : s.KeepsMarkers U op) :
    (s.editor.apply U op).killRing =
      (s.verbatim.killRingAfter U s.editor op).map shownText := by
  cases hkills : op.kills? with
  | some prepend =>
    rw [(h.kills hU hok hkills).killRing, killRingAfter_of_kills hkills, PieceRing.map_push,
      h.killRing]
  | none =>
    by_cases hpop : op = .yankPop
    · subst hpop
      change s.editor.yankPop.killRing = List.map shownText (if s.editor.popsYank then _ else _)
      by_cases hpops : s.editor.popsYank
      · rw [if_pos hpops, Editor.killRing_yankPop hpops, PieceRing.map_rotate, h.killRing]
      · rw [if_neg hpops, Editor.yankPop_of_not_popsYank hpops]
        exact h.killRing
    · rw [killRingAfter_of_keeps hkills hpop, ← h.killRing]
      by_cases hyank : op = .yank
      · subst hyank
        exact Editor.killRing_yank
      · exact (Editor.keepsClip_apply hkills hyank hpop).killRing

theorem undoStackAfter_of_ne (hundo : op ≠ .undo) (hsubmit : op ≠ .submitValue) :
    s.verbatim.undoStackAfter U s.editor op =
      if s.editor.undoStack.length < (s.editor.apply U op).undoStack.length then
        s.verbatim.text :: s.verbatim.undoStack
      else s.verbatim.undoStack := by
  cases op with
  | undo => exact absurd rfl hundo
  | submitValue => exact absurd rfl hsubmit
  | _ => rfl

theorem undoStack_apply (h : s.Agrees) :
    (s.editor.apply U op).undoStack.map EditorState.flat =
      (s.verbatim.undoStackAfter U s.editor op).map PieceText.shown := by
  have hstacks := h.undoStack
  by_cases hsubmit : op = .submitValue
  · subst hsubmit
    rfl
  by_cases hundo : op = .undo
  · subst hundo
    change s.editor.undo.undoStack.map EditorState.flat = s.verbatim.undoStack.tail.map _
    rw [List.map_tail, ← hstacks, ← List.map_tail]
    cases hstack : s.editor.undoStack with
    | nil =>
      rw [Editor.undo_nil hstack]
      exact congrArg (List.map _) hstack
    | cons snapshot stack => rw [(Editor.undo_cons hstack).2, List.tail_cons]
  · rw [undoStackAfter_of_ne hundo hsubmit]
    obtain hstack | hstack := Editor.undoStack_apply (U := U) (e := s.editor) hundo hsubmit
    · rw [hstack, if_neg (Nat.lt_irrefl _)]
      exact hstacks
    · rw [hstack, if_pos (by rw [List.length_cons]; exact Nat.lt_succ_self _), List.map_cons,
        List.map_cons, hstacks, h.text]

theorem yanked_apply (hU : U.Lawful) (h : s.Agrees) (hok : s.KeepsMarkers U op)
    (hlast : (s.editor.apply U op).lastAction = some .yank) :
    (KillRing.peek (s.editor.apply U op).killRing).getD [] <:+
      (s.editor.apply U op).state.left := by
  cases hkills : op.kills? with
  | some prepend =>
    obtain ⟨hyank, hstate, hring⟩ := (h.kills hU hok hkills).yanked hlast
    rw [hstate, hring]
    exact h.yanked hyank
  | none =>
    by_cases hpop : op = .yankPop
    · subst hpop
      change (KillRing.peek s.editor.yankPop.killRing).getD [] <:+ s.editor.yankPop.state.left
      by_cases hpops : s.editor.popsYank
      · have hyanked := h.yanked (not_not.mp (not_or.mp hpops).1)
        rw [Editor.killRing_yankPop hpops, (Editor.splices_yankPop h.sound hpops hyanked).left]
        exact List.suffix_append _ _
      · change s.editor.yankPop.lastAction = _ at hlast
        rw [Editor.yankPop_of_not_popsYank hpops] at hlast ⊢
        exact h.yanked hlast
    · by_cases hyank : op = .yank
      · subst hyank
        change (KillRing.peek s.editor.yank.killRing).getD [] <:+ s.editor.yank.state.left
        rw [Editor.killRing_yank, (Editor.splices_yank h.sound).left]
        exact List.suffix_append _ _
      · have hkeeps := Editor.keepsClip_apply (U := U) (e := s.editor) hkills hyank hpop
        obtain ⟨hlast', hstate⟩ := hkeeps.yanked hlast
        rw [hkeeps.killRing, hstate]
        exact h.yanked hlast'

theorem step (hU : U.Lawful) (h : s.Agrees) (hok : s.KeepsMarkers U op) :
    Agrees ⟨s.editor.apply U op, s.verbatim.apply U s.editor op⟩ where
  sound := Editor.sound_apply hU h.sound h.stackSound hok.1
  stackSound := by
    intro state hstate
    obtain hold | rfl := Editor.mem_undoStack_apply op hstate
    · exact h.stackSound state hold
    · exact h.sound
  text := h.text_apply hU hok
  killRing := h.killRing_apply hU hok
  undoStack := h.undoStack_apply
  yanked := h.yanked_apply hU hok

end PasteSession.Agrees

theorem PasteSession.agrees_start : PasteSession.start.Agrees where
  sound := ⟨Nat.one_pos, le_refl _, by simp [start, Editor.initial]⟩
  stackSound := by simp [start, Editor.initial]
  text := rfl
  killRing := rfl
  undoStack := rfl
  yanked := by
    intro hlast
    exact absurd hlast (by decide)

/-- Where no operation has cut a marker and the text is readable, the text that is returned or
submitted is the one with the pastes verbatim. -/
theorem pastes_transparent {U : TextUnits} (hU : U.Lawful)
    {steps : List (Transition PasteSession EditorOp)} {s : PasteSession}
    (hrun : GuardedRun (PasteSession.step U) (PasteSession.KeepsMarkers U) .start steps s)
    (hreadable : Readable s.editor.pastes s.verbatim.text.pieces) :
    s.editor.getExpandedText = verbatimText s.verbatim.text.pieces ∧
      s.editor.submitted = trim (fun c => isWhiteSpaceCode c.toNat)
        (verbatimText s.verbatim.text.pieces) := by
  have hagrees : s.Agrees := by
    refine hrun.invariant (I := PasteSession.Agrees) PasteSession.agrees_start ?_
    intro s op s' h hok hstep
    obtain rfl := Option.some.inj hstep
    exact h.step hU hok
  have htext : s.editor.state.getText = shownText s.verbatim.text.pieces :=
    congrArg FlatText.text hagrees.text
  have hexpanded : s.editor.getExpandedText = verbatimText s.verbatim.text.pieces := by
    unfold Editor.getExpandedText
    rw [htext]
    exact Editor.expandPasteMarkers_shownText hreadable
  refine ⟨hexpanded, ?_⟩
  unfold Editor.submitted
  rw [hexpanded]

def elevenLines : JsText := utf16 "a\nb\nc\nd\ne\nf\ng\nh\ni\nj\nk"

/-- A large paste between typed characters that is deleted, brought back, killed and yanked. -/
def pastedRun : List EditorOp :=
  [.insertCharacter (utf16 "x"), .handlePaste elevenLines, .insertCharacter (utf16 "y"),
    .handleBackspace, .handleBackspace, .undo, .moveCursor .left, .deleteToEndOfLine,
    .addNewLine, .yank]

theorem pastes_transparent_pastedRun : ∃ steps s,
    GuardedRun (PasteSession.step unitSegments) (PasteSession.KeepsMarkers unitSegments) .start
        steps s ∧
      s.editor.state.getText = utf16 "x\n[paste #1 +11 lines]" ∧
        s.editor.getExpandedText = utf16 "x\n" ++ elevenLines := by
  obtain ⟨steps, s, hrun, htext, hverbatim, hkept, hstray⟩ := GuardedRun.exists_of_play
    (PasteSession.step unitSegments) (PasteSession.KeepsMarkers unitSegments) .start pastedRun
    (fun _ s => s.editor.state.getText = utf16 "x\n[paste #1 +11 lines]" ∧
      verbatimText s.verbatim.text.pieces = utf16 "x\n" ++ elevenLines ∧
      (∀ p ∈ s.verbatim.text.pieces, p.IsKept s.editor.pastes) ∧
      NoStrayMarkers s.verbatim.text.pieces [] s.editor.pastes.entries)
    (by decide +kernel)
  have htransparent := pastes_transparent unitSegments_lawful hrun ⟨hkept, hstray⟩
  exact ⟨steps, s, hrun, htext, htransparent.1.trans hverbatim⟩

/-- A paste that is killed in one prompt and yanked in the next: its marker is submitted. -/
theorem yankedMarker_not_expanded : ∃ steps s,
    GuardedRun (PasteSession.step unitSegments) (fun _ op => op.isInput = true) .start steps s ∧
      s.editor.getExpandedText = utf16 "[paste #1 +11 lines]" ∧
        verbatimText s.verbatim.text.pieces = elevenLines ∧
          s.editor.submitted ≠ trim (fun c => isWhiteSpaceCode c.toNat)
            (verbatimText s.verbatim.text.pieces) :=
  GuardedRun.exists_of_play (PasteSession.step unitSegments)
    (fun (_ : PasteSession) (op : EditorOp) => op.isInput = true) .start
    [.handlePaste elevenLines, .deleteToStartOfLine, .submitValue, .yank]
    (fun _ s => s.editor.getExpandedText = utf16 "[paste #1 +11 lines]" ∧
      verbatimText s.verbatim.text.pieces = elevenLines ∧
        s.editor.submitted ≠ trim (fun c => isWhiteSpaceCode c.toNat)
          (verbatimText s.verbatim.text.pieces))
    (by decide +kernel)

end Draht
