import Draht.CompositeLine
import Draht.LineCuts

/-!
# The cursor of a single-line input

A value that does not fit is shown through a window of columns, and the text before the cursor is
cut from the same column on. The grapheme at the cursor is shown in reverse video but in the
narrowest window, where half of it leaves one column behind the cursor.
-/

namespace Draht.AnsiText
open List

variable {γ : Type} (G : Graphemes γ)

/-- What a value holds: spaces, and graphemes of one or two columns. -/
def Cell.Typed : Cell γ → Prop
  | .grapheme g => G.graphemeWidth g = 1 ∨ G.graphemeWidth g = 2
  | .space => True
  | .tab | .newline | .code _ => False

/-- A value with its cursor on a grapheme boundary. -/
structure Input where
  before : Text γ
  after : Text γ
  focused : Bool
  typed : ∀ c ∈ before ++ after, c.Typed G

/-- `prompt + before + marker + ESC[7m + atCursor + ESC[27m + after + padding`. -/
structure CursorLine (γ : Type) where
  before : Text γ
  marker : Bool
  atCursor : Cell γ
  after : Text γ
  padding : ℕ

inductive InputLine (γ : Type) where
  | prompt
  | withCursor (line : CursorLine γ)

/-- The marker and the codes of reverse video take no column. -/
def CursorLine.visualLength (line : CursorLine γ) : ℕ :=
  visibleWidth G (line.before ++ line.atCursor :: line.after)

def promptLength : ℕ := 2

namespace Input

variable {G} (input : Input G)

def value : Text γ := input.before ++ input.after

/-- The first column of the window. -/
def startCol (scrollWidth : ℕ) : ℕ :=
  let totalWidth := visibleWidth G input.value
  let cursorCol := visibleWidth G input.before
  let halfWidth := scrollWidth / 2
  if cursorCol < halfWidth then 0
  else if totalWidth - halfWidth < cursorCol then totalWidth - scrollWidth
  else cursorCol - halfWidth

/-- `visibleText`, and `cursorDisplay` as a count of cells. -/
def visible (availableWidth : ℕ) : Text γ × ℕ :=
  if visibleWidth G input.value < availableWidth then (input.value, input.before.length)
  else
    let scrollWidth := if input.after = [] then availableWidth - 1 else availableWidth
    if 0 < scrollWidth then
      let startCol := input.startCol scrollWidth
      let beforeCursor :=
        sliceByColumn G input.value startCol (visibleWidth G input.before - startCol) true
      (sliceByColumn G input.value startCol scrollWidth true, beforeCursor.length)
    else ([], 0)

def render (width : ℕ) : InputLine γ :=
  let availableWidth := width - promptLength
  if availableWidth = 0 then .prompt
  else
    let (visibleText, cursorDisplay) := input.visible availableWidth
    let line : CursorLine γ :=
      { before := visibleText.take cursorDisplay, marker := input.focused
        atCursor := (visibleText.drop cursorDisplay).headD .space
        after := (visibleText.drop cursorDisplay).tail, padding := 0 }
    .withCursor { line with padding := availableWidth - line.visualLength G }

end Input

/-- The line fills the width, and shows the cursor within the text that it has around it. -/
structure ShowsCursor {G : Graphemes γ} (input : Input G) (width : ℕ) (line : CursorLine γ) :
    Prop where
  width_eq : promptLength + line.visualLength G + line.padding = width
  before : line.before <:+ input.before
  atCursor : line.atCursor = input.after.headD .space
  after : line.after <+: input.after.tail

section

variable {G} {text xs ys : Text γ}

variable {c : Cell γ}

theorem Cell.Typed.width_pos (h : c.Typed G) : 0 < c.width G := by
  cases c with
  | grapheme g => rcases h with h | h <;> simp [Cell.width, h]
  | space => exact Nat.one_pos
  | tab | newline | code => exact h.elim

theorem Cell.Typed.width_le (h : c.Typed G) : c.width G ≤ 2 := by
  cases c with
  | grapheme g => rcases h with h | h <;> simp [Cell.width, h]
  | space => exact Nat.le_succ 1
  | tab | newline | code => exact h.elim

theorem takeColumns_zero (text : Text γ) : takeColumns G 0 text = [] := by cases text <;> rfl

theorem takeColumns_prefix (n : ℕ) (text : Text γ) : takeColumns G n text <+: text := by
  induction text generalizing n with
  | nil => exact prefix_rfl
  | cons c text ih =>
    rw [takeColumns]
    split_ifs
    · exact nil_prefix
    · exact cons_prefix_cons.mpr ⟨rfl, ih _⟩

theorem takeColumns_append (h : ∀ c ∈ xs, c.Typed G) (n : ℕ) (ys : Text γ) :
    takeColumns G (visibleWidth G xs + n) (xs ++ ys) = xs ++ takeColumns G n ys := by
  induction xs with
  | nil => rw [visibleWidth, Nat.zero_add, nil_append, nil_append]
  | cons c xs ih =>
    obtain ⟨hc, hxs⟩ := forall_mem_cons.mp h
    have hpos := hc.width_pos
    rw [cons_append, takeColumns, visibleWidth, if_neg (by omega), Nat.add_assoc,
      Nat.add_sub_cancel_left, ih hxs, cons_append]

theorem sliceStep_typed (hc : c.Typed G) (startCol endCol : ℕ) (result : Text γ)
    (resultWidth col : ℕ) : ∃ resultWidth',
    sliceStep G startCol endCol true ⟨result, resultWidth, col, []⟩ c =
      ⟨result ++ if startCol ≤ col ∧ col < endCol ∧ col + c.width G ≤ endCol then [c] else [],
        resultWidth', col + c.width G, []⟩ := by
  have hwidth : c.graphemeWidth G = c.width G := by
    cases c with
    | tab | newline | code => exact hc.elim
    | _ => rfl
  cases c with
  | tab | newline | code => exact hc.elim
  | _ =>
    simp only [sliceStep, hwidth, reduceCtorEq, false_or, and_assoc]
    split_ifs <;> simp

theorem walk_typed_cons {σ : Type} (hc : c.Typed G) (step : σ → Cell γ → σ) (stop : σ → Bool)
    (s : σ) (text : Text γ) :
    walk step stop s (c :: text) =
      if stop (step s c) then step s c else walk step stop (step s c) text := by
  cases c with
  | code => exact hc.elim
  | _ => rfl

theorem walk_sliceStep_typed {startCol endCol : ℕ} (h : ∀ c ∈ text, c.Typed G) (result : Text γ)
    (resultWidth col : ℕ) :
    (walk (sliceStep G startCol endCol true) (fun s => endCol ≤ s.currentCol)
      ⟨result, resultWidth, col, []⟩ text).result = result ++
        takeColumns G (endCol - (col + visibleWidth G (upTo G (startCol - col) text)))
          (beyond G (startCol - col) text) := by
  induction text generalizing result resultWidth col with
  | nil => exact (append_nil _).symm
  | cons c text ih =>
    obtain ⟨hc, htext⟩ := forall_mem_cons.mp h
    obtain ⟨resultWidth', hstep⟩ := sliceStep_typed hc startCol endCol result resultWidth col
    rw [walk_typed_cons hc]
    by_cases hskip : col < startCol
    · -- the cell begins before the slice
      rw [if_neg fun h => absurd h.1 (by omega), append_nil] at hstep
      rw [hstep, upTo, beyond, if_neg (by omega : ¬startCol - col = 0),
        if_neg (by omega : ¬startCol - col = 0), visibleWidth, ← Nat.add_assoc, Nat.sub_sub]
      split_ifs with hstop
      · have hnone : endCol - (col + c.width G +
            visibleWidth G (upTo G (startCol - (col + c.width G)) text)) = 0 :=
          Nat.sub_eq_zero_of_le ((of_decide_eq_true hstop).trans (Nat.le_add_right _ _))
        rw [hnone, takeColumns_zero, append_nil]
      · exact ih htext result resultWidth' _
    have hzero : startCol - col = 0 := by omega
    rw [hzero, upTo_zero, beyond_zero, visibleWidth, Nat.add_zero, takeColumns]
    by_cases hfits : col < endCol ∧ col + c.width G ≤ endCol
    · have hnext : startCol - (col + c.width G) = 0 := by omega
      rw [if_pos ⟨by omega, hfits⟩] at hstep
      rw [hstep, if_neg (by omega : ¬(endCol - col = 0 ∨ endCol - col < c.width G)), Nat.sub_sub]
      split_ifs with hstop
      · rw [Nat.sub_eq_zero_of_le (of_decide_eq_true hstop), takeColumns_zero]
      · rw [ih htext, hnext, upTo_zero, beyond_zero, visibleWidth, Nat.add_zero, append_assoc]
        rfl
    · rw [if_neg fun h => hfits h.2, append_nil] at hstep
      rw [hstep, if_pos (by omega : endCol - col = 0 ∨ endCol - col < c.width G),
        if_pos (decide_eq_true (by dsimp only; omega)), append_nil]

/-- A strict slice skips what begins before its first column, and takes what fits behind that. -/
theorem sliceByColumn_typed (h : ∀ c ∈ text, c.Typed G) (startCol length : ℕ) :
    sliceByColumn G text startCol length true =
      takeColumns G (startCol + length - visibleWidth G (upTo G startCol text))
        (beyond G startCol text) := by
  rw [sliceByColumn, sliceWithWidth]
  split_ifs with hlength
  · have hnone : startCol + length - visibleWidth G (upTo G startCol text) = 0 ∨
        beyond G startCol text = [] := by
      by_cases hle : startCol ≤ visibleWidth G text
      · have hcut := le_visibleWidth_upTo (G := G) hle
        omega
      · exact .inr (beyond_of_lt (by omega))
    rcases hnone with hnone | hnone <;> rw [hnone]
    · exact (takeColumns_zero _).symm
    · rfl
  · exact (walk_sliceStep_typed h [] 0 0).trans (by rw [Nat.zero_add]; rfl)

end

namespace Input

variable {G} (input : Input G)

theorem visibleWidth_value :
    visibleWidth G input.value = visibleWidth G input.before + visibleWidth G input.after :=
  visibleWidth_append ..

theorem sliceByColumn_value {startCol length : ℕ} (hstart : startCol ≤ visibleWidth G input.before)
    (hend : visibleWidth G input.before ≤ startCol + length) :
    sliceByColumn G input.value startCol length true =
      beyond G startCol input.before ++
        takeColumns G (startCol + length - visibleWidth G input.before) input.after := by
  have hwidth := congrArg (visibleWidth G) (upTo_append_beyond (G := G) startCol input.before)
  rw [visibleWidth_append] at hwidth
  have hroom : startCol + length - visibleWidth G (upTo G startCol input.before) =
      visibleWidth G (beyond G startCol input.before) +
        (startCol + length - visibleWidth G input.before) := by omega
  have htyped : ∀ c ∈ beyond G startCol input.before, c.Typed G := fun c hc =>
    input.typed c (mem_append_left _
      (upTo_append_beyond (G := G) startCol input.before ▸ mem_append_right _ hc))
  rw [value, sliceByColumn_typed input.typed, upTo_append_of_le hstart,
    beyond_append_of_le hstart, hroom, takeColumns_append htyped]

variable {c : Cell γ} {scrollWidth availableWidth : ℕ} {rest : Text γ}

/-- The cursor stands within the window. -/
theorem startCol_bounds (h : scrollWidth ≤ visibleWidth G input.value) :
    input.startCol scrollWidth ≤ visibleWidth G input.before ∧
      visibleWidth G input.before ≤ input.startCol scrollWidth + scrollWidth := by
  have hvalue := input.visibleWidth_value
  dsimp only [startCol]
  split_ifs <;> omega

/-- The grapheme at the cursor has no room in the window. -/
def Cramped (availableWidth : ℕ) : Prop :=
  availableWidth = 2 ∧ input.before ≠ [] ∧ ∃ c ∈ input.after.head?, c.width G = 2

theorem cramped_iff (hafter : input.after = c :: rest) : input.Cramped availableWidth ↔
      availableWidth = 2 ∧ visibleWidth G input.before ≠ 0 ∧ c.width G = 2 := by
  rw [Cramped, hafter]
  simp only [head?_cons, Option.mem_some_iff, exists_eq_left']
  refine and_congr_right fun _ => and_congr_left fun _ => ?_
  cases hbefore : input.before with
  | nil => exact iff_of_false (fun h => h rfl) fun h => h rfl
  | cons first others =>
    have hpos := (input.typed first (by rw [hbefore]; exact mem_cons_self)).width_pos
    rw [visibleWidth]
    exact iff_of_true (cons_ne_nil _ _) (by omega)

theorem room_iff (h : availableWidth ≤ visibleWidth G input.value) (htwo : 2 ≤ availableWidth)
    (hafter : input.after = c :: rest) :
    c.width G ≤ input.startCol availableWidth + availableWidth - visibleWidth G input.before ↔
      ¬ input.Cramped availableWidth := by
  have hvalue := input.visibleWidth_value
  have hle := (input.typed c (by rw [hafter]; simp)).width_le
  rw [hafter, visibleWidth] at hvalue
  rw [input.cramped_iff hafter]
  dsimp only [startCol]
  split_ifs <;> omega

theorem visible_scrolled
    (hscroll : scrollWidth = if input.after = [] then availableWidth - 1 else availableWidth)
    (hpos : 0 < scrollWidth) (h : availableWidth ≤ visibleWidth G input.value) :
    let s := input.startCol scrollWidth
    let b := beyond G s input.before
    input.visible availableWidth =
        (b ++ takeColumns G (s + scrollWidth - visibleWidth G input.before) input.after, b.length) ∧
      visibleWidth G b + s ≤ visibleWidth G input.before ∧
      visibleWidth G input.before ≤ s + scrollWidth := by
  have hle : scrollWidth ≤ visibleWidth G input.value := by
    rw [hscroll]
    split_ifs <;> omega
  obtain ⟨hstart, hend⟩ := input.startCol_bounds hle
  have hwidth := congrArg (visibleWidth G)
    (upTo_append_beyond (G := G) (input.startCol scrollWidth) input.before)
  have hcut := le_visibleWidth_upTo (G := G) hstart
  rw [visibleWidth_append] at hwidth
  refine ⟨?_, by omega, hend⟩
  have hnone : input.startCol scrollWidth +
      (visibleWidth G input.before - input.startCol scrollWidth) - visibleWidth G input.before =
        0 := by omega
  rw [visible, if_neg h.not_gt]
  dsimp only
  rw [← hscroll, if_pos hpos, input.sliceByColumn_value hstart hend,
    input.sliceByColumn_value hstart (by omega), hnone, takeColumns_zero, append_nil]

/-- The window shows the text around the cursor, and has room for the cell at it. -/
theorem visible_spec (htwo : 2 ≤ availableWidth) :
    ∃ b a, input.visible availableWidth = (b ++ a, b.length) ∧ b <:+ input.before ∧
      a <+: input.after ∧
      (input.after = [] ∨ a ≠ [] → visibleWidth G b + max 1 (visibleWidth G a) ≤ availableWidth) ∧
      (input.after ≠ [] → (a ≠ [] ↔ ¬ input.Cramped availableWidth)) := by
  have hvalue := input.visibleWidth_value
  by_cases hfits : visibleWidth G input.value < availableWidth
  · refine ⟨input.before, input.after, if_pos hfits, suffix_rfl, prefix_rfl,
      fun _ => by omega, fun hne => iff_of_true hne ?_⟩
    obtain ⟨c, rest, hafter⟩ := exists_cons_of_ne_nil hne
    rw [input.cramped_iff hafter]
    rw [hafter, visibleWidth] at hvalue
    omega
  have hsuffix (n : ℕ) : beyond G n input.before <:+ input.before := ⟨_, upTo_append_beyond _ _⟩
  by_cases hafter : input.after = []
  · obtain ⟨hvisible, hbefore, hend⟩ := input.visible_scrolled (if_pos hafter).symm (by omega)
      (not_lt.mp hfits)
    rw [hafter] at hvisible
    refine ⟨_, [], hvisible, hsuffix _, nil_prefix, fun _ => ?_, fun hne => (hne hafter).elim⟩
    rw [visibleWidth]
    omega
  · obtain ⟨hvisible, hbefore, hend⟩ := input.visible_scrolled (if_neg hafter).symm (by omega)
      (not_lt.mp hfits)
    obtain ⟨c, rest, hcons⟩ := exists_cons_of_ne_nil hafter
    have hpos := (input.typed c (by rw [hcons]; simp)).width_pos
    refine ⟨_, _, hvisible, hsuffix _, takeColumns_prefix _ _, fun hshown => ?_, fun _ => ?_⟩
    · have htaken := visibleWidth_takeColumns_le (G := G) (input.startCol availableWidth +
        availableWidth - visibleWidth G input.before) input.after
      have hroom : input.startCol availableWidth + availableWidth -
          visibleWidth G input.before ≠ 0 := fun hnone =>
        hshown.resolve_left hafter (by rw [hnone, takeColumns_zero])
      omega
    · rw [← input.room_iff (not_lt.mp hfits) htwo hcons, hcons, takeColumns]
      split_ifs with hnone
      · exact iff_of_false (fun h => h rfl) (by omega)
      · exact iff_of_true (cons_ne_nil _ _) (by omega)

end Input

/-- The cursor is shown but where the line leaves two columns, the cursor stands behind some text,
and the grapheme at it takes both. -/
theorem render_showsCursor_iff {G : Graphemes γ} (input : Input G) {width : ℕ} (h : 4 ≤ width) :
    (∃ line, input.render width = .withCursor line ∧ ShowsCursor input width line) ↔
      ¬ (width = 4 ∧ input.before ≠ [] ∧ ∃ c ∈ input.after.head?, c.width G = 2) := by
  obtain ⟨b, a, hvisible, hb, ha, hroom, hat⟩ :=
    input.visible_spec (Nat.le_sub_of_add_le h : 2 ≤ width - promptLength)
  have hcramped : input.Cramped (width - promptLength) ↔
      width = 4 ∧ input.before ≠ [] ∧ ∃ c ∈ input.after.head?, c.width G = 2 :=
    and_congr_left fun _ => by rw [promptLength]; omega
  rw [← hcramped, Input.render, if_neg (by rw [promptLength]; omega)]
  simp only [hvisible, take_left, drop_left, InputLine.withCursor.injEq]
  rw [exists_eq_left']
  constructor
  · rintro ⟨-, -, hcursor, -⟩ hcramped
    obtain ⟨c, hc, hwidth⟩ := hcramped.2.2
    obtain ⟨rest, hafter⟩ := head?_eq_some_iff.mp hc
    have hnone : a = [] := not_not.mp fun hne =>
      (hat (by rw [hafter]; exact cons_ne_nil _ _)).mp hne hcramped
    rw [hnone, hafter] at hcursor
    cases hcursor
    cases hwidth
  · intro hcramped
    have hshown : input.after = [] ∨ a ≠ [] :=
      or_iff_not_imp_left.mpr fun hne => (hat hne).mpr hcramped
    have hwidth : ∀ c text, visibleWidth G (b ++ c :: text) ≤ width - promptLength →
        promptLength + visibleWidth G (b ++ c :: text) +
          (width - promptLength - visibleWidth G (b ++ c :: text)) = width := by
      intro c text hle
      rw [promptLength] at hle ⊢
      omega
    have hroom := hroom hshown
    cases a with
    | nil =>
      have hafter := hshown.resolve_right fun hne => hne rfl
      refine ⟨hwidth _ _ ?_, hb, by rw [hafter], nil_prefix⟩
      rw [visibleWidth_append]
      exact hroom
    | cons c text =>
      obtain ⟨rest, hafter⟩ := ha
      refine ⟨hwidth _ _ ?_, hb, by rw [← hafter]; rfl, ⟨rest, by rw [← hafter]; rfl⟩⟩
      rw [visibleWidth_append]
      exact (Nat.add_le_add_left (Nat.le_max_right _ _) _).trans hroom

/-- Letters are told apart by their width only. -/
def twoWidths : Graphemes Bool := ⟨fun wide => if wide then 2 else 1, fun _ => false⟩

/-- The cursor stands at a wide grapheme behind a narrow one. -/
def wideAtCursor : Input twoWidths :=
  { before := [.grapheme false], after := [.grapheme true], focused := false
    typed := by simp [Cell.Typed, twoWidths] }

theorem render_showsCursor_iff_five :
    ∃ line, wideAtCursor.render 5 = .withCursor line ∧ ShowsCursor wideAtCursor 5 line :=
  (render_showsCursor_iff wideAtCursor (by decide)).mpr (by simp)

theorem wideAtCursor_blank :
    ¬ ∃ line, wideAtCursor.render 4 = .withCursor line ∧ ShowsCursor wideAtCursor 4 line := by
  rintro ⟨line, hrender, hshows⟩
  have hline : wideAtCursor.render 4 = .withCursor ⟨[.grapheme false], false, .space, [], 0⟩ := rfl
  obtain rfl := InputLine.withCursor.inj (hline.symm.trans hrender)
  cases hshows.atCursor

end Draht.AnsiText
