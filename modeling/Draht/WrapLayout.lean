import Draht.Unstyled

/-!
# Styles and the layout of lines

Styled text is wrapped as the text without its codes, unless a code stands where the loop asks for
whitespace, for an empty line or for the end of a line: whitespace with a code in it is not dropped,
a line of codes alone is not empty, and whitespace before a code is not trimmed.
-/

namespace Draht.AnsiText
open List

variable {γ : Type} (G : Graphemes γ)

def StyledBlank (token : Text γ) : Prop := isBlank G token = false ∧ isBlank G (strip token) = true

def OnlyStyle (line : Text γ) : Prop := line ≠ [] ∧ strip line = []

def HoldsBlank (line : Text γ) : Prop :=
  ∃ before c after, line = before ++ c :: after ∧ c.isWhitespace G = true ∧ StyledBlank G after

def Breaks (width : ℕ) (token : Text γ) : Prop :=
  width < visibleWidth G token ∧ isBlank G token = false

def Overflows (width : ℕ) (s : WrapState γ) (token : Text γ) : Prop :=
  width < s.currentVisibleLength + visibleWidth G token ∧ 0 < s.currentVisibleLength

def breakStart (tracker : AnsiCodeTracker) : BreakState γ :=
  { lines := [], currentLine := tracker.getActiveCodes, currentWidth := 0, tracker }

def WordKept (width : ℕ) (tracker : AnsiCodeTracker) (word : Text γ) : Prop :=
  ∀ before c after, word = before ++ c :: after → (∀ code, c ≠ .code code) →
    let s := before.foldl (breakStep G width) (breakStart tracker)
    width < s.currentWidth + c.width G → ¬HoldsBlank G (s.currentLine ++ s.tracker.getLineEndReset)

/-- What the loop over the tokens meets is the same without the style codes. -/
structure StepKept (width : ℕ) (s : WrapState γ) (token : Text γ) : Prop where
  blank : width < visibleWidth G token ∨ Overflows G width s token → ¬StyledBlank G token
  pushed : Breaks G width token → ¬OnlyStyle s.currentLine ∧
    ¬HoldsBlank G (s.currentLine ++ s.tracker.getLineEndReset)
  word : Breaks G width token → WordKept G width s.tracker token
  overflow : ¬Breaks G width token → Overflows G width s token → ¬HoldsBlank G s.currentLine

structure LineKept (width : ℕ) (line : Text γ) : Prop where
  steps : ∀ before token after, splitIntoTokensWithAnsi line = before ++ token :: after →
    StepKept G width (before.foldl (wrapToken G width) wrapStart) token
  last : let s := (splitIntoTokensWithAnsi line).foldl (wrapToken G width) wrapStart
    ¬OnlyStyle s.currentLine ∧ ¬HoldsBlank G s.currentLine

/-- No line that has to be wrapped meets a style code where it matters. -/
def LayoutKept (width : ℕ) (text : Text γ) : Prop :=
  ∀ line ∈ styledLines .reset (splitLines text), width < visibleWidth G line →
    LineKept G width line

section Layout

variable {G} {width : ℕ}

variable {line done : Text γ} {c : Cell γ}

variable (text : Text γ)

theorem trimLine_concat_blank (hc : c.isWhitespace G = true) :
    trimLine G (text ++ [c]) = trimLine G text :=
  rdropWhile_concat_pos _ _ _ hc

theorem trimLine_concat (hc : c.isWhitespace G = false) : trimLine G (text ++ [c]) = text ++ [c] :=
  rdropWhile_concat_neg _ _ _ (by simp [hc])

theorem isWhitespace_of_isStyle (hc : c.isStyle = true) : c.isWhitespace G = false := by
  cases c with
  | code => rfl
  | _ => exact absurd hc Bool.false_ne_true

@[simp] theorem isBlank_concat (c : Cell γ) :
    isBlank G (text ++ [c]) = (isBlank G text && c.isWhitespace G) := by
  simp [isBlank]

theorem exists_concat_split {α : Type*} {line : List α} {d : α} {P : α → List α → Prop} :
    (∃ before c after, line ++ [d] = before ++ c :: after ∧ P c after) ↔
      P d [] ∨ ∃ before c after, line = before ++ c :: after ∧ P c (after ++ [d]) := by
  constructor
  · rintro ⟨before, c, after, hline, hP⟩
    induction after using reverseRecOn with
    | nil =>
      obtain ⟨-, hd⟩ := append_inj' hline rfl
      rw [singleton_inj.mp hd]
      exact .inl hP
    | append_singleton after e =>
      have hsplit : line ++ [d] = (before ++ c :: after) ++ [e] := by simp [hline]
      obtain ⟨hline, hd⟩ := append_inj' hsplit rfl
      exact .inr ⟨before, c, after, hline, hd ▸ hP⟩
  · rintro (hP | ⟨before, c, after, rfl, hP⟩)
    · exact ⟨line, d, [], rfl, hP⟩
    · exact ⟨before, c, after ++ [d], by simp, hP⟩

theorem trimLine_strip_ne_iff (line : Text γ) :
    trimLine G (strip line) ≠ strip line ↔
      ∃ before c after, line = before ++ c :: after ∧
        (c.isWhitespace G = true ∧ isBlank G (strip after) = true) := by
  induction line using reverseRecOn with
  | nil => simp [trimLine, trimEnd]
  | append_singleton line d ih =>
    rw [exists_concat_split]
    by_cases hstyle : d.isStyle = true
    · simpa [strip_append, strip_cons_style hstyle, isWhitespace_of_isStyle hstyle] using ih
    have hkept : strip [d] = [d] := strip_cons (by simpa using hstyle) []
    cases hd : d.isWhitespace G with
    | true =>
      rw [strip_append, hkept, trimLine_concat_blank _ hd]
      refine iff_of_true (fun htrim => ?_) (.inl ⟨rfl, rfl⟩)
      obtain ⟨blank, -, hsplit⟩ := exists_trimLine G (strip line)
      have hshort := congrArg List.length hsplit
      have hlong := congrArg List.length htrim
      rw [length_append] at hshort hlong
      rw [length_singleton] at hlong
      omega
    | false =>
      rw [strip_append, hkept, trimLine_concat _ hd]
      simp [hkept, hd]

theorem holdsBlank_iff_trimLine (line : Text γ) :
    HoldsBlank G line ↔ strip (trimLine G line) ≠ trimLine G (strip line) := by
  unfold HoldsBlank StyledBlank
  induction line using reverseRecOn with
  | nil => simp [trimLine, trimEnd]
  | append_singleton line d ih =>
    rw [exists_concat_split]
    by_cases hstyle : d.isStyle = true
    · have hd := isWhitespace_of_isStyle (G := G) hstyle
      rw [trimLine_concat _ hd, strip_append, strip_cons_style hstyle, strip_nil,
        append_nil, ne_comm, trimLine_strip_ne_iff]
      simp [hd, strip_cons_style hstyle]
    have hkept : strip [d] = [d] := strip_cons (by simpa using hstyle) []
    cases hd : d.isWhitespace G with
    | true =>
      rw [trimLine_concat_blank _ hd, strip_append, hkept, trimLine_concat_blank _ hd, ← ih]
      simp [hkept, hd]
    | false =>
      rw [trimLine_concat _ hd, strip_append, hkept, trimLine_concat _ hd]
      simp [hkept, hd]
theorem not_holdsBlank (h : ¬HoldsBlank G line) :
    strip (trimLine G line) = trimLine G (strip line) :=
  not_not.mp ((holdsBlank_iff_trimLine line).not.mp h)

theorem getLineEndReset_reset : (AnsiCodeTracker.reset.getLineEndReset : Text γ) = [] := rfl

theorem getActiveCodes_reset : (AnsiCodeTracker.reset.getActiveCodes : Text γ) = [] := rfl

theorem strip_char (hc : ∀ code, c ≠ .code code) : strip [c] = [c] := by
  cases c with
  | code code => exact absurd rfl (hc code)
  | _ => rfl

/-- The loops over a word and over the word without its codes. -/
structure SameBreaks (G : Graphemes γ) (done : Text γ) (styled plain : BreakState γ) : Prop where
  lines : plain.lines = styled.lines.map strip
  currentLine : plain.currentLine = strip styled.currentLine
  currentWidth : plain.currentWidth = styled.currentWidth
  tracker : plain.tracker = .reset
  begun : 0 < visibleWidth G done → strip styled.currentLine ≠ []

theorem SameBreaks.step_char {styled plain : BreakState γ} (h : SameBreaks G done styled plain)
    (width : ℕ) (hc : ∀ code, c ≠ .code code) :
    SameBreaks G (done ++ [c]) (breakStep G width styled c) (breakStep G width plain c) := by
  have hstrip := strip_char hc
  have hbegun : ∀ line : Text γ, strip (line ++ [c]) ≠ [] := by
    intro line
    rw [strip_append, hstrip]
    exact append_ne_nil_of_right_ne_nil _ (cons_ne_nil _ _)
  cases c with
  | code code => exact absurd rfl (hc code)
  | _ =>
    simp only [breakStep, h.currentWidth, h.tracker, getLineEndReset_reset,
      getActiveCodes_reset, append_nil]
    split_ifs with hover
    · refine ⟨?_, ?_, rfl, rfl, fun _ => hbegun _⟩
      · rw [map_append, h.lines, map_singleton, strip_append, strip_getLineEndReset,
          append_nil, h.currentLine]
      · rw [strip_append, strip_getActiveCodes, hstrip]
    · refine ⟨h.lines, ?_, congrArg (· + _) h.currentWidth, h.tracker, fun _ => hbegun _⟩
      rw [strip_append, hstrip, h.currentLine]

theorem SameBreaks.step {styled plain : BreakState γ} (h : SameBreaks G done styled plain)
    (width : ℕ) (c : Cell γ) :
    SameBreaks G (done ++ [c]) (breakStep G width styled c)
      ((strip [c]).foldl (breakStep G width) plain) := by
  have hcode : ∀ code, 0 < visibleWidth G (done ++ [Cell.code code]) →
      strip (styled.currentLine ++ [.code code]) ≠ [] := by
    intro code hpos
    rw [visibleWidth_append] at hpos
    rw [strip_append]
    exact append_ne_nil_of_left_ne_nil (h.begun hpos) _
  cases c with
  | code code =>
    cases code with
    | sgr params =>
      refine ⟨h.lines, ?_, h.currentWidth, h.tracker, hcode _⟩
      rw [breakStep, strip_append, ← h.currentLine]
      exact (append_nil _).symm
    | osc8 text =>
      refine ⟨h.lines, ?_, h.currentWidth, h.tracker, hcode _⟩
      simp only [breakStep, strip_append, ← h.currentLine]
      rfl
  | _ => exact h.step_char width (by simp)

theorem SameBreaks.foldl {styled plain : BreakState γ} (h : SameBreaks G done styled plain)
    (width : ℕ) (word : Text γ) :
    SameBreaks G (done ++ word) (word.foldl (breakStep G width) styled)
      ((strip word).foldl (breakStep G width) plain) := by
  induction word generalizing done styled plain with
  | nil => rwa [append_nil]
  | cons c word ih =>
    have hrest := ih (h.step width c)
    rwa [append_assoc, ← foldl_append, ← strip_append] at hrest

theorem sameBreaks_start (tracker : AnsiCodeTracker) :
    SameBreaks G [] (breakStart tracker) (breakStart .reset) :=
  ⟨rfl, (strip_getActiveCodes tracker).symm, rfl, rfl, fun h => absurd h (Nat.not_lt_zero _)⟩

theorem forall_lines_foldl (width : ℕ) (P : Text γ → Prop) (word : Text γ) (s : BreakState γ) :
    (∀ line ∈ (word.foldl (breakStep G width) s).lines, P line) ↔ (∀ line ∈ s.lines, P line) ∧
      ∀ before c after, word = before ++ c :: after → (∀ code, c ≠ .code code) →
        let t := before.foldl (breakStep G width) s
        width < t.currentWidth + c.width G → P (t.currentLine ++ t.tracker.getLineEndReset) := by
  induction word generalizing s with
  | nil => simp
  | cons c word ih =>
    have hstep : (∀ line ∈ (breakStep G width s c).lines, P line) ↔ (∀ line ∈ s.lines, P line) ∧
        ((∀ code, c ≠ .code code) → width < s.currentWidth + c.width G →
          P (s.currentLine ++ s.tracker.getLineEndReset)) := by
      cases c with
      | code code => simp [breakStep]
      | _ =>
        simp only [breakStep, gt_iff_lt]
        split_ifs with hover
        all_goals simp [hover, or_imp, forall_and]
    rw [foldl_cons, ih, hstep, and_assoc]
    refine and_congr_right fun _ => ⟨fun h before d after hword => ?_, fun h => ⟨?_, ?_⟩⟩
    · cases before with
      | nil =>
        cases hword
        exact h.1
      | cons e before =>
        cases hword
        exact h.2 before d after rfl
    · exact h [] c word rfl
    · exact fun before d after hword => h (c :: before) d after (congrArg (c :: ·) hword)

theorem breakLongWord_same {word : Text γ} (hpos : 0 < visibleWidth G word) (width : ℕ)
    (tracker : AnsiCodeTracker) :
    ∃ lines last tracker',
      breakLongWord G word width tracker = (lines ++ [last], tracker') ∧
      breakLongWord G (strip word) width .reset = (lines.map strip ++ [strip last], .reset) ∧
      (WordKept G width tracker word ↔ ∀ line ∈ lines, ¬HoldsBlank G line) := by
  have hend := (sameBreaks_start (G := G) tracker).foldl width word
  have hkept := forall_lines_foldl (G := G) width (fun line => ¬HoldsBlank G line) word
    (breakStart tracker)
  unfold breakLongWord
  rw [← breakStart, ← breakStart]
  generalize word.foldl (breakStep G width) _ = styled at hend hkept ⊢
  generalize (strip word).foldl (breakStep G width) _ = plain at hend ⊢
  have hplain := hend.begun hpos
  have hstyled : styled.currentLine ≠ [] := by
    intro hnil
    rw [hnil] at hplain
    exact hplain rfl
  rw [← hend.currentLine] at hplain
  refine ⟨styled.lines, styled.currentLine, styled.tracker, ?_, ?_, ?_⟩
  · simp [hstyled]
  · simp only [hplain, if_false, append_eq_nil_iff, cons_ne_nil, and_false, hend.tracker]
    rw [hend.lines, hend.currentLine]
  · rw [hkept]
    exact (and_iff_right (forall_mem_nil _)).symm

section Steps

variable {s : WrapState γ} {token : Text γ}

theorem wrapToken_breaks (h : Breaks G width token) :
    wrapToken G width s token = wrapLongToken G width s token := if_pos h

theorem wrapToken_drops (hbreaks : ¬Breaks G width token) (hover : Overflows G width s token)
    (hblank : isBlank G token = true) :
    wrapToken G width s token =
      { wrapped := s.wrapped ++ [trimLine G s.currentLine ++ s.tracker.getLineEndReset]
        currentLine := s.tracker.getActiveCodes, currentVisibleLength := 0
        tracker := updateTrackerFromText token s.tracker } := by
  unfold Breaks at hbreaks
  unfold Overflows at hover
  simp [wrapToken, if_neg hbreaks, if_pos hover, if_pos hblank]

theorem wrapToken_begins (hbreaks : ¬Breaks G width token) (hover : Overflows G width s token)
    (hblank : isBlank G token = false) :
    wrapToken G width s token =
      { wrapped := s.wrapped ++ [trimLine G s.currentLine ++ s.tracker.getLineEndReset]
        currentLine := s.tracker.getActiveCodes ++ token
        currentVisibleLength := visibleWidth G token
        tracker := updateTrackerFromText token s.tracker } := by
  have hword : ¬isBlank G token = true := by rw [hblank]; exact Bool.false_ne_true
  unfold Breaks at hbreaks
  unfold Overflows at hover
  simp [wrapToken, if_neg hbreaks, if_pos hover, if_neg hword]

theorem wrapToken_extends (hbreaks : ¬Breaks G width token) (hover : ¬Overflows G width s token) :
    wrapToken G width s token =
      { wrapped := s.wrapped, currentLine := s.currentLine ++ token
        currentVisibleLength := s.currentVisibleLength + visibleWidth G token
        tracker := updateTrackerFromText token s.tracker } := by
  unfold Breaks at hbreaks
  unfold Overflows at hover
  simp [wrapToken, if_neg hbreaks, if_neg hover]

end Steps

/-- The loops over the tokens of a line and of the line without its codes. -/
structure SameWrap (G : Graphemes γ) (styled plain : WrapState γ) : Prop where
  wrapped : plain.wrapped.map (trimLine G) = styled.wrapped.map fun line => strip (trimLine G line)
  currentLine : plain.currentLine = strip styled.currentLine
  length : plain.currentVisibleLength = styled.currentVisibleLength
  tracker : plain.tracker = .reset

section Wrap

variable {styled plain : WrapState γ} {token : Text γ}

theorem SameWrap.currentLine_eq_nil_iff (h : SameWrap G styled plain)
    (hline : ¬OnlyStyle styled.currentLine) : plain.currentLine = [] ↔ styled.currentLine = [] := by
  rw [h.currentLine]
  refine ⟨fun hstrip => ?_, fun hnil => by rw [hnil, strip_nil]⟩
  by_contra hne
  exact hline ⟨hne, hstrip⟩

theorem isBlank_strip_iff (h : ¬StyledBlank G token) :
    isBlank G (strip token) = isBlank G token := by
  cases hblank : isBlank G token with
  | true => rw [strip_of_isBlank hblank, hblank]
  | false =>
    by_contra hstrip
    exact h ⟨hblank, by simpa using hstrip⟩

theorem trimLine_trimLine (line : Text γ) : trimLine G (trimLine G line) = trimLine G line :=
  rdropWhile_idempotent _ _

theorem SameWrap.step_long (h : SameWrap G styled plain) (hkept : StepKept G width styled token)
    (hbreaks : Breaks G width token) :
    SameWrap G (wrapLongToken G width styled token)
      (wrapLongToken G width plain (strip token)) := by
  obtain ⟨honly, hheld⟩ := hkept.pushed hbreaks
  obtain ⟨lines, last, tracker', hstyled, hplain, hword⟩ :=
    breakLongWord_same ((Nat.zero_le _).trans_lt hbreaks.1) width styled.tracker
  have hlines : (lines.map strip).map (trimLine G) =
      lines.map fun line => strip (trimLine G line) := by
    rw [map_map]
    exact map_congr_left fun line hline =>
      (not_holdsBlank (hword.mp (hkept.word hbreaks) line hline)).symm
  have hpushed : trimLine G plain.currentLine =
      strip (trimLine G (styled.currentLine ++ styled.tracker.getLineEndReset)) := by
    rw [not_holdsBlank hheld, strip_append, strip_getLineEndReset, append_nil, h.currentLine]
  simp only [wrapLongToken, h.tracker, hstyled, hplain, getLast?_concat,
    dropLast_concat, Option.getD_some, getLineEndReset_reset, append_nil,
    h.currentLine_eq_nil_iff honly]
  refine ⟨?_, rfl, visibleWidth_strip _, rfl⟩
  · simp only [map_append, hlines]
    congr 1
    split_ifs
    · exact h.wrapped
    · rw [map_append, map_append, h.wrapped, map_singleton, map_singleton,
        hpushed]

theorem SameWrap.overflows_iff (h : SameWrap G styled plain) :
    Overflows G width plain (strip token) ↔ Overflows G width styled token := by
  rw [Overflows, Overflows, h.length, visibleWidth_strip]

theorem breaks_strip_iff (h : width < visibleWidth G token → ¬StyledBlank G token) :
    Breaks G width (strip token) ↔ Breaks G width token := by
  rw [Breaks, Breaks, visibleWidth_strip]
  exact and_congr_right fun hwide => by rw [isBlank_strip_iff (h hwide)]

theorem SameWrap.step (h : SameWrap G styled plain) (hkept : StepKept G width styled token) :
    SameWrap G (wrapToken G width styled token) (wrapToken G width plain (strip token)) := by
  have hbreaksIff := breaks_strip_iff fun hwide => hkept.blank (.inl hwide)
  by_cases hbreaks : Breaks G width token
  · rw [wrapToken_breaks hbreaks, wrapToken_breaks (hbreaksIff.mpr hbreaks)]
    exact h.step_long hkept hbreaks
  have hbreaks' := hbreaksIff.not.mpr hbreaks
  by_cases hover : Overflows G width styled token
  · have hover' : Overflows G width plain (strip token) := h.overflows_iff.mpr hover
    have hpushed : trimLine G (trimLine G plain.currentLine) = strip (trimLine G
        (trimLine G styled.currentLine ++ styled.tracker.getLineEndReset)) := by
      rw [trimLine_trimLine, h.currentLine, ← not_holdsBlank (hkept.overflow hbreaks hover)]
      rw [AnsiCodeTracker.getLineEndReset]
      split_ifs
      · rw [trimLine_append_code, strip_append]
        exact (append_nil _).symm
      · rw [append_nil, trimLine_trimLine]
    have hwrapped : (plain.wrapped ++ [trimLine G plain.currentLine]).map (trimLine G) =
        (styled.wrapped ++ [trimLine G styled.currentLine ++
          styled.tracker.getLineEndReset]).map fun line => strip (trimLine G line) := by
      rw [map_append, map_append, h.wrapped, map_singleton, map_singleton,
        hpushed]
    have hblankIff := isBlank_strip_iff (hkept.blank (.inr hover))
    cases hblank : isBlank G token with
    | true =>
      rw [wrapToken_drops hbreaks hover hblank,
        wrapToken_drops hbreaks' hover' (hblankIff.trans hblank), h.tracker,
        getLineEndReset_reset, append_nil]
      exact ⟨hwrapped, (strip_getActiveCodes _).symm, rfl, updateTrackerFromText_strip _ _⟩
    | false =>
      rw [wrapToken_begins hbreaks hover hblank,
        wrapToken_begins hbreaks' hover' (hblankIff.trans hblank), h.tracker,
        getLineEndReset_reset, append_nil]
      refine ⟨hwrapped, ?_, visibleWidth_strip _, updateTrackerFromText_strip _ _⟩
      rw [strip_append, strip_getActiveCodes]
      rfl
  · rw [wrapToken_extends hbreaks hover, wrapToken_extends hbreaks' (h.overflows_iff.not.mpr hover)]
    refine ⟨h.wrapped, ?_, ?_, ?_⟩
    · rw [strip_append, h.currentLine]
    · rw [h.length, visibleWidth_strip]
    · rw [h.tracker, updateTrackerFromText_strip]

theorem SameWrap.foldl {tokens : List (Text γ)} (h : SameWrap G styled plain)
    (hkept : ∀ before token after, tokens = before ++ token :: after →
      StepKept G width (before.foldl (wrapToken G width) styled) token) :
    SameWrap G (tokens.foldl (wrapToken G width) styled)
      ((tokens.map strip).foldl (wrapToken G width) plain) := by
  induction tokens generalizing styled plain with
  | nil => exact h
  | cons token tokens ih =>
    refine ih (h.step (hkept [] token tokens rfl)) fun before next after htokens => ?_
    exact hkept (token :: before) next after (congrArg (token :: ·) htokens)

theorem sameWrap_start : SameWrap G (wrapStart : WrapState γ) wrapStart := ⟨rfl, rfl, rfl, rfl⟩

end Wrap

theorem wrapSingleLine_strip (hkept : width < visibleWidth G line → LineKept G width line) :
    (wrapSingleLine G line width).map strip = wrapSingleLine G (strip line) width := by
  unfold wrapSingleLine
  rw [visibleWidth_strip]
  by_cases hfits : visibleWidth G line ≤ width
  · split_ifs with hline hstrip hstrip
    · rfl
    · exact absurd (by rw [hline, strip_nil]) hstrip
    · rw [map_singleton, hstrip]
    · rfl
  obtain ⟨hsteps, honly, hheld⟩ := hkept (by omega)
  have hshown : strip line ≠ [] := by
    intro hstrip
    have hwidth := visibleWidth_strip (G := G) line
    rw [hstrip, visibleWidth_nil] at hwidth
    omega
  have hline : line ≠ [] := by
    rintro rfl
    exact hshown rfl
  rw [splitIntoTokensWithAnsi_strip (G := G) (by omega)]
  have hend := sameWrap_start.foldl hsteps
  simp only [if_neg hline, if_neg hshown, if_neg hfits]
  generalize (splitIntoTokensWithAnsi line).foldl (wrapToken G width) wrapStart = styled
    at hend honly hheld ⊢
  generalize ((splitIntoTokensWithAnsi line).map strip).foldl (wrapToken G width) wrapStart = plain
    at hend ⊢
  have hwrapped : (if plain.currentLine = [] then plain.wrapped
      else plain.wrapped ++ [plain.currentLine]).map (trimLine G) =
        (if styled.currentLine = [] then styled.wrapped
          else styled.wrapped ++ [styled.currentLine]).map fun line => strip (trimLine G line) := by
    simp only [hend.currentLine_eq_nil_iff honly]
    split_ifs
    · exact hend.wrapped
    · rw [map_append, map_append, hend.wrapped, map_singleton, map_singleton,
        not_holdsBlank hheld, hend.currentLine]
  generalize (if plain.currentLine = [] then plain.wrapped
    else plain.wrapped ++ [plain.currentLine]) = lines' at hwrapped ⊢
  generalize (if styled.currentLine = [] then styled.wrapped
    else styled.wrapped ++ [styled.currentLine]) = lines at hwrapped ⊢
  have hnone : lines' = [] ↔ lines = [] := by
    rw [← map_eq_nil_iff (f := trimLine G), hwrapped, map_eq_nil_iff]
  simp only [hnone]
  split_ifs
  · rfl
  · rw [map_map, hwrapped]
    rfl

theorem wrapTextWithAnsi_strip {text : Text γ} (hkept : LayoutKept G width text) :
    (wrapTextWithAnsi G text width).map strip = wrapTextWithAnsi G (strip text) width := by
  rw [wrapTextWithAnsi_eq, wrapTextWithAnsi_eq, splitLines_strip,
    styledLines_strip .reset (splitLines text), map_flatMap, flatMap_map]
  exact flatMap_congr fun line hline => wrapSingleLine_strip (hkept line hline)

end Layout

end Draht.AnsiText
