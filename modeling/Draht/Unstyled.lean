import Draht.WrapText

/-!
# Text without its styles

Taking the style codes out of a text changes neither its width, nor its lines, nor how a line is
split into tokens.
-/

namespace Draht.AnsiText
open List

variable {γ : Type} {G : Graphemes γ}

def Cell.isStyle : Cell γ → Bool
  | .code (.sgr _) => true
  | _ => false

def strip (text : Text γ) : Text γ := text.filter fun c => !c.isStyle

@[simp] theorem strip_nil : strip ([] : Text γ) = [] := rfl

@[simp] theorem strip_append (xs ys : Text γ) : strip (xs ++ ys) = strip xs ++ strip ys :=
  filter_append ..

variable {done : Text γ} {c : Cell γ} {styled plain : TokenState γ}

theorem strip_cons_style (hc : c.isStyle = true) (text : Text γ) :
    strip (c :: text) = strip text := filter_cons_of_neg (by simp [hc])

theorem strip_cons (hc : c.isStyle = false) (text : Text γ) :
    strip (c :: text) = c :: strip text := filter_cons_of_pos (by simp [hc])

theorem width_of_isStyle (hc : c.isStyle = true) : c.width G = 0 := by
  cases c with
  | code => rfl
  | _ => exact absurd hc Bool.false_ne_true

@[simp] theorem visibleWidth_strip (text : Text γ) :
    visibleWidth G (strip text) = visibleWidth G text := by
  induction text with
  | nil => rfl
  | cons c text ih =>
    by_cases hc : c.isStyle = true
    · rw [strip_cons_style hc, visibleWidth, width_of_isStyle hc, Nat.zero_add, ih]
    · rw [strip_cons (by simpa using hc), visibleWidth, visibleWidth, ih]

theorem strip_of_isBlank {text : Text γ} (h : isBlank G text = true) : strip text = text := by
  refine filter_eq_self.mpr fun c hc => ?_
  have hblank := all_eq_true.mp h c hc
  cases c with
  | code => exact absurd hblank Bool.false_ne_true
  | _ => rfl

section Codes

variable (t : AnsiCodeTracker)

@[simp] theorem strip_getActiveCodes : strip (t.getActiveCodes : Text γ) = [] := by
  rw [AnsiCodeTracker.getActiveCodes]
  split_ifs <;> rfl

@[simp] theorem strip_getLineEndReset : strip (t.getLineEndReset : Text γ) = [] := by
  rw [AnsiCodeTracker.getLineEndReset]
  split_ifs <;> rfl

@[simp] theorem updateTrackerFromText_strip (text : Text γ) :
    updateTrackerFromText (strip text) t = t := by
  induction text with
  | nil => rfl
  | cons c text ih =>
    by_cases hc : c.isStyle = true
    · rw [strip_cons_style hc, ih]
    · rw [strip_cons (by simpa using hc)]
      have hsame : updateTracker t c = t := by
        cases c with
        | code c =>
          cases c with
          | sgr => exact absurd rfl hc
          | osc8 => rfl
        | _ => rfl
      rwa [updateTrackerFromText, foldl_cons, hsame]

end Codes

theorem splitLines_strip (text : Text γ) :
    splitLines (strip text) = (splitLines text).map strip := by
  induction text with
  | nil => rfl
  | cons c text ih =>
    by_cases hc : c.isStyle = true
    · obtain ⟨rfl, -⟩ | ⟨line, lines, hrest, hsplit⟩ := splitLines_cons c text
      · exact absurd hc Bool.false_ne_true
      · rw [strip_cons_style hc, ih, hsplit, hrest, map_cons, map_cons,
          strip_cons_style hc]
    · have hkept : c.isStyle = false := by simpa using hc
      rw [strip_cons hkept]
      obtain ⟨rfl, hsplit⟩ | ⟨line, lines, hrest, hsplit⟩ := splitLines_cons c text
      · rw [hsplit, map_cons, ← ih]
        rfl
      · obtain ⟨rfl, -⟩ | ⟨line', lines', hrest', hsplit'⟩ := splitLines_cons c (strip text)
        · exact absurd hsplit (by simp [splitLines])
        · rw [hrest', hrest, map_cons, cons.injEq] at ih
          rw [hsplit', hsplit, map_cons, strip_cons hkept, ih.1, ih.2]

theorem styledLines_strip (t : AnsiCodeTracker) (lines : List (Text γ)) :
    styledLines .reset (lines.map strip) = (styledLines t lines).map strip := by
  induction lines generalizing t with
  | nil => rfl
  | cons line lines ih =>
    rw [map_cons, styledLines, styledLines, map_cons, strip_append,
      strip_getActiveCodes, updateTrackerFromText_strip, ih]
    rfl

/-- The loops over a line and over the line without its codes. -/
structure SameTokens (done : Text γ) (styled plain : TokenState γ) : Prop where
  tokens : plain.tokens = styled.tokens.map strip
  current : plain.current = strip styled.current
  pendingAnsi : plain.pendingAnsi = strip styled.pendingAnsi
  inWhitespace : plain.inWhitespace = styled.inWhitespace
  nonempty : styled.current ≠ [] → plain.current ≠ []
  begun : (∃ c ∈ done, ∀ code, c ≠ .code code) → styled.current ≠ []

theorem SameTokens.current_eq_nil_iff (h : SameTokens done styled plain) :
    plain.current = [] ↔ styled.current = [] := by
  refine ⟨fun hplain => ?_, fun hstyled => by rw [h.current, hstyled, strip_nil]⟩
  by_contra hne
  exact h.nonempty hne hplain

theorem SameTokens.step_char (h : SameTokens done styled plain) (hc : ∀ code, c ≠ .code code) :
    SameTokens (done ++ [c]) (splitStep styled c) (splitStep plain c) := by
  have hstrip : strip [c] = [c] := by
    cases c with
    | code code => exact absurd rfl (hc code)
    | _ => rfl
  cases c with
  | code code => exact absurd rfl (hc code)
  | _ =>
    simp only [splitStep, h.inWhitespace, ne_eq, h.current_eq_nil_iff]
    split_ifs
    all_goals
      refine ⟨?_, ?_, rfl, rfl, ?_, ?_⟩
      all_goals simp [h.tokens, h.current, h.pendingAnsi, hstrip]

theorem SameTokens.step (h : SameTokens done styled plain) (c : Cell γ) :
    SameTokens (done ++ [c]) (splitStep styled c) ((strip [c]).foldl splitStep plain) := by
  have hbegun : ∀ code, (∃ d ∈ done ++ [Cell.code code], ∀ code', d ≠ .code code') →
      styled.current ≠ [] := by
    rintro code ⟨d, hd, hne⟩
    obtain hd | hd := mem_append.mp hd
    · exact h.begun ⟨d, hd, hne⟩
    · exact absurd (mem_singleton.mp hd) (hne code)
  cases c with
  | code code =>
    cases code with
    | sgr params =>
      refine ⟨h.tokens, h.current, ?_, h.inWhitespace, h.nonempty, hbegun _⟩
      rw [splitStep, strip_append, ← h.pendingAnsi]
      exact (append_nil _).symm
    | osc8 text =>
      refine ⟨h.tokens, h.current, ?_, h.inWhitespace, h.nonempty, hbegun _⟩
      simp only [splitStep, strip_append, ← h.pendingAnsi]
      rfl
  | _ => exact h.step_char (by simp)

theorem splitIntoTokensWithAnsi_strip {line : Text γ} (hline : 0 < visibleWidth G line) :
    splitIntoTokensWithAnsi (strip line) = (splitIntoTokensWithAnsi line).map strip := by
  have hfold : ∀ (done : Text γ) (styled plain : TokenState γ), SameTokens done styled plain →
      SameTokens (done ++ line) (line.foldl splitStep styled)
        ((strip line).foldl splitStep plain) := by
    clear hline
    induction line with
    | nil =>
      intro done styled plain h
      rwa [append_nil]
    | cons c line ih =>
      intro done styled plain h
      have hrest := ih _ _ _ (h.step c)
      rwa [append_assoc, ← foldl_append, ← strip_append] at hrest
  have hshown : ∃ c ∈ line, ∀ code, c ≠ .code code := by
    by_contra hcodes
    push Not at hcodes
    have hzero : visibleWidth G line = 0 := by
      clear hfold hline
      induction line with
      | nil => rfl
      | cons c line ih =>
        obtain ⟨code, rfl⟩ := hcodes c mem_cons_self
        rw [visibleWidth, ih fun d hd => hcodes d (mem_cons_of_mem _ hd)]
        rfl
    omega
  have hend := hfold [] { tokens := [], current := [], pendingAnsi := [], inWhitespace := false }
    { tokens := [], current := [], pendingAnsi := [], inWhitespace := false }
    ⟨rfl, rfl, rfl, rfl, fun h => h, by simp⟩
  unfold splitIntoTokensWithAnsi
  generalize line.foldl splitStep _ = styled at hend ⊢
  generalize (strip line).foldl splitStep _ = plain at hend ⊢
  have hbegun := hend.begun hshown
  have hplain := hend.nonempty hbegun
  simp only [append_eq_nil_iff, hbegun, hplain, false_and, if_false]
  rw [hend.tokens, hend.current, hend.pendingAnsi, map_append, map_singleton, strip_append]

end Draht.AnsiText
