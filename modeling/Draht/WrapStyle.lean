import Draht.LineColumns

/-!
# Wrapping keeps the style

Each line is read by itself, from the plain style. What is seen of the lines together is what is
seen of the text, in the same styles: every line begins with the codes that the tracker has found to
be active, and these are all that the terminal has been told.
-/

namespace Draht.AnsiText
open List

open Sgr AnsiCodeTracker

variable {γ : Type} (G : Graphemes γ)

/-- The visible cells that are no whitespace, with the styles they are shown in. -/
def shown (s : Style) : Text γ → List (Cell γ × Style)
  | [] => []
  | .code c :: text => shown (applyCode s c) text
  | c :: text => if c.isWhitespace G then shown s text else (c, s) :: shown s text

variable {word text : Text γ} {c : Cell γ}

theorem Known.cons (h : Known (c :: text)) : Known text :=
  fun code hcode => h code (mem_cons_of_mem _ hcode)

theorem shown_append (s : Style) (xs ys : Text γ) :
    shown G s (xs ++ ys) = shown G s xs ++ shown G (styles.after s xs) ys := by
  induction xs generalizing s with
  | nil => rfl
  | cons c xs ih =>
    cases c with
    | code code => exact ih _
    | _ =>
      simp only [cons_append, shown, Pen.after_cons, Pen.step, ih]
      split_ifs <;> rfl

theorem shown_of_isBlank (h : isBlank G text = true) (s : Style) :
    shown G s text = [] ∧ styles.after s text = s := by
  induction text with
  | nil => exact ⟨rfl, rfl⟩
  | cons c text ih =>
    obtain ⟨hc, htext⟩ : c.isWhitespace G = true ∧ isBlank G text = true := by
      simpa [isBlank] using h
    cases c with
    | code code => exact absurd hc Bool.false_ne_true
    | _ =>
      simp only [shown, Pen.after_cons, Pen.step, hc, if_true]
      exact ih htext

theorem shown_trimLine (s : Style) (text : Text γ) :
    shown G s (trimLine G text) = shown G s text := by
  obtain ⟨blank, hblank, htext⟩ := exists_trimLine G text
  conv_rhs => rw [htext, shown_append, (shown_of_isBlank G hblank _).1, append_nil]

theorem shown_getLineEndReset (s : Style) (t : AnsiCodeTracker) :
    shown G s (t.getLineEndReset : Text γ) = [] := by
  rw [getLineEndReset]
  split_ifs <;> rfl

namespace AnsiCodeTracker

variable {s : Style} {t : AnsiCodeTracker}

theorem Shows.getActiveCodes (h : t.Shows s) : shown G .plain (t.getActiveCodes : Text γ) = [] ∧
    styles.after .plain (t.getActiveCodes : Text γ) = s := by
  have hcodes := h.apply_codes
  rw [AnsiCodeTracker.getActiveCodes]
  split_ifs with hnone
  · rw [hnone] at hcodes
    exact ⟨rfl, hcodes⟩
  · exact ⟨rfl, hcodes⟩

theorem Shows.known_getActiveCodes (h : t.Shows s) : Known (t.getActiveCodes : Text γ) := by
  intro code hcode
  rw [AnsiCodeTracker.getActiveCodes] at hcode
  split_ifs at hcode with hnone
  · cases hcode
  · rw [mem_singleton, Cell.code.injEq] at hcode
    rw [hcode]
    exact .inr h.known_codes

theorem Shows.updateTracker (h : t.Shows s) {c : Cell γ} (hc : Known [c]) :
    (updateTracker t c).Shows (styles.after s [c]) := by
  cases c with
  | code code => exact h.process (hc code mem_cons_self)
  | _ => exact h

theorem Shows.updateTrackerFromText {text : Text γ} (h : t.Shows s) (hknown : Known text) :
    (updateTrackerFromText text t).Shows (styles.after s text) := by
  induction text generalizing t s with
  | nil => exact h
  | cons c text ih =>
    refine ih (h.updateTracker ?_) hknown.cons
    exact fun code hcode => hknown code (mem_singleton.mp hcode ▸ mem_cons_self)

end AnsiCodeTracker

/-- The finished lines and the current one show the text `done`, which is shown from the style `s₀`,
and the tracker knows the style after it. -/
structure Restyled (s₀ : Style) (done : Text γ) (lines : List (Text γ)) (currentLine : Text γ)
    (tracker : AnsiCodeTracker) : Prop where
  shown : lines.flatMap (shown G .plain) ++ shown G .plain currentLine = shown G s₀ done
  style : styles.after .plain currentLine = styles.after s₀ done
  tracker : tracker.Shows (styles.after s₀ done)

namespace Restyled

variable {G} {s₀ : Style} {done : Text γ} {lines : List (Text γ)} {currentLine : Text γ}
  {tracker : AnsiCodeTracker}

theorem start (h : tracker.Shows s₀) : Restyled G s₀ [] [] tracker.getActiveCodes tracker :=
  ⟨(h.getActiveCodes G).1, (h.getActiveCodes G).2, h⟩

theorem extend (h : Restyled G s₀ done lines currentLine tracker) {text : Text γ}
    (hknown : Known text) :
    Restyled G s₀ (done ++ text) lines (currentLine ++ text)
      (updateTrackerFromText text tracker) := by
  refine ⟨?_, ?_, ?_⟩
  · rw [shown_append, shown_append, h.style, ← append_assoc, h.shown]
  · rw [Pen.after_append, Pen.after_append, h.style]
  · rw [Pen.after_append]
    exact h.tracker.updateTrackerFromText hknown

theorem breakLine (h : Restyled G s₀ done lines currentLine tracker) {line : Text γ}
    (hline : AnsiText.shown G .plain line = AnsiText.shown G .plain currentLine) :
    Restyled G s₀ done (lines ++ [line ++ tracker.getLineEndReset]) tracker.getActiveCodes
      tracker := by
  obtain ⟨hcodes, hstyle⟩ := h.tracker.getActiveCodes G
  refine ⟨?_, hstyle, h.tracker⟩
  rw [hcodes, append_nil, flatMap_append, flatMap_singleton, shown_append,
    shown_getLineEndReset, append_nil, hline, h.shown]

theorem dropBlank (h : Restyled G s₀ done lines currentLine tracker) {token : Text γ}
    (hblank : isBlank G token = true) :
    Restyled G s₀ (done ++ token) lines currentLine tracker := by
  obtain ⟨hnone, hstyle⟩ := shown_of_isBlank G hblank (styles.after s₀ done)
  refine ⟨?_, ?_, ?_⟩
  · rw [shown_append, hnone, append_nil, h.shown]
  · rw [Pen.after_append, hstyle, h.style]
  · rw [Pen.after_append, hstyle]
    exact h.tracker

end Restyled

variable (width : ℕ)

theorem breakStep_restyled {s₀ : Style} {done : Text γ} {s : BreakState γ}
    (h : Restyled G s₀ done s.lines s.currentLine s.tracker) (hc : Known [c]) :
    let s' := breakStep G width s c
    Restyled G s₀ (done ++ [c]) s'.lines s'.currentLine s'.tracker ∧ s'.currentLine ≠ [] := by
  have hextend := h.extend hc
  cases c with
  | code code => exact ⟨hextend, by simp [breakStep]⟩
  | _ =>
    simp only [breakStep]
    split_ifs
    · exact ⟨(h.breakLine rfl).extend hc, by simp⟩
    · exact ⟨hextend, by simp⟩

theorem foldl_breakStep_restyled {s₀ : Style} {done : Text γ} {s : BreakState γ}
    (h : Restyled G s₀ done s.lines s.currentLine s.tracker) (hword : Known word) :
    let s' := word.foldl (breakStep G width) s
    Restyled G s₀ (done ++ word) s'.lines s'.currentLine s'.tracker ∧
      (word ≠ [] → s'.currentLine ≠ []) := by
  induction word using reverseRecOn with
  | nil =>
    rw [append_nil]
    exact ⟨h, fun hne => absurd rfl hne⟩
  | append_singleton word c ih =>
    rw [foldl_concat, ← append_assoc]
    have hinit := (ih fun code hcode => hword code (mem_append_left _ hcode)).1
    obtain ⟨hstep, hne⟩ := breakStep_restyled G width hinit
      fun code hcode => hword code (mem_append_right _ hcode)
    exact ⟨hstep, fun _ => hne⟩

theorem breakLongWord_restyled (hword : Known word) (hne : word ≠ []) (width : ℕ)
    {tracker : AnsiCodeTracker} {s₀ : Style} (htracker : tracker.Shows s₀) :
    ∃ lines last tracker', breakLongWord G word width tracker = (lines ++ [last], tracker') ∧
      Restyled G s₀ word lines last tracker' := by
  have hfold := foldl_breakStep_restyled G width
    (s := { lines := [], currentLine := tracker.getActiveCodes, currentWidth := 0, tracker })
    (.start htracker) hword
  unfold breakLongWord
  generalize word.foldl (breakStep G width) _ = s at hfold ⊢
  obtain ⟨hend, hlast⟩ := hfold
  exact ⟨s.lines, s.currentLine, s.tracker, by simp [hlast hne], hend⟩

theorem wrapToken_restyled {done token : Text γ} {s : WrapState γ}
    (h : Restyled G .plain done s.wrapped s.currentLine s.tracker) (htoken : Known token) :
    let s' := wrapToken G width s token
    Restyled G .plain (done ++ token) s'.wrapped s'.currentLine s'.tracker := by
  by_cases hlong : width < visibleWidth G token ∧ isBlank G token = false
  · have hne : token ≠ [] := by
      rintro rfl
      exact absurd hlong.1 (Nat.not_lt_zero _)
    obtain ⟨broken, last, tracker', hbroken, hword⟩ :=
      breakLongWord_restyled G htoken hne width h.tracker
    rw [wrapToken, if_pos hlong]
    simp only [wrapLongToken, hbroken, getLast?_concat, dropLast_concat, Option.getD_some]
    refine ⟨?_, ?_, ?_⟩
    · have hbefore : (if s.currentLine = [] then s.wrapped
          else s.wrapped ++ [s.currentLine ++ s.tracker.getLineEndReset]).flatMap
            (shown G .plain) = shown G .plain done := by
        rw [← h.shown]
        split_ifs with hempty
        · rw [hempty, shown, append_nil]
        · rw [flatMap_append, flatMap_singleton, shown_append, shown_getLineEndReset,
            append_nil]
      rw [flatMap_append, hbefore, append_assoc, hword.shown, shown_append]
    · rw [hword.style, Pen.after_append]
    · rw [Pen.after_append]
      exact hword.tracker
  rw [wrapToken, if_neg hlong]
  simp only
  by_cases hover : width < s.currentVisibleLength + visibleWidth G token ∧
      0 < s.currentVisibleLength
  · rw [if_pos hover]
    have hbreak := h.breakLine (shown_trimLine G .plain s.currentLine)
    by_cases hblank : isBlank G token = true
    · rw [if_pos hblank, updateTrackerFromText_isBlank G hblank]
      exact hbreak.dropBlank hblank
    · rw [if_neg hblank]
      exact hbreak.extend htoken
  · rw [if_neg hover]
    exact h.extend htoken

theorem foldl_wrapToken_restyled {tokens : List (Text γ)} (hknown : Known tokens.flatten) :
    let s := tokens.foldl (wrapToken G width) wrapStart
    Restyled G .plain tokens.flatten s.wrapped s.currentLine s.tracker := by
  induction tokens using reverseRecOn with
  | nil => exact .start .reset
  | append_singleton tokens token ih =>
    rw [flatten_append, flatten_singleton] at hknown ⊢
    rw [foldl_concat]
    exact wrapToken_restyled G width
      (ih fun code hcode => hknown code (mem_append_left _ hcode))
      fun code hcode => hknown code (mem_append_right _ hcode)

theorem shown_wrapSingleLine {line : Text γ} (hknown : Known line) (width : ℕ) :
    (wrapSingleLine G line width).flatMap (shown G .plain) = shown G .plain line := by
  unfold wrapSingleLine
  split_ifs with hempty hfits
  · rw [hempty]
    rfl
  · exact flatMap_singleton ..
  have hflatten := splitIntoTokensWithAnsi_flatten line
  have hend := foldl_wrapToken_restyled G width (hflatten ▸ hknown)
  rw [hflatten] at hend
  generalize (splitIntoTokensWithAnsi line).foldl (wrapToken G width) wrapStart = s at hend ⊢
  have hwrapped : (if s.currentLine = [] then s.wrapped
      else s.wrapped ++ [s.currentLine]).flatMap (shown G .plain) = shown G .plain line := by
    rw [← hend.shown]
    split_ifs with hcurrent
    · rw [hcurrent, shown, append_nil]
    · rw [flatMap_append, flatMap_singleton]
  simp only
  generalize (if s.currentLine = [] then s.wrapped
    else s.wrapped ++ [s.currentLine]) = wrapped at hwrapped ⊢
  split_ifs with hnone
  · rw [hnone] at hwrapped
    exact hwrapped
  · rw [flatMap_map, ← hwrapped]
    exact flatMap_congr fun l _ => shown_trimLine G .plain l

theorem shown_styledLines (hknown : Known text) {t : AnsiCodeTracker} {s : Style} (ht : t.Shows s) :
    (styledLines t (splitLines text)).flatMap (shown G .plain) = shown G s text := by
  induction text generalizing t s with
  | nil => simp [splitLines, styledLines, (ht.getActiveCodes G).1, shown]
  | cons c text ih =>
    obtain ⟨hcodes, hstyle⟩ := ht.getActiveCodes G
    obtain ⟨rfl, hsplit⟩ | ⟨line, lines, hrest, hsplit⟩ := splitLines_cons c text
    · rw [hsplit, styledLines, flatMap_cons, append_nil, hcodes]
      exact ih hknown.cons ht
    · have hc : Known [c] :=
        fun code hcode => hknown code (mem_singleton.mp hcode ▸ mem_cons_self)
      have hnext := ht.updateTracker hc
      have hlines := ih hknown.cons hnext
      obtain ⟨hcodes', hstyle'⟩ := hnext.getActiveCodes G
      rw [hrest, styledLines, flatMap_cons, shown_append, hcodes', hstyle', nil_append] at hlines
      rw [hsplit, styledLines, flatMap_cons, shown_append, hcodes, hstyle, nil_append,
        ← singleton_append, shown_append, append_assoc,
        ← singleton_append (l := text), shown_append, ← hlines]
      rfl

theorem known_styledLines {t : AnsiCodeTracker} {s : Style} {lines : List (Text γ)}
    (ht : t.Shows s) (hknown : ∀ line ∈ lines, Known line) {styled : Text γ}
    (h : styled ∈ styledLines t lines) : Known styled := by
  induction lines generalizing t s with
  | nil => cases h
  | cons line lines ih =>
    have hline := hknown line mem_cons_self
    obtain rfl | hrest := mem_cons.mp h
    · intro code hcode
      obtain hcode | hcode := mem_append.mp hcode
      · exact ht.known_getActiveCodes code hcode
      · exact hline code hcode
    · exact ih (ht.updateTrackerFromText hline)
        (fun l hl => hknown l (mem_cons_of_mem _ hl)) hrest

/-- Read one by one, the lines show each visible character in the style that it has in the text. -/
theorem wrapTextWithAnsi_keepsStyle {text : Text γ} (hknown : Known text) (width : ℕ) :
    (wrapTextWithAnsi G text width).flatMap (shown G .plain) = shown G .plain text := by
  rw [wrapTextWithAnsi_eq, flatMap_assoc, ← shown_styledLines G hknown .reset]
  refine flatMap_congr fun styled hstyled => ?_
  exact shown_wrapSingleLine G (known_styledLines .reset
    (fun line hline code hcode => hknown code (mem_of_mem_splitLines hline hcode)) hstyled) width

/-- A bold word in a colour of the palette, one that is not bold, and a line after them. -/
def colouredText : Text Char :=
  [.code (.sgr ["1", "38", "5", "9"]), .grapheme 'a', .grapheme 'b', .space, .code (.sgr ["22"]),
    .grapheme 'c', .grapheme 'd', .newline, .grapheme 'e', .code (.sgr ["0"])]

theorem wrapTextWithAnsi_keepsStyle_colouredText :
    (wrapTextWithAnsi letters colouredText 3).flatMap (shown letters .plain) =
      shown letters .plain colouredText := by
  refine wrapTextWithAnsi_keepsStyle letters ?_ 3
  have hdecimal : ∀ part ∈ ["1", "38", "9", "22", "0"], IsDecimal part := by
    intro part hpart
    refine isDecimal_of_all ?_
    revert part
    decide
  have hbold : KnownCode (.sgr ["1", "38", "5", "9"]) :=
    .inr (.one (hdecimal _ (by decide)) (by decide)
      (.palette (hdecimal _ (by decide)) (.inl (by decide)) (hdecimal _ (by decide)) .nil))
  have hnormal : KnownCode (.sgr ["22"]) :=
    .inr (.one (hdecimal _ (by decide)) (by decide) .nil)
  have hreset : KnownCode (.sgr ["0"]) :=
    .inr (.one (hdecimal _ (by decide)) (by decide) .nil)
  intro code hcode
  simp only [colouredText, mem_cons, Cell.code.injEq, reduceCtorEq, not_mem_nil,
    false_or, or_false] at hcode
  obtain rfl | rfl | rfl := hcode
  · exact hbold
  · exact hnormal
  · exact hreset

end Draht.AnsiText
