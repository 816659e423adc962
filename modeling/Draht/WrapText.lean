import Draht.AnsiText

/-!
# Wrapped lines

Wrapping keeps every visible cell that is no whitespace, in order. The lines fit, unless a word that
has to be broken follows whitespace that alone fills more than a line, and is underlined: then the
code that ends the underline keeps that whitespace from being trimmed.
-/

namespace Draht.AnsiText
open List

variable {γ : Type} (G : Graphemes γ)

@[simp] theorem visibleWidth_nil : visibleWidth G ([] : Text γ) = 0 := rfl

@[simp] theorem visibleWidth_append (xs ys : Text γ) :
    visibleWidth G (xs ++ ys) = visibleWidth G xs + visibleWidth G ys := by
  induction xs with
  | nil => exact (Nat.zero_add _).symm
  | cons c xs ih => rw [cons_append, visibleWidth, visibleWidth, ih, Nat.add_assoc]

@[simp] theorem visibleWidth_singleton (c : Cell γ) : visibleWidth G [c] = c.width G := by
  simp [visibleWidth]

@[simp] theorem visible_append (xs ys : Text γ) :
    visible G (xs ++ ys) = visible G xs ++ visible G ys := by
  simp [visible]

@[simp] theorem visible_nil : visible G ([] : Text γ) = [] := rfl

@[simp] theorem visible_code (c : AnsiCode) : visible G ([.code c] : Text γ) = [] := rfl

theorem visibleWidth_le_of_mem {tokens : List (Text γ)} {token : Text γ} (h : token ∈ tokens) :
    visibleWidth G token ≤ visibleWidth G tokens.flatten := by
  obtain ⟨before, after, rfl⟩ := append_of_mem h
  simp only [flatten_append, flatten_cons, visibleWidth_append]
  omega

theorem visible_of_isBlank {text : Text γ} (h : isBlank G text = true) : visible G text = [] := by
  refine filter_eq_nil_iff.mpr fun c hc => ?_
  have hblank := all_eq_true.mp h c hc
  cases c with
  | code => exact Bool.false_ne_true
  | _ => simp [hblank]

section Codes

variable (t : AnsiCodeTracker)

@[simp] theorem visibleWidth_getActiveCodes :
    visibleWidth G (t.getActiveCodes : Text γ) = 0 := by
  unfold AnsiCodeTracker.getActiveCodes
  split_ifs <;> rfl

@[simp] theorem visible_getActiveCodes : visible G (t.getActiveCodes : Text γ) = [] := by
  unfold AnsiCodeTracker.getActiveCodes
  split_ifs <;> rfl

@[simp] theorem visibleWidth_getLineEndReset :
    visibleWidth G (t.getLineEndReset : Text γ) = 0 := by
  unfold AnsiCodeTracker.getLineEndReset
  split_ifs <;> rfl

@[simp] theorem visible_getLineEndReset : visible G (t.getLineEndReset : Text γ) = [] := by
  unfold AnsiCodeTracker.getLineEndReset
  split_ifs <;> rfl

end Codes

theorem trimLine_append_blank (text : Text γ) {token : Text γ} (h : isBlank G token = true) :
    trimLine G (text ++ token) = trimLine G text := by
  induction token using reverseRecOn with
  | nil => rw [append_nil]
  | append_singleton token c ih =>
    have hall : isBlank G token = true ∧ c.isWhitespace G = true := by
      simpa [isBlank] using h
    unfold trimLine trimEnd at ih ⊢
    rw [← append_assoc, rdropWhile_concat_pos _ _ _ hall.2]
    exact ih hall.1

theorem trimLine_append_code (text : Text γ) (c : AnsiCode) :
    trimLine G (text ++ [.code c]) = text ++ [.code c] :=
  rdropWhile_concat_neg _ _ _ (by simp [Cell.isWhitespace])

theorem exists_trimLine (text : Text γ) :
    ∃ blank, isBlank G blank = true ∧ text = trimLine G text ++ blank := by
  refine ⟨text.rtakeWhile (Cell.isWhitespace G), ?_, ?_⟩
  · exact all_eq_true.mpr fun c hc => mem_rtakeWhile_imp hc
  · exact rdropWhile_append_rtakeWhile.symm

theorem visibleWidth_trimLine_le (text : Text γ) :
    visibleWidth G (trimLine G text) ≤ visibleWidth G text := by
  obtain ⟨blank, -, htext⟩ := exists_trimLine G text
  have hwidth := congrArg (visibleWidth G) htext
  rw [visibleWidth_append] at hwidth
  omega

theorem visible_trimLine (text : Text γ) : visible G (trimLine G text) = visible G text := by
  obtain ⟨blank, hblank, htext⟩ := exists_trimLine G text
  have hvisible := congrArg (visible G) htext
  rw [visible_append, visible_of_isBlank G hblank, append_nil] at hvisible
  exact hvisible.symm

theorem visible_flatten_trimLine (lines : List (Text γ)) :
    visible G (lines.map (trimLine G)).flatten = visible G lines.flatten := by
  induction lines with
  | nil => rfl
  | cons line lines ih =>
    rw [map_cons, flatten_cons, flatten_cons, visible_append, visible_append, ih, visible_trimLine]

theorem splitStep_flatten (s : TokenState γ) (c : Cell γ) :
    (splitStep s c).tokens.flatten ++ (splitStep s c).current ++ (splitStep s c).pendingAnsi =
      s.tokens.flatten ++ s.current ++ s.pendingAnsi ++ [c] := by
  cases c with
  | code => simp [splitStep]
  | _ =>
    simp only [splitStep]
    split_ifs <;> simp

theorem splitIntoTokensWithAnsi_flatten (line : Text γ) :
    (splitIntoTokensWithAnsi line).flatten = line := by
  have hfold : ∀ (s : TokenState γ), let s' := line.foldl splitStep s
      s'.tokens.flatten ++ s'.current ++ s'.pendingAnsi =
        s.tokens.flatten ++ s.current ++ s.pendingAnsi ++ line := by
    induction line with
    | nil => simp
    | cons c line ih =>
      intro s
      have hrest := ih (splitStep s c)
      simp only [foldl_cons] at hrest ⊢
      rw [hrest, splitStep_flatten]
      simp
  have hline := hfold { tokens := [], current := [], pendingAnsi := [], inWhitespace := false }
  simp only [flatten_nil, nil_append] at hline
  unfold splitIntoTokensWithAnsi
  generalize line.foldl splitStep _ = s' at hline ⊢
  simp only
  split_ifs with hempty
  · rw [← hline, append_assoc, hempty, append_nil]
  · rw [flatten_append, flatten_singleton, ← append_assoc]
    exact hline

/-- How full the last line of a word is; `used` columns of it are taken. -/
def lastChunk (width : ℕ) : ℕ → Text γ → ℕ
  | used, [] => used
  | used, .code _ :: word => lastChunk width used word
  | used, c :: word =>
    lastChunk width (if used + c.width G > width then c.width G else used + c.width G) word

structure BreakInvariant (width : ℕ) (tracker : AnsiCodeTracker) (done : Text γ)
    (s : BreakState γ) : Prop where
  lines : ∀ line ∈ s.lines, visibleWidth G line ≤ width
  length : visibleWidth G s.currentLine = s.currentWidth
  fits : s.currentWidth ≤ width
  visible : visible G (s.lines.flatten ++ s.currentLine) = visible G done
  tracker : s.tracker = updateTrackerFromText done tracker
  nonempty : done ≠ [] → s.currentLine ≠ []

section Break

variable {width : ℕ} {tracker : AnsiCodeTracker} {done : Text γ} {s : BreakState γ}

theorem BreakInvariant.step (h : BreakInvariant G width tracker done s) {c : Cell γ}
    (hc : c.width G ≤ width) :
    BreakInvariant G width tracker (done ++ [c]) (breakStep G width s c) := by
  have htracker : updateTrackerFromText (done ++ [c]) tracker =
      updateTracker (updateTrackerFromText done tracker) c := by
    simp [updateTrackerFromText]
  cases c with
  | code code =>
    refine ⟨h.lines, ?_, h.fits, ?_, ?_, by simp [breakStep]⟩
    · simp [breakStep, h.length, Cell.width]
    · have hvisible := h.visible
      rw [visible_append] at hvisible
      simp [breakStep, hvisible]
    · rw [htracker, ← h.tracker]
      rfl
  | _ =>
    have hvisible := h.visible
    refine ⟨?_, ?_, ?_, ?_, ?_, ?_⟩
    · intro line hline
      simp only [breakStep] at hline
      split_ifs at hline
      · obtain hline | hline := mem_append.mp hline
        · exact h.lines line hline
        · rw [mem_singleton.mp hline, visibleWidth_append, h.length,
            visibleWidth_getLineEndReset, Nat.add_zero]
          exact h.fits
      · exact h.lines line hline
    · simp only [breakStep]
      split_ifs <;> simp [h.length]
    · simp only [breakStep]
      split_ifs with hover
      · simpa using hc
      · omega
    · simp only [breakStep]
      split_ifs <;> simp [← hvisible]
    · rw [htracker, ← h.tracker]
      simp only [breakStep]
      split_ifs <;> rfl
    · intro _
      simp only [breakStep]
      split_ifs <;> simp

theorem BreakInvariant.foldl {word : Text γ} (h : BreakInvariant G width tracker done s)
    (hword : ∀ c ∈ word, c.width G ≤ width) :
    BreakInvariant G width tracker (done ++ word) (word.foldl (breakStep G width) s) := by
  induction word generalizing done s with
  | nil => rwa [append_nil]
  | cons c word ih =>
    have hstep := h.step G (hword c mem_cons_self)
    have hrest := ih hstep fun c hc => hword c (mem_cons_of_mem _ hc)
    rwa [append_assoc, singleton_append] at hrest

theorem currentWidth_foldl (word : Text γ) (s : BreakState γ) :
    (word.foldl (breakStep G width) s).currentWidth = lastChunk G width s.currentWidth word := by
  induction word generalizing s with
  | nil => rfl
  | cons c word ih =>
    rw [foldl_cons, ih]
    cases c with
    | code => rfl
    | _ =>
      simp only [breakStep, lastChunk]
      split_ifs <;> simp

theorem breakLongWord_spec {word : Text γ} (hword : ∀ c ∈ word, c.width G ≤ width)
    (hne : word ≠ []) (tracker : AnsiCodeTracker) :
    ∃ lines last, breakLongWord G word width tracker =
        (lines ++ [last], updateTrackerFromText word tracker) ∧
      (∀ line ∈ lines, visibleWidth G line ≤ width) ∧
      visibleWidth G last = lastChunk G width 0 word ∧ visibleWidth G last ≤ width ∧
      visible G (lines.flatten ++ last) = visible G word := by
  have hstart : BreakInvariant G width tracker []
      { lines := [], currentLine := tracker.getActiveCodes, currentWidth := 0, tracker } :=
    ⟨by simp, by simp, Nat.zero_le _, by simp, rfl, by simp⟩
  have hend := hstart.foldl G hword
  have hlength : (word.foldl (breakStep G width)
      { lines := [], currentLine := tracker.getActiveCodes, currentWidth := 0
        tracker }).currentWidth = lastChunk G width 0 word :=
    currentWidth_foldl G word _
  unfold breakLongWord
  generalize word.foldl (breakStep G width) _ = s at hend hlength ⊢
  refine ⟨s.lines, s.currentLine, ?_, hend.lines, hend.length.trans hlength, ?_, hend.visible⟩
  · simp [hend.nonempty hne, hend.tracker]
  · rw [hend.length]
    exact hend.fits

end Break

/-- How much of a line is taken after `token`, when `used` columns were taken before. -/
def lineLength (width used : ℕ) (token : Text γ) : ℕ :=
  if width < visibleWidth G token ∧ isBlank G token = false then lastChunk G width 0 token
  else if width < used + visibleWidth G token ∧ 0 < used then
    if isBlank G token then 0 else visibleWidth G token
  else used + visibleWidth G token

/-- Whitespace that begins a line, is underlined, and alone fills more than a line. -/
def FullBlank (width : ℕ) (before : List (Text γ)) (blank : Text γ) : Prop :=
  before.foldl (lineLength G width) 0 = 0 ∧ isBlank G blank = true ∧
    width < visibleWidth G blank ∧
    (updateTrackerFromText before.flatten .reset).underline = true

def Overhangs (width : ℕ) (tokens : List (Text γ)) : Prop :=
  ∃ before blank word after, tokens = before ++ blank :: word :: after ∧
    FullBlank G width before blank ∧ width < visibleWidth G word ∧ isBlank G word = false

section Wrap

variable {width : ℕ} {pre : List (Text γ)} {token : Text γ} {s : WrapState γ}

theorem lineLength_of_isBlank (h : isBlank G token = true) :
    lineLength G width 0 token = visibleWidth G token := by
  simp [lineLength, h]

theorem updateTrackerFromText_isBlank (h : isBlank G token = true) (t : AnsiCodeTracker) :
    updateTrackerFromText token t = t := by
  induction token generalizing t with
  | nil => rfl
  | cons c token ih =>
    have hall : c.isWhitespace G = true ∧ isBlank G token = true := by
      simpa [isBlank] using h
    cases c with
    | code => exact absurd hall.1 Bool.false_ne_true
    | _ => exact ih hall.2 t

theorem updateTrackerFromText_flatten_concat (t : AnsiCodeTracker) :
    updateTrackerFromText (pre ++ [token]).flatten t =
      updateTrackerFromText token (updateTrackerFromText pre.flatten t) := by
  simp [updateTrackerFromText]

theorem updateTrackerFromText_concat_isBlank (h : isBlank G token = true) (t : AnsiCodeTracker) :
    updateTrackerFromText (pre ++ [token]).flatten t = updateTrackerFromText pre.flatten t := by
  rw [updateTrackerFromText_flatten_concat, updateTrackerFromText_isBlank G h]

theorem overhangs_concat :
    Overhangs G width (pre ++ [token]) ↔ Overhangs G width pre ∨
      (width < visibleWidth G token ∧ isBlank G token = false) ∧
        ∃ before blank, pre = before ++ [blank] ∧ FullBlank G width before blank := by
  constructor
  · rintro ⟨before, blank, word, after, htokens, hfull, hlong⟩
    induction after using reverseRecOn with
    | nil =>
      have hsplit : pre ++ [token] = (before ++ [blank]) ++ [word] := by simp [htokens]
      obtain ⟨hpre, hword⟩ := append_inj' hsplit rfl
      rw [singleton_inj] at hword
      exact .inr ⟨by rwa [hword], before, blank, hpre, hfull⟩
    | append_singleton after last =>
      have hsplit : pre ++ [token] = (before ++ blank :: word :: after) ++ [last] := by
        simp [htokens]
      exact .inl ⟨before, blank, word, after, (append_inj' hsplit rfl).1, hfull, hlong⟩
  · rintro (⟨before, blank, word, after, rfl, hfull, hlong⟩ | ⟨hlong, before, blank, rfl, hfull⟩)
    · exact ⟨before, blank, word, after ++ [token], by simp, hfull, hlong⟩
    · exact ⟨before, blank, token, [], by simp, hfull, hlong⟩

/-- The loop over the tokens of a line, after the tokens `pre`. -/
structure WrapInvariant (width : ℕ) (pre : List (Text γ)) (s : WrapState γ) : Prop where
  current : visibleWidth G s.currentLine = s.currentVisibleLength
  length : s.currentVisibleLength = pre.foldl (lineLength G width) 0
  trimmed : visibleWidth G (trimLine G s.currentLine) ≤ width
  tracker : s.tracker = updateTrackerFromText pre.flatten .reset
  visible : visible G (s.wrapped.flatten ++ s.currentLine) = visible G pre.flatten
  full : width < s.currentVisibleLength → ∃ before blank, pre = before ++ [blank] ∧
    before.foldl (lineLength G width) 0 = 0 ∧ isBlank G blank = true ∧
      width < visibleWidth G blank
  lines : (∀ line ∈ s.wrapped, visibleWidth G (trimLine G line) ≤ width) ↔ ¬Overhangs G width pre

section

variable (h : WrapInvariant G width pre s)
include h

theorem WrapInvariant.fullBlank_iff :
    (∃ before blank, pre = before ++ [blank] ∧ FullBlank G width before blank) ↔
      width < s.currentVisibleLength ∧ s.tracker.underline = true := by
  constructor
  · rintro ⟨before, blank, rfl, hstart, hblank, hwidth, hunderline⟩
    have hlength := h.length
    rw [foldl_append, hstart, foldl_cons, foldl_nil, lineLength_of_isBlank G hblank] at hlength
    refine ⟨by omega, ?_⟩
    rwa [h.tracker, updateTrackerFromText_concat_isBlank G hblank]
  · rintro ⟨hfull, hunderline⟩
    obtain ⟨before, blank, rfl, hstart, hblank, hwidth⟩ := h.full hfull
    refine ⟨before, blank, rfl, hstart, hblank, hwidth, ?_⟩
    rwa [h.tracker, updateTrackerFromText_concat_isBlank G hblank] at hunderline

theorem WrapInvariant.pushed_fits_iff :
    visibleWidth G (trimLine G (s.currentLine ++ s.tracker.getLineEndReset)) ≤ width ↔
      ¬∃ before blank, pre = before ++ [blank] ∧ FullBlank G width before blank := by
  rw [h.fullBlank_iff]
  by_cases hunderline : s.tracker.underline = true
  · simp only [AnsiCodeTracker.getLineEndReset, if_pos hunderline, trimLine_append_code,
      visibleWidth_append, visibleWidth_singleton, Cell.width, h.current]
    simp [hunderline]
  · simp only [AnsiCodeTracker.getLineEndReset, if_neg hunderline, append_nil]
    simp [hunderline, h.trimmed]

theorem WrapInvariant.empty_fits (hempty : s.currentLine = []) :
    ¬∃ before blank, pre = before ++ [blank] ∧ FullBlank G width before blank := by
  rw [h.fullBlank_iff, ← h.current, hempty]
  simp

theorem WrapInvariant.step_long
    (hcells : ∀ c ∈ token, c.width G ≤ width)
    (hlong : width < visibleWidth G token ∧ isBlank G token = false) :
    WrapInvariant G width (pre ++ [token]) (wrapLongToken G width s token) := by
  have hne : token ≠ [] := by
    rintro rfl
    exact absurd hlong.1 (Nat.not_lt_zero _)
  obtain ⟨broken, last, hbroken, hfit, hlength, hlast, hvisible⟩ :=
    breakLongWord_spec G hcells hne s.tracker
  have hprevious := h.visible
  rw [visible_append] at hprevious hvisible
  have hlines := h.lines
  have hoverhangs : Overhangs G width (pre ++ [token]) ↔ Overhangs G width pre ∨
      ∃ before blank, pre = before ++ [blank] ∧ FullBlank G width before blank := by
    rw [overhangs_concat, and_iff_right hlong]
  have hbrokenFits : ∀ line ∈ broken, visibleWidth G (trimLine G line) ≤ width :=
    fun line hline => (visibleWidth_trimLine_le G line).trans (hfit line hline)
  unfold wrapLongToken
  simp only [hbroken, getLast?_concat, dropLast_concat, Option.getD_some]
  refine ⟨rfl, ?_, ?_, ?_, ?_, ?_, ?_⟩
  · rw [foldl_append, foldl_cons, foldl_nil, lineLength, if_pos hlong]
    exact hlength
  · exact (visibleWidth_trimLine_le G last).trans hlast
  · rw [updateTrackerFromText_flatten_concat, ← h.tracker]
  · split_ifs with hempty
    · rw [hempty, visible_nil, append_nil] at hprevious
      simp [hprevious, hvisible]
    · simp [← hprevious, hvisible]
  · intro hfull
    exact absurd hlast (Nat.not_le.mpr hfull)
  · rw [hoverhangs, not_or, ← hlines]
    split_ifs with hempty
    · have hfits := h.empty_fits G hempty
      simp only [mem_append, or_imp, forall_and, hfits, not_false_eq_true, and_true]
      exact and_iff_left hbrokenFits
    · rw [← h.pushed_fits_iff]
      simp only [mem_append, mem_singleton, or_imp, forall_and, forall_eq]
      exact and_iff_left hbrokenFits

theorem WrapInvariant.step
    (hcells : ∀ c ∈ token, c.width G ≤ width) :
    WrapInvariant G width (pre ++ [token]) (wrapToken G width s token) := by
  by_cases hlong : width < visibleWidth G token ∧ isBlank G token = false
  · rw [wrapToken, if_pos hlong]
    exact h.step_long G hcells hlong
  have hprevious := h.visible
  have hlines := h.lines
  have hcurrent := h.current
  have hoverhangs : Overhangs G width (pre ++ [token]) ↔ Overhangs G width pre := by
    rw [overhangs_concat]
    exact or_iff_left fun hnew => hlong hnew.1
  have htracker : updateTrackerFromText (pre ++ [token]).flatten .reset =
      updateTrackerFromText token s.tracker := by
    rw [updateTrackerFromText_flatten_concat, h.tracker]
  have hlength : (pre ++ [token]).foldl (lineLength G width) 0 =
      lineLength G width s.currentVisibleLength token := by
    rw [foldl_append, ← h.length, foldl_cons, foldl_nil]
  unfold lineLength at hlength
  rw [if_neg hlong] at hlength
  unfold wrapToken
  rw [if_neg hlong]
  simp only
  by_cases hover : width < s.currentVisibleLength + visibleWidth G token ∧
      0 < s.currentVisibleLength
  · rw [if_pos hover] at hlength ⊢
    have hpushed : visibleWidth G (trimLine G
        (trimLine G s.currentLine ++ s.tracker.getLineEndReset)) ≤ width := by
      refine (visibleWidth_trimLine_le G _).trans ?_
      rw [visibleWidth_append, visibleWidth_getLineEndReset, Nat.add_zero]
      exact h.trimmed
    have hpushedLines : (∀ line ∈ s.wrapped ++ [trimLine G s.currentLine ++
        s.tracker.getLineEndReset], visibleWidth G (trimLine G line) ≤ width) ↔
        ¬Overhangs G width (pre ++ [token]) := by
      rw [hoverhangs, ← hlines]
      simp [or_imp, forall_and, hpushed]
    by_cases hblank : isBlank G token = true
    · rw [if_pos hblank] at hlength ⊢
      refine ⟨by simp, hlength.symm, ?_, htracker.symm, ?_, ?_, hpushedLines⟩
      · exact (visibleWidth_trimLine_le G _).trans (by simp)
      · simp [← hprevious, visible_trimLine, visible_of_isBlank G hblank]
      · exact fun hfull => absurd hfull (Nat.not_lt_zero _)
    · have hshort : visibleWidth G token ≤ width := by
        by_contra hwide
        exact hlong ⟨by omega, by simpa using hblank⟩
      rw [if_neg hblank] at hlength ⊢
      refine ⟨by simp, hlength.symm, ?_, htracker.symm, ?_, ?_, hpushedLines⟩
      · exact (visibleWidth_trimLine_le G _).trans (by simpa using hshort)
      · simp [← hprevious, visible_trimLine]
      · exact fun hfull => absurd hshort (Nat.not_le.mpr hfull)
  · rw [if_neg hover] at hlength ⊢
    refine ⟨by simp [hcurrent], hlength.symm, ?_, htracker.symm, ?_, ?_, ?_⟩
    · by_cases hshort : s.currentVisibleLength + visibleWidth G token ≤ width
      · exact (visibleWidth_trimLine_le G _).trans (by simpa [hcurrent] using hshort)
      · have hblank : isBlank G token = true := by
          by_contra hword
          exact hlong ⟨by omega, by simpa using hword⟩
        rw [trimLine_append_blank G _ hblank]
        exact h.trimmed
    · simp [← hprevious]
    · intro hfull
      have hstart : s.currentVisibleLength = 0 := by
        by_contra hused
        exact hover ⟨hfull, Nat.pos_of_ne_zero hused⟩
      have hwide : width < visibleWidth G token := by
        simpa [hstart] using hfull
      refine ⟨pre, token, rfl, h.length.symm.trans hstart, ?_, hwide⟩
      by_contra hword
      exact hlong ⟨hwide, by simpa using hword⟩
    · rw [hoverhangs]
      exact hlines

theorem WrapInvariant.foldl {tokens : List (Text γ)}
    (hcells : ∀ token ∈ tokens, ∀ c ∈ token, c.width G ≤ width) :
    WrapInvariant G width (pre ++ tokens) (tokens.foldl (wrapToken G width) s) := by
  induction tokens generalizing pre s with
  | nil => rwa [append_nil]
  | cons token tokens ih =>
    have hstep := h.step G (hcells token mem_cons_self)
    have hrest := ih hstep fun token' h' => hcells token' (mem_cons_of_mem _ h')
    rwa [append_assoc, singleton_append] at hrest

end

theorem WrapInvariant.start : WrapInvariant G width [] wrapStart := by
  refine ⟨rfl, rfl, Nat.zero_le _, rfl, rfl, ?_, ?_⟩
  · exact fun hfull => absurd hfull (Nat.not_lt_zero _)
  · simp [wrapStart, Overhangs]

end Wrap

section Lines

variable {width : ℕ}

variable {text line styled : Text γ} {c : Cell γ}

theorem not_overhangs_of_fits (hline : visibleWidth G line ≤ width) :
    ¬Overhangs G width (splitIntoTokensWithAnsi line) := by
  rintro ⟨before, blank, word, after, htokens, ⟨-, -, hwide, -⟩, -⟩
  have hmem : blank ∈ splitIntoTokensWithAnsi line := by simp [htokens]
  have hle := visibleWidth_le_of_mem G hmem
  rw [splitIntoTokensWithAnsi_flatten] at hle
  omega

theorem wrapSingleLine_ne_nil (line : Text γ) (width : ℕ) : wrapSingleLine G line width ≠ [] := by
  unfold wrapSingleLine
  simp only
  generalize (splitIntoTokensWithAnsi line).foldl (wrapToken G width) wrapStart = s
  split_ifs <;> simp_all

theorem wrapSingleLine_spec (hcells : ∀ c ∈ line, c.width G ≤ width) :
    ((∀ l ∈ wrapSingleLine G line width, visibleWidth G l ≤ width) ↔
      ¬Overhangs G width (splitIntoTokensWithAnsi line)) ∧
    visible G (wrapSingleLine G line width).flatten = visible G line := by
  unfold wrapSingleLine
  by_cases hempty : line = []
  · rw [if_pos hempty, hempty]
    exact ⟨iff_of_true (by simp) (not_overhangs_of_fits G (Nat.zero_le _)), rfl⟩
  rw [if_neg hempty]
  by_cases hfits : visibleWidth G line ≤ width
  · rw [if_pos hfits]
    exact ⟨iff_of_true (by simpa using hfits) (not_overhangs_of_fits G hfits), by simp⟩
  rw [if_neg hfits]
  have hflatten := splitIntoTokensWithAnsi_flatten line
  have htokens : ∀ token ∈ splitIntoTokensWithAnsi line, ∀ c ∈ token, c.width G ≤ width :=
    fun token htoken c hc => hcells c (hflatten ▸ mem_flatten.mpr ⟨token, htoken, hc⟩)
  have hend := (WrapInvariant.start G).foldl G htokens
  rw [nil_append] at hend
  have hvisible := hend.visible
  have hlines := hend.lines
  have htrimmed := hend.trimmed
  rw [hflatten] at hvisible
  generalize (splitIntoTokensWithAnsi line).foldl (wrapToken G width) wrapStart = s
    at hvisible hlines htrimmed ⊢
  have hwrapped : ((∀ l ∈ (if s.currentLine = [] then s.wrapped
      else s.wrapped ++ [s.currentLine]), visibleWidth G (trimLine G l) ≤ width) ↔
        ¬Overhangs G width (splitIntoTokensWithAnsi line)) ∧
      visible G (if s.currentLine = [] then s.wrapped
        else s.wrapped ++ [s.currentLine]).flatten = visible G line := by
    split_ifs with hcurrent
    · rw [hcurrent, append_nil] at hvisible
      exact ⟨hlines, hvisible⟩
    · rw [← hlines]
      refine ⟨?_, by simpa using hvisible⟩
      simp [or_imp, forall_and, htrimmed]
  simp only
  generalize (if s.currentLine = [] then s.wrapped
    else s.wrapped ++ [s.currentLine]) = wrapped at hwrapped ⊢
  by_cases hnone : wrapped = []
  · subst hnone
    exact ⟨by simpa using hwrapped.1, hwrapped.2⟩
  · rw [if_neg hnone, visible_flatten_trimLine]
    refine ⟨?_, hwrapped.2⟩
    rw [← hwrapped.1]
    simp

theorem splitLines_cons (c : Cell γ) (text : Text γ) :
    (c = .newline ∧ splitLines (c :: text) = [] :: splitLines text) ∨
      ∃ line lines, splitLines text = line :: lines ∧ splitLines (c :: text) = (c :: line) :: lines
    := by
  induction text generalizing c with
  | nil =>
    cases c with
    | newline => exact .inl ⟨rfl, rfl⟩
    | _ => exact .inr ⟨[], [], rfl, rfl⟩
  | cons d text ih =>
    have hrest : ∃ line lines, splitLines (d :: text) = line :: lines := by
      obtain ⟨-, hd⟩ | ⟨line, lines, -, hd⟩ := ih d
      · exact ⟨_, _, hd⟩
      · exact ⟨_, _, hd⟩
    obtain ⟨line, lines, hd⟩ := hrest
    cases c with
    | newline => exact .inl ⟨rfl, rfl⟩
    | _ =>
      refine .inr ⟨line, lines, hd, ?_⟩
      unfold splitLines
      rw [hd]

theorem exists_splitLines (text : Text γ) : ∃ line lines, splitLines text = line :: lines := by
  cases text with
  | nil => exact ⟨[], [], rfl⟩
  | cons c text =>
    obtain ⟨-, hsplit⟩ | ⟨line, lines, -, hsplit⟩ := splitLines_cons c text
    · exact ⟨_, _, hsplit⟩
    · exact ⟨_, _, hsplit⟩

theorem visible_flatten_splitLines (text : Text γ) :
    visible G (splitLines text).flatten = visible G text := by
  induction text with
  | nil => rfl
  | cons c text ih =>
    have hcons : ∀ xs : Text γ, visible G (c :: xs) = visible G [c] ++ visible G xs :=
      fun xs => visible_append G [c] xs
    obtain ⟨rfl, hsplit⟩ | ⟨line, lines, hrest, hsplit⟩ := splitLines_cons c text
    · rw [hsplit, flatten_cons, nil_append, ih]
      rfl
    · rw [hsplit, flatten_cons, cons_append, hcons, hcons text, ← ih, hrest,
        flatten_cons]

theorem mem_of_mem_splitLines (hline : line ∈ splitLines text) (hc : c ∈ line) : c ∈ text := by
  induction text generalizing line with
  | nil =>
    rw [mem_singleton.mp hline] at hc
    exact hc
  | cons d text ih =>
    obtain ⟨-, hsplit⟩ | ⟨first, lines, hrest, hsplit⟩ := splitLines_cons d text
    · obtain rfl | hline := mem_cons.mp (hsplit ▸ hline)
      · cases hc
      · exact mem_cons_of_mem _ (ih hline hc)
    · obtain rfl | hline := mem_cons.mp (hsplit ▸ hline)
      · obtain rfl | hc := mem_cons.mp hc
        · exact mem_cons_self
        · exact mem_cons_of_mem _ (ih (hrest ▸ mem_cons_self) hc)
      · exact mem_cons_of_mem _ (ih (hrest ▸ mem_cons_of_mem _ hline) hc)

/-- The lines as they are wrapped: each begins with the codes that are active before it. -/
def styledLines : AnsiCodeTracker → List (Text γ) → List (Text γ)
  | _, [] => []
  | t, line :: lines =>
    (t.getActiveCodes ++ line) :: styledLines (updateTrackerFromText line t) lines

theorem foldl_wrapInputLine (lines : List (Text γ)) (result : List (Text γ))
    (t : AnsiCodeTracker) (hfirst : result = [] → t = .reset) :
    (lines.foldl (wrapInputLine G width) (result, t)).1 =
      result ++ (styledLines t lines).flatMap (wrapSingleLine G · width) := by
  induction lines generalizing result t with
  | nil => simp [styledLines]
  | cons line lines ih =>
    have hcodes : (if result = [] then [] else t.getActiveCodes : Text γ) =
        t.getActiveCodes := by
      split_ifs with hempty
      · rw [hfirst hempty]
        rfl
      · rfl
    rw [foldl_cons, wrapInputLine]
    simp only [hcodes]
    rw [ih _ _ fun hnil => absurd (append_eq_nil_iff.mp hnil).2 (wrapSingleLine_ne_nil G _ _)]
    simp [styledLines]

theorem visible_flatten_styledLines (t : AnsiCodeTracker) (lines : List (Text γ)) :
    visible G (styledLines t lines).flatten = visible G lines.flatten := by
  induction lines generalizing t with
  | nil => rfl
  | cons line lines ih => simp [styledLines, ih]

theorem mem_styledLines {t : AnsiCodeTracker} {lines : List (Text γ)}
    (h : styled ∈ styledLines t lines) :
    ∃ u : AnsiCodeTracker, ∃ line ∈ lines, styled = u.getActiveCodes ++ line := by
  induction lines generalizing t with
  | nil => cases h
  | cons line lines ih =>
    obtain rfl | hrest := mem_cons.mp h
    · exact ⟨t, line, mem_cons_self, rfl⟩
    · obtain ⟨u, line', hmem, hstyled⟩ := ih hrest
      exact ⟨u, line', mem_cons_of_mem _ hmem, hstyled⟩

theorem visible_flatMap {lines : List (Text γ)} {f : Text γ → List (Text γ)}
    (hf : ∀ line ∈ lines, visible G (f line).flatten = visible G line) :
    visible G (lines.flatMap f).flatten = visible G lines.flatten := by
  induction lines with
  | nil => rfl
  | cons line lines ih =>
    rw [flatMap_cons, flatten_append, visible_append, hf line mem_cons_self,
      ih fun l hl => hf l (mem_cons_of_mem _ hl), flatten_cons, visible_append]

theorem width_getActiveCodes (t : AnsiCodeTracker) (hc : c ∈ t.getActiveCodes) : c.width G = 0 := by
  unfold AnsiCodeTracker.getActiveCodes at hc
  split_ifs at hc
  · cases hc
  · rw [mem_singleton.mp hc]
    rfl

theorem wrapTextWithAnsi_eq (text : Text γ) (width : ℕ) :
    wrapTextWithAnsi G text width =
      (styledLines .reset (splitLines text)).flatMap (wrapSingleLine G · width) := by
  unfold wrapTextWithAnsi
  by_cases hempty : text = []
  · rw [if_pos hempty, hempty]
    rfl
  · rw [if_neg hempty, foldl_wrapInputLine G _ _ _ fun _ => rfl, nil_append]
    refine if_neg fun hnone => ?_
    obtain ⟨line, lines, hlines⟩ := exists_splitLines text
    rw [hlines, styledLines, flatMap_cons, append_eq_nil_iff] at hnone
    exact wrapSingleLine_ne_nil G _ _ hnone.1

theorem width_le_of_mem_styledLines (hwidth : 3 ≤ width)
    (hgraphemes : ∀ g, Cell.grapheme g ∈ text → G.graphemeWidth g ≤ 2)
    (hstyled : styled ∈ styledLines .reset (splitLines text)) : ∀ c ∈ styled, c.width G ≤ width := by
  intro c hc
  obtain ⟨t, line, hline, rfl⟩ := mem_styledLines hstyled
  obtain hc | hc := mem_append.mp hc
  · exact (width_getActiveCodes G t hc).trans_le (Nat.zero_le _)
  · have htext := mem_of_mem_splitLines hline hc
    cases c with
    | grapheme g => exact (hgraphemes g htext).trans (by omega)
    | _ => simp only [Cell.width]; omega

theorem visible_wrapTextWithAnsi (hwidth : 3 ≤ width)
    (hgraphemes : ∀ g, Cell.grapheme g ∈ text → G.graphemeWidth g ≤ 2) :
    visible G (wrapTextWithAnsi G text width).flatten = visible G text := by
  have hcells : ∀ styled ∈ styledLines .reset (splitLines text), ∀ c ∈ styled, c.width G ≤ width :=
    fun styled hstyled => width_le_of_mem_styledLines G hwidth hgraphemes hstyled
  rw [wrapTextWithAnsi_eq, visible_flatMap G fun line hline =>
    (wrapSingleLine_spec G (hcells line hline)).2, visible_flatten_styledLines,
    visible_flatten_splitLines]

/-- Wrapping keeps the text, and the lines fit just when no styled line of it overhangs. -/
theorem wrapTextWithAnsi_fits_iff (text : Text γ) (width : ℕ) (hwidth : 3 ≤ width)
    (hgraphemes : ∀ g, Cell.grapheme g ∈ text → G.graphemeWidth g ≤ 2) :
    ((∀ line ∈ wrapTextWithAnsi G text width, visibleWidth G line ≤ width) ∧
      visible G (wrapTextWithAnsi G text width).flatten = visible G text) ↔
    ∀ line ∈ styledLines .reset (splitLines text),
      ¬Overhangs G width (splitIntoTokensWithAnsi line) := by
  rw [and_iff_left (visible_wrapTextWithAnsi G hwidth hgraphemes), wrapTextWithAnsi_eq]
  have hspec : ∀ styled ∈ styledLines .reset (splitLines text),
      (∀ l ∈ wrapSingleLine G styled width, visibleWidth G l ≤ width) ↔
        ¬Overhangs G width (splitIntoTokensWithAnsi styled) := by
    intro styled hstyled
    have hcells := width_le_of_mem_styledLines G hwidth hgraphemes hstyled
    exact (wrapSingleLine_spec G hcells).1
  simp only [mem_flatMap, forall_exists_index, and_imp]
  constructor
  · exact fun h styled hstyled => (hspec styled hstyled).mp fun l hl => h l styled hstyled hl
  · exact fun h l styled hstyled hl => (hspec styled hstyled).mpr (h styled hstyled) l hl

def letters : Graphemes Char := { graphemeWidth := fun _ => 1, isWhitespace := fun _ => false }

/-- An underlined word, spaces that are dropped, four tabs, and spaces with a code in them. -/
def tabbedText : Text Char :=
  .code (.sgr ["4"]) :: [.grapheme 'a', .grapheme 'b'] ++ List.replicate 10 .space ++
    List.replicate 4 .tab ++ List.replicate 6 .space ++ .code (.sgr ["31"]) ::
    List.replicate 6 .space

def twoWords : Text Char :=
  [.grapheme 'a', .grapheme 'b', .space, .grapheme 'c', .grapheme 'd']

theorem wrapTextWithAnsi_fits_iff_twoWords :
    (∀ line ∈ wrapTextWithAnsi letters twoWords 3, visibleWidth letters line ≤ 3) ∧
      visible letters (wrapTextWithAnsi letters twoWords 3).flatten = visible letters twoWords := by
  refine (wrapTextWithAnsi_fits_iff letters twoWords 3 (le_refl 3) fun g _ => Nat.le_succ 1).mpr ?_
  rintro line hline ⟨before, blank, word, after, htokens, ⟨-, -, hwide, -⟩, -⟩
  have hshort : ∀ line ∈ styledLines .reset (splitLines twoWords),
      ∀ token ∈ splitIntoTokensWithAnsi line, visibleWidth letters token ≤ 3 := by
    decide
  have hblank := hshort line hline blank (by simp [htokens])
  omega

/-- The tabs stay on a line of ten columns, since the code that ends the underline follows them. -/
theorem tabbedText_overflows :
    ¬∀ line ∈ wrapTextWithAnsi letters tabbedText 10, visibleWidth letters line ≤ 10 := by
  decide +kernel

end Lines

end Draht.AnsiText
