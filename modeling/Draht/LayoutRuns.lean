import Draht.WrapLayout

/-!
# What a line begins with

Lines that are pushed stay, and a line begins with what it has begun with, unless that is whitespace
and nothing else is put on the line.
-/

namespace Draht.AnsiText
open List

variable {γ : Type} (G : Graphemes γ)

def shownLine (line : Text γ) : Text γ := strip (trimLine G line)

def wrappedLines (s : WrapState γ) : List (Text γ) :=
  if s.currentLine = [] then s.wrapped else s.wrapped ++ [s.currentLine]

/-- The text begins with the cell, or the cell was whitespace and has been trimmed. -/
def Begins (c : Cell γ) (text : Text γ) : Prop :=
  text.head? = some c ∨ text = [] ∧ c.isWhitespace G = true

section Runs

variable {G} {width : ℕ} {s : WrapState γ} {c : Cell γ}

theorem begins_shownLine {line : Text γ} (h : (strip line).head? = some c) :
    Begins G c (shownLine G line) := by
  obtain ⟨blank, hblank, hline⟩ := exists_trimLine G line
  rw [hline, strip_append, strip_of_isBlank hblank, ← shownLine] at h
  cases hshown : shownLine G line with
  | nil =>
    rw [hshown, nil_append] at h
    exact .inr ⟨rfl, all_eq_true.mp hblank c (mem_of_mem_head? h)⟩
  | cons d rest =>
    rw [hshown] at h
    exact .inl h

theorem shownLine_trimLine_append (line : Text γ) (t : AnsiCodeTracker) :
    shownLine G (trimLine G line ++ t.getLineEndReset) = shownLine G line := by
  rw [shownLine, AnsiCodeTracker.getLineEndReset]
  split_ifs
  · rw [trimLine_append_code, strip_append]
    exact append_nil _
  · rw [append_nil, trimLine_trimLine, shownLine]

theorem wrapToken_wrapped (width : ℕ) (s : WrapState γ) (token : Text γ) :
    ∃ lines, (wrapToken G width s token).wrapped = s.wrapped ++ lines := by
  by_cases hbreaks : Breaks G width token
  · rw [wrapToken_breaks hbreaks, wrapLongToken]
    split_ifs
    · exact ⟨_, rfl⟩
    · exact ⟨_, append_assoc _ _ _⟩
  by_cases hover : Overflows G width s token
  · cases hblank : isBlank G token with
    | true =>
      rw [wrapToken_drops hbreaks hover hblank]
      exact ⟨_, rfl⟩
    | false =>
      rw [wrapToken_begins hbreaks hover hblank]
      exact ⟨_, rfl⟩
  · rw [wrapToken_extends hbreaks hover]
    exact ⟨[], (append_nil _).symm⟩

theorem wrappedLines_foldl (width : ℕ) (tokens : List (Text γ)) (s : WrapState γ) :
    ∃ lines, wrappedLines (tokens.foldl (wrapToken G width) s) = s.wrapped ++ lines := by
  induction tokens generalizing s with
  | nil =>
    rw [foldl_nil, wrappedLines]
    split_ifs
    · exact ⟨[], (append_nil _).symm⟩
    · exact ⟨_, rfl⟩
  | cons token tokens ih =>
    obtain ⟨lines, hlines⟩ := ih (wrapToken G width s token)
    obtain ⟨pushed, hpushed⟩ := wrapToken_wrapped (G := G) width s token
    exact ⟨pushed ++ lines, by rw [foldl_cons, hlines, hpushed, append_assoc]⟩

theorem begins_pushed (h : (strip s.currentLine).head? = some c) (width : ℕ) (token : Text γ) :
    (∃ line lines, (wrapToken G width s token).wrapped = s.wrapped ++ line :: lines ∧
      Begins G c (shownLine G line)) ∨
    (wrapToken G width s token).wrapped = s.wrapped ∧
      (strip (wrapToken G width s token).currentLine).head? = some c := by
  by_cases hbreaks : Breaks G width token
  · have hline : s.currentLine ≠ [] := by
      intro hnil
      rw [hnil] at h
      cases h
    rw [wrapToken_breaks hbreaks, wrapLongToken, if_neg hline]
    refine .inl ⟨_, _, append_assoc _ _ _, begins_shownLine ?_⟩
    rwa [strip_append, strip_getLineEndReset, append_nil]
  have hpushed : Begins G c
      (shownLine G (trimLine G s.currentLine ++ s.tracker.getLineEndReset)) := by
    rw [shownLine_trimLine_append]
    exact begins_shownLine h
  by_cases hover : Overflows G width s token
  · cases hblank : isBlank G token with
    | true =>
      rw [wrapToken_drops hbreaks hover hblank]
      exact .inl ⟨_, [], rfl, hpushed⟩
    | false =>
      rw [wrapToken_begins hbreaks hover hblank]
      exact .inl ⟨_, [], rfl, hpushed⟩
  · rw [wrapToken_extends hbreaks hover]
    refine .inr ⟨rfl, ?_⟩
    rw [strip_append, head?_append, h, Option.some_or]

theorem wrappedLines_begins (h : (strip s.currentLine).head? = some c) (width : ℕ)
    (tokens : List (Text γ)) :
    ∃ line lines, wrappedLines (tokens.foldl (wrapToken G width) s) = s.wrapped ++ line :: lines ∧
      Begins G c (shownLine G line) := by
  induction tokens generalizing s with
  | nil =>
    have hline : s.currentLine ≠ [] := by
      intro hnil
      rw [hnil] at h
      cases h
    rw [foldl_nil, wrappedLines, if_neg hline]
    exact ⟨_, [], rfl, begins_shownLine h⟩
  | cons token tokens ih =>
    rw [foldl_cons]
    rcases begins_pushed (G := G) h width token with
      ⟨line, lines, hwrapped, hbegins⟩ | ⟨hwrapped, hcurrent⟩
    · obtain ⟨rest, hrest⟩ := wrappedLines_foldl (G := G) width tokens
        (wrapToken G width s token)
      exact ⟨line, lines ++ rest, by rw [hrest, hwrapped, append_assoc, cons_append], hbegins⟩
    · obtain ⟨line, lines, hlines, hbegins⟩ := ih hcurrent
      exact ⟨line, lines, by rw [hlines, hwrapped], hbegins⟩

end Runs

/-- The lines make up the word, and none that was pushed is empty. -/
structure BreakCells (done : Text γ) (s : BreakState γ) : Prop where
  text : ((s.lines ++ [s.currentLine]).map strip).flatten = strip done
  filled : ∀ line ∈ s.lines, strip line ≠ []

section Words

variable {G} {width : ℕ} {tracker : AnsiCodeTracker} {done : Text γ} {s : BreakState γ}

theorem BreakCells.step (h : BreakCells done s) (hinv : BreakInvariant G width tracker done s)
    {c : Cell γ} (hc : c.width G ≤ width) : BreakCells (done ++ [c]) (breakStep G width s c) := by
  have htext := h.text
  have hfilled : width < s.currentWidth + c.width G →
      strip (s.currentLine ++ s.tracker.getLineEndReset) ≠ [] := by
    intro hover hnone
    have hwidth := visibleWidth_strip (G := G) s.currentLine
    rw [strip_append, strip_getLineEndReset, append_nil] at hnone
    rw [hnone, hinv.length, visibleWidth_nil] at hwidth
    omega
  cases c with
  | code code =>
    refine ⟨?_, h.filled⟩
    simp [breakStep, ← htext]
  | _ =>
    simp only [breakStep, gt_iff_lt]
    split_ifs with hover
    · refine ⟨by simp [← htext], fun line hline => ?_⟩
      obtain hline | hline := mem_append.mp hline
      · exact h.filled line hline
      · rw [mem_singleton.mp hline]
        exact hfilled hover
    · exact ⟨by simp [← htext], h.filled⟩

theorem BreakCells.foldl (h : BreakCells done s) (hinv : BreakInvariant G width tracker done s)
    {word : Text γ} (hword : ∀ c ∈ word, c.width G ≤ width) :
    BreakCells (done ++ word) (word.foldl (breakStep G width) s) := by
  induction word generalizing done s with
  | nil => rwa [append_nil]
  | cons c word ih =>
    have hc := hword c mem_cons_self
    have hrest := ih (h.step hinv hc) (hinv.step G hc) fun d hd => hword d (mem_cons_of_mem _ hd)
    rwa [append_assoc, singleton_append] at hrest

theorem breakLongWord_cells {word : Text γ} (hword : ∀ c ∈ word, c.width G ≤ width)
    (hwide : width < visibleWidth G word) (tracker : AnsiCodeTracker) :
    ∃ first lines last tracker',
      breakLongWord G word width tracker = (first :: lines ++ [last], tracker') ∧
      (∀ line ∈ first :: lines ++ [last], strip line ≠ []) ∧
      ((first :: lines ++ [last]).map strip).flatten = strip word := by
  have hstart : BreakInvariant G width tracker [] (breakStart tracker) :=
    ⟨by simp [breakStart], by simp [breakStart], Nat.zero_le _, by simp [breakStart], rfl, by simp⟩
  have hcells : BreakCells [] (breakStart tracker : BreakState γ) :=
    ⟨by simp [breakStart], by simp [breakStart]⟩
  have hend := hcells.foldl hstart hword
  have hinv := hstart.foldl G hword
  have hsame := (sameBreaks_start (G := G) tracker).foldl width word
  rw [nil_append] at hend hinv hsame
  unfold breakLongWord
  rw [← breakStart]
  generalize word.foldl (breakStep G width) _ = s at hend hinv hsame ⊢
  have hlast : strip s.currentLine ≠ [] := hsame.begun (by omega)
  have hline : s.currentLine ≠ [] := by
    intro hnil
    rw [hnil] at hlast
    exact hlast rfl
  have htext := hend.text
  cases hlines : s.lines with
  | nil =>
    have hwidth : visibleWidth G (strip s.currentLine) = visibleWidth G (strip word) := by
      rw [← htext, hlines]
      simp
    rw [visibleWidth_strip, visibleWidth_strip, hinv.length] at hwidth
    have hfits := hinv.fits
    omega
  | cons first lines =>
    refine ⟨first, lines, s.currentLine, s.tracker, by simp [hline, hlines], fun line h => ?_, ?_⟩
    · obtain h | h := mem_append.mp h
      · exact hend.filled line (hlines ▸ h)
      · rwa [mem_singleton.mp h]
    · rwa [hlines] at htext

end Words

end Draht.AnsiText
