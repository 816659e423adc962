import Draht.SimpleText

/-!
# Styles add lines

A text of words and spaces never takes fewer lines with style codes than without them: as the
tokens go by, the line that is filled is never ahead of the one that is filled with the codes.
-/

namespace Draht.AnsiText
open List

variable {γ : Type} {G : Graphemes γ} {width : ℕ}

theorem visibleWidth_pos {text : Text γ} (hcells : ∀ c ∈ strip text, 0 < c.width G)
    (hne : strip text ≠ []) : 0 < visibleWidth G text := by
  obtain ⟨c, rest, hstrip⟩ := exists_cons_of_ne_nil hne
  rw [← visibleWidth_strip, hstrip, visibleWidth]
  exact Nat.add_pos_left (hcells c (hstrip ▸ mem_cons_self)) _

/-- The loop over the tokens with style codes is not behind the one without them. -/
structure Ahead (styled plain : WrapState γ) : Prop where
  position : plain.wrapped.length < styled.wrapped.length ∨
    plain.wrapped.length = styled.wrapped.length ∧
      plain.currentVisibleLength ≤ styled.currentVisibleLength
  plainLine : plain.currentLine ≠ [] → 0 < plain.currentVisibleLength
  styledLine : 0 < styled.currentVisibleLength → styled.currentLine ≠ []
  tracker : plain.tracker = .reset

section Steps

variable {styled plain s : WrapState γ} {token : Text γ}

theorem wrapToken_position (hbreaks : ¬Breaks G width token) (s : WrapState γ) :
    (Overflows G width s token ∧
      (wrapToken G width s token).wrapped.length = s.wrapped.length + 1 ∧
      (wrapToken G width s token).currentVisibleLength =
        if isBlank G token = true then 0 else visibleWidth G token) ∨
    (¬Overflows G width s token ∧
      (wrapToken G width s token).wrapped.length = s.wrapped.length ∧
      (wrapToken G width s token).currentVisibleLength =
        s.currentVisibleLength + visibleWidth G token) := by
  by_cases hover : Overflows G width s token
  · refine .inl ⟨hover, ?_⟩
    cases hblank : isBlank G token with
    | true =>
      rw [wrapToken_drops hbreaks hover hblank]
      exact ⟨length_append, rfl⟩
    | false =>
      rw [wrapToken_begins hbreaks hover hblank]
      exact ⟨length_append, rfl⟩
  · rw [wrapToken_extends hbreaks hover]
    exact .inr ⟨hover, rfl, rfl⟩

theorem wrapToken_styledLine (hne : token ≠ []) (hbreaks : ¬Breaks G width token)
    (hlength : 0 < (wrapToken G width s token).currentVisibleLength) :
    (wrapToken G width s token).currentLine ≠ [] := by
  by_cases hover : Overflows G width s token
  · cases hblank : isBlank G token with
    | true =>
      rw [wrapToken_drops hbreaks hover hblank] at hlength
      exact absurd hlength (Nat.lt_irrefl 0)
    | false =>
      rw [wrapToken_begins hbreaks hover hblank]
      exact append_ne_nil_of_right_ne_nil _ hne
  · rw [wrapToken_extends hbreaks hover]
    exact append_ne_nil_of_right_ne_nil _ hne

theorem wrapToken_tracker (hbreaks : ¬Breaks G width token) :
    (wrapToken G width s token).tracker = updateTrackerFromText token s.tracker := by
  unfold Breaks at hbreaks
  rw [wrapToken, if_neg hbreaks]
  simp only
  split_ifs <;> rfl

theorem Ahead.step_long (h : Ahead styled plain) (hcells : ∀ c ∈ token, c.Simple G width)
    (hbreaks : Breaks G width token) :
    Ahead (wrapLongToken G width styled token) (wrapLongToken G width plain (strip token)) := by
  obtain ⟨lines, last, tracker', hstyled, hplain, -⟩ :=
    breakLongWord_same (G := G) ((Nat.zero_le _).trans_lt hbreaks.1) width styled.tracker
  obtain ⟨first, lines', last', t', hbroken, hne, hflatten⟩ := breakLongWord_cells
    (fun c hc => (hcells c hc).width_le) hbreaks.1 styled.tracker
  rw [hstyled] at hbroken
  have hlines := (Prod.mk.inj hbroken).1
  rw [← hlines] at hne hflatten
  have hlast : strip last ≠ [] := hne last (by simp)
  have hpos : 0 < visibleWidth G last := by
    refine visibleWidth_pos (fun c hc => ?_) hlast
    have hmem : c ∈ strip token := by
      rw [← hflatten, mem_flatten]
      exact ⟨_, mem_map_of_mem (mem_append_right _ (mem_singleton_self _)), hc⟩
    obtain ⟨hmem, hstyle⟩ := mem_strip.mp hmem
    exact (hcells c hmem).width_pos hstyle
  have hposition := h.position
  have hpushed : plain.wrapped.length = styled.wrapped.length → plain.currentLine ≠ [] →
      styled.currentLine ≠ [] := fun hlength hline =>
    h.styledLine (by have := h.plainLine hline; omega)
  simp only [wrapLongToken, h.tracker, hstyled, hplain, getLast?_concat,
    dropLast_concat, Option.getD_some]
  refine ⟨?_, fun _ => ?_, fun _ => ne_nil_of_strip hlast, rfl⟩
  · simp only [visibleWidth_strip, le_refl, and_true]
    split_ifs with hnil hnil' hnil'
    all_goals simp only [length_append, length_map, length_singleton]
    · omega
    · omega
    · obtain hlt | ⟨heq, -⟩ := hposition
      · omega
      · exact absurd hnil' (hpushed heq hnil)
    · omega
  · rwa [visibleWidth_strip]

theorem wrapLongToken_length (hcells : ∀ c ∈ token, c.width G ≤ width)
    (hbreaks : Breaks G width token) (s : WrapState γ) :
    s.wrapped.length < (wrapLongToken G width s token).wrapped.length ∧
      (wrapLongToken G width s token).currentLine ≠ [] := by
  obtain ⟨first, lines, last, tracker', hbroken, hne, -⟩ :=
    breakLongWord_cells hcells hbreaks.1 s.tracker
  simp only [wrapLongToken, hbroken, getLast?_concat, dropLast_concat, Option.getD_some]
  refine ⟨?_, ne_nil_of_strip (hne last (by simp))⟩
  split_ifs
  all_goals
    simp only [length_append, length_cons]
    omega

theorem wrapToken_plainLine (htracker : s.tracker = .reset) (hpos : 0 < visibleWidth G token)
    (hbreaks : ¬Breaks G width token) (hline : (wrapToken G width s token).currentLine ≠ []) :
    0 < (wrapToken G width s token).currentVisibleLength := by
  by_cases hover : Overflows G width s token
  · cases hblank : isBlank G token with
    | true =>
      rw [wrapToken_drops hbreaks hover hblank, htracker] at hline
      exact absurd rfl hline
    | false =>
      rw [wrapToken_begins hbreaks hover hblank]
      exact hpos
  · rw [wrapToken_extends hbreaks hover]
    exact Nat.add_pos_right _ hpos

theorem Ahead.step (h : Ahead styled plain) (hcells : ∀ c ∈ token, c.Simple G width)
    (hne : strip token ≠ []) :
    Ahead (wrapToken G width styled token) (wrapToken G width plain (strip token)) := by
  have hpos : 0 < visibleWidth G token := by
    refine visibleWidth_pos (fun c hc => ?_) hne
    obtain ⟨hmem, hstyle⟩ := mem_strip.mp hc
    exact (hcells c hmem).width_pos hstyle
  have hpos' : 0 < visibleWidth G (strip token) := by rwa [visibleWidth_strip]
  have hblank : isBlank G token = true → isBlank G (strip token) = true := by
    intro hblank
    rwa [strip_of_isBlank hblank]
  have hposition := h.position
  by_cases hbreaks' : Breaks G width (strip token)
  · have hbreaks : Breaks G width token := by
      refine ⟨?_, Bool.eq_false_iff.mpr fun hspace => ?_⟩
      · rw [← visibleWidth_strip]
        exact hbreaks'.1
      · exact Bool.false_ne_true (hbreaks'.2.symm.trans (hblank hspace))
    rw [wrapToken_breaks hbreaks, wrapToken_breaks hbreaks']
    exact h.step_long hcells hbreaks
  have htracker : (wrapToken G width plain (strip token)).tracker = .reset := by
    rw [wrapToken_tracker hbreaks', h.tracker, updateTrackerFromText_strip]
  have hplain := wrapToken_position hbreaks' plain
  by_cases hbreaks : Breaks G width token
  · -- the spaces are dropped without the code, and broken with it
    obtain ⟨hlength, hline⟩ :=
      wrapLongToken_length (fun c hc => (hcells c hc).width_le) hbreaks styled
    have hspace : isBlank G (strip token) = true := by
      by_contra hword
      exact hbreaks' ⟨by rw [visibleWidth_strip]; exact hbreaks.1, by simpa using hword⟩
    rw [if_pos hspace] at hplain
    rw [wrapToken_breaks hbreaks]
    refine ⟨?_, wrapToken_plainLine h.tracker hpos' hbreaks', fun _ => hline, htracker⟩
    omega
  · have hstyled := wrapToken_position hbreaks styled
    refine ⟨?_, wrapToken_plainLine h.tracker hpos' hbreaks',
      wrapToken_styledLine (ne_nil_of_strip hne) hbreaks, htracker⟩
    unfold Overflows at hplain hstyled
    rw [visibleWidth_strip] at hplain
    split_ifs at hplain hstyled with hspace' hspace hspace
    all_goals first | omega | exact absurd (hblank hspace) hspace'

theorem Ahead.foldl {tokens : List (Text γ)} (h : Ahead styled plain)
    (hcells : ∀ token ∈ tokens, ∀ c ∈ token, c.Simple G width)
    (hne : ∀ token ∈ tokens, strip token ≠ []) :
    Ahead (tokens.foldl (wrapToken G width) styled)
      ((tokens.map strip).foldl (wrapToken G width) plain) := by
  induction tokens generalizing styled plain with
  | nil => exact h
  | cons token tokens ih =>
    exact ih (h.step (hcells token mem_cons_self) (hne token mem_cons_self))
      (fun next hnext => hcells next (mem_cons_of_mem _ hnext))
      fun next hnext => hne next (mem_cons_of_mem _ hnext)

theorem Ahead.length_wrappedLines (h : Ahead styled plain) :
    (wrappedLines plain).length ≤ (wrappedLines styled).length := by
  have hposition := h.position
  have hplain := h.plainLine
  have hstyled := h.styledLine
  unfold wrappedLines
  split_ifs with hnil hnil' hnil'
  · omega
  · rw [length_append]
    omega
  · have hpos := hplain hnil
    rw [length_append, length_singleton]
    by_contra hlt
    exact hstyled (by omega) hnil'
  · rw [length_append, length_append, length_singleton, length_singleton]
    omega

end Steps

section Lines

variable {line : Text γ}

theorem wrapSingleLine_wide (hwide : width < visibleWidth G line) :
    wrapSingleLine G line width =
      let lines := wrappedLines ((splitIntoTokensWithAnsi line).foldl (wrapToken G width) wrapStart)
      if lines = [] then [[]] else lines.map (trimLine G) := by
  have hne : line ≠ [] := by
    rintro rfl
    exact absurd hwide (Nat.not_lt_zero _)
  rw [wrapSingleLine, if_neg hne, if_neg (Nat.not_le.mpr hwide)]
  rfl

theorem length_wrapSingleLine_strip (hline : ∀ c ∈ line, c.Simple G width) :
    (wrapSingleLine G (strip line) width).length ≤ (wrapSingleLine G line width).length := by
  by_cases hfits : visibleWidth G line ≤ width
  · unfold wrapSingleLine
    rw [visibleWidth_strip]
    split_ifs <;> exact le_refl 1
  have hwide : width < visibleWidth G line := Nat.not_le.mp hfits
  have hturn := inTurn_splitIntoTokensWithAnsi hline ((Nat.zero_le _).trans_lt hwide)
  have hstart : Ahead (wrapStart : WrapState γ) wrapStart :=
    ⟨.inr ⟨rfl, le_refl 0⟩, fun h => absurd rfl h, fun h => absurd h (Nat.lt_irrefl 0), rfl⟩
  have hend := (hstart.foldl hturn.cells fun token htoken =>
    (hturn.kinds token htoken).elim (fun h => h.1) fun h => h.1).length_wrappedLines
  rw [wrapSingleLine_wide hwide, wrapSingleLine_wide (by rwa [visibleWidth_strip]),
    splitIntoTokensWithAnsi_strip ((Nat.zero_le _).trans_lt hwide)]
  simp only
  split_ifs with hplain hstyled hstyled
  all_goals simp only [length_map, length_singleton]
  · exact le_refl 1
  · exact length_pos_iff.mpr hstyled
  · rw [hstyled] at hend
    exact hend.trans (Nat.zero_le _)
  · exact hend

end Lines

end Draht.AnsiText
