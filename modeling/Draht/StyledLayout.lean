import Mathlib.Algebra.Order.BigOperators.Group.List
import Mathlib.Algebra.Order.Group.Nat
import Draht.LineCounts

/-!
# When styles change the layout

In a text of words and spaces every style code that stands where the loop asks for whitespace, for
an empty line or for the end of a line is seen in the lines.
-/

namespace Draht.AnsiText
open List

variable {γ : Type} {G : Graphemes γ} {width : ℕ}

/-- The next word begins line `m`. -/
def EndsAt (width m : ℕ) (s : WrapState γ) : Prop :=
  s.wrapped.length = m ∧ s.currentLine = [] ∧ s.currentVisibleLength = 0 ∨
    s.wrapped.length + 1 = m ∧ s.currentLine ≠ [] ∧ width < s.currentVisibleLength

/-- Line `m` begins with the cell. -/
def BeginsLine (G : Graphemes γ) (m : ℕ) (c : Cell γ) (lines : List (Text γ)) : Prop :=
  ∃ before line after, lines = before ++ line :: after ∧ before.length = m ∧
    Begins G c (shownLine G line)

section Lines

variable {s : WrapState γ} {token : Text γ} {tokens : List (Text γ)} {m : ℕ}

theorem EndsAt.length_wrappedLines (h : EndsAt width m s) : (wrappedLines s).length = m := by
  unfold wrappedLines
  obtain ⟨hlength, hcurrent, -⟩ | ⟨hlength, hcurrent, -⟩ := h
  · rwa [if_pos hcurrent]
  · rwa [if_neg hcurrent, length_append, length_singleton]

theorem wrappedLines_breaks (hcells : ∀ c ∈ token, c.width G ≤ width)
    (hbreaks : Breaks G width token) (s : WrapState γ) (tokens : List (Text γ)) :
    ∃ first second after,
      wrappedLines ((token :: tokens).foldl (wrapToken G width) s) =
        (if s.currentLine = [] then s.wrapped
          else s.wrapped ++ [s.currentLine ++ s.tracker.getLineEndReset]) ++
            first :: second :: after ∧
      (∃ c ∈ strip token, Begins G c (shownLine G first)) ∧
      ∃ c ∈ strip token, Begins G c (shownLine G second) := by
  obtain ⟨first, lines, last, tracker', hbroken, hne, hflatten⟩ :=
    breakLongWord_cells hcells hbreaks.1 s.tracker
  have hbegins : ∀ line ∈ first :: lines ++ [last],
      ∃ c ∈ strip token, (strip line).head? = some c := by
    intro line hline
    obtain ⟨c, rest, hstrip⟩ := exists_cons_of_ne_nil (hne line hline)
    refine ⟨c, ?_, by rw [hstrip, head?_cons]⟩
    rw [← hflatten, mem_flatten]
    exact ⟨_, mem_map_of_mem hline, hstrip ▸ mem_cons_self⟩
  obtain ⟨c, hc, hlast⟩ := hbegins last (by simp)
  obtain ⟨d, hd, hfirst⟩ := hbegins first (by simp)
  rw [foldl_cons, wrapToken_breaks hbreaks, wrapLongToken]
  simp only [hbroken, getLast?_concat, dropLast_concat, Option.getD_some]
  obtain ⟨line, after, hlines, hline⟩ := wrappedLines_begins (G := G) (s := {
      wrapped := (if s.currentLine = [] then s.wrapped
        else s.wrapped ++ [s.currentLine ++ s.tracker.getLineEndReset]) ++ first :: lines
      currentLine := last, currentVisibleLength := visibleWidth G last
      tracker := tracker' }) hlast width tokens
  rw [hlines, append_assoc, cons_append]
  cases lines with
  | nil => exact ⟨first, line, after, rfl, ⟨d, hd, begins_shownLine hfirst⟩, c, hc, hline⟩
  | cons second lines =>
    obtain ⟨e, he, hsecond⟩ := hbegins second (by simp)
    exact ⟨first, second, lines ++ line :: after, rfl, ⟨d, hd, begins_shownLine hfirst⟩, e, he,
      begins_shownLine hsecond⟩

theorem IsWord.beginsLine (hword : IsWord G token) (hcells : ∀ c ∈ token, c.width G ≤ width)
    (hend : EndsAt width m s) (tokens : List (Text γ)) :
    ∃ c : Cell γ, c.isWhitespace G = false ∧
      BeginsLine G m c (wrappedLines ((token :: tokens).foldl (wrapToken G width) s)) := by
  by_cases hbreaks : Breaks G width token
  · obtain ⟨first, second, after, hlines, ⟨c, hc, hfirst⟩, -⟩ :=
      wrappedLines_breaks hcells hbreaks s tokens
    refine ⟨c, hword.2 c hc, _, first, second :: after, hlines, ?_, hfirst⟩
    obtain ⟨hlength, hcurrent, -⟩ | ⟨hlength, hcurrent, -⟩ := hend
    · rw [if_pos hcurrent, hlength]
    · rw [if_neg hcurrent, length_append, length_singleton, hlength]
  obtain ⟨c, hc, hhead⟩ := hword.head?
  refine ⟨c, hc, ?_⟩
  rw [foldl_cons]
  obtain ⟨hlength, hcurrent, hzero⟩ | ⟨hlength, hcurrent, hfull⟩ := hend
  · have hover : ¬Overflows G width s token := fun hover => absurd hzero hover.2.ne'
    rw [wrapToken_extends hbreaks hover]
    obtain ⟨line, after, hlines, hline⟩ := wrappedLines_begins (G := G) (s := {
        wrapped := s.wrapped, currentLine := s.currentLine ++ token
        currentVisibleLength := s.currentVisibleLength + visibleWidth G token
        tracker := updateTrackerFromText token s.tracker })
      (by rwa [hcurrent, nil_append]) width tokens
    exact ⟨s.wrapped, line, after, hlines, hlength, hline⟩
  · have hover : Overflows G width s token := ⟨by omega, by omega⟩
    rw [wrapToken_begins hbreaks hover hword.isBlank]
    obtain ⟨line, after, hlines, hline⟩ := wrappedLines_begins (G := G) (s := {
        wrapped := s.wrapped ++ [trimLine G s.currentLine ++ s.tracker.getLineEndReset]
        currentLine := s.tracker.getActiveCodes ++ token
        currentVisibleLength := visibleWidth G token
        tracker := updateTrackerFromText token s.tracker })
      (by rwa [strip_append, strip_getActiveCodes]) width tokens
    refine ⟨_, line, after, hlines, ?_, hline⟩
    rwa [length_append, length_singleton]

theorem endsAt_spaces (htracker : s.tracker = .reset) (hne : token ≠ [])
    (hblank : isBlank G token = true)
    (hwide : width < visibleWidth G token ∨ Overflows G width s token) :
    EndsAt width (s.wrapped.length + 1) (wrapToken G width s token) := by
  have hbreaks : ¬Breaks G width token :=
    fun hbreaks => Bool.false_ne_true (hbreaks.2.symm.trans hblank)
  by_cases hover : Overflows G width s token
  · rw [wrapToken_drops hbreaks hover hblank, htracker]
    exact .inl ⟨by simp, rfl, rfl⟩
  · rw [wrapToken_extends hbreaks hover]
    have hfull := hwide.resolve_right hover
    exact .inr ⟨rfl, append_ne_nil_of_right_ne_nil _ hne, Nat.lt_add_left _ hfull⟩

theorem Spaces.beginsLine (hspaces : Spaces token) (hcells : ∀ c ∈ token, c.width G ≤ width)
    (hblank : isBlank G token = false)
    (hwide : width < visibleWidth G token ∨ Overflows G width s token) (tokens : List (Text γ)) :
    BeginsLine G (s.wrapped.length + 1) .space
      (wrappedLines ((token :: tokens).foldl (wrapToken G width) s)) := by
  by_cases hbreaks : Breaks G width token
  · obtain ⟨first, second, after, hlines, ⟨c, hc, hfirst⟩, ⟨d, hd, hsecond⟩⟩ :=
      wrappedLines_breaks hcells hbreaks s tokens
    rw [hspaces.2 c hc] at hfirst
    rw [hspaces.2 d hd] at hsecond
    by_cases hcurrent : s.currentLine = []
    · rw [if_pos hcurrent] at hlines
      exact ⟨s.wrapped ++ [first], second, after, by rw [hlines, append_assoc]; rfl,
        by simp, hsecond⟩
    · rw [if_neg hcurrent] at hlines
      exact ⟨_, first, second :: after, hlines, by simp, hfirst⟩
  · have hover := hwide.resolve_left fun hwide => hbreaks ⟨hwide, hblank⟩
    rw [foldl_cons, wrapToken_begins hbreaks hover hblank]
    obtain ⟨line, after, hlines, hline⟩ := wrappedLines_begins (G := G) (s := {
        wrapped := s.wrapped ++ [trimLine G s.currentLine ++ s.tracker.getLineEndReset]
        currentLine := s.tracker.getActiveCodes ++ token
        currentVisibleLength := visibleWidth G token
        tracker := updateTrackerFromText token s.tracker })
      (by rw [strip_append, strip_getActiveCodes]; exact hspaces.head?) width tokens
    exact ⟨_, line, after, hlines, by simp, hline⟩

end Lines

def shownLines (G : Graphemes γ) (lines : List (Text γ)) : List (Text γ) := lines.map (shownLine G)

theorem shownLine_eq_of_length {before before' after after' : List (Text γ)} {line line' : Text γ}
    (h : shownLines G (before ++ line :: after) = shownLines G (before' ++ line' :: after'))
    (hlength : before.length = before'.length) : shownLine G line = shownLine G line' := by
  unfold shownLines at h
  rw [map_append, map_append] at h
  obtain ⟨-, hrest⟩ := append_inj h (by rw [length_map, length_map, hlength])
  exact (cons.inj hrest).1

theorem BeginsLine.not_word {lines lines' : List (Text γ)} {m : ℕ} {c : Cell γ}
    (hspace : BeginsLine G m .space lines) (hword : BeginsLine G m c lines')
    (hc : c.isWhitespace G = false) (h : shownLines G lines = shownLines G lines') : False := by
  obtain ⟨before, line, after, rfl, hlength, hline⟩ := hspace
  obtain ⟨before', line', after', rfl, hlength', hline'⟩ := hword
  have hshown := shownLine_eq_of_length h (hlength.trans hlength'.symm)
  have hhead := hline'.resolve_right fun hnone => by
    rw [hc] at hnone
    exact Bool.false_ne_true hnone.2
  obtain hline | ⟨hline, -⟩ := hline
  · rw [hshown, hhead, Option.some_inj] at hline
    rw [hline] at hc
    exact Bool.false_ne_true hc.symm
  · rw [hshown] at hline
    rw [hline] at hhead
    cases hhead

theorem BeginsLine.lt_length {lines : List (Text γ)} {m : ℕ} {c : Cell γ}
    (h : BeginsLine G m c lines) : m < lines.length := by
  obtain ⟨before, line, after, rfl, hlength, -⟩ := h
  rw [length_append, length_cons]
  omega

section Steps

variable {styled plain : WrapState γ} {token : Text γ} {tokens : List (Text γ)}

theorem SameWrap.length_wrapped (h : SameWrap G styled plain) :
    plain.wrapped.length = styled.wrapped.length := by
  simpa using congrArg List.length h.wrapped

theorem SameWrap.not_styledBlank (h : SameWrap G styled plain)
    (hturn : InTurn G width (token :: tokens))
    (hlines : shownLines G (wrappedLines ((token :: tokens).foldl (wrapToken G width) styled)) =
      shownLines G (wrappedLines
        (((token :: tokens).map strip).foldl (wrapToken G width) plain)))
    (hwide : width < visibleWidth G token ∨ Overflows G width styled token) :
    ¬StyledBlank G token := by
  rintro ⟨hblank, hstrip⟩
  have hcells := hturn.cells
  have hspaces := (hturn.kinds token mem_cons_self).resolve_right fun hword => by
    rw [hword.isBlank_strip] at hstrip
    exact Bool.false_ne_true hstrip
  have hbegins := hspaces.beginsLine
    (fun c hc => (hcells token mem_cons_self c hc).width_le) hblank hwide tokens
  have hends : EndsAt width (plain.wrapped.length + 1) (wrapToken G width plain (strip token)) :=
    endsAt_spaces h.tracker hspaces.1 hstrip
      (hwide.imp (fun hwide => by rwa [visibleWidth_strip]) h.overflows_iff.mpr)
  rw [h.length_wrapped] at hends
  rw [map_cons, foldl_cons (f := wrapToken G width) (b := plain)] at hlines
  cases tokens with
  | nil =>
    have hlt := hbegins.lt_length
    have hlength := congrArg List.length hlines
    rw [shownLines, shownLines, length_map, length_map, map_nil, foldl_nil,
      hends.length_wrappedLines] at hlength
    omega
  | cons word tokens =>
    have hword : IsWord G word := (isChain_cons_cons.mp hturn.chain).1 hspaces
    have hwordCells : ∀ c ∈ strip word, c.width G ≤ width := fun c hc =>
      (hcells word (by simp) c (mem_strip.mp hc).1).width_le
    obtain ⟨c, hc, hbegins'⟩ := hword.strip.beginsLine hwordCells hends (tokens.map strip)
    exact hbegins.not_word hbegins' hc hlines

theorem HoldsBlank.exists_mem_strip {line : Text γ} (h : HoldsBlank G line) :
    ∃ c ∈ strip line, c.isWhitespace G = true := by
  obtain ⟨before, c, after, rfl, hc, -⟩ := h
  refine ⟨c, mem_strip.mpr ⟨by simp, ?_⟩, hc⟩
  cases c with
  | code => exact absurd hc Bool.false_ne_true
  | _ => rfl

theorem HoldsBlank.strip_ne_nil {line : Text γ} (h : HoldsBlank G line) : strip line ≠ [] := by
  obtain ⟨c, hc, -⟩ := h.exists_mem_strip
  exact ne_nil_of_mem hc

theorem wordKept_of_isWord (hword : IsWord G token) (hcells : ∀ c ∈ token, c.width G ≤ width)
    (hwide : width < visibleWidth G token) (tracker : AnsiCodeTracker) :
    WordKept G width tracker token := by
  obtain ⟨first, lines, last, t, hbroken, -, hflatten⟩ := breakLongWord_cells hcells hwide tracker
  obtain ⟨lines', last', t', hbroken', -, hkept⟩ :=
    breakLongWord_same (G := G) ((Nat.zero_le _).trans_lt hwide) width tracker
  rw [hbroken] at hbroken'
  obtain ⟨rfl, -⟩ := append_inj' (Prod.mk.inj hbroken').1 rfl
  refine hkept.mpr fun line hline hheld => ?_
  obtain ⟨c, hc, hblank⟩ := hheld.exists_mem_strip
  have hmem : c ∈ strip token := by
    rw [← hflatten, mem_flatten]
    exact ⟨_, mem_map_of_mem (mem_append_left _ hline), hc⟩
  rw [hword.2 c hmem] at hblank
  exact Bool.false_ne_true hblank

theorem shownLine_strip (line : Text γ) : shownLine G (strip line) = trimLine G (strip line) := by
  obtain ⟨blank, -, hsplit⟩ := exists_trimLine G (strip line)
  refine filter_eq_self.mpr fun c hc => ?_
  have hmem : c ∈ strip line := by
    rw [hsplit]
    exact mem_append_left _ hc
  simpa using (mem_strip.mp hmem).2

theorem holdsBlank_iff {line : Text γ} :
    HoldsBlank G line ↔ shownLine G line ≠ shownLine G (strip line) := by
  rw [shownLine_strip]
  exact holdsBlank_iff_trimLine line

theorem SameWrap.pushed_kept (h : SameWrap G styled plain)
    (hcells : ∀ c ∈ token, c.width G ≤ width) (hword : IsWord G token)
    (hlines : shownLines G (wrappedLines ((token :: tokens).foldl (wrapToken G width) styled)) =
      shownLines G (wrappedLines
        (((token :: tokens).map strip).foldl (wrapToken G width) plain)))
    (hbreaks : Breaks G width token) :
    ¬OnlyStyle styled.currentLine ∧
      ¬HoldsBlank G (styled.currentLine ++ styled.tracker.getLineEndReset) := by
  have hbreaks' : Breaks G width (strip token) :=
    ⟨by rw [visibleWidth_strip]; exact hbreaks.1, hword.isBlank_strip⟩
  obtain ⟨first, second, after, hstyled, -, -⟩ := wrappedLines_breaks hcells hbreaks styled tokens
  obtain ⟨first', second', after', hplain, ⟨c, hc, hfirst⟩, -⟩ := wrappedLines_breaks
    (fun c hc => hcells c (mem_strip.mp hc).1) hbreaks' plain (tokens.map strip)
  rw [strip_strip] at hc
  rw [map_cons, hstyled, hplain, h.currentLine] at hlines
  have hlength := h.length_wrapped
  constructor
  · rintro ⟨hne, hnil⟩
    rw [if_neg hne, if_pos hnil, append_assoc] at hlines
    have hshown := shownLine_eq_of_length hlines hlength.symm
    have hnone : shownLine G (styled.currentLine ++ styled.tracker.getLineEndReset) = [] := by
      obtain ⟨blank, -, hsplit⟩ :=
        exists_trimLine G (styled.currentLine ++ styled.tracker.getLineEndReset)
      have hstrip := congrArg strip hsplit
      rw [strip_append, strip_append, hnil, strip_getLineEndReset, append_nil] at hstrip
      exact (append_eq_nil_iff.mp hstrip.symm).1
    rw [hnone] at hshown
    rw [← hshown] at hfirst
    obtain hhead | ⟨-, hblank⟩ := hfirst
    · cases hhead
    · rw [hword.2 c hc] at hblank
      exact Bool.false_ne_true hblank
  · intro hheld
    have hne := hheld.strip_ne_nil
    rw [strip_append, strip_getLineEndReset, append_nil] at hne
    rw [if_neg (ne_nil_of_strip hne), if_neg hne, append_assoc, append_assoc] at hlines
    have hshown := shownLine_eq_of_length hlines hlength.symm
    rw [h.tracker, getLineEndReset_reset, append_nil] at hshown
    refine holdsBlank_iff.mp hheld ?_
    rw [hshown, strip_append, strip_getLineEndReset, append_nil]

theorem SameWrap.overflow_kept (h : SameWrap G styled plain)
    (hblank : isBlank G (strip token) = isBlank G token)
    (hlines : shownLines G (wrappedLines ((token :: tokens).foldl (wrapToken G width) styled)) =
      shownLines G (wrappedLines
        (((token :: tokens).map strip).foldl (wrapToken G width) plain)))
    (hbreaks : ¬Breaks G width token) (hover : Overflows G width styled token) :
    ¬HoldsBlank G styled.currentLine := by
  have hpushed : ∀ {s : WrapState γ} {next : Text γ} (nexts : List (Text γ)),
      ¬Breaks G width next → Overflows G width s next → ∃ after,
        wrappedLines ((next :: nexts).foldl (wrapToken G width) s) =
          s.wrapped ++ (trimLine G s.currentLine ++ s.tracker.getLineEndReset) :: after := by
    intro s next nexts hbreaks hover
    obtain ⟨after, hafter⟩ := wrappedLines_foldl (G := G) width nexts (wrapToken G width s next)
    refine ⟨after, ?_⟩
    rw [foldl_cons, hafter]
    cases hblank : isBlank G next with
    | true =>
      rw [wrapToken_drops hbreaks hover hblank, append_assoc]
      rfl
    | false =>
      rw [wrapToken_begins hbreaks hover hblank, append_assoc]
      rfl
  have hbreaks' : ¬Breaks G width (strip token) := by
    unfold Breaks at hbreaks ⊢
    rwa [visibleWidth_strip, hblank]
  obtain ⟨after, hstyled⟩ := hpushed tokens hbreaks hover
  obtain ⟨after', hplain⟩ := hpushed (tokens.map strip) hbreaks' (h.overflows_iff.mpr hover)
  rw [map_cons, hstyled, hplain] at hlines
  have hshown := shownLine_eq_of_length hlines h.length_wrapped.symm
  rw [shownLine_trimLine_append, shownLine_trimLine_append, h.currentLine] at hshown
  exact fun hheld => holdsBlank_iff.mp hheld hshown

theorem SameWrap.stepKept (h : SameWrap G styled plain) (hturn : InTurn G width (token :: tokens))
    (hlines : shownLines G (wrappedLines ((token :: tokens).foldl (wrapToken G width) styled)) =
      shownLines G (wrappedLines
        (((token :: tokens).map strip).foldl (wrapToken G width) plain))) :
    StepKept G width styled token := by
  have hcells : ∀ c ∈ token, c.width G ≤ width :=
    fun c hc => (hturn.cells token mem_cons_self c hc).width_le
  have hword : Breaks G width token → IsWord G token := by
    refine fun hbreaks => (hturn.kinds token mem_cons_self).resolve_left fun hspaces => ?_
    exact h.not_styledBlank hturn hlines (.inl hbreaks.1) ⟨hbreaks.2, hspaces.isBlank_strip⟩
  refine ⟨h.not_styledBlank hturn hlines, ?_, ?_, ?_⟩
  · exact fun hbreaks => h.pushed_kept hcells (hword hbreaks) hlines hbreaks
  · exact fun hbreaks => wordKept_of_isWord (hword hbreaks) hcells hbreaks.1 _
  · refine fun hbreaks hover => h.overflow_kept ?_ hlines hbreaks hover
    exact isBlank_strip_iff (h.not_styledBlank hturn hlines (.inr hover))

theorem SameWrap.last_kept (h : SameWrap G styled plain)
    (hlines : shownLines G (wrappedLines styled) = shownLines G (wrappedLines plain)) :
    ¬OnlyStyle styled.currentLine ∧ ¬HoldsBlank G styled.currentLine := by
  unfold wrappedLines at hlines
  rw [h.currentLine] at hlines
  constructor
  · rintro ⟨hne, hnil⟩
    have hlength := congrArg List.length hlines
    rw [if_neg hne, if_pos hnil, shownLines, shownLines, length_map, length_map,
      length_append, length_singleton, h.length_wrapped] at hlength
    omega
  · intro hheld
    rw [if_neg (ne_nil_of_strip hheld.strip_ne_nil), if_neg hheld.strip_ne_nil] at hlines
    exact holdsBlank_iff.mp hheld (shownLine_eq_of_length hlines h.length_wrapped.symm)

theorem SameWrap.kept (h : SameWrap G styled plain) (hturn : InTurn G width tokens)
    (hlines : shownLines G (wrappedLines (tokens.foldl (wrapToken G width) styled)) =
      shownLines G (wrappedLines ((tokens.map strip).foldl (wrapToken G width) plain))) :
    (∀ before token after, tokens = before ++ token :: after →
      StepKept G width (before.foldl (wrapToken G width) styled) token) ∧
    let s := tokens.foldl (wrapToken G width) styled
    ¬OnlyStyle s.currentLine ∧ ¬HoldsBlank G s.currentLine := by
  induction tokens generalizing styled plain with
  | nil => exact ⟨fun before token after hnil => by simp at hnil, h.last_kept hlines⟩
  | cons token tokens ih =>
    have hkept := h.stepKept hturn hlines
    obtain ⟨hsteps, hlast⟩ := ih (h.step hkept) hturn.tail hlines
    refine ⟨fun before next after htokens => ?_, hlast⟩
    cases before with
    | nil =>
      cases htokens
      exact hkept
    | cons first before =>
      cases htokens
      exact hsteps before next after rfl

end Steps

section Lines

variable {line : Text γ}

theorem wrappedLines_ne_nil {token : Text γ} (hcells : ∀ c ∈ token, c.width G ≤ width)
    (hne : strip token ≠ []) (tokens : List (Text γ)) :
    wrappedLines ((token :: tokens).foldl (wrapToken G width) wrapStart) ≠ [] := by
  by_cases hbreaks : Breaks G width token
  · obtain ⟨first, second, after, hlines, -, -⟩ :=
      wrappedLines_breaks hcells hbreaks wrapStart tokens
    rw [hlines]
    exact append_ne_nil_of_right_ne_nil _ (cons_ne_nil _ _)
  have hover : ¬Overflows G width (wrapStart : WrapState γ) token :=
    fun hover => absurd hover.2 (Nat.lt_irrefl 0)
  obtain ⟨c, rest, hstrip⟩ := exists_cons_of_ne_nil hne
  rw [foldl_cons, wrapToken_extends hbreaks hover]
  obtain ⟨line, after, hlines, -⟩ := wrappedLines_begins (G := G) (s := {
      wrapped := (wrapStart : WrapState γ).wrapped
      currentLine := (wrapStart : WrapState γ).currentLine ++ token
      currentVisibleLength := (wrapStart : WrapState γ).currentVisibleLength + visibleWidth G token
      tracker := updateTrackerFromText token (wrapStart : WrapState γ).tracker })
    (c := c) (by rw [strip_append, hstrip]; rfl) width tokens
  rw [hlines]
  exact append_ne_nil_of_right_ne_nil _ (cons_ne_nil _ _)

theorem lineKept_of_wrapSingleLine_strip (hline : ∀ c ∈ line, c.Simple G width)
    (hwide : width < visibleWidth G line)
    (h : (wrapSingleLine G line width).map strip = wrapSingleLine G (strip line) width) :
    LineKept G width line := by
  have hshown := (Nat.zero_le _).trans_lt hwide
  have hturn := inTurn_splitIntoTokensWithAnsi hline hshown
  have hplain := splitIntoTokensWithAnsi_strip hshown
  have htokens : splitIntoTokensWithAnsi line ≠ [] := by
    intro hnil
    have hflatten := splitIntoTokensWithAnsi_flatten line
    rw [hnil, flatten_nil] at hflatten
    rw [← hflatten] at hshown
    exact Nat.lt_irrefl 0 hshown
  have hnonempty : wrappedLines ((splitIntoTokensWithAnsi line).foldl (wrapToken G width)
      wrapStart) ≠ [] ∧ wrappedLines (((splitIntoTokensWithAnsi line).map strip).foldl
        (wrapToken G width) wrapStart) ≠ [] := by
    obtain ⟨token, tokens, heq⟩ := exists_cons_of_ne_nil htokens
    rw [heq] at hturn ⊢
    have hcells := hturn.cells token mem_cons_self
    have hne : strip token ≠ [] :=
      (hturn.kinds token mem_cons_self).elim (fun h => h.1) fun h => h.1
    refine ⟨wrappedLines_ne_nil (fun c hc => (hcells c hc).width_le) hne tokens, ?_⟩
    refine wrappedLines_ne_nil (fun c hc => (hcells c (mem_strip.mp hc).1).width_le) ?_ _
    rwa [strip_strip]
  rw [wrapSingleLine_wide hwide, wrapSingleLine_wide (by rwa [visibleWidth_strip]), hplain] at h
  simp only [if_neg hnonempty.1, if_neg hnonempty.2] at h
  have hlines := congrArg (List.map strip) h
  rw [map_map, map_map, map_map] at hlines
  simp only [Function.comp_def, strip_strip] at hlines
  obtain ⟨hsteps, hlast⟩ := sameWrap_start.kept hturn hlines
  exact ⟨hsteps, hlast⟩

end Lines

def KeepsLayout (G : Graphemes γ) (width : ℕ) (text : Text γ) : Prop :=
  (wrapTextWithAnsi G text width).map strip = wrapTextWithAnsi G (strip text) width

def SimpleText (G : Graphemes γ) (width : ℕ) (text : Text γ) : Prop :=
  ∀ c ∈ text, c = .newline ∨ c.Simple G width

section Texts

variable {text : Text γ}

theorem ne_newline_of_mem_splitLines {line : Text γ} (hline : line ∈ splitLines text)
    {c : Cell γ} (hc : c ∈ line) : c ≠ .newline := by
  induction text generalizing line with
  | nil =>
    rw [mem_singleton.mp hline] at hc
    cases hc
  | cons d text ih =>
    cases hd : d with
    | newline =>
      obtain rfl | hline := mem_cons.mp (hd ▸ hline)
      · cases hc
      · exact ih hline hc
    | _ =>
      obtain ⟨rfl, -⟩ | ⟨first, lines, hrest, hsplit⟩ := splitLines_cons d text
      · cases hd
      obtain rfl | hline := mem_cons.mp (hsplit ▸ hline)
      · obtain rfl | hc := mem_cons.mp hc
        · rw [hd]
          nofun
        · exact ih (hrest ▸ mem_cons_self) hc
      · exact ih (hrest ▸ mem_cons_of_mem _ hline) hc

theorem SimpleText.styledLines (h : SimpleText G width text) {line : Text γ}
    (hline : line ∈ styledLines .reset (splitLines text)) : ∀ c ∈ line, c.Simple G width := by
  intro c hc
  obtain ⟨t, rest, hrest, rfl⟩ := mem_styledLines hline
  obtain hc | hc := mem_append.mp hc
  · rw [AnsiCodeTracker.getActiveCodes] at hc
    split_ifs at hc
    · cases hc
    · rw [mem_singleton.mp hc]
      exact trivial
  · have htext := h c (mem_of_mem_splitLines hrest hc)
    exact htext.resolve_left (ne_newline_of_mem_splitLines hrest hc)

theorem eq_of_flatMap_eq {α β : Type*} {f g : α → List β} {l : List α}
    (hle : ∀ a ∈ l, (g a).length ≤ (f a).length) (h : l.flatMap f = l.flatMap g) :
    ∀ a ∈ l, f a = g a := by
  induction l with
  | nil => exact nofun
  | cons b l ih =>
    have hrest : (l.flatMap g).length ≤ (l.flatMap f).length := by
      rw [length_flatMap, length_flatMap]
      exact sum_le_sum fun a ha => hle a (mem_cons_of_mem _ ha)
    have hfirst := hle b mem_cons_self
    rw [flatMap_cons, flatMap_cons] at h
    have hlength := congrArg List.length h
    rw [length_append, length_append] at hlength
    obtain ⟨hb, hl⟩ := append_inj h (by omega)
    intro a ha
    obtain rfl | ha := mem_cons.mp ha
    · exact hb
    · exact ih (fun a ha => hle a (mem_cons_of_mem _ ha)) hl a ha

theorem layoutKept_of_keepsLayout (htext : SimpleText G width text)
    (h : KeepsLayout G width text) : LayoutKept G width text := by
  rw [KeepsLayout, wrapTextWithAnsi_eq, wrapTextWithAnsi_eq, splitLines_strip,
    styledLines_strip .reset (splitLines text), map_flatMap, flatMap_map] at h
  intro line hline hwide
  refine lineKept_of_wrapSingleLine_strip (htext.styledLines hline) hwide ?_
  refine eq_of_flatMap_eq (fun other hother => ?_) h line hline
  rw [length_map]
  exact length_wrapSingleLine_strip (htext.styledLines hother)

def colouredWords : Text Char :=
  [.code (.sgr ["31"]), .grapheme 'a', .grapheme 'b', .space, .grapheme 'c', .grapheme 'd',
    .code (.sgr ["0"])]

/-- A coloured word, a space that the code after the word belongs to, and a word. -/
def colouredWord : Text Char :=
  [.code (.sgr ["31"]), .grapheme 'a', .grapheme 'b', .code (.sgr ["0"]), .space,
    .grapheme 'c', .grapheme 'd']

end Texts

end Draht.AnsiText
