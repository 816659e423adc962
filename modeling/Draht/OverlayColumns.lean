import Draht.CompositeLine
import Draht.LineCuts

/-!
# Overlays keep columns

The columns of the overlay show the overlay and all others show the base, unless a grapheme of two
columns stands on both sides of an edge: on the left it pushes the overlay to the right, and on the
right it is left out, and what is behind it moves to the left.
-/

namespace Draht.AnsiText
open List

variable {γ σ : Type} (G : Graphemes γ)

section Loops

variable {G}

variable {c : Cell γ} {xs text : Text γ} {n : ℕ}

theorem walk_spec {τ : Type} {step : τ → Cell γ → τ} (stop : τ → Bool) (Inv : Text γ → τ → Prop)
    {done : Text γ} {s : τ}
    (hstep : ∀ done s, Inv done s → ∀ c ∈ text, Inv (done ++ [c]) (step s c)) (h : Inv done s) :
    ∃ read rest, text = read ++ rest ∧ Inv (done ++ read) (walk step stop s text) ∧
      (rest = [] ∨ stop (walk step stop s text) = true) := by
  induction text generalizing done s with
  | nil => exact ⟨[], [], rfl, by rwa [append_nil], .inl rfl⟩
  | cons c text ih =>
    have hfirst := hstep done s h c mem_cons_self
    obtain ⟨read, rest, htext, hend, hstop⟩ :=
      ih (fun done s h c hc => hstep done s h c (mem_cons_of_mem _ hc)) hfirst
    rw [append_assoc, singleton_append] at hend
    cases c with
    | code c => exact ⟨.code c :: read, rest, congrArg _ htext, hend, hstop⟩
    | _ =>
      simp only [walk]
      split_ifs with hnow
      · exact ⟨[_], text, rfl, hfirst, .inr hnow⟩
      · exact ⟨_ :: read, rest, congrArg _ htext, hend, hstop⟩

theorem Cell.OnLine.graphemeWidth_eq (h : c.OnLine G) : c.graphemeWidth G = c.width G := by
  cases c with
  | tab | newline => exact h.elim
  | _ => rfl

theorem takeColumns_concat (n : ℕ) (done : Text γ) (c : Cell γ) :
    takeColumns G n (done ++ [c]) = takeColumns G n done ++
      if visibleWidth G done < n ∧ visibleWidth G done + c.width G ≤ n then [c] else [] := by
  by_cases hdone : visibleWidth G done < n
  · rw [takeColumns_append_of_lt hdone, takeColumns_of_lt hdone, takeColumns]
    by_cases hfits : visibleWidth G done + c.width G ≤ n
    · rw [if_neg (by omega), if_pos ⟨hdone, hfits⟩, takeColumns]
    · rw [if_pos (by omega), if_neg fun h => hfits h.2]
  · rw [takeColumns_append_of_le (by omega), if_neg fun h => hdone h.1, append_nil]

theorem sliceStep_zero {s : SliceState γ} (hpending : s.pendingAnsi = []) (hc : c.OnLine G) :
    let taken := if s.currentCol < n ∧ s.currentCol + c.width G ≤ n then [c] else []
    sliceStep G 0 (0 + n) true s c =
      { result := s.result ++ taken, resultWidth := s.resultWidth + visibleWidth G taken
        currentCol := s.currentCol + c.width G, pendingAnsi := [] } := by
  have hwidth := hc.graphemeWidth_eq
  obtain ⟨result, resultWidth, currentCol, pendingAnsi⟩ := s
  obtain rfl : pendingAnsi = [] := hpending
  cases c with
  | tab | newline => exact hc.elim
  | code code =>
    have hfits : (currentCol < n ∧ currentCol + 0 ≤ n) ↔ currentCol < n := by omega
    simp only [sliceStep, Cell.width, hfits, Nat.zero_le, true_and, Nat.zero_add,
      Nat.not_lt_zero, if_false]
    split_ifs <;> simp [visibleWidth, Cell.width]
  | _ =>
    simp only [sliceStep, hwidth, Nat.zero_le, true_and, Nat.zero_add, reduceCtorEq, false_or]
    split_ifs <;> simp [visibleWidth]

variable (G) in
structure Sliced (n : ℕ) (done : Text γ) (s : SliceState γ) : Prop where
  result : s.result = takeColumns G n done
  resultWidth : s.resultWidth = visibleWidth G s.result
  currentCol : s.currentCol = visibleWidth G done
  pendingAnsi : s.pendingAnsi = []

theorem Sliced.step {done : Text γ} {s : SliceState γ} (h : Sliced G n done s) (hc : c.OnLine G) :
    Sliced G n (done ++ [c]) (sliceStep G 0 (0 + n) true s c) := by
  rw [sliceStep_zero h.pendingAnsi hc]
  refine ⟨?_, ?_, ?_, rfl⟩
  · rw [takeColumns_concat, h.result, h.currentCol]
  · rw [visibleWidth_append, h.resultWidth]
  · rw [visibleWidth_append, visibleWidth_singleton, h.currentCol]

theorem sliceWithWidth_zero {line : Text γ} (hline : IsLine G line) (n : ℕ) :
    sliceWithWidth G line 0 n true =
      (takeColumns G n line, visibleWidth G (takeColumns G n line)) := by
  rw [sliceWithWidth]
  split_ifs with hn
  · rw [hn]
    cases line <;> rfl
  have hstart : Sliced G n []
      { result := [], resultWidth := 0, currentCol := 0, pendingAnsi := [] } :=
    ⟨rfl, rfl, rfl, rfl⟩
  obtain ⟨read, rest, hread, hend, hstop⟩ := walk_spec (fun s => 0 + n ≤ s.currentCol)
    (Sliced G n) (fun done s h c hc => h.step (hline c hc)) hstart
  have htake : takeColumns G n line = takeColumns G n read := by
    obtain rfl | hstop := hstop
    · rw [hread, append_nil]
    · have hfull := of_decide_eq_true hstop
      rw [hend.currentCol, Nat.zero_add, nil_append] at hfull
      rw [hread, takeColumns_append_of_le hfull]
  rw [nil_append] at hend
  simp only [hend.resultWidth, hend.result, htake]

variable (G) in
/-- The loop that extracts the segments; what stands behind the overlay looks as it does in the
text, where it follows the cells before `afterStart`. -/
structure Segmented (p : Pen σ) (knows : AnsiCodeTracker → σ → Prop)
    (beforeEnd afterStart total : ℕ) (done : Text γ) (s : SegmentState γ) : Prop where
  currentCol : s.currentCol = visibleWidth G done
  before : s.before ++ s.pendingAnsiBefore = upTo G beforeEnd done
  pending : visibleWidth G s.pendingAnsiBefore = 0
  beforeWidth : s.beforeWidth = visibleWidth G s.before
  after : SameColumns G p p.plain s.after (p.after p.plain (upTo G afterStart done))
    (takeColumns G (total - visibleWidth G (upTo G afterStart done)) (beyond G afterStart done))
  afterWidth : s.afterWidth = visibleWidth G s.after
  onLine : IsLine G s.after
  unstarted : s.afterStarted = false → s.after = []
  started : s.afterStarted = true → afterStart ≤ s.currentCol
  state : s.afterStarted = true → s.currentCol < total →
    p.after p.plain s.after = p.after p.plain done
  tracker : knows s.styleTracker (p.after p.plain done)

section Segments

variable {p : Pen σ} {allowed : AnsiCode → Prop} {knows : AnsiCodeTracker → σ → Prop}
  {beforeEnd afterStart total : ℕ} {done : Text γ} {s : SegmentState γ}

theorem Segmented.after_of_lt (h : Segmented G p knows beforeEnd afterStart total done s)
    (hcol : s.currentCol < afterStart) (c : Cell γ) :
    SameColumns G p p.plain s.after (p.after p.plain (upTo G afterStart (done ++ [c])))
      (takeColumns G (total - visibleWidth G (upTo G afterStart (done ++ [c])))
        (beyond G afterStart (done ++ [c]))) := by
  rw [h.currentCol] at hcol
  have hwidth := h.after.width
  rw [beyond_of_lt hcol, takeColumns, visibleWidth_nil] at hwidth
  rw [beyond_concat_of_lt hcol, takeColumns]
  exact .of_width_zero _ _ hwidth rfl

theorem Segmented.beyond_concat (h : Segmented G p knows beforeEnd afterStart total done s)
    (hcol : afterStart ≤ s.currentCol) (c : Cell γ) :
    takeColumns G (total - visibleWidth G (upTo G afterStart (done ++ [c])))
        (beyond G afterStart (done ++ [c])) =
      takeColumns G (total - visibleWidth G (upTo G afterStart done)) (beyond G afterStart done) ++
        if s.currentCol < total ∧ s.currentCol + c.width G ≤ total then [c] else [] := by
  rw [h.currentCol] at hcol ⊢
  have hsplit := congrArg (visibleWidth G) (upTo_append_beyond (G := G) afterStart done)
  rw [visibleWidth_append] at hsplit
  rw [upTo_append_of_le hcol, beyond_append_of_le hcol, takeColumns_concat]
  congr 1
  refine if_congr ?_ rfl rfl
  omega

theorem state_beyond (p : Pen σ) (afterStart : ℕ) (hcol : visibleWidth G done < total) :
    p.after (p.after p.plain (upTo G afterStart done))
      (takeColumns G (total - visibleWidth G (upTo G afterStart done))
        (beyond G afterStart done)) = p.after p.plain done := by
  have hsplit := upTo_append_beyond (G := G) afterStart done
  have hwidth := congrArg (visibleWidth G) hsplit
  rw [visibleWidth_append] at hwidth
  rw [takeColumns_of_lt (by omega), ← Pen.after_append, hsplit]

theorem Segmented.step_code (hedges : beforeEnd ≤ afterStart)
    (h : Segmented G p knows beforeEnd afterStart total done s)
    (htracked : p.Tracked allowed knows) {code : AnsiCode} (hcode : allowed code) :
    Segmented G p knows beforeEnd afterStart total (done ++ [.code code])
      (segmentStep G beforeEnd afterStart total true s (.code code)) := by
  have hcol : s.currentCol = visibleWidth G (done ++ [.code code]) := by
    rw [visibleWidth_append, h.currentCol]
    rfl
  have htracker : knows (s.styleTracker.process code)
      (p.after p.plain (done ++ [.code code])) := by
    rw [Pen.after_append]
    exact htracked.process h.tracker hcode
  have hafter : SameColumns G p p.plain s.after
      (p.after p.plain (upTo G afterStart (done ++ [.code code])))
      (takeColumns G (total - visibleWidth G (upTo G afterStart (done ++ [.code code])))
        (beyond G afterStart (done ++ [.code code]))) := by
    by_cases hlt : s.currentCol < afterStart
    · exact h.after_of_lt hlt _
    · rw [h.beyond_concat (by omega)]
      have hdone : afterStart ≤ visibleWidth G done := by
        rw [← h.currentCol]
        omega
      rw [upTo_append_of_le hdone]
      refine h.after.append_zero_right ?_
      split_ifs <;> rfl
  simp only [segmentStep]
  by_cases hbefore : s.currentCol < beforeEnd
  · rw [if_pos hbefore]
    have hdone : visibleWidth G done < beforeEnd := h.currentCol ▸ hbefore
    refine ⟨hcol, ?_, ?_, h.beforeWidth, hafter, h.afterWidth, h.onLine, h.unstarted, h.started, ?_,
      htracker⟩
    · rw [upTo_concat_of_lt hdone, ← append_assoc, h.before, upTo_of_lt hdone]
    · rw [visibleWidth_append, h.pending]
      rfl
    · intro hstarted
      have hstart := h.started hstarted
      omega
  rw [if_neg hbefore]
  have hbefore : s.before ++ s.pendingAnsiBefore = upTo G beforeEnd (done ++ [.code code]) := by
    rw [upTo_append_of_le (by rw [← h.currentCol]; omega), h.before]
  by_cases hadded : afterStart ≤ s.currentCol ∧ (s.currentCol : ℤ) < total ∧ s.afterStarted
  · rw [if_pos hadded]
    refine ⟨hcol, hbefore, h.pending, h.beforeWidth, ?_, ?_, ?_, ?_, h.started, ?_, htracker⟩
    · exact hafter.append_zero rfl
    · rw [visibleWidth_append, h.afterWidth]
      rfl
    · exact IsLine.append_iff.mpr ⟨h.onLine, forall_mem_singleton.mpr trivial⟩
    · exact fun hnot => absurd (hadded.2.2.symm.trans hnot) nofun
    · intro hstarted hlt
      rw [Pen.after_append, h.state hstarted hlt, Pen.after_append]
  · rw [if_neg hadded]
    refine ⟨hcol, hbefore, h.pending, h.beforeWidth, hafter, h.afterWidth, h.onLine, h.unstarted,
      h.started, ?_, htracker⟩
    intro hstarted hlt
    exact absurd ⟨h.started hstarted, by exact_mod_cast hlt, hstarted⟩ hadded

theorem Segmented.step_grapheme (hedges : beforeEnd ≤ afterStart)
    (h : Segmented G p knows beforeEnd afterStart total done s)
    (htracked : p.Tracked allowed knows) {c : Cell γ} (hc : c.OnLine G)
    (hcode : ∀ code, c ≠ .code code) :
    Segmented G p knows beforeEnd afterStart total (done ++ [c])
      (segmentStep G beforeEnd afterStart total true s c) := by
  have hwidth := hc.graphemeWidth_eq
  have hcol : s.currentCol + c.width G = visibleWidth G (done ++ [c]) := by
    rw [visibleWidth_append, h.currentCol, visibleWidth_singleton]
  have hstate : p.after p.plain (done ++ [c]) = p.after p.plain done := by
    rw [Pen.after_append]
    cases c with
    | code code => exact absurd rfl (hcode code)
    | _ => rfl
  have htracker : knows s.styleTracker (p.after p.plain (done ++ [c])) := hstate ▸ h.tracker
  have hstep : segmentStep G beforeEnd afterStart total true s c =
      let s := if s.currentCol < beforeEnd then
          { s with
            before := s.before ++ s.pendingAnsiBefore ++ [c]
            beforeWidth := s.beforeWidth + c.width G, pendingAnsiBefore := [] }
        else if afterStart ≤ s.currentCol ∧ s.currentCol < total ∧
            s.currentCol + c.width G ≤ total then
          let after := if s.afterStarted then s.after else s.after ++ s.styleTracker.getActiveCodes
          { s with
            after := after ++ [c], afterWidth := s.afterWidth + c.width G, afterStarted := true }
        else s
      { s with currentCol := s.currentCol + c.width G } := by
    have hfits : ((afterStart ≤ s.currentCol ∧ (s.currentCol : ℤ) < total) ∧
        (true = false ∨ (s.currentCol : ℤ) + (c.width G : ℕ) ≤ total)) ↔
          afterStart ≤ s.currentCol ∧ s.currentCol < total ∧
            s.currentCol + c.width G ≤ total := by
      rw [Bool.true_eq_false, false_or]
      omega
    cases c with
    | code code => exact absurd rfl (hcode code)
    | _ => simp only [segmentStep, hwidth, hfits]
  rw [hstep]
  by_cases hbefore : s.currentCol < beforeEnd
  · rw [if_pos hbefore]
    have hdone : visibleWidth G done < beforeEnd := h.currentCol ▸ hbefore
    refine ⟨hcol, ?_, rfl, ?_, h.after_of_lt (by omega) c, h.afterWidth, h.onLine, h.unstarted, ?_,
      ?_, htracker⟩
    · rw [upTo_concat_of_lt hdone, append_nil, h.before, upTo_of_lt hdone]
    · have hpending := h.pending
      simp only [visibleWidth_append, visibleWidth_singleton, h.beforeWidth, hpending]
      omega
    · intro hstarted
      have hstart := h.started hstarted
      omega
    · intro hstarted
      have hstart := h.started hstarted
      omega
  rw [if_neg hbefore]
  have hbefore : s.before ++ s.pendingAnsiBefore = upTo G beforeEnd (done ++ [c]) := by
    rw [upTo_append_of_le (by rw [← h.currentCol]; omega), h.before]
  by_cases hadded : afterStart ≤ s.currentCol ∧ s.currentCol < total ∧
      s.currentCol + c.width G ≤ total
  · rw [if_pos hadded]
    have hpair := h.beyond_concat hadded.1 c
    rw [if_pos hadded.2] at hpair
    have hdone : visibleWidth G done < total := h.currentCol ▸ hadded.2.1
    have hend := state_beyond p afterStart hdone
    have hfront : upTo G afterStart (done ++ [c]) = upTo G afterStart done :=
      upTo_append_of_le (h.currentCol ▸ hadded.1) [c]
    have hsegment : SameColumns G p p.plain
        (if s.afterStarted then s.after else s.after ++ s.styleTracker.getActiveCodes)
        (p.after p.plain (upTo G afterStart done))
        (takeColumns G (total - visibleWidth G (upTo G afterStart done))
          (beyond G afterStart done)) := by
      split_ifs
      · exact h.after
      · exact h.after.append_zero (visibleWidth_getActiveCodes G _)
    have hsegmentEnd : p.after p.plain
        (if s.afterStarted then s.after else s.after ++ s.styleTracker.getActiveCodes) =
          p.after p.plain done := by
      split_ifs with hstarted
      · exact h.state hstarted hadded.2.1
      · rw [h.unstarted (by simpa using hstarted), nil_append]
        exact htracked.getActiveCodes h.tracker
    refine ⟨hcol, hbefore, h.pending, h.beforeWidth, ?_, ?_, ?_, ?_, ?_, ?_, htracker⟩
    · rw [hpair, hfront]
      refine hsegment.append ?_
      rw [hsegmentEnd, hend]
      exact .refl _ _ _
    · rw [visibleWidth_append, visibleWidth_singleton, hsegment.width, ← h.after.width,
        h.afterWidth]
    · refine IsLine.append_iff.mpr ⟨?_, forall_mem_singleton.mpr hc⟩
      split_ifs
      · exact h.onLine
      · exact IsLine.append_iff.mpr ⟨h.onLine, isLine_getActiveCodes _⟩
    · exact nofun
    · exact fun _ => hadded.1.trans (Nat.le_add_right _ _)
    · intro _ _
      rw [Pen.after_append, hsegmentEnd, Pen.after_append]
  · rw [if_neg hadded]
    have hnext : s.afterStarted = true → afterStart ≤ s.currentCol + c.width G :=
      fun hstarted => (h.started hstarted).trans (Nat.le_add_right _ _)
    refine ⟨hcol, hbefore, h.pending, h.beforeWidth, ?_, h.afterWidth, h.onLine, h.unstarted, hnext,
      ?_, htracker⟩
    · by_cases hlt : s.currentCol < afterStart
      · exact h.after_of_lt hlt c
      · have hle : afterStart ≤ s.currentCol := Nat.le_of_not_lt hlt
        rw [h.beyond_concat hle, if_neg fun hfits => hadded ⟨hle, hfits⟩, append_nil,
          upTo_append_of_le (h.currentCol ▸ hle)]
        exact h.after
    · intro hstarted (hlt : s.currentCol + c.width G < total)
      have hstart := h.started hstarted
      exact absurd ⟨hstart, by omega, hlt.le⟩ hadded

theorem takeColumns_beyond_of_le (h : total ≤ afterStart) (line : Text γ) :
    takeColumns G (total - visibleWidth G (upTo G afterStart line)) (beyond G afterStart line) =
      [] := by
  by_cases hline : visibleWidth G line < afterStart
  · rw [beyond_of_lt hline, takeColumns]
  · have hwidth := le_visibleWidth_upTo (Nat.le_of_not_lt hline)
    rw [Nat.sub_eq_zero_of_le (by omega)]
    cases beyond G afterStart line <;> rfl

theorem takeColumns_beyond_append {read : Text γ} (hstart : afterStart ≤ visibleWidth G read)
    (htotal : total ≤ visibleWidth G read) (rest : Text γ) :
    upTo G afterStart (read ++ rest) = upTo G afterStart read ∧
      takeColumns G (total - visibleWidth G (upTo G afterStart read))
          (beyond G afterStart (read ++ rest)) =
        takeColumns G (total - visibleWidth G (upTo G afterStart read))
          (beyond G afterStart read) := by
  have hsplit := congrArg (visibleWidth G) (upTo_append_beyond (G := G) afterStart read)
  rw [visibleWidth_append] at hsplit
  rw [beyond_append_of_le hstart, takeColumns_append_of_le (by omega)]
  exact ⟨upTo_append_of_le hstart rest, rfl⟩

theorem extractSegments_spec {line : Text γ} (hline : IsLine G line)
    (hallowed : ∀ code, .code code ∈ line → allowed code) (htracked : p.Tracked allowed knows)
    (hedges : beforeEnd ≤ afterStart) (total : ℕ) :
    let segments := extractSegments G line beforeEnd afterStart ((total : ℤ) - afterStart) true
    (SameColumns G p p.plain segments.before p.plain (upTo G beforeEnd line) ∧
      segments.beforeWidth = visibleWidth G segments.before) ∧
    SameColumns G p p.plain segments.after (p.after p.plain (upTo G afterStart line))
        (takeColumns G (total - visibleWidth G (upTo G afterStart line))
          (beyond G afterStart line)) ∧
      segments.afterWidth = visibleWidth G segments.after ∧
      IsLine G (segments.before ++ segments.after) := by
  have hafterEnd : (afterStart : ℤ) + ((total : ℤ) - afterStart) = total := by omega
  have hstart : Segmented G p knows beforeEnd afterStart total []
      { before := [], beforeWidth := 0, after := [], afterWidth := 0, currentCol := 0
        pendingAnsiBefore := [], afterStarted := false, styleTracker := .reset } :=
    ⟨rfl, rfl, rfl, rfl, .of_width_zero _ _ rfl rfl, rfl, forall_mem_nil _, fun _ => rfl,
      nofun, nofun, htracked.reset⟩
  simp only [extractSegments, hafterEnd]
  obtain ⟨read, rest, hread, hend, hstop⟩ := walk_spec
    (fun s => if (total : ℤ) - afterStart ≤ 0 then beforeEnd ≤ s.currentCol
      else (total : ℤ) ≤ s.currentCol)
    (Segmented G p knows beforeEnd afterStart total)
    (fun done s h c hc => by
      by_cases hcode : ∃ code, c = .code code
      · obtain ⟨code, rfl⟩ := hcode
        exact h.step_code hedges htracked (hallowed code hc)
      · exact h.step_grapheme hedges htracked (hline c hc) fun code hc => hcode ⟨code, hc⟩) hstart
  rw [nil_append] at hend
  generalize walk _ _ _ line = s at hend hstop ⊢
  have hread' : rest = [] ∨ beforeEnd ≤ visibleWidth G read ∧
      (afterStart < total → total ≤ visibleWidth G read) := by
    refine hstop.imp_right fun hstop => ?_
    rw [← hend.currentCol]
    split_ifs at hstop with hnone
    · have hcol := of_decide_eq_true hstop
      omega
    · have hcol := of_decide_eq_true hstop
      omega
  have hlineBefore : IsLine G s.before := by
    have hread : IsLine G read := (IsLine.append_iff.mp (hread ▸ hline)).1
    rw [← upTo_append_beyond (G := G) beforeEnd read, ← hend.before] at hread
    exact (IsLine.append_iff.mp (IsLine.append_iff.mp hread).1).1
  refine ⟨⟨?_, hend.beforeWidth⟩, ?_, hend.afterWidth,
    IsLine.append_iff.mpr ⟨hlineBefore, hend.onLine⟩⟩
  · have hupTo : upTo G beforeEnd line = upTo G beforeEnd read := by
      obtain rfl | ⟨hbefore, -⟩ := hread'
      · rw [hread, append_nil]
      · rw [hread, upTo_append_of_le hbefore]
    rw [hupTo, ← hend.before]
    exact (SameColumns.refl _ _ _).append_zero_right hend.pending
  · by_cases hshort : total ≤ afterStart
    · have hwidth := hend.after.width
      rw [takeColumns_beyond_of_le hshort] at hwidth ⊢
      exact .of_width_zero _ _ hwidth rfl
    · obtain rfl | ⟨-, htotal⟩ := hread'
      · rw [hread, append_nil]
        exact hend.after
      · have hle := htotal (by omega)
        have hstart : afterStart ≤ visibleWidth G read := by omega
        obtain ⟨hupTo, htake⟩ := takeColumns_beyond_append hstart hle rest
        rw [hread, hupTo, htake]
        exact hend.after

end Segments

theorem columnAt_spaces (p : Pen σ) (s : σ) (n i : ℕ) :
    columnAt G p s (spaces n : Text γ) i = none := by
  rw [spaces]
  induction n generalizing i with
  | zero => rfl
  | succ n ih =>
    rw [replicate_succ, columnAt]
    split_ifs
    · rfl
    · exact ih _

theorem visibleWidth_spaces (n : ℕ) : visibleWidth G (spaces n : Text γ) = n := by
  rw [spaces]
  induction n with
  | zero => rfl
  | succ n ih => rw [replicate_succ, visibleWidth, ih, Cell.width, Nat.add_comm]

theorem isLine_spaces (n : ℕ) : IsLine G (spaces n : Text γ) := by
  intro c hc
  rw [eq_of_mem_replicate hc]
  trivial

theorem isLine_segmentReset : IsLine G (segmentReset : Text γ) := by
  intro c hc
  rcases mem_pair.mp hc with rfl | rfl <;> trivial

theorem after_segmentReset (p : Pen σ) (s : σ) : p.after s (segmentReset : Text γ) = p.plain := by
  exact (p.link _ _).trans (p.reset s)

theorem columnAt_append_reset (p : Pen σ) (s : σ) (hxs : visibleWidth G xs = n) (ys : Text γ)
    (i : ℕ) : columnAt G p s (xs ++ segmentReset ++ ys) (n + i) = columnAt G p p.plain ys i := by
  have hwidth : visibleWidth G (xs ++ segmentReset) = n := by
    rw [visibleWidth_append, hxs]
    rfl
  rw [← hwidth, columnAt_append_right, Pen.after_append, after_segmentReset]

/-- The columns before the overlay, of the overlay and behind it. The overlay begins where the cells
up to `startCol` end, and the base goes on where those up to the end of the overlay do. -/
structure Composed (G : Graphemes γ) (p : Pen σ) (base overlay line : Text γ)
    (startCol overlayWidth total : ℕ) : Prop where
  width : visibleWidth G line ≤ total
  before : ∀ i < max startCol (visibleWidth G (upTo G startCol base)),
    columnAt G p p.plain line i = uncut G 0 total i (columnAt G p p.plain base i)
  overlay : ∀ i < overlayWidth,
    columnAt G p p.plain line (max startCol (visibleWidth G (upTo G startCol base)) + i) =
      uncut G 0 total (max startCol (visibleWidth G (upTo G startCol base)) + i)
        (uncut G 0 overlayWidth i (columnAt G p p.plain overlay i))
  after : ∀ i,
    columnAt G p p.plain line
        (max startCol (visibleWidth G (upTo G startCol base)) + (overlayWidth + i)) =
      uncut G 0 total (max startCol (visibleWidth G (upTo G startCol base)) + (overlayWidth + i))
        (uncut G 0 (total - visibleWidth G (upTo G (startCol + overlayWidth) base)) i
          (columnAt G p p.plain base
            (visibleWidth G (upTo G (startCol + overlayWidth) base) + i)))

theorem columnAt_cut (hline : IsLine G text) (total : ℕ) :
    let line := if visibleWidth G text ≤ total then text
      else sliceByColumn G text 0 total true
    visibleWidth G line ≤ total ∧ ∀ (p : Pen σ) i, columnAt G p p.plain line i =
      uncut G 0 total i (columnAt G p p.plain text i) := by
  split_ifs with hfits
  · refine ⟨hfits, fun p i => (uncut_eq_self fun g k s hcolumn => ?_).symm⟩
    have hpart := part_of_columnAt hcolumn
    have hend := end_of_columnAt hcolumn
    omega
  · rw [sliceByColumn, sliceWithWidth_zero hline]
    exact ⟨visibleWidth_takeColumns_le _ _, fun p i => columnAt_takeColumns _ _ _ _⟩

theorem Composed.of_parts {p : Pen σ} {base overlay ys zs : Text γ}
    {startCol overlayWidth total : ℕ}
    (hline : IsLine G (xs ++ segmentReset ++ (ys ++ segmentReset ++ zs)))
    (hxs : visibleWidth G xs = max startCol (visibleWidth G (upTo G startCol base)))
    (hys : visibleWidth G ys = overlayWidth)
    (hbefore : ∀ i, columnAt G p p.plain xs i = columnAt G p p.plain (upTo G startCol base) i)
    (hoverlay : ∀ i, columnAt G p p.plain ys i =
      uncut G 0 overlayWidth i (columnAt G p p.plain overlay i))
    (hafter : ∀ i, columnAt G p p.plain zs i =
      uncut G 0 (total - visibleWidth G (upTo G (startCol + overlayWidth) base)) i
        (columnAt G p p.plain base
          (visibleWidth G (upTo G (startCol + overlayWidth) base) + i))) :
    let text := xs ++ segmentReset ++ (ys ++ segmentReset ++ zs)
    Composed G p base overlay
      (if visibleWidth G text ≤ total then text else sliceByColumn G text 0 total true)
      startCol overlayWidth total := by
  obtain ⟨hfits, hcolumn⟩ := columnAt_cut hline total
  refine ⟨hfits, fun i hi => ?_, fun i hi => ?_, fun i => ?_⟩
  · rw [hcolumn, append_assoc xs, columnAt_append_left _ _ (hxs ▸ hi), hbefore,
      columnAt_upTo _ hi]
  · rw [hcolumn, columnAt_append_reset p _ hxs, append_assoc ys,
      columnAt_append_left _ _ (hys.symm ▸ hi), hoverlay]
  · rw [hcolumn, columnAt_append_reset p _ hxs, columnAt_append_reset p _ hys, hafter]

theorem compositeLineAt_composed {p : Pen σ} {allowed : AnsiCode → Prop}
    {knows : AnsiCodeTracker → σ → Prop} (htracked : p.Tracked allowed knows)
    {base overlay : Text γ} (hbase : IsLine G base) (hoverlay : IsLine G overlay)
    (hallowed : ∀ code, .code code ∈ base → allowed code) (startCol overlayWidth total : ℕ) :
    Composed G p base overlay (compositeLineAt G base overlay startCol overlayWidth total)
      startCol overlayWidth total := by
  obtain ⟨⟨hbefore, hbeforeWidth⟩, hafter, -, hsegments⟩ := extractSegments_spec hbase
    hallowed htracked (Nat.le_add_right startCol overlayWidth) total
  obtain ⟨hbeforeLine, hafterLine⟩ := IsLine.append_iff.mp hsegments
  have hoverlayWidth := visibleWidth_takeColumns_le (G := G) overlayWidth overlay
  have hoverlayLine := isLine_takeColumns hoverlay overlayWidth
  unfold compositeLineAt
  rw [sliceWithWidth_zero hoverlay]
  simp only
  generalize extractSegments G base startCol (startCol + overlayWidth)
    ((total : ℤ) - (startCol + overlayWidth : ℕ)) true = segments at *
  have hblank (n : ℕ) (s : σ) (i : ℕ) : columnAt G p s (spaces n : Text γ) i = none :=
    columnAt_spaces p s n i
  rw [append_assoc _ segments.after, append_assoc _ segmentReset,
    append_assoc _ (spaces _), append_assoc _ (takeColumns G overlayWidth overlay),
    ← append_assoc (spaces _) segmentReset, ← append_assoc (takeColumns _ _ _),
    ← append_assoc (takeColumns _ _ _)]
  refine .of_parts ?_ ?_ ?_ ?_ ?_ ?_
  · simp only [IsLine.append_iff]
    exact ⟨⟨⟨hbeforeLine, isLine_spaces _⟩, isLine_segmentReset⟩, ⟨⟨hoverlayLine,
      isLine_spaces _⟩, isLine_segmentReset⟩, hafterLine, isLine_spaces _⟩
  · rw [visibleWidth_append, visibleWidth_spaces, hbeforeWidth, ← hbefore.width]
    omega
  · rw [visibleWidth_append, visibleWidth_spaces]
    omega
  · intro i
    rw [columnAt_append_blank _ _ (hblank _), hbefore.column]
  · intro i
    rw [columnAt_append_blank _ _ (hblank _), columnAt_takeColumns]
  · intro i
    rw [columnAt_append_blank _ _ (hblank _), hafter.column, columnAt_takeColumns, columnAt_beyond]

end Loops

/-- A column shows what the base shows there, or nothing where a grapheme of the base is cut. -/
def ShownOrCut (lo hi i : ℕ) (shown base : Option (γ × ℕ × σ)) : Prop :=
  shown = base ∨ (shown = none ∧ uncut G lo hi i base = none)

/-- The columns of the overlay show it, padded or cut to its width, and all others show the base. -/
structure KeepsColumns (p : Pen σ) (base overlay line : Text γ)
    (startCol overlayWidth totalWidth : ℕ) : Prop where
  width : visibleWidth G line ≤ totalWidth
  overlaid : ∀ i < overlayWidth, startCol + i < totalWidth →
    columnAt G p p.plain line (startCol + i) =
      uncut G 0 (min overlayWidth (totalWidth - startCol)) i (columnAt G p p.plain overlay i)
  before : ∀ i < startCol, i < totalWidth → ShownOrCut G 0 (min startCol totalWidth) i
    (columnAt G p p.plain line i) (columnAt G p p.plain base i)
  after : ∀ i < totalWidth, startCol + overlayWidth ≤ i →
    ShownOrCut G (startCol + overlayWidth) totalWidth i (columnAt G p p.plain line i)
      (columnAt G p p.plain base i)

/-- No grapheme of the base stands on both sides of the left edge of an overlay that is seen, and
none on both sides of the right edge, unless nothing is seen behind it. -/
structure EdgesClear (base : Text γ) (startCol overlayWidth totalWidth : ℕ) : Prop where
  left : 0 < overlayWidth → startCol < totalWidth → ¬Straddles G base startCol
  right : 0 < overlayWidth → Straddles G base (startCol + overlayWidth) →
    ∀ i < totalWidth, startCol + overlayWidth < i →
      uncut G (startCol + overlayWidth) totalWidth i
        (columnAt G characters characters.plain base i) = none

section Keeps

variable {G} {p : Pen σ} {base overlay : Text γ} {startCol overlayWidth totalWidth : ℕ}

variable {i hi lo' lo i' hi' : ℕ} {line : Text γ}

theorem ShownOrCut.of_cut {base : Option (γ × ℕ × σ)}
    (h : ∀ g k s, base = some (g, k, s) → lo + k ≤ i → i - k + G.graphemeWidth g ≤ hi →
      lo' + k ≤ i' ∧ i' - k + G.graphemeWidth g ≤ hi') :
    ShownOrCut G lo hi i (uncut G lo' hi' i' base) base := by
  refine (uncut_cases lo' hi' i' base).imp_right fun hnone => ⟨hnone, ?_⟩
  rw [uncut_eq_none_iff] at hnone ⊢
  exact fun g k s hsome hcut => hnone g k s hsome (h g k s hsome hcut.1 hcut.2)

theorem ShownOrCut.of_uncut {lo'' hi'' i'' : ℕ} {base : Option (γ × ℕ × σ)}
    (h : ∀ g k s, base = some (g, k, s) → lo + k ≤ i → i - k + G.graphemeWidth g ≤ hi →
      (lo' + k ≤ i' ∧ i' - k + G.graphemeWidth g ≤ hi') ∧
        lo'' + k ≤ i'' ∧ i'' - k + G.graphemeWidth g ≤ hi'') :
    ShownOrCut G lo hi i (uncut G lo' hi' i' (uncut G lo'' hi'' i'' base)) base := by
  have houter : ∀ g k s, base = some (g, k, s) → lo + k ≤ i → i - k + G.graphemeWidth g ≤ hi →
      lo' + k ≤ i' ∧ i' - k + G.graphemeWidth g ≤ hi' :=
    fun g k s hsome hlo hhi => (h g k s hsome hlo hhi).1
  rcases ShownOrCut.of_cut fun g k s hsome hlo hhi => (h g k s hsome hlo hhi).2 with
    hinner | ⟨hinner, hcut⟩
  · rw [hinner]
    exact .of_cut houter
  · rw [hinner]
    exact .inr ⟨rfl, hcut⟩

theorem Composed.shown_before (h : Composed G p base overlay line startCol overlayWidth totalWidth)
    (hi : i < startCol) :
    ShownOrCut G 0 (min startCol totalWidth) i (columnAt G p p.plain line i)
      (columnAt G p p.plain base i) := by
  rw [h.before i (by omega)]
  exact .of_cut fun g k s _ hlo hhi => ⟨hlo, hhi.trans (min_le_right _ _)⟩

theorem start_eq (hbase : IsLine G base) (hleft : ¬Straddles G base startCol) :
    max startCol (visibleWidth G (upTo G startCol base)) = startCol := by
  by_cases hlong : startCol ≤ visibleWidth G base
  · rw [visibleWidth_upTo_of_not_straddles hbase hleft hlong, max_self]
  · rw [upTo_of_lt (by omega), max_eq_left (by omega)]

theorem Composed.shown_overlay (h : Composed G p base overlay line startCol overlayWidth totalWidth)
    (hstart : max startCol (visibleWidth G (upTo G startCol base)) = startCol)
    (hi : i < overlayWidth) :
    columnAt G p p.plain line (startCol + i) =
      uncut G 0 (min overlayWidth (totalWidth - startCol)) i (columnAt G p p.plain overlay i) := by
  have hcolumn := h.overlay i hi
  rw [hstart] at hcolumn
  rw [hcolumn]
  refine uncut_uncut fun g k s hsome => ?_
  have hpart := part_of_columnAt hsome
  omega

theorem right_eq (hbase : IsLine G base)
    (hright : ¬Straddles G base (startCol + overlayWidth)) :
    visibleWidth G (upTo G (startCol + overlayWidth) base) = startCol + overlayWidth ∨
      visibleWidth G base < startCol + overlayWidth := by
  by_cases hlong : startCol + overlayWidth ≤ visibleWidth G base
  · exact .inl (visibleWidth_upTo_of_not_straddles hbase hright hlong)
  · exact .inr (by omega)

theorem Composed.shown_after (h : Composed G p base overlay line startCol overlayWidth totalWidth)
    (hfront : visibleWidth G (upTo G (startCol + overlayWidth) base) =
      max startCol (visibleWidth G (upTo G startCol base)) + overlayWidth ∨
        visibleWidth G base < startCol + overlayWidth)
    (hi : max startCol (visibleWidth G (upTo G startCol base)) + overlayWidth ≤ i) :
    ShownOrCut G (startCol + overlayWidth) totalWidth i (columnAt G p p.plain line i)
      (columnAt G p p.plain base i) := by
  obtain ⟨j, rfl⟩ := Nat.exists_eq_add_of_le hi
  have hcolumn := h.after j
  rw [← Nat.add_assoc] at hcolumn
  rw [hcolumn]
  obtain hfront | hshort := hfront
  · rw [hfront]
    refine .of_uncut fun g k s hsome hlo hhi => ?_
    -- the grapheme begins behind the overlay
    rw [← hfront, ← columnAt_beyond] at hsome
    have hpart := part_of_columnAt hsome
    omega
  · have hnone : ∀ i, visibleWidth G base ≤ i → columnAt G p p.plain base i = none :=
      fun i => columnAt_of_le p.plain
    rw [upTo_of_lt hshort, hnone _ (Nat.le_add_right _ _), hnone _ (by omega)]
    exact .inl rfl

theorem columnAt_of_straddles (hbase : IsLine G base) {n : ℕ} (h : Straddles G base n) (p : Pen σ)
    (s : σ) : ∃ g s', columnAt G p s base n = some (g, 1, s') ∧ G.graphemeWidth g = 2 ∧ 0 < n := by
  obtain ⟨before, g, after, rfl, hbefore, hg⟩ := h
  have hwidth : Cell.width G (.grapheme g) ≤ 2 :=
    (hbase _ (mem_append_right _ mem_cons_self)).width_le
  rw [Cell.width] at hwidth
  obtain rfl : n = visibleWidth G before + 1 := by omega
  refine ⟨g, p.after s before, ?_, by omega, by omega⟩
  rw [columnAt_append_right, columnAt, Cell.width, if_pos (by omega), Cell.part]

theorem uncut_eq_none_congr {τ : Type} (p : Pen σ) (s : σ) (q : Pen τ) (t : τ) (text : Text γ)
    (lo hi i : ℕ) : uncut G lo hi i (columnAt G p s text i) = none ↔
      uncut G lo hi i (columnAt G q t text i) = none := by
  have hparts : ∀ i, (columnAt G p s text i).map (fun x => (x.1, x.2.1)) =
      (columnAt G q t text i).map fun x => (x.1, x.2.1) := by
    induction text generalizing s t with
    | nil => exact fun _ => rfl
    | cons c text ih =>
      intro i
      rw [columnAt, columnAt]
      split_ifs
      · cases c <;> rfl
      · exact ih _ _ _
  have hi := hparts i
  generalize columnAt G p s text i = x at hi
  generalize columnAt G q t text i = y at hi
  cases x with
  | none =>
    obtain rfl : y = none := by simpa using hi.symm
    exact iff_of_true rfl rfl
  | some x =>
    obtain ⟨g, k, s'⟩ := x
    obtain ⟨⟨g', k', t'⟩, rfl, hsame⟩ := Option.map_eq_some_iff.mp hi.symm
    cases hsame
    rw [uncut_some, uncut_some]
    split_ifs
    · exact iff_of_false not_false not_false
    · exact iff_of_true rfl rfl

theorem Composed.shifted (hbase : IsLine G base)
    (h : Composed G p base overlay line startCol overlayWidth totalWidth)
    (hstart : max startCol (visibleWidth G (upTo G startCol base)) = startCol)
    (hright : Straddles G base (startCol + overlayWidth)) (j : ℕ) :
    columnAt G p p.plain line (startCol + overlayWidth + j) =
      uncut G (startCol + overlayWidth) totalWidth (startCol + overlayWidth + 1 + j)
        (columnAt G p p.plain base (startCol + overlayWidth + 1 + j)) := by
  have hcolumn := h.after j
  have hfront := (straddles_iff hbase).mp hright
  rw [hstart, ← Nat.add_assoc] at hcolumn
  rw [hcolumn, hfront]
  refine uncut_uncut fun g k s hsome => ?_
  rw [← hfront, ← columnAt_beyond] at hsome
  have hpart := part_of_columnAt hsome
  omega

theorem uncut_of_le (p : Pen σ) (s : σ) (text : Text γ) (lo : ℕ) (h : hi ≤ i) :
    uncut G lo hi i (columnAt G p s text i) = none := by
  refine uncut_eq_none fun g k s hsome => ?_
  have hpart := part_of_columnAt hsome
  omega

theorem Composed.keepsColumns (hbase : IsLine G base)
    (h : Composed G p base overlay line startCol overlayWidth totalWidth)
    (hclear : EdgesClear G base startCol overlayWidth totalWidth) :
    KeepsColumns G p base overlay line startCol overlayWidth totalWidth := by
  refine ⟨h.width, fun i hi htotal => ?_, fun i hi _ => h.shown_before hi, fun i htotal hi => ?_⟩
  · exact h.shown_overlay (start_eq hbase (hclear.left (by omega) (by omega))) hi
  obtain rfl | hwidth := Nat.eq_zero_or_pos overlayWidth
  · -- an overlay of no width has one edge, and what stands on it is shown
    by_cases hpast : i < max startCol (visibleWidth G (upTo G startCol base))
    · rw [h.before i hpast]
      exact .of_cut fun g k s _ hlo hhi => ⟨by omega, hhi⟩
    · refine h.shown_after ?_ (by omega)
      obtain hshort | hlong := Nat.lt_or_ge (visibleWidth G base) startCol
      · exact .inr hshort
      · rw [Nat.add_zero, Nat.add_zero, max_eq_right (le_visibleWidth_upTo hlong)]
        exact .inl rfl
  have hstart := start_eq hbase (hclear.left hwidth (by omega))
  by_cases hright : Straddles G base (startCol + overlayWidth)
  · have hclosed := hclear.right hwidth hright
    have hnone : ∀ k, startCol + overlayWidth < k → uncut G (startCol + overlayWidth) totalWidth k
        (columnAt G p p.plain base k) = none := by
      intro k hk
      by_cases hlt : k < totalWidth
      · exact (uncut_eq_none_congr _ _ _ _ _ _ _ _).mp (hclosed k hlt hk)
      · exact uncut_of_le p _ _ _ (Nat.le_of_not_lt hlt)
    obtain ⟨j, rfl⟩ := Nat.exists_eq_add_of_le hi
    refine .inr ⟨(h.shifted hbase hstart hright j).trans (hnone _ (by omega)), ?_⟩
    obtain rfl | hj := Nat.eq_zero_or_pos j
    · obtain ⟨g, s, hcolumn, -⟩ := columnAt_of_straddles hbase hright p p.plain
      rw [Nat.add_zero, hcolumn, uncut_some, if_neg (by omega)]
    · exact hnone _ (by omega)
  · refine h.shown_after ?_ ?_ <;> rw [hstart]
    · exact right_eq hbase hright
    · exact hi

theorem Composed.not_straddles_left (hbase : IsLine G base)
    (h : Composed G p base overlay line startCol overlayWidth totalWidth)
    (hkeeps : KeepsColumns G p base overlay line startCol overlayWidth totalWidth)
    (hwidth : 0 < overlayWidth) (htotal : startCol < totalWidth) : ¬Straddles G base startCol := by
  intro hleft
  obtain ⟨g, s, hcolumn, hg, hpos⟩ := columnAt_of_straddles hbase hleft p p.plain
  have hbefore := h.before startCol (by
    rw [(straddles_iff hbase).mp hleft]
    omega)
  rw [hcolumn, uncut_some, if_pos (by omega)] at hbefore
  have hoverlaid := hkeeps.overlaid 0 hwidth htotal
  rw [Nat.add_zero, hbefore] at hoverlaid
  rcases uncut_cases (G := G) 0 (min overlayWidth (totalWidth - startCol)) 0
    (columnAt G p p.plain overlay 0) with hcut | hcut
  · have hpart := part_of_columnAt (hcut.symm.trans hoverlaid.symm)
    omega
  · exact absurd (hoverlaid.trans hcut) nofun

theorem Composed.nothing_behind (hbase : IsLine G base)
    (h : Composed G p base overlay line startCol overlayWidth totalWidth)
    (hkeeps : KeepsColumns G p base overlay line startCol overlayWidth totalWidth)
    (hstart : max startCol (visibleWidth G (upTo G startCol base)) = startCol)
    (hright : Straddles G base (startCol + overlayWidth)) (j : ℕ)
    (hj : startCol + overlayWidth + 1 + j < totalWidth) :
    uncut G (startCol + overlayWidth) totalWidth (startCol + overlayWidth + 1 + j)
      (columnAt G p p.plain base (startCol + overlayWidth + 1 + j)) = none := by
  have hfront := (straddles_iff hbase).mp hright
  -- no grapheme behind the edge began before it
  have hbegins : ∀ j g k s, columnAt G p p.plain base (startCol + overlayWidth + 1 + j) =
      some (g, k, s) → k ≤ j := by
    intro j g k s hsome
    rw [← hfront, ← columnAt_beyond] at hsome
    exact (part_of_columnAt hsome).1
  have hshown : ∀ j, startCol + overlayWidth + 1 + j < totalWidth →
      ShownOrCut G (startCol + overlayWidth) totalWidth (startCol + overlayWidth + j) _ _ :=
    fun j hj => hkeeps.after (startCol + overlayWidth + j) (by omega) (Nat.le_add_right _ _)
  simp only [h.shifted hbase hstart hright] at hshown
  induction j with
  | zero =>
    obtain ⟨g, s, hcolumn, -⟩ := columnAt_of_straddles hbase hright p p.plain
    refine (hshown 0 hj).elim (fun hbehind => ?_) And.left
    refine (uncut_cases _ _ _ _).resolve_left fun hcut => ?_
    have hpart := hbegins 0 g 1 s (hcut.symm.trans (hbehind.trans hcolumn))
    omega
  | succ j ih =>
    refine (hshown (j + 1) hj).elim (fun hbehind => hbehind.trans ?_) And.left
    have hcut := uncut_eq_none_iff.mp (ih (by omega))
    refine Option.eq_none_iff_forall_ne_some.mpr fun ⟨g, k, s⟩ hsome => ?_
    rw [← Nat.add_assoc, Nat.add_right_comm] at hsome
    have hle := hbegins j g k s hsome
    have hwidth := hbase.graphemeWidth_le hsome
    exact hcut g k s hsome (by omega)

/-- Overlays keep the columns just when no grapheme stands on both sides of an edge, but for one on
the right with nothing behind it. -/
theorem Composed.keepsColumns_iff (hbase : IsLine G base)
    (h : Composed G p base overlay line startCol overlayWidth totalWidth) :
    KeepsColumns G p base overlay line startCol overlayWidth totalWidth ↔
      EdgesClear G base startCol overlayWidth totalWidth := by
  refine ⟨fun hkeeps => ⟨h.not_straddles_left hbase hkeeps, fun hwidth hright i htotal hi => ?_⟩,
    h.keepsColumns hbase⟩
  have hstart := start_eq hbase (h.not_straddles_left hbase hkeeps hwidth (by omega))
  obtain ⟨j, rfl⟩ := Nat.exists_eq_add_of_le (Nat.succ_le_of_lt hi)
  exact (uncut_eq_none_congr _ _ _ _ _ _ _ _).mp
    (h.nothing_behind hbase hkeeps hstart hright j htotal)

end Keeps

/-- The columns are kept just when no grapheme stands on both sides of an edge, but for one on the
right edge with nothing behind it; and so are their styles, when the tracker knows the codes. -/
theorem compositeLineAt_keepsColumns_iff {base overlay : Text γ} (hbase : IsLine G base)
    (hoverlay : IsLine G overlay) (startCol overlayWidth totalWidth : ℕ) :
    (KeepsColumns G characters base overlay
        (compositeLineAt G base overlay startCol overlayWidth totalWidth) startCol overlayWidth
        totalWidth ↔ EdgesClear G base startCol overlayWidth totalWidth) ∧
      (Known base → (KeepsColumns G styles base overlay
        (compositeLineAt G base overlay startCol overlayWidth totalWidth) startCol overlayWidth
        totalWidth ↔ EdgesClear G base startCol overlayWidth totalWidth)) := by
  refine ⟨?_, fun hknown => ?_⟩
  · exact (compositeLineAt_composed characters_tracked hbase hoverlay (fun _ _ => trivial) startCol
      overlayWidth totalWidth).keepsColumns_iff hbase
  · exact (compositeLineAt_composed styles_tracked hbase hoverlay hknown startCol overlayWidth
      totalWidth).keepsColumns_iff hbase

def wideLetters : Graphemes Char :=
  { graphemeWidth := fun c => if c = '世' then 2 else 1, isWhitespace := fun _ => false }

def boldLine : Text Char := [.code (.sgr ["1"]), .grapheme 'a', .grapheme '世', .grapheme 'b']

theorem compositeLineAt_keepsColumns_iff_boldLine :
    (KeepsColumns wideLetters characters boldLine [.grapheme 'x']
        (compositeLineAt wideLetters boldLine [.grapheme 'x'] 1 2 6) 1 2 6 ↔
      EdgesClear wideLetters boldLine 1 2 6) ∧
    (KeepsColumns wideLetters styles boldLine [.grapheme 'x']
        (compositeLineAt wideLetters boldLine [.grapheme 'x'] 1 2 6) 1 2 6 ↔
      EdgesClear wideLetters boldLine 1 2 6) := by
  have hbase : IsLine wideLetters boldLine := by
    simp [IsLine, boldLine, Cell.OnLine, wideLetters]
  have hoverlay : IsLine wideLetters [.grapheme 'x'] := by
    simp [IsLine, Cell.OnLine, wideLetters]
  have hknown : Known boldLine := by
    intro code hcode
    obtain rfl : code = .sgr ["1"] := by simpa [boldLine] using hcode
    exact .inr (.one (isDecimal_of_all (by decide)) (by decide) .nil)
  have h := compositeLineAt_keepsColumns_iff wideLetters hbase hoverlay 1 2 6
  exact ⟨h.1, h.2 hknown⟩

/-- A letter in the second column of a wide one is shown in the third. -/
theorem compositeLineAt_not_keepsColumns :
    IsLine wideLetters [.grapheme '世', .grapheme 'a'] ∧ IsLine wideLetters [.grapheme 'x'] ∧
      ¬KeepsColumns wideLetters characters [.grapheme '世', .grapheme 'a'] [.grapheme 'x']
        (compositeLineAt wideLetters [.grapheme '世', .grapheme 'a'] [.grapheme 'x'] 1 1 4) 1 1
        4 := by
  refine ⟨by simp [IsLine, Cell.OnLine, wideLetters], by simp [IsLine, Cell.OnLine, wideLetters],
    fun h => ?_⟩
  exact absurd (h.overlaid 0 (by decide) (by decide)) (by decide)

end Draht.AnsiText
