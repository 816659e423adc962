import Draht.EditorPartition
import Mathlib.Data.List.SplitBy

/-!
# Markers as atoms

The pieces of a text follow each other and leave nothing out, each valid marker being one of them,
as long as no marker begins or ends inside of a grapheme. A grapheme that only ends after a marker
is dropped with it.
-/

namespace Draht
open List Option

/-- From `start` on, pieces that follow each other and make up the text, each marker being one of
them. -/
structure Atomic (text : JsText) (markers : List Marker) (start : ℕ) (pieces : List Segment) :
    Prop where
  consecutive : pieces = indexed start (pieces.map (·.text))
  whole : (pieces.map (·.text)).flatten = text.drop start
  atoms : ∀ m ∈ markers, start ≤ m.start → ⟨sliceOf text m.start m.stop, m.start⟩ ∈ pieces

variable {text : JsText} {markers : List Marker} {gs before after : List JsText} {g : JsText}
  {seg : Segment} {pieces : List Segment} {i start : ℕ}

theorem IsBoundary.skips (h : IsBoundary (before ++ g :: after) i)
    (hlt : before.flatten.length < i) : before.flatten.length + g.length ≤ i := by
  obtain ⟨before', after', hgs, rfl⟩ := h
  obtain ⟨run, rfl, hrun⟩ | ⟨run, rfl, -⟩ := append_eq_append_iff.mp hgs
  · cases run with
    | nil => simp at hlt
    | cons g' run =>
      obtain ⟨rfl, -⟩ := cons.inj hrun
      simp only [flatten_append, flatten_cons, length_append]
      omega
  · simp only [flatten_append, length_append] at hlt
    omega

theorem mem_indexed (before : List JsText) (start : ℕ) :
    ⟨g, start + before.flatten.length⟩ ∈ indexed start (before ++ g :: after) := by
  induction before generalizing start with
  | nil => exact mem_cons_self
  | cons first before ih =>
    have hmem := ih (start + first.length)
    rw [Nat.add_assoc, ← length_append, ← flatten_cons] at hmem
    exact mem_cons_of_mem _ hmem

namespace MarkersOf

theorem placed_begins (h : MarkersOf text markers) {m : Marker} (hm : m ∈ markers)
    (hstart : m.start = seg.index) :
    placed text markers seg = some ⟨sliceOf text m.start m.stop, m.start⟩ := by
  have hbounds := h.bounds m hm
  unfold placed
  cases hfind : markers.find? fun m => decide (seg.index < m.stop) with
  | none => exact absurd (decide_eq_true (hstart ▸ hbounds.1)) (find?_eq_none.mp hfind m hm)
  | some m' =>
    obtain ⟨hfound, first, later, rfl, hfirst⟩ := find?_eq_some_iff_append.mp hfind
    obtain hm | hm := mem_append.mp hm
    · have hnot := hfirst m hm
      simp only [hstart ▸ hbounds.1, decide_true, Bool.not_true] at hnot
      exact absurd hnot Bool.false_ne_true
    · obtain rfl | hm := mem_cons.mp hm
      · simp [if_pos hstart.le, if_pos hstart.symm]
      · have hle := (pairwise_cons.mp (pairwise_append.mp h.apart).2.1).1 m hm
        have hlt := of_decide_eq_true hfound
        omega

theorem placed_inside (h : MarkersOf text markers) {m : Marker} (hm : m ∈ markers)
    (hstart : m.start < seg.index) (hstop : seg.index < m.stop) :
    placed text markers seg = none := by
  cases hplaced : placed text markers seg with
  | none => rfl
  | some s => exact absurd (placed_outside h.apart hplaced hm hstart) hstop.not_ge

end MarkersOf

theorem placed_clear (h : ∀ m ∈ markers, m.start ≤ seg.index → m.stop ≤ seg.index) :
    placed text markers seg = some seg := by
  unfold placed
  split
  · rfl
  · rename_i m hfind
    have hlt : seg.index < m.stop := by simpa using find?_some hfind
    rw [if_neg fun hstart => hlt.not_ge (h m (mem_of_find?_eq_some hfind) hstart)]

theorem Atomic.cons {piece : JsText} (h : Atomic text markers (start + piece.length) pieces)
    (hdrop : text.drop start = piece ++ text.drop (start + piece.length))
    (hatoms : ∀ m ∈ markers, start ≤ m.start → start + piece.length ≤ m.start ∨
      (⟨sliceOf text m.start m.stop, m.start⟩ : Segment) = ⟨piece, start⟩) :
    Atomic text markers start (⟨piece, start⟩ :: pieces) where
  consecutive := congrArg (⟨piece, start⟩ :: ·) h.consecutive
  whole := by rw [map_cons, flatten_cons, h.whole, hdrop]
  atoms := by
    intro m hm hle
    obtain hlater | hpiece := hatoms m hm hle
    · exact mem_cons_of_mem _ (h.atoms m hm hlater)
    · exact hpiece ▸ mem_cons_self

/-- From a grapheme on, the pieces begin where the marker ends that the grapheme is inside of. -/
theorem atomic_placed (hmarkers : MarkersOf text markers) (htext : (before ++ gs).flatten = text)
    (hgs : [] ∉ gs)
    (haligned : ∀ m ∈ markers, IsBoundary (before ++ gs) m.start ∧ IsBoundary (before ++ gs) m.stop)
    (hpast : ∀ m ∈ markers, m.start < before.flatten.length → m.stop ≤ start)
    (hstart : start = before.flatten.length ∨
      ∃ m ∈ markers, m.start < before.flatten.length ∧ before.flatten.length ≤ m.stop ∧
        start = m.stop) :
    Atomic text markers start
      ((indexed before.flatten.length gs).filterMap (placed text markers)) := by
  induction gs generalizing before start with
  | nil =>
    rw [append_nil] at htext
    rw [htext] at hstart
    have hend : start = text.length := by
      obtain rfl | ⟨m, hm, -, hle, rfl⟩ := hstart
      · rfl
      · exact (hmarkers.bounds m hm).2.antisymm hle
    subst hend
    refine ⟨rfl, drop_length.symm, fun m hm hle => ?_⟩
    have hbounds := hmarkers.bounds m hm
    omega
  | cons g gs ih =>
    have hpos : 0 < g.length := length_pos_of_ne_nil fun hnil => hgs (hnil ▸ mem_cons_self)
    have hnext : (before ++ [g]).flatten.length = before.flatten.length + g.length := by simp
    have hrest := fun start => @ih (before ++ [g]) start
    rw [append_assoc, singleton_append, hnext] at hrest
    replace hrest := fun start => hrest start htext (fun hnil => hgs (mem_cons_of_mem _ hnil))
      haligned
    rw [indexed, filterMap_cons]
    by_cases hinside : ∃ m ∈ markers, m.start ≤ before.flatten.length ∧
      before.flatten.length < m.stop
    · obtain ⟨m, hm, hle, hlt⟩ := hinside
      have hstop := (haligned m hm).2.skips hlt
      have hapart : ∀ m' ∈ markers, before.flatten.length ≤ m'.start → m'.start < m.stop →
          m' = m := fun m' hm' hfrom huntil =>
        hmarkers.eq_of_mem (i := m'.start) hm' hm ⟨le_refl _, (hmarkers.bounds m' hm').1⟩
          ⟨hle.trans hfrom, huntil⟩
      have hsame : ∀ m' ∈ markers, m'.start < before.flatten.length →
          before.flatten.length < m'.stop → m' = m := fun m' hm' hbefore hafter =>
        hmarkers.eq_of_mem hm' hm ⟨hbefore.le, hafter⟩ ⟨hle, hlt⟩
      have hlater := hrest m.stop (fun m' hm' hbefore => ?_) (.inr ⟨m, hm, by omega, hstop, rfl⟩)
      · obtain heq | hlt' := hle.eq_or_lt
        · have hlow : start = m.start := by
            rw [heq]
            obtain hstart | ⟨m', hm', hbefore, hafter, rfl⟩ := hstart
            · exact hstart
            · by_contra hne
              obtain rfl := hsame m' hm' hbefore (by omega)
              exact hbefore.ne heq
          rw [hmarkers.placed_begins hm heq, hlow]
          have hlength := sliceOf_length m.start (hmarkers.bounds m hm).2
          have hend : m.start + (sliceOf text m.start m.stop).length = m.stop := by omega
          refine Atomic.cons (hend.symm ▸ hlater) ?_ fun m' hm' hfrom => ?_
          · have hsplit := take_append_drop (m.stop - m.start) (text.drop m.start)
            rw [drop_drop, Nat.add_sub_cancel' (hmarkers.bounds m hm).1.le] at hsplit
            rw [hend, sliceOf, hsplit]
          · rw [hend]
            refine or_iff_not_imp_left.mpr fun hnot => ?_
            rw [hapart m' hm' (heq ▸ hfrom) (not_le.mp hnot)]
        · have hpastm := hpast m hm hlt'
          rw [hmarkers.placed_inside hm hlt' hlt]
          obtain rfl | ⟨m', hm', hbefore, hafter, rfl⟩ := hstart
          · omega
          · rw [hsame m' hm' hbefore (hlt.trans_le hpastm)]
            exact hlater
      · by_contra hover
        by_cases hbefore' : m'.start < before.flatten.length
        · exact hover (hsame m' hm' hbefore' (by omega) ▸ le_refl _)
        · exact hover (hapart m' hm' (not_lt.mp hbefore') (by omega) ▸ le_refl _)
    · have hclear : ∀ m ∈ markers, m.start ≤ before.flatten.length →
          m.stop ≤ before.flatten.length := fun m hm hle =>
        not_lt.mp fun hlt => hinside ⟨m, hm, hle, hlt⟩
      have hlow : start = before.flatten.length := by
        obtain hstart | ⟨m, hm, hbefore, hafter, rfl⟩ := hstart
        · exact hstart
        · exact (hclear m hm hbefore.le).antisymm hafter
      have hahead : ∀ m ∈ markers, before.flatten.length ≤ m.start →
          before.flatten.length + g.length ≤ m.start := by
        intro m hm hle
        refine (haligned m hm).1.skips (hle.lt_of_ne fun heq => ?_)
        have hstop := hclear m hm heq.ge
        have hbounds := hmarkers.bounds m hm
        omega
      rw [placed_clear hclear, hlow]
      refine (hrest (before.flatten.length + g.length) (fun m hm hbefore => ?_) (.inl rfl)).cons ?_
        fun m hm hle => .inl (hahead m hm hle)
      · have hle : m.start ≤ before.flatten.length := not_lt.mp fun hlt =>
          hbefore.not_ge (hahead m hm hlt.le)
        exact (hclear m hm hle).trans (Nat.le_add_right _ _)
      · rw [← htext, flatten_append, flatten_cons, drop_left, ← drop_drop, drop_left, drop_left]

variable {U : TextUnits} {validIds : List ℕ}

theorem Atomic.isBoundary (hU : U.Lawful)
    (h : Atomic text (validMarkers text validIds) 0 (segmentWithMarkers U text validIds))
    {m : Marker} (hm : m ∈ validMarkers text validIds) :
    IsBoundary (U.segment text) m.start ∧ IsBoundary (U.segment text) m.stop := by
  have hpieces : ∀ seg ∈ segmentWithMarkers U text validIds,
      IsBoundary (U.segment text) seg.index := by
    intro seg hseg
    rw [segmentWithMarkers_eq hU] at hseg
    obtain ⟨base, hbase, hplaced⟩ := mem_filterMap.mp hseg
    rw [placed_index hplaced]
    exact (run_of_mem_indexed hbase).isBoundary_left
  have hmem := h.atoms m hm (Nat.zero_le _)
  refine ⟨hpieces _ hmem, ?_⟩
  have hbounds := validMarkers_bounds hm
  have hlength := sliceOf_length m.start hbounds.2
  rw [h.consecutive] at hmem
  obtain ⟨before, after, htexts, hbefore, hstop⟩ := run_of_mem_indexed hmem
  have hend : before.flatten.length + (sliceOf text m.start m.stop).length = m.stop := by
    simp only at hbefore
    omega
  cases after with
  | nil =>
    have hwhole := congrArg length h.whole
    rw [htexts] at hwhole
    simp only [append_nil, flatten_append, flatten_singleton, length_append, drop_zero, hend]
      at hwhole
    exact hwhole ▸ isBoundary_end hU text
  | cons next after =>
    -- the next piece begins where the marker ends
    have hnext : (⟨next, 0 + (before ++ [sliceOf text m.start m.stop]).flatten.length⟩ : Segment) ∈
        segmentWithMarkers U text validIds := by
      rw [h.consecutive, htexts]
      exact mem_indexed _ 0
    have hindex := hpieces _ hnext
    simp only [flatten_append, flatten_singleton, length_append, Nat.zero_add, hend] at hindex
    exact hindex

/-- The pieces of a text make it up, with every valid marker as one of them, exactly if each valid
marker begins and ends between two graphemes. -/
theorem segmentWithMarkers_atomic_iff (hU : U.Lawful) (text : JsText) (validIds : List ℕ) :
    Atomic text (validMarkers text validIds) 0 (segmentWithMarkers U text validIds) ↔
      ∀ m ∈ validMarkers text validIds,
        IsBoundary (U.segment text) m.start ∧ IsBoundary (U.segment text) m.stop := by
  refine ⟨fun h m hm => h.isBoundary hU hm, fun haligned => ?_⟩
  rw [segmentWithMarkers_eq hU]
  exact @atomic_placed _ _ _ [] 0 (markersOf_validMarkers text validIds) (hU.flatten text)
    (hU.nonempty text) haligned (fun m _ hlt => absurd hlt (Nat.not_lt_zero _)) (.inl rfl)

/-- A unit that combines goes with the one before it. -/
def combiningUnits : TextUnits :=
  { segment := fun text => text.splitBy fun _ c => c == 0x301
    visibleWidth := fun text => (text.filter (· ≠ 0x301)).length }

theorem combiningUnits_lawful : combiningUnits.Lawful where
  flatten _ := flatten_splitBy _ _
  nonempty _ := nil_notMem_splitBy _ _

/-- `[paste #1]` and a combining accent. -/
def accentedMarker : JsText :=
  [0x5b, 0x70, 0x61, 0x73, 0x74, 0x65, 0x20, 0x23, 0x31, 0x5d, 0x301]

theorem segmentWithMarkers_atomic_iff_accented :
    Atomic accentedMarker (validMarkers accentedMarker [1]) 0
        (segmentWithMarkers combiningUnits accentedMarker [1]) ↔
      ∀ m ∈ validMarkers accentedMarker [1],
        IsBoundary (combiningUnits.segment accentedMarker) m.start ∧
          IsBoundary (combiningUnits.segment accentedMarker) m.stop :=
  segmentWithMarkers_atomic_iff combiningUnits_lawful accentedMarker [1]

theorem accentedMarker_not_atomic : combiningUnits.Lawful ∧
    ¬Atomic accentedMarker (validMarkers accentedMarker [1]) 0
      (segmentWithMarkers combiningUnits accentedMarker [1]) := by
  refine ⟨combiningUnits_lawful, fun h => ?_⟩
  have hwhole : ((segmentWithMarkers combiningUnits accentedMarker [1]).map (·.text)).flatten ≠
      accentedMarker := by decide
  exact hwhole h.whole

end Draht
