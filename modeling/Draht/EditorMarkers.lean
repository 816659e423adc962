import Draht.EditorChunks

/-!
# The markers among the segments

The markers of a line lie one after the other and are printable. A grapheme becomes the marker that
begins where the grapheme does, is taken out where it begins inside of a marker, and stays
otherwise.
-/

namespace Draht
open List Option

def IsPrintable (c : UInt16) : Prop := 0x20 ≤ c ∧ c ≤ 0x7e

instance (c : UInt16) : Decidable (IsPrintable c) := inferInstanceAs (Decidable (_ ∧ _))

section Pattern

variable {text rest : JsText}

/-- Something printable and `rest` make up the text. -/
def Printed (text rest : JsText) : Prop :=
  ∃ matched, text = matched ++ rest ∧ ∀ c ∈ matched, IsPrintable c

theorem Printed.trans {mid : JsText} (h : Printed text mid) (h' : Printed mid rest) :
    Printed text rest := by
  obtain ⟨first, rfl, hfirst⟩ := h
  obtain ⟨second, rfl, hsecond⟩ := h'
  exact ⟨first ++ second, (append_assoc ..).symm, forall_mem_append.mpr ⟨hfirst, hsecond⟩⟩

theorem printed_dropPrefix {pattern : JsText} (hpattern : pattern.all (IsPrintable ·) = true)
    (h : text.dropPrefix? pattern = some rest) : Printed text rest := by
  rw [dropPrefix?_eq_some_iff] at h
  obtain ⟨found, rfl, hfound⟩ := h
  obtain rfl := beq_iff_eq.mp hfound
  exact ⟨found, rfl, fun c hc => decide_eq_true_iff.mp (all_eq_true.mp hpattern c hc)⟩

theorem isPrintable_of_isDigitUnit {c : UInt16} (h : isDigitUnit c = true) : IsPrintable c := by
  simp only [isDigitUnit, Bool.and_eq_true, decide_eq_true_eq] at h
  exact ⟨UInt16.le_trans (by decide) h.1, UInt16.le_trans h.2 (by decide)⟩

theorem printed_digitsFrom {d : JsText × JsText} (h : digitsFrom text = some d) :
    Printed text d.2 := by
  have hdigits : ∀ c ∈ text.takeWhile isDigitUnit, IsPrintable c :=
    fun c hc => isPrintable_of_isDigitUnit (mem_takeWhile_imp hc)
  have hrest : d.2 = text.dropWhile isDigitUnit := by
    unfold digitsFrom at h
    split at h
    · cases h
    · exact (some.inj h ▸ rfl)
  exact ⟨_, hrest ▸ (takeWhile_append_dropWhile).symm, hdigits⟩

theorem printed_countFrom (h : countFrom text = some rest) : Printed text rest := by
  unfold countFrom at h
  split at h
  · rename_i lined hlined
    obtain ⟨d, hd, hlines⟩ := bind_eq_some_iff.mp h
    exact (printed_dropPrefix (by decide) hlined).trans
      ((printed_digitsFrom hd).trans (printed_dropPrefix (by decide) hlines))
  · obtain ⟨spaced, hspace, h⟩ := bind_eq_some_iff.mp h
    obtain ⟨d, hd, hchars⟩ := bind_eq_some_iff.mp h
    exact (printed_dropPrefix (by decide) hspace).trans
      ((printed_digitsFrom hd).trans (printed_dropPrefix (by decide) hchars))

theorem printed_markerFrom {m : JsText × JsText} (h : markerFrom text = some m) :
    Printed text m.2 := by
  obtain ⟨named, hnamed, h⟩ := bind_eq_some_iff.mp h
  obtain ⟨d, hd, h⟩ := bind_eq_some_iff.mp h
  obtain ⟨closed, hclosed, rfl⟩ := map_eq_some_iff.mp h
  have hcount : Printed d.2 ((countFrom d.2).getD d.2) := by
    cases hcount : countFrom d.2 with
    | none => exact ⟨[], rfl, nofun⟩
    | some rest => exact printed_countFrom hcount
  exact (printed_dropPrefix (by decide) hnamed).trans
    ((printed_digitsFrom hd).trans (hcount.trans (printed_dropPrefix (by decide) hclosed)))

end Pattern

section Markers

variable {text : JsText} {index taken : ℕ} {m : Marker}

theorem markersFrom_start_le (h : m ∈ markersFrom index taken text) :
    index + taken ≤ m.start := by
  induction text generalizing index taken with
  | nil => simp [markersFrom] at h
  | cons c text ih =>
    cases taken with
    | succ taken =>
      have hrest := ih h
      omega
    | zero =>
      unfold markersFrom at h
      cases hmarker : markerFrom (c :: text) with
      | none =>
        rw [hmarker] at h
        have hrest := ih h
        omega
      | some found =>
        rw [hmarker] at h
        obtain rfl | h := mem_cons.mp h
        · exact le_refl _
        · have hrest := ih h
          omega

theorem markersFrom_pairwise (index taken : ℕ) (text : JsText) :
    (markersFrom index taken text).Pairwise fun m m' => m.stop ≤ m'.start := by
  induction text generalizing index taken with
  | nil => simp [markersFrom]
  | cons c text ih =>
    cases taken with
    | succ taken => exact ih _ _
    | zero =>
      unfold markersFrom
      cases hmarker : markerFrom (c :: text) with
      | none => exact ih _ _
      | some found =>
        refine pairwise_cons.mpr ⟨fun m hm => ?_, ih _ _⟩
        have hstart := markersFrom_start_le hm
        simp only
        omega

theorem markersFrom_printable {before : JsText} (h : m ∈ markersFrom before.length taken text) :
    ∀ c ∈ sliceOf (before ++ text) m.start m.stop, IsPrintable c := by
  induction text generalizing before taken with
  | nil => simp [markersFrom] at h
  | cons c text ih =>
    have hrest : ∀ taken, m ∈ markersFrom (before.length + 1) taken text →
        ∀ c' ∈ sliceOf (before ++ c :: text) m.start m.stop, IsPrintable c' := by
      intro taken hm
      have hshift := @ih taken (before ++ [c])
      rw [length_append, append_assoc] at hshift
      exact hshift hm
    cases taken with
    | succ taken => exact hrest taken h
    | zero =>
      unfold markersFrom at h
      cases hmarker : markerFrom (c :: text) with
      | none =>
        rw [hmarker] at h
        exact hrest 0 h
      | some found =>
        rw [hmarker] at h
        obtain rfl | h := mem_cons.mp h
        · obtain ⟨matched, htext, hmatched⟩ := printed_markerFrom hmarker
          have hlength : (c :: text).length - found.2.length = matched.length := by
            rw [htext, length_append, Nat.add_sub_cancel]
          rw [sliceOf, drop_left, Nat.add_sub_cancel_left, hlength, htext, take_left]
          exact hmatched
        · exact hrest _ h

def validMarkers (text : JsText) (validIds : List ℕ) : List Marker :=
  (markersFrom 0 0 text).filter fun m => m.id ∈ validIds

theorem validMarkers_pairwise (text : JsText) (validIds : List ℕ) :
    (validMarkers text validIds).Pairwise fun m m' => m.stop ≤ m'.start :=
  (markersFrom_pairwise 0 0 text).filter _

theorem validMarkers_bounds {validIds : List ℕ} (h : m ∈ validMarkers text validIds) :
    m.start < m.stop ∧ m.stop ≤ text.length := by
  have hbounds := markersFrom_bounds (mem_filter.mp h).1
  rwa [Nat.zero_add] at hbounds

theorem validMarkers_printable {validIds : List ℕ} (h : m ∈ validMarkers text validIds) :
    ∀ c ∈ sliceOf text m.start m.stop, IsPrintable c :=
  @markersFrom_printable text 0 m [] (mem_filter.mp h).1

end Markers

def placed (text : JsText) (markers : List Marker) (seg : Segment) : Option Segment :=
  match markers.find? fun m => decide (seg.index < m.stop) with
  | none => some seg
  | some m =>
    if m.start ≤ seg.index then
      if seg.index = m.start then some ⟨sliceOf text m.start m.stop, m.start⟩ else none
    else some seg

theorem find?_dropWhile_of {α : Type} {p q : α → Bool} (xs : List α)
    (h : ∀ x, q x = true → p x = false) : (xs.dropWhile q).find? p = xs.find? p := by
  induction xs with
  | nil => rfl
  | cons x xs ih =>
    rw [dropWhile_cons]
    split_ifs with hq
    · rw [ih, find?_cons_of_neg (by rw [h x hq]; exact Bool.false_ne_true)]
    · rfl

theorem mergeMarkers_eq {text : JsText} {start stop : ℕ} {segments : List Segment}
    (h : InOrder stop start segments) (markers : List Marker) :
    mergeMarkers text markers segments = segments.filterMap (placed text markers) := by
  induction segments generalizing markers start with
  | nil => rfl
  | cons seg segments ih =>
    have hlater : ∀ s ∈ segments, seg.index ≤ s.index := by
      intro s hs
      have hmem := h.2.mem hs
      omega
    -- what ends before this segment ends before every later one
    have hdrop : segments.filterMap (placed text (markers.dropWhile fun m =>
          decide (m.stop ≤ seg.index))) = segments.filterMap (placed text markers) := by
      refine filterMap_congr fun s hs => ?_
      unfold placed
      rw [find?_dropWhile_of]
      intro m hm
      have hle := hlater s hs
      simp only [decide_eq_true_eq, decide_eq_false_iff_not] at hm ⊢
      omega
    have hfind : markers.find? (fun m => decide (seg.index < m.stop)) =
        (markers.dropWhile fun m => decide (m.stop ≤ seg.index)).head? := by
      rw [find?_eq_head?_dropWhile_not]
      congr 2
      funext m
      rw [← decide_not, decide_eq_decide, not_lt]
    rw [filterMap_cons, ← hdrop, placed, hfind, mergeMarkers]
    cases hdropped : markers.dropWhile fun m => decide (m.stop ≤ seg.index) with
    | nil => exact congrArg (seg :: ·) (ih h.2 [])
    | cons marker later =>
      have hrest := ih h.2 (marker :: later)
      rw [hdropped] at hfind
      have hstop : seg.index < marker.stop := by simpa using find?_some hfind
      rw [head?_cons]
      simp only [hstop, and_true]
      by_cases hstart : marker.start ≤ seg.index
      · by_cases hbegins : seg.index = marker.start
        · simp only [if_pos hstart, if_pos hbegins, hrest]
          rfl
        · simp [if_pos hstart, if_neg hbegins, hrest]
      · simp [if_neg hstart, hrest]

section Placed

variable {text : JsText} {markers : List Marker} {seg s : Segment}

theorem placed_cases (h : placed text markers seg = some s) :
    s = seg ∨ ∃ m ∈ markers, m.start = seg.index ∧ s = ⟨sliceOf text m.start m.stop, m.start⟩ := by
  unfold placed at h
  split at h
  · exact .inl (some.inj h).symm
  · rename_i m hm
    split_ifs at h with hstart hbegins
    · exact .inr ⟨m, mem_of_find?_eq_some hm, hbegins.symm, (some.inj h).symm⟩
    · exact .inl (some.inj h).symm

theorem placed_index (h : placed text markers seg = some s) : s.index = seg.index := by
  obtain rfl | ⟨m, -, hstart, rfl⟩ := placed_cases h
  · rfl
  · exact hstart

theorem placed_outside (hmarkers : markers.Pairwise fun m m' => m.stop ≤ m'.start)
    (h : placed text markers seg = some s) {m : Marker} (hm : m ∈ markers)
    (hstart : m.start < seg.index) : m.stop ≤ seg.index := by
  by_contra hstop
  have hlt : seg.index < m.stop := Nat.lt_of_not_le hstop
  unfold placed at h
  cases hfind : markers.find? (fun m => decide (seg.index < m.stop)) with
  | none => exact absurd (decide_eq_true hlt) (find?_eq_none.mp hfind m hm)
  | some m' =>
    obtain ⟨hfound, before, later, rfl, hbefore⟩ := find?_eq_some_iff_append.mp hfind
    have hlt' : seg.index < m'.stop := of_decide_eq_true hfound
    obtain hm | hm := mem_append.mp hm
    · have hnot := hbefore m hm
      rw [decide_eq_true hlt] at hnot
      exact Bool.false_ne_true hnot
    · obtain rfl | hm := mem_cons.mp hm
      · rw [hfind] at h
        simp only [if_pos hstart.le, if_neg hstart.ne'] at h
        exact some_ne_none _ h.symm
      · have hpairs := (pairwise_append.mp hmarkers).2.1
        have hle := (pairwise_cons.mp hpairs).1 m hm
        omega

end Placed

section Segments

variable {U : TextUnits} {text : JsText} {validIds : List ℕ}

theorem segmentWithMarkers_eq (hU : U.Lawful) (text : JsText) (validIds : List ℕ) :
    segmentWithMarkers U text validIds =
      (baseSegments U text).filterMap (placed text (validMarkers text validIds)) := by
  unfold segmentWithMarkers
  split
  · rename_i hnone
    have hplaced : placed text (validMarkers text validIds) = some := by
      rw [validMarkers, hnone]
      rfl
    rw [hplaced, filterMap_some]
  · exact mergeMarkers_eq (inOrder_baseSegments hU text) _

theorem inLine_segmentWithMarkers (hU : U.Lawful) (text : JsText) (validIds : List ℕ) :
    InLine text 0 (segmentWithMarkers U text validIds) := by
  have hbase := inLine_baseSegments hU text
  have hplaced : ∀ s ∈ segmentWithMarkers U text validIds, s ∈ baseSegments U text ∨
      ∃ m ∈ validMarkers text validIds, s = ⟨sliceOf text m.start m.stop, m.start⟩ := by
    intro s hs
    rw [segmentWithMarkers_eq hU] at hs
    obtain ⟨seg, hseg, hs⟩ := mem_filterMap.mp hs
    obtain rfl | ⟨m, hm, -, rfl⟩ := placed_cases hs
    · exact .inl hseg
    · exact .inr ⟨m, hm, rfl⟩
  refine ⟨inOrder_segmentWithMarkers hU text validIds, fun s hs hnil => ?_, fun s hs => ?_⟩
  · obtain hseg | ⟨m, hm, rfl⟩ := hplaced s hs
    · exact hbase.nonempty s hseg hnil
    · have hbounds := validMarkers_bounds hm
      have hlength := sliceOf_length m.start hbounds.2
      simp only at hnil
      rw [hnil, length_nil] at hlength
      omega
  · obtain hseg | ⟨m, hm, rfl⟩ := hplaced s hs
    · exact hbase.slices s hseg
    · have hbounds := validMarkers_bounds hm
      rw [sliceOf_length _ hbounds.2, Nat.add_sub_cancel' hbounds.1.le]

theorem head?_segmentWithMarkers (hU : U.Lawful) (hne : text ≠ []) (validIds : List ℕ) :
    ∃ seg, (segmentWithMarkers U text validIds).head? = some seg ∧ seg.index = 0 := by
  rw [segmentWithMarkers_eq hU, baseSegments]
  cases hsegment : U.segment text with
  | nil =>
    have hflatten := hU.flatten text
    rw [hsegment] at hflatten
    exact absurd hflatten.symm hne
  | cons g gs =>
    have hplaced : ∃ seg, placed text (validMarkers text validIds) ⟨g, 0⟩ = some seg := by
      unfold placed
      split
      · exact ⟨_, rfl⟩
      · rename_i m hm
        split_ifs with hstart hbegins
        · exact ⟨_, rfl⟩
        · exact absurd (Nat.le_zero.mp hstart).symm hbegins
        · exact ⟨_, rfl⟩
    obtain ⟨seg, hseg⟩ := hplaced
    refine ⟨seg, ?_, placed_index hseg⟩
    rw [indexed, filterMap_cons_some hseg, head?_cons]

end Segments

end Draht
