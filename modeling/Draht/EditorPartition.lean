import Mathlib.Data.List.MinMax
import Draht.EditorWidths

/-!
# Wrapping partitions a line

While the segments of a line count its columns, the wrapping knows how wide the chunk is that it is
in. So no chunk is too wide, and a chunk ends inside of a marker only where the marker is itself
wider than a line.
-/

namespace Draht
open List Option

/-- No marker that fits in a line is cut at `i`. -/
def Uncut (U : TextUnits) (line : JsText) (maxWidth : ℕ) (markers : List Marker) (i : ℕ) : Prop :=
  ∀ m ∈ markers, U.visibleWidth (sliceOf line m.start m.stop) ≤ maxWidth → m.start < i → m.stop ≤ i

/-- The chunks of a line are wide enough for nothing more, and cut no marker that fits. -/
def Fits (U : TextUnits) (line : JsText) (maxWidth : ℕ) (markers : List Marker)
    (c : TextChunk) : Prop :=
  U.visibleWidth c.text ≤ maxWidth ∧ Uncut U line maxWidth markers c.endIndex

structure Fitting (U : TextUnits) (line : JsText) (maxWidth : ℕ) (markers : List Marker)
    (w : WordWrap) (segments : List Segment) : Prop where
  tiling : Tiling line w segments
  start : IsBoundary (U.segment line) w.chunkStart
  measured : columns U (U.segment line) (nextIndex line.length segments) =
    columns U (U.segment line) w.chunkStart + w.currentWidth
  narrow : w.currentWidth ≤ maxWidth
  opp : ∀ i k, w.wrapOpp = some (i, k) → IsBoundary (U.segment line) i ∧
    Uncut U line maxWidth markers i ∧
      columns U (U.segment line) i = columns U (U.segment line) w.chunkStart + k
  chunks : ∀ c ∈ w.chunks, Fits U line maxWidth markers c
  stands : ∀ seg ∈ segments, Stands U line markers seg ∧ Uncut U line maxWidth markers seg.index
  counted : Counted U line segments

section Loop

variable {U : TextUnits} {line : JsText} {maxWidth : ℕ} {markers : List Marker} {w : WordWrap}
  {seg : Segment} {segments : List Segment}

variable (hU : U.Lawful) (hM : U.Measured)

include hU hM

theorem Fitting.pushUntil {i c : ℕ} (h : Fitting U line maxWidth markers w (seg :: segments))
    (hi : IsBoundary (U.segment line) i) (hcut : Uncut U line maxWidth markers i)
    (hle : w.chunkStart ≤ i) (hseg : i ≤ seg.index) (hin : InLine line i (seg :: segments))
    (hc : columns U (U.segment line) seg.index = columns U (U.segment line) i + c) :
    Fitting U line maxWidth markers
      { w.pushUntil line i with currentWidth := c, wrapOpp := none } (seg :: segments) := by
  have hmeasured := h.measured
  have hwidth := visibleWidth_slice_le hU hM h.start hi hle
  have hnarrow := h.narrow
  have hlength := h.tiling.inLine.seg_lt
  simp only [nextIndex] at hmeasured
  have hc' : c ≤ maxWidth := by omega
  refine ⟨h.tiling.pushUntil hle (by omega) hin c, hi, hc, hc',
    fun _ _ hopp => absurd hopp.symm (some_ne_none _), ?_, h.stands, h.counted⟩
  refine forall_mem_append.mpr ⟨h.chunks, fun chunk hchunk => ?_⟩
  obtain rfl := mem_singleton.mp hchunk
  exact ⟨show U.visibleWidth (sliceOf line w.chunkStart i) ≤ maxWidth by omega, hcut⟩

theorem Fitting.overflow (h : Fitting U line maxWidth markers w (seg :: segments)) :
    Fitting U line maxWidth markers
        (w.overflow line maxWidth (U.visibleWidth seg.text) seg.index) (seg :: segments) ∧
      (U.visibleWidth seg.text ≤ maxWidth →
        (w.overflow line maxWidth (U.visibleWidth seg.text) seg.index).currentWidth +
          U.visibleWidth seg.text ≤ maxWidth) := by
  have hmeasured := h.measured
  simp only [nextIndex] at hmeasured
  obtain ⟨hroom, hw⟩ | ⟨hover, ⟨i, k, hopp, hroom, hw⟩ | ⟨hlt, hw⟩ | ⟨hle, hw⟩⟩ :=
    w.overflow_cases line maxWidth (U.visibleWidth seg.text) seg.index
  · rw [hw]
    exact ⟨h, fun _ => hroom⟩
  · obtain ⟨hi, hcut, hcolumns⟩ := h.opp i k hopp
    obtain ⟨hle, -, hin⟩ := h.tiling.opp i k hopp
    have hmono := columns_mono (U := U) (hU.nonempty line) hi
      (h.stands seg mem_cons_self).1.isBoundary hin.start_le
    rw [hw]
    exact ⟨h.pushUntil hU hM hi hcut hle hin.start_le hin (by omega), fun _ => hroom⟩
  · obtain ⟨hstands, hcut⟩ := h.stands seg mem_cons_self
    rw [hw]
    exact ⟨h.pushUntil hU hM hstands.isBoundary hcut hlt.le le_rfl h.tiling.inLine.from_index
      rfl, fun hfits => by simpa using hfits⟩
  · have hstart := h.tiling.inLine.start_le.antisymm hle
    rw [← hstart] at hmeasured
    rw [hw]
    refine ⟨⟨⟨h.tiling.tiles, h.tiling.start_lt, h.tiling.inLine, ?_⟩, h.start, h.measured,
      h.narrow, ?_, h.chunks, h.stands, h.counted⟩, fun hfits => ?_⟩
    · exact fun _ _ hopp => absurd hopp.symm (some_ne_none _)
    · exact fun _ _ hopp => absurd hopp.symm (some_ne_none _)
    · omega

omit hU hM

theorem Fitting.advance (h : Fitting U line maxWidth markers w (seg :: segments))
    (hroom : w.currentWidth + U.visibleWidth seg.text ≤ maxWidth) :
    Fitting U line maxWidth markers (w.advance U seg segments.head?) segments := by
  have hmeasured := h.measured
  obtain ⟨hcounted, hlater⟩ := h.counted
  simp only [nextIndex] at hmeasured
  have hnext : columns U (U.segment line) (nextIndex line.length segments) =
      columns U (U.segment line) w.chunkStart + (w.currentWidth + U.visibleWidth seg.text) := by
    omega
  refine ⟨h.tiling.advance, h.start, hnext, hroom, fun i k hopp => ?_, h.chunks,
    fun s hs => h.stands s (mem_cons_of_mem _ hs), hlater⟩
  cases segments with
  | nil => exact h.opp i k hopp
  | cons next segments =>
    simp only [WordWrap.advance, head?_cons] at hopp
    split_ifs at hopp
    · obtain ⟨rfl, rfl⟩ := Prod.mk.inj (some.inj hopp)
      obtain ⟨hstands, hcut⟩ := h.stands next (mem_cons_of_mem _ mem_cons_self)
      exact ⟨hstands.isBoundary, hcut, hnext⟩
    · exact h.opp i k hopp

theorem uncut_of_wide (hmarkers : MarkersOf line markers) {m : Marker} (hm : m ∈ markers)
    (hwide : maxWidth < U.visibleWidth (sliceOf line m.start m.stop)) {i : ℕ}
    (hi : m.start ≤ i ∧ i < m.stop) : Uncut U line maxWidth markers i := by
  intro m' hm' hfits hstart
  by_contra hstop
  obtain rfl := hmarkers.eq_of_mem hm hm' hi ⟨hstart.le, Nat.lt_of_not_le hstop⟩
  exact hwide.not_ge hfits

theorem Fitting.splice (hU : U.Lawful) (hM : U.Measured) (hmarkers : MarkersOf line markers)
    {subChunks : List TextChunk} {last : TextChunk} {m : Marker}
    (h : Fitting U line maxWidth markers w (⟨sliceOf line m.start m.stop, m.start⟩ :: segments))
    (hm : m ∈ markers) (hwide : maxWidth < U.visibleWidth (sliceOf line m.start m.stop))
    (hstart : w.chunkStart = m.start) (hsub : TilesLine (sliceOf line m.start m.stop) subChunks)
    (hnarrow : ∀ c ∈ subChunks, U.visibleWidth c.text ≤ maxWidth)
    (hlast : subChunks.getLast? = some last) :
    Fitting U line maxWidth markers (w.splice U m.start subChunks last) segments := by
  obtain ⟨hlt, hstop⟩ := hmarkers.bounds m hm
  have hprintable := hmarkers.printable m hm
  have hlength := sliceOf_length m.start hstop
  have hlastLt := hsub.last_lt last hlast
  obtain ⟨htiles, -, htext, hend⟩ := hsub.tiles.dropLast hlast
  rw [hlength] at hlastLt hend
  have hlastWidth : U.visibleWidth last.text = m.stop - m.start - last.startIndex := by
    rw [hM.ascii, htext, sliceOf_length _ (by omega), hend]
    intro c hc
    rw [htext] at hc
    exact hprintable c (mem_of_mem_drop (mem_of_mem_take hc))
  have hslice : sliceOf line m.start (m.start + (m.stop - m.start)) =
      sliceOf line m.start m.stop := by rw [Nat.add_sub_cancel' hlt.le]
  obtain ⟨run, hrun, hsum⟩ := run_of_printable hU hM
    (h.stands _ mem_cons_self).1.isBoundary (by simp only; omega)
    (hslice.symm ▸ hprintable) hlastLt
  have hcolumns := hrun.columns_eq (U := U) (hU.nonempty line)
  obtain ⟨hcounted, hlater⟩ := h.counted
  simp only at hcounted hcolumns
  rw [hM.ascii _ hprintable, hlength] at hcounted
  have hmeasured : columns U (U.segment line) (nextIndex line.length segments) =
      columns U (U.segment line) (m.start + last.startIndex) + U.visibleWidth last.text := by
    omega
  refine ⟨h.tiling.splice hstart hsub hlast, hrun.isBoundary_right, hmeasured,
    hnarrow last (mem_of_getLast? hlast),
    fun _ _ hopp => absurd hopp.symm (some_ne_none _), ?_,
    fun s hs => h.stands s (mem_cons_of_mem _ hs), hlater⟩
  refine forall_mem_append.mpr ⟨h.chunks, forall_mem_map.mpr fun c hc => ?_⟩
  have hcEnd := htiles.endIndex_le hc
  refine ⟨hnarrow c (mem_of_mem_dropLast hc), uncut_of_wide hmarkers hm hwide ?_⟩
  simp only [TextChunk.moved]
  omega

theorem Stands.marker_of_wide (h : Stands U line markers seg)
    (hgraphemes : ∀ g ∈ U.segment line, U.visibleWidth g ≤ maxWidth)
    (hwide : maxWidth < U.visibleWidth seg.text) :
    ∃ m ∈ markers, seg = ⟨sliceOf line m.start m.stop, m.start⟩ := by
  obtain ⟨before, after, hgs, -, -⟩ | ⟨-, hmarker⟩ := h
  · refine absurd (hgraphemes seg.text ?_) hwide.not_ge
    rw [hgs]
    exact mem_append_left _ (mem_append_right _ (mem_singleton_self _))
  · exact hmarker

theorem wrapSegments_fitting (hU : U.Lawful) (hM : U.Measured) (hmarkers : MarkersOf line markers)
    (hgraphemes : ∀ g ∈ U.segment line, U.visibleWidth g ≤ maxWidth)
    {wrapSub : JsText → Option (List TextChunk)}
    (hsub : ∀ m ∈ markers, maxWidth < U.visibleWidth (sliceOf line m.start m.stop) →
      ∀ subChunks, wrapSub (sliceOf line m.start m.stop) = some subChunks →
        TilesLine (sliceOf line m.start m.stop) subChunks ∧
          ∀ c ∈ subChunks, U.visibleWidth c.text ≤ maxWidth)
    {w' : WordWrap} (h : Fitting U line maxWidth markers w segments)
    (hw : wrapSegments U line maxWidth wrapSub w segments = some w') :
    Fitting U line maxWidth markers w' [] := by
  refine wrapSegments_kept ?_ ?_ h hw
  · intro w seg segments subChunks last hfitting hwide hchunks hlast
    obtain ⟨m, hm, rfl⟩ :=
      (hfitting.stands seg mem_cons_self).1.marker_of_wide hgraphemes hwide
    obtain ⟨htiles, hnarrow⟩ := hsub m hm hwide subChunks hchunks
    exact (hfitting.overflow hU hM).1.splice hU hM hmarkers hm hwide
      (WordWrap.overflow_chunkStart hwide hfitting.tiling.inLine.start_le) htiles hnarrow hlast
  · intro w seg segments hfitting hfits
    obtain ⟨hchecked, hroom⟩ := hfitting.overflow hU hM
    exact hchecked.advance (hroom hfits)

end Loop

section Line

variable {U : TextUnits} {line : JsText} {maxWidth fuel : ℕ} {markers : List Marker}
  {segments : List Segment} {chunks : List TextChunk}

/-- The segments of a line, from its start on, that count its columns. -/
structure Counting (U : TextUnits) (line : JsText) (maxWidth : ℕ) (markers : List Marker)
    (segments : List Segment) : Prop where
  markersOf : MarkersOf line markers
  inLine : InLine line 0 segments
  begins : nextIndex line.length segments = 0
  stands : ∀ seg ∈ segments, Stands U line markers seg ∧ Uncut U line maxWidth markers seg.index
  counted : Counted U line segments

theorem Counting.fits_of_sub (hU : U.Lawful) (hM : U.Measured)
    (h : Counting U line maxWidth markers segments) (hpos : 0 < maxWidth) (hne : line ≠ [])
    (hgraphemes : ∀ g ∈ U.segment line, U.visibleWidth g ≤ maxWidth)
    (hsub : ∀ m ∈ markers, ∀ subChunks,
      wordWrapLine U maxWidth fuel (sliceOf line m.start m.stop)
        (baseSegments U (sliceOf line m.start m.stop)) = some subChunks →
          ∀ c ∈ subChunks, U.visibleWidth c.text ≤ maxWidth)
    (hchunks : wordWrapLine U maxWidth (fuel + 1) line segments = some chunks) :
    ∀ c ∈ chunks, Fits U line maxWidth markers c := by
  have hend : Uncut U line maxWidth markers line.length :=
    fun m hm _ _ => (h.markersOf.bounds m hm).2
  rw [wordWrapLine, if_neg (not_or.mpr ⟨hne, hpos.ne'⟩)] at hchunks
  split_ifs at hchunks with hwhole
  · cases hchunks
    intro c hc
    obtain rfl := mem_singleton.mp hc
    exact ⟨hwhole, hend⟩
  · obtain ⟨w, hw, rfl⟩ := map_eq_some_iff.mp hchunks
    have hstart : Fitting U line maxWidth markers
        { chunks := [], currentWidth := 0, chunkStart := 0, wrapOpp := none } segments := by
      refine ⟨tiling_start hne h.inLine, isBoundary_zero _, ?_, Nat.zero_le _,
        fun _ _ hopp => absurd hopp.symm (some_ne_none _),
        fun _ hnil => absurd hnil not_mem_nil, h.stands, h.counted⟩
      rw [h.begins]
      rfl
    have hfitting := wrapSegments_fitting hU hM h.markersOf hgraphemes
      (fun m hm hwide subChunks hsubChunks => ⟨wordWrapLine_tiles hU hpos (by
          have hlength := sliceOf_length m.start (h.markersOf.bounds m hm).2
          have hlt := (h.markersOf.bounds m hm).1
          intro hnil
          rw [hnil, length_nil] at hlength
          omega) (inLine_baseSegments hU _) hsubChunks, hsub m hm subChunks hsubChunks⟩)
      hstart hw
    refine forall_mem_append.mpr ⟨hfitting.chunks, fun c hc => ?_⟩
    obtain rfl := mem_singleton.mp hc
    refine ⟨?_, hend⟩
    have hwidth := visibleWidth_slice_le hU hM hfitting.start (isBoundary_end hU line)
      hfitting.tiling.start_lt.le
    have hmeasured := hfitting.measured
    have hnarrow := hfitting.narrow
    simp only [nextIndex, sliceOf_to_end] at hwidth hmeasured ⊢
    omega

theorem nextIndex_eq_zero (stop : ℕ)
    (hhead : ∃ seg, segments.head? = some seg ∧ seg.index = 0) : nextIndex stop segments = 0 := by
  obtain ⟨seg, hseg, hindex⟩ := hhead
  cases segments with
  | nil => cases hseg
  | cons first segments => exact some.inj hseg ▸ hindex

theorem columns_end (hU : U.Lawful) (line : JsText) :
    columns U (U.segment line) line.length = ((U.segment line).map U.visibleWidth).sum := by
  have hcolumns := columns_flatten (U := U) (hU.nonempty line) []
  rwa [append_nil, hU.flatten] at hcolumns

theorem counting_segmentWithMarkers (hU : U.Lawful) (hM : U.Measured) (hne : line ≠ [])
    {validIds : List ℕ}
    (hcounts : ((U.segment line).map U.visibleWidth).sum ≤
      ((segmentWithMarkers U line validIds).map fun seg => U.visibleWidth seg.text).sum) :
    Counting U line maxWidth (validMarkers line validIds)
      (segmentWithMarkers U line validIds) := by
  have hmarkers := markersOf_validMarkers line validIds
  have hin := inLine_segmentWithMarkers hU line validIds
  have hbegins := nextIndex_eq_zero line.length (head?_segmentWithMarkers hU hne validIds)
  have hstands : ∀ seg ∈ segmentWithMarkers U line validIds,
      Stands U line (validMarkers line validIds) seg ∧
        Uncut U line maxWidth (validMarkers line validIds) seg.index := by
    intro s hs
    rw [segmentWithMarkers_eq hU] at hs
    obtain ⟨seg, hseg, hs⟩ := mem_filterMap.mp hs
    have hrun := run_of_mem_indexed hseg
    refine ⟨?_, fun m hm _ hstart => ?_⟩
    · obtain rfl | ⟨m, hm, hstart, rfl⟩ := placed_cases hs
      · exact .inl hrun
      · exact .inr ⟨hstart.symm ▸ hrun.isBoundary_left, m, hm, rfl⟩
    · rw [placed_index hs] at hstart ⊢
      exact placed_outside hmarkers.apart hs hm hstart
  refine ⟨hmarkers, hin, hbegins, hstands, ?_⟩
  refine (columns_sum_le hU hM hmarkers hin.inOrder fun s hs => (hstands s hs).1).2 ?_
  rw [columns_end hU, hbegins, columns_zero, Nat.zero_add]
  exact hcounts

theorem segmentWithMarkers_nil (U : TextUnits) (text : JsText) :
    segmentWithMarkers U text [] = baseSegments U text := by
  have hnone : ((markersFrom 0 0 text).filter fun m => m.id ∈ ([] : List ℕ)) = [] := by simp
  rw [segmentWithMarkers, hnone]

theorem map_text_indexed (texts : List JsText) (start : ℕ) :
    (indexed start texts).map Segment.text = texts := by
  induction texts generalizing start with
  | nil => rfl
  | cons text texts ih => rw [indexed, map_cons, ih]

theorem sum_baseSegments (U : TextUnits) (text : JsText) :
    ((baseSegments U text).map fun seg => U.visibleWidth seg.text).sum =
      ((U.segment text).map U.visibleWidth).sum := by
  rw [← map_text_indexed (U.segment text) 0, List.map_map]
  rfl

theorem visibleWidth_grapheme_le_one (hU : U.Lawful) (hM : U.Measured) {text g : JsText}
    (htext : ∀ c ∈ text, IsPrintable c) (hg : g ∈ U.segment text) : U.visibleWidth g ≤ 1 := by
  have hprintable : ∀ c ∈ g, IsPrintable c := by
    intro c hc
    refine htext c ?_
    rw [← hU.flatten text]
    exact mem_flatten_of_mem hg hc
  have hsingle := hM.single text g hg
  rw [filter_eq_self.mpr fun c hc => decide_eq_true (hprintable c hc)] at hsingle
  rwa [hM.ascii g hprintable]

theorem narrow_of_printable (hU : U.Lawful) (hM : U.Measured) (hpos : 0 < maxWidth)
    (hne : line ≠ []) (hprintable : ∀ c ∈ line, IsPrintable c)
    (hchunks : wordWrapLine U maxWidth fuel line (baseSegments U line) = some chunks) :
    ∀ c ∈ chunks, U.visibleWidth c.text ≤ maxWidth := by
  cases fuel with
  | zero => cases hchunks
  | succ fuel =>
    have hcounting := @counting_segmentWithMarkers U line maxWidth hU hM hne []
      (by rw [segmentWithMarkers_nil, sum_baseSegments])
    have hnone : validMarkers line [] = [] := by simp [validMarkers]
    rw [segmentWithMarkers_nil, hnone] at hcounting
    exact fun c hc => (hcounting.fits_of_sub hU hM hpos hne
      (fun g hg => (visibleWidth_grapheme_le_one hU hM hprintable hg).trans hpos)
      (fun _ hm => absurd hm not_mem_nil) hchunks c hc).1

theorem Tiles.exists_whole {start stop : ℕ} (h : Tiles line stop start chunks)
    (hfits : ∀ c ∈ chunks, Fits U line maxWidth markers c) {m : Marker} (hm : m ∈ markers)
    (hnarrow : U.visibleWidth (sliceOf line m.start m.stop) ≤ maxWidth)
    (hstart : start ≤ m.start) (hlt : m.start < m.stop) (hstop : m.stop ≤ stop) :
    ∃ c ∈ chunks, c.startIndex ≤ m.start ∧ m.stop ≤ c.endIndex := by
  induction chunks generalizing start with
  | nil =>
    have hempty : start = stop := h
    omega
  | cons c chunks ih =>
    obtain ⟨rfl, hle, -, hrest⟩ := h
    obtain hinside | hbefore := Nat.lt_or_ge m.start c.endIndex
    · exact ⟨c, mem_cons_self, hstart, (hfits c mem_cons_self).2 m hm hnarrow hinside⟩
    · obtain ⟨d, hd, hwhole⟩ :=
        ih hrest (fun d hd => hfits d (mem_cons_of_mem _ hd)) hbefore
      exact ⟨d, mem_cons_of_mem _ hd, hwhole⟩

end Line

/-- The chunks lie one after the other from the start of the line to its end, none is too wide, and
no marker that fits in a line is cut. -/
structure Partitions (U : TextUnits) (validIds : List ℕ) (line : JsText) (maxWidth : ℕ)
    (chunks : List TextChunk) : Prop where
  tiles : Tiles line line.length 0 chunks
  narrow : ∀ c ∈ chunks, U.visibleWidth c.text ≤ maxWidth
  whole : ∀ m ∈ validMarkers line validIds,
    U.visibleWidth (sliceOf line m.start m.stop) ≤ maxWidth →
      ∃ c ∈ chunks, c.startIndex ≤ m.start ∧ m.stop ≤ c.endIndex

/-- A line is wrapped into a partition of it, with one call for the line and one for each of its
segments. -/
def PartitionsLine (U : TextUnits) (validIds : List ℕ) (line : JsText) (maxWidth : ℕ) : Prop :=
  ∀ fuel, ∃ chunks, wordWrapLine U maxWidth (fuel + 2) line (segmentWithMarkers U line validIds) =
    some chunks ∧ Partitions U validIds line maxWidth chunks

def widestGrapheme (U : TextUnits) (line : JsText) : ℕ :=
  ((U.segment line).map U.visibleWidth).foldr max 0

def graphemesWidth (U : TextUnits) (line : JsText) : ℕ := ((U.segment line).map U.visibleWidth).sum

def segmentsWidth (U : TextUnits) (validIds : List ℕ) (line : JsText) : ℕ :=
  ((segmentWithMarkers U line validIds).map fun seg => U.visibleWidth seg.text).sum

/-- The segments count every column of the line, or the line is a line for every width. -/
def Counts (U : TextUnits) (validIds : List ℕ) (line : JsText) : Prop :=
  U.visibleWidth line ≤ widestGrapheme U line ∨
    graphemesWidth U line ≤ segmentsWidth U validIds line

section Partition

variable {U : TextUnits} {validIds : List ℕ} {line : JsText} {maxWidth : ℕ}

theorem visibleWidth_le_widestGrapheme {g : JsText} (hg : g ∈ U.segment line) :
    U.visibleWidth g ≤ widestGrapheme U line :=
  le_max_of_le' 0 (mem_map_of_mem hg) le_rfl

theorem partitions_whole (hfits : U.visibleWidth line ≤ maxWidth) :
    Partitions U validIds line maxWidth [⟨line, 0, line.length⟩] where
  tiles := ⟨rfl, Nat.zero_le _, (sliceOf_self line).symm, rfl⟩
  narrow _ hc := mem_singleton.mp hc ▸ hfits
  whole _ hm _ := ⟨_, mem_singleton_self _, Nat.zero_le _, (validMarkers_bounds hm).2⟩

theorem partitions_of_counts (hU : U.Lawful) (hM : U.Measured) (hcounts : Counts U validIds line)
    (hpos : 0 < maxWidth) (hwidest : widestGrapheme U line ≤ maxWidth) :
    PartitionsLine U validIds line maxWidth := by
  intro fuel
  by_cases hne : line = []
  · subst hne
    refine ⟨[⟨[], 0, 0⟩], ?_, partitions_whole ?_⟩
    · rw [wordWrapLine, if_pos (.inl rfl)]
    · rw [hM.ascii [] fun _ hc => absurd hc not_mem_nil]
      exact Nat.zero_le _
  · obtain hwide | hfits := Nat.lt_or_ge maxWidth (U.visibleWidth line)
    · have hcounting := @counting_segmentWithMarkers U line maxWidth hU hM hne validIds
        (hcounts.resolve_left (hwidest.trans_lt hwide).not_ge)
      have hgraphemes : ∀ g ∈ U.segment line, U.visibleWidth g ≤ maxWidth :=
        fun g hg => (visibleWidth_le_widestGrapheme hg).trans hwidest
      have hmarkerNe : ∀ m ∈ validMarkers line validIds, sliceOf line m.start m.stop ≠ [] := by
        intro m hm hnil
        have hbounds := validMarkers_bounds hm
        have hlength := sliceOf_length m.start hbounds.2
        rw [hnil, length_nil] at hlength
        omega
      have hreturns : (wordWrapLine U maxWidth (fuel + 2) line
          (segmentWithMarkers U line validIds)).isSome := by
        refine (wordWrapLine_succ_isSome_iff hpos _).mpr (.inr (.inr fun seg hseg hlong => ?_))
        obtain ⟨m, hm, rfl⟩ := (hcounting.stands seg hseg).1.marker_of_wide hgraphemes hlong
        refine (wordWrapLine_succ_isSome_iff hpos _).mpr (.inr (.inr fun g hg hgwide => ?_))
        have hone := visibleWidth_grapheme_le_one hU hM (validMarkers_printable hm)
          (text_mem_of_mem_indexed hg)
        omega
      obtain ⟨chunks, hchunks⟩ := isSome_iff_exists.mp hreturns
      have htiles := wordWrapLine_tiles hU hpos hne hcounting.inLine hchunks
      have hfits := hcounting.fits_of_sub hU hM hpos hne hgraphemes (fun m hm _ hsub =>
        narrow_of_printable hU hM hpos (hmarkerNe m hm) (validMarkers_printable hm) hsub) hchunks
      refine ⟨chunks, hchunks, htiles.tiles, fun c hc => (hfits c hc).1, fun m hm hnarrow => ?_⟩
      have hbounds := validMarkers_bounds hm
      exact htiles.tiles.exists_whole hfits hm hnarrow (Nat.zero_le _) hbounds.1 hbounds.2
    · refine ⟨_, ?_, partitions_whole hfits⟩
      rw [wordWrapLine, if_neg (not_or.mpr ⟨hne, hpos.ne'⟩), if_pos hfits]

theorem wordWrapLine_of_segmentsWidth_le {fuel : ℕ} {chunks : List TextChunk}
    {segments : List Segment} (hne : line ≠ []) (hpos : 0 < maxWidth)
    (hfits : (segments.map fun seg => U.visibleWidth seg.text).sum ≤ maxWidth)
    (hchunks : wordWrapLine U maxWidth (fuel + 1) line segments = some chunks) :
    chunks = [⟨line, 0, line.length⟩] := by
  rw [wordWrapLine, if_neg (not_or.mpr ⟨hne, hpos.ne'⟩)] at hchunks
  split_ifs at hchunks
  · exact (some.inj hchunks).symm
  · obtain ⟨w, hw, rfl⟩ := map_eq_some_iff.mp hchunks
    have hkept : w.chunks = [] ∧ w.chunkStart = 0 ∧
        w.currentWidth + (([] : List Segment).map fun seg => U.visibleWidth seg.text).sum ≤
          maxWidth := by
      refine @wrapSegments_kept U line maxWidth _ (fun w segments => w.chunks = [] ∧
        w.chunkStart = 0 ∧
          w.currentWidth + (segments.map fun seg => U.visibleWidth seg.text).sum ≤ maxWidth)
        ?_ ?_ _ _ _ ⟨rfl, rfl, by rwa [Nat.zero_add]⟩ hw
      · intro w seg segments subChunks last h hwide
        have hsum := h.2.2
        rw [map_cons, sum_cons] at hsum
        omega
      · intro w seg segments h _
        obtain ⟨hnone, hstart, hsum⟩ := h
        rw [map_cons, sum_cons] at hsum
        have hroom : w.overflow line maxWidth (U.visibleWidth seg.text) seg.index = w :=
          if_neg (by omega)
        rw [hroom]
        refine ⟨hnone, hstart, ?_⟩
        simp only [WordWrap.advance]
        omega
    rw [hkept.1, hkept.2.1, drop_zero, nil_append]

theorem counts_of_partitions (hU : U.Lawful) (hadd : U.visibleWidth line = graphemesWidth U line)
    (hall : ∀ maxWidth, 0 < maxWidth → widestGrapheme U line ≤ maxWidth →
      PartitionsLine U validIds line maxWidth) : Counts U validIds line := by
  by_contra hcounts
  obtain ⟨hwidest, hsegments⟩ := not_or.mp hcounts
  have hsome : widestGrapheme U line ≠ 0 := by
    intro hzero
    have hnone : graphemesWidth U line = 0 := by
      refine List.sum_eq_zero_iff_forall_eq_nat.mpr (List.forall_mem_map.mpr fun g hg => ?_)
      exact Nat.le_zero.mp (hzero ▸ visibleWidth_le_widestGrapheme hg)
    omega
  have hne : line ≠ [] := by
    rintro rfl
    rw [widestGrapheme, hU.segment_nil] at hsome
    exact hsome rfl
  have hpos : 0 < U.visibleWidth line - 1 := by omega
  obtain ⟨chunks, hchunks, hpartitions⟩ := hall (U.visibleWidth line - 1) hpos (by omega) 0
  have hwhole := wordWrapLine_of_segmentsWidth_le hne hpos
    (show segmentsWidth U validIds line ≤ _ by omega) hchunks
  subst hwhole
  have hnarrow := hpartitions.narrow _ (mem_singleton_self _)
  simp only at hnarrow
  omega

theorem partitionsLine_zero_iff (hM : U.Measured) :
    PartitionsLine U validIds line 0 ↔ line = [] := by
  have hchunks : ∀ fuel, wordWrapLine U 0 (fuel + 2) line (segmentWithMarkers U line validIds) =
      some [⟨[], 0, 0⟩] := by
    intro fuel
    rw [wordWrapLine, if_pos (.inr rfl)]
  constructor
  · intro h
    obtain ⟨chunks, hsome, hpartitions⟩ := h 0
    rw [hchunks] at hsome
    cases hsome
    have hlength : 0 = line.length := hpartitions.tiles.2.2.2
    exact length_eq_zero_iff.mp hlength.symm
  · rintro rfl fuel
    refine ⟨_, hchunks fuel, partitions_whole ?_⟩
    rw [hM.ascii [] fun _ hc => absurd hc not_mem_nil]
    exact le_refl _

/-- Every line whose segments count its columns is partitioned at every width, and no other line
whose width is that of its graphemes. Without a column only the empty line is. -/
theorem wordWrapLine_partitions_iff (hU : U.Lawful) (hM : U.Measured) (validIds : List ℕ)
    (line : JsText) :
    (Counts U validIds line → ∀ maxWidth, 0 < maxWidth → widestGrapheme U line ≤ maxWidth →
      PartitionsLine U validIds line maxWidth) ∧
    (U.visibleWidth line = graphemesWidth U line →
      (∀ maxWidth, 0 < maxWidth → widestGrapheme U line ≤ maxWidth →
        PartitionsLine U validIds line maxWidth) → Counts U validIds line) ∧
    (PartitionsLine U validIds line 0 ↔ line = []) :=
  ⟨fun hcounts _ => partitions_of_counts hU hM hcounts, counts_of_partitions hU,
    partitionsLine_zero_iff hM⟩

end Partition

/-- Units where an Arabic number sign takes the next one to its grapheme. -/
def numberSignGraphemes : JsText → List JsText
  | [] => []
  | [c] => [[c]]
  | c :: d :: text =>
    if c = 0x600 then [c, d] :: numberSignGraphemes text
    else [c] :: numberSignGraphemes (d :: text)

def numberSignUnits : TextUnits :=
  { segment := numberSignGraphemes, visibleWidth := fun text => (text.filter (· != 0x600)).length }

theorem numberSignGraphemes_shape {text g : JsText} (hg : g ∈ numberSignGraphemes text) :
    (∃ c, g = [c]) ∨ ∃ d, g = [0x600, d] := by
  fun_induction numberSignGraphemes text with
  | case1 => cases hg
  | case2 c => exact .inl ⟨c, mem_singleton.mp hg⟩
  | case3 d text ih =>
    obtain rfl | hg := mem_cons.mp hg
    · exact .inr ⟨d, rfl⟩
    · exact ih hg
  | case4 c d text hsign ih =>
    obtain rfl | hg := mem_cons.mp hg
    · exact .inl ⟨c, rfl⟩
    · exact ih hg

theorem numberSignUnits_lawful : numberSignUnits.Lawful where
  flatten text := by
    simp only [numberSignUnits]
    fun_induction numberSignGraphemes text with
    | case1 => rfl
    | case2 c => rfl
    | case3 d text ih => rw [flatten_cons, ih]; rfl
    | case4 c d text hsign ih => rw [flatten_cons, ih]; rfl
  nonempty text hnil := by
    obtain ⟨c, hc⟩ | ⟨d, hd⟩ := numberSignGraphemes_shape hnil
    · exact cons_ne_nil _ _ hc.symm
    · exact cons_ne_nil _ _ hd.symm

theorem ne_sign_of_isPrintable {c : UInt16} (hc : IsPrintable c) : (c != 0x600) = true := by
  rw [bne_iff_ne]
  rintro rfl
  exact absurd hc (by decide)

theorem numberSignUnits_measured : numberSignUnits.Measured where
  ascii text htext := by
    simp only [numberSignUnits]
    rw [filter_eq_self.mpr fun c hc => ne_sign_of_isPrintable (htext c hc)]
  run text before run after _ := by
    simp only [numberSignUnits]
    clear * - run
    induction run with
    | nil => exact le_refl _
    | cons g run ih =>
      rw [flatten_cons, filter_append, length_append, map_cons, sum_cons]
      exact Nat.add_le_add_left ih _
  single text g hg := by
    obtain ⟨c, rfl⟩ | ⟨d, rfl⟩ := numberSignGraphemes_shape hg
    · exact length_filter_le _ _
    · rw [filter_cons_of_neg (by decide)]
      exact length_filter_le _ _
  wide text g hg := by
    simp only [numberSignUnits, ← countP_eq_length_filter]
    exact countP_mono_left fun c _ hc => ne_sign_of_isPrintable (of_decide_eq_true hc)

def markedLine : JsText := 0x78 :: utf16 "[paste #1 +25 lines]"

theorem wordWrapLine_partitions_iff_markedLine :
    (Counts numberSignUnits [1] markedLine → ∀ maxWidth, 0 < maxWidth →
      widestGrapheme numberSignUnits markedLine ≤ maxWidth →
        PartitionsLine numberSignUnits [1] markedLine maxWidth) ∧
    (numberSignUnits.visibleWidth markedLine = graphemesWidth numberSignUnits markedLine →
      (∀ maxWidth, 0 < maxWidth → widestGrapheme numberSignUnits markedLine ≤ maxWidth →
        PartitionsLine numberSignUnits [1] markedLine maxWidth) →
          Counts numberSignUnits [1] markedLine) ∧
    (PartitionsLine numberSignUnits [1] markedLine 0 ↔ markedLine = []) :=
  wordWrapLine_partitions_iff numberSignUnits_lawful numberSignUnits_measured [1] markedLine

def hiddenMarker : JsText := 0x600 :: utf16 "[paste #1 +25 lines]"

/-- The marker is not wrapped, and is wider than the line. -/
theorem hiddenMarker_not_partitionsLine :
    widestGrapheme numberSignUnits hiddenMarker ≤ 10 ∧
      ¬PartitionsLine numberSignUnits [1] hiddenMarker 10 := by
  refine ⟨by decide, fun h => ?_⟩
  obtain ⟨chunks, hsome, hpartitions⟩ := h 0
  cases hsome
  have hnarrow := hpartitions.narrow _ (mem_singleton_self _)
  exact absurd hnarrow (by decide)

end Draht
