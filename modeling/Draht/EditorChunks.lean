import Draht.EditorWrap

/-!
# The chunks of a line

What the wrapping returns lies one after the other in the line. At each segment what has been
pushed ends where the next chunk begins, and a break that is kept for later is behind it.
-/

namespace Draht
open List Option

/-- `line.slice(start, stop)`. -/
def sliceOf (line : JsText) (start stop : ℕ) : JsText := (line.drop start).take (stop - start)

/-- Chunks that lie one after the other from `start` to `stop`, each with its slice of the line. -/
def Tiles (line : JsText) (stop : ℕ) : ℕ → List TextChunk → Prop
  | start, [] => start = stop
  | start, c :: chunks =>
    c.startIndex = start ∧ start ≤ c.endIndex ∧ c.text = sliceOf line start c.endIndex ∧
      Tiles line stop c.endIndex chunks

section Slices

variable {line : JsText} {start stop : ℕ}

theorem sliceOf_length (start : ℕ) (hstop : stop ≤ line.length) :
    (sliceOf line start stop).length = stop - start := by
  rw [sliceOf, length_take, length_drop]
  omega

theorem sliceOf_self (line : JsText) : sliceOf line 0 line.length = line := by
  rw [sliceOf, drop_zero, Nat.sub_zero, take_length]

theorem sliceOf_to_end (line : JsText) (start : ℕ) :
    sliceOf line start line.length = line.drop start := by
  rw [sliceOf, ← length_drop, take_length]

theorem sliceOf_sliceOf {i j : ℕ} (hj : j ≤ stop - start) :
    sliceOf (sliceOf line start stop) i j = sliceOf line (start + i) (start + j) := by
  rw [sliceOf, sliceOf, sliceOf, drop_take, take_take, drop_drop,
    Nat.add_sub_add_left, Nat.min_eq_left (by omega)]

end Slices

section Tiles

variable {line : JsText} {start stop : ℕ} {chunks : List TextChunk}

theorem Tiles.start_le (h : Tiles line stop start chunks) : start ≤ stop := by
  induction chunks generalizing start with
  | nil => exact h.le
  | cons c chunks ih =>
    obtain ⟨-, hle, -, hrest⟩ := h
    exact hle.trans (ih hrest)

theorem Tiles.endIndex_le (h : Tiles line stop start chunks) {c : TextChunk} (hc : c ∈ chunks) :
    c.endIndex ≤ stop := by
  induction chunks generalizing start with
  | nil => cases hc
  | cons d chunks ih =>
    obtain ⟨-, -, -, hrest⟩ := h
    obtain rfl | hc := mem_cons.mp hc
    · exact hrest.start_le
    · exact ih hrest hc

theorem Tiles.append {mid : ℕ} {later : List TextChunk} (h : Tiles line mid start chunks)
    (hlater : Tiles line stop mid later) : Tiles line stop start (chunks ++ later) := by
  induction chunks generalizing start with
  | nil => exact (show start = mid from h) ▸ hlater
  | cons c chunks ih =>
    obtain ⟨hstart, hle, htext, hrest⟩ := h
    exact ⟨hstart, hle, htext, ih hrest⟩

theorem tiles_singleton (hle : start ≤ stop) :
    Tiles line stop start [⟨sliceOf line start stop, start, stop⟩] :=
  ⟨rfl, hle, rfl, rfl⟩

theorem Tiles.dropLast {last : TextChunk} (h : Tiles line stop start chunks)
    (hlast : chunks.getLast? = some last) :
    Tiles line last.startIndex start chunks.dropLast ∧ last.startIndex ≤ last.endIndex ∧
      last.text = sliceOf line last.startIndex last.endIndex ∧ last.endIndex = stop := by
  induction chunks generalizing start with
  | nil => cases hlast
  | cons c chunks ih =>
    obtain ⟨rfl, hle, htext, hrest⟩ := h
    cases chunks with
    | nil =>
      cases hlast
      exact ⟨rfl, hle, htext, hrest⟩
    | cons d chunks =>
      obtain ⟨htiles, hrest⟩ := ih hrest hlast
      exact ⟨⟨rfl, hle, htext, htiles⟩, hrest⟩

def TextChunk.moved (c : TextChunk) (index : ℕ) : TextChunk :=
  ⟨c.text, index + c.startIndex, index + c.endIndex⟩

theorem Tiles.moved {index length : ℕ} (hstop : stop ≤ length)
    (h : Tiles (sliceOf line index (index + length)) stop start chunks) :
    Tiles line (index + stop) (index + start) (chunks.map fun c => c.moved index) := by
  induction chunks generalizing start with
  | nil => exact congrArg (index + ·) h
  | cons c chunks ih =>
    obtain ⟨rfl, hle, htext, hrest⟩ := h
    have hend := hrest.start_le
    refine ⟨rfl, Nat.add_le_add_left hle _, htext.trans ?_, ih hrest⟩
    exact sliceOf_sliceOf (by omega)

end Tiles

section Loop

variable {U : TextUnits} {line : JsText} {maxWidth : ℕ}

def WordWrap.splice (w : WordWrap) (U : TextUnits) (index : ℕ) (subChunks : List TextChunk)
    (last : TextChunk) : WordWrap :=
  { chunks := w.chunks ++ subChunks.dropLast.map fun c => c.moved index
    chunkStart := index + last.startIndex, currentWidth := U.visibleWidth last.text
    wrapOpp := none }

def WordWrap.advance (w : WordWrap) (U : TextUnits) (seg : Segment) (next : Option Segment) :
    WordWrap :=
  { w with
    currentWidth := w.currentWidth + U.visibleWidth seg.text
    wrapOpp := match next with
      | some next =>
        if wrapsBetween seg next then
          some (next.index, w.currentWidth + U.visibleWidth seg.text)
        else w.wrapOpp
      | none => w.wrapOpp }

variable {wrapSub : JsText → Option (List TextChunk)}

theorem wrapSegments_cons (w : WordWrap) (seg : Segment) (segments : List Segment) :
    wrapSegments U line maxWidth wrapSub w (seg :: segments) =
      let v := w.overflow line maxWidth (U.visibleWidth seg.text) seg.index
      if maxWidth < U.visibleWidth seg.text then
        (wrapSub seg.text).bind fun subChunks => subChunks.getLast?.bind fun last =>
          wrapSegments U line maxWidth wrapSub (v.splice U seg.index subChunks last) segments
      else wrapSegments U line maxWidth wrapSub (v.advance U seg segments.head?) segments := by
  rw [wrapSegments]
  split_ifs
  · refine bind_congr fun subChunks _ => ?_
    cases subChunks.getLast? with
    | none => rfl
    | some last => rfl
  · rfl

theorem wrapSegments_kept {Kept : WordWrap → List Segment → Prop}
    (hsplice : ∀ w seg segments subChunks last, Kept w (seg :: segments) →
      maxWidth < U.visibleWidth seg.text → wrapSub seg.text = some subChunks →
      subChunks.getLast? = some last →
      Kept ((w.overflow line maxWidth (U.visibleWidth seg.text) seg.index).splice U seg.index
        subChunks last) segments)
    (hadvance : ∀ w seg segments, Kept w (seg :: segments) → U.visibleWidth seg.text ≤ maxWidth →
      Kept ((w.overflow line maxWidth (U.visibleWidth seg.text) seg.index).advance U seg
        segments.head?) segments) {segments : List Segment} {w w' : WordWrap} (h : Kept w segments)
    (hw : wrapSegments U line maxWidth wrapSub w segments = some w') : Kept w' [] := by
  induction segments generalizing w with
  | nil => exact some.inj hw ▸ h
  | cons seg segments ih =>
    rw [wrapSegments_cons] at hw
    split_ifs at hw with hwide
    · obtain ⟨subChunks, hsub, hw⟩ := bind_eq_some_iff.mp hw
      obtain ⟨last, hlast, hw⟩ := bind_eq_some_iff.mp hw
      exact ih (hsplice w seg segments subChunks last h hwide hsub hlast) hw
    · exact ih (hadvance w seg segments h (Nat.le_of_not_lt hwide)) hw

theorem WordWrap.overflow_cases (w : WordWrap) (line : JsText)
    (maxWidth gWidth charIndex : ℕ) :
    (w.currentWidth + gWidth ≤ maxWidth ∧ w.overflow line maxWidth gWidth charIndex = w) ∨
    (maxWidth < w.currentWidth + gWidth ∧
      ((∃ i k, w.wrapOpp = some (i, k) ∧ w.currentWidth - k + gWidth ≤ maxWidth ∧
        w.overflow line maxWidth gWidth charIndex =
          { w.pushUntil line i with currentWidth := w.currentWidth - k, wrapOpp := none }) ∨
      (w.chunkStart < charIndex ∧ w.overflow line maxWidth gWidth charIndex =
          { w.pushUntil line charIndex with currentWidth := 0, wrapOpp := none }) ∨
      (charIndex ≤ w.chunkStart ∧
        w.overflow line maxWidth gWidth charIndex = { w with wrapOpp := none }))) := by
  unfold WordWrap.overflow
  by_cases hover : w.currentWidth + gWidth > maxWidth
  · refine .inr ⟨hover, ?_⟩
    by_cases hviable : ∃ i k, w.wrapOpp = some (i, k) ∧ w.currentWidth - k + gWidth ≤ maxWidth
    · obtain ⟨i, k, hopp, hfits⟩ := hviable
      refine .inl ⟨i, k, hopp, hfits, ?_⟩
      simp [if_pos hover, hopp, if_pos hfits]
    · refine .inr ?_
      have hforced : ∀ i k, w.wrapOpp = some (i, k) → ¬w.currentWidth - k + gWidth ≤ maxWidth :=
        fun i k hopp hfits => hviable ⟨i, k, hopp, hfits⟩
      obtain hlt | hle := Nat.lt_or_ge w.chunkStart charIndex
      · refine .inl ⟨hlt, ?_⟩
        cases hopp : w.wrapOpp with
        | none => simp only [if_pos hover, if_pos hlt]
        | some opp =>
          simp [if_pos hover, if_pos hlt, if_neg (hforced opp.1 opp.2 hopp)]
      · refine .inr ⟨hle, ?_⟩
        cases hopp : w.wrapOpp with
        | none => simp only [if_pos hover, if_neg hle.not_gt]
        | some opp =>
          simp [if_pos hover, if_neg hle.not_gt, if_neg (hforced opp.1 opp.2 hopp)]
  · exact .inl ⟨Nat.le_of_not_lt hover, if_neg hover⟩

theorem WordWrap.overflow_chunkStart {w : WordWrap} {gWidth charIndex : ℕ}
    (hwide : maxWidth < gWidth) (hstart : w.chunkStart ≤ charIndex) :
    (w.overflow line maxWidth gWidth charIndex).chunkStart = charIndex := by
  obtain ⟨hfits, -⟩ | ⟨-, ⟨i, k, -, hfits, -⟩ | ⟨-, hw⟩ | ⟨hle, hw⟩⟩ :=
    w.overflow_cases line maxWidth gWidth charIndex
  · omega
  · omega
  · rw [hw]
    rfl
  · rw [hw]
    exact hstart.antisymm hle

/-- The segments lie in the line from `start` on, none of them empty. -/
structure InLine (line : JsText) (start : ℕ) (segments : List Segment) : Prop where
  inOrder : InOrder line.length start segments
  nonempty : ∀ seg ∈ segments, seg.text ≠ []
  slices : ∀ seg ∈ segments, seg.text = sliceOf line seg.index (seg.index + seg.text.length)

section InLine

variable {start : ℕ} {seg : Segment} {segments : List Segment}

theorem InLine.start_le (h : InLine line start (seg :: segments)) : start ≤ seg.index :=
  h.inOrder.1

theorem InLine.seg_lt (h : InLine line start (seg :: segments)) :
    seg.index + seg.text.length ≤ line.length ∧ 0 < seg.text.length :=
  ⟨h.inOrder.2.start_le, length_pos_of_ne_nil (h.nonempty seg mem_cons_self)⟩

theorem InLine.tail (h : InLine line start (seg :: segments)) :
    InLine line (seg.index + seg.text.length) segments :=
  ⟨h.inOrder.2, fun s hs => h.nonempty s (mem_cons_of_mem _ hs),
    fun s hs => h.slices s (mem_cons_of_mem _ hs)⟩

theorem InLine.mono {start' : ℕ} (h : InLine line start segments) (hle : start' ≤ start) :
    InLine line start' segments :=
  ⟨h.inOrder.mono hle, h.nonempty, h.slices⟩

theorem InLine.from_index (h : InLine line start (seg :: segments)) :
    InLine line seg.index (seg :: segments) :=
  ⟨⟨le_refl _, h.inOrder.2⟩, h.nonempty, h.slices⟩

end InLine

/-- The chunks tile the line to the start of the next one, and the place that is kept for a break
is between there and the segments to come. -/
structure Tiling (line : JsText) (w : WordWrap) (segments : List Segment) : Prop where
  tiles : Tiles line w.chunkStart 0 w.chunks
  start_lt : w.chunkStart < line.length
  inLine : InLine line w.chunkStart segments
  opp : ∀ i k, w.wrapOpp = some (i, k) →
    w.chunkStart ≤ i ∧ i < line.length ∧ InLine line i segments

section Tiling

variable {w : WordWrap} {seg : Segment} {segments : List Segment}

theorem tiling_start (hne : line ≠ []) (hin : InLine line 0 segments) :
    Tiling line { chunks := [], currentWidth := 0, chunkStart := 0, wrapOpp := none } segments where
  tiles := rfl
  start_lt := length_pos_of_ne_nil hne
  inLine := hin
  opp _ _ hopp := absurd hopp.symm (some_ne_none _)

theorem Tiling.pushUntil {i : ℕ} (h : Tiling line w (seg :: segments)) (hle : w.chunkStart ≤ i)
    (hlt : i < line.length) (hin : InLine line i (seg :: segments)) (currentWidth : ℕ) :
    Tiling line { w.pushUntil line i with currentWidth := currentWidth, wrapOpp := none }
      (seg :: segments) where
  tiles := h.tiles.append (tiles_singleton hle)
  start_lt := hlt
  inLine := hin
  opp _ _ hopp := absurd hopp.symm (some_ne_none _)

theorem Tiling.overflow (h : Tiling line w (seg :: segments)) (gWidth : ℕ) :
    Tiling line (w.overflow line maxWidth gWidth seg.index) (seg :: segments) := by
  obtain ⟨-, hw⟩ | ⟨-, ⟨i, k, hopp, -, hw⟩ | ⟨hlt, hw⟩ | ⟨-, hw⟩⟩ :=
    w.overflow_cases line maxWidth gWidth seg.index
  · rwa [hw]
  · obtain ⟨hle, hlt, hin⟩ := h.opp i k hopp
    rw [hw]
    exact h.pushUntil hle hlt hin _
  · have hseg := h.inLine.seg_lt
    rw [hw]
    exact h.pushUntil hlt.le (by omega) h.inLine.from_index _
  · rw [hw]
    exact ⟨h.tiles, h.start_lt, h.inLine, fun _ _ hopp => absurd hopp.symm (some_ne_none _)⟩

theorem Tiling.advance (h : Tiling line w (seg :: segments)) :
    Tiling line (w.advance U seg segments.head?) segments := by
  have hstart := h.inLine.start_le
  have hkept : ∀ i k, w.wrapOpp = some (i, k) →
      w.chunkStart ≤ i ∧ i < line.length ∧ InLine line i segments := by
    intro i k hopp
    obtain ⟨hle, hlt, hin⟩ := h.opp i k hopp
    exact ⟨hle, hlt, hin.tail.mono (hin.start_le.trans (Nat.le_add_right _ _))⟩
  have hrest : InLine line w.chunkStart segments :=
    h.inLine.tail.mono (hstart.trans (Nat.le_add_right _ _))
  refine ⟨h.tiles, h.start_lt, hrest, fun i k hopp => ?_⟩
  cases segments with
  | nil => exact hkept i k hopp
  | cons next segments =>
    simp only [WordWrap.advance, head?_cons] at hopp
    split_ifs at hopp
    · obtain ⟨rfl, -⟩ := Prod.mk.inj (some.inj hopp)
      have hnext := h.inLine.tail.start_le
      have hseg := h.inLine.tail.seg_lt
      have hchunk : (w.advance U seg (next :: segments).head?).chunkStart = w.chunkStart := rfl
      exact ⟨by omega, by omega, h.inLine.tail.from_index⟩
    · exact hkept i k hopp

/-- The chunks of a line tile it, and the last one is not empty. -/
structure TilesLine (line : JsText) (chunks : List TextChunk) : Prop where
  tiles : Tiles line line.length 0 chunks
  last_lt : ∀ last, chunks.getLast? = some last → last.startIndex < line.length

theorem Tiling.splice {subChunks : List TextChunk} {last : TextChunk}
    (h : Tiling line w (seg :: segments)) (hstart : w.chunkStart = seg.index)
    (hsub : TilesLine seg.text subChunks) (hlast : subChunks.getLast? = some last) :
    Tiling line (w.splice U seg.index subChunks last) segments := by
  obtain ⟨htiles, hle, -, hend⟩ := hsub.tiles.dropLast hlast
  have hlt := hsub.last_lt last hlast
  have hseg := h.inLine.seg_lt
  have hslice := h.inLine.slices seg mem_cons_self
  rw [hslice] at htiles
  have hmoved := htiles.moved (by omega)
  have hchunk : (w.splice U seg.index subChunks last).chunkStart = seg.index + last.startIndex :=
    rfl
  refine ⟨?_, by omega, h.inLine.tail.mono (by omega),
    fun _ _ hopp => absurd hopp.symm (some_ne_none _)⟩
  exact (hstart ▸ h.tiles).append hmoved

end Tiling

theorem inLine_baseSegments (hU : U.Lawful) (text : JsText) :
    InLine text 0 (baseSegments U text) where
  inOrder := inOrder_baseSegments hU text
  nonempty _ hseg hnil := hU.nonempty text (hnil ▸ text_mem_of_mem_indexed hseg)
  slices := by
    have hslices : ∀ (texts before : List JsText), ∀ seg ∈ indexed before.flatten.length texts,
        seg.text = sliceOf (before ++ texts).flatten seg.index (seg.index + seg.text.length) := by
      intro texts
      induction texts with
      | nil => exact nofun
      | cons text texts ih =>
        intro before seg hseg
        obtain rfl | hseg := mem_cons.mp hseg
        · rw [sliceOf, flatten_append, drop_left, flatten_cons,
            Nat.add_sub_cancel_left, take_left]
        · have hrest := ih (before ++ [text]) seg (by
            rwa [flatten_append, length_append, flatten_singleton])
          rwa [append_assoc] at hrest
    have hall := hslices (U.segment text) []
    rwa [nil_append, hU.flatten text] at hall

theorem wordWrapLine_tiles (hU : U.Lawful) {fuel : ℕ} {segments : List Segment}
    {chunks : List TextChunk} (hpos : 0 < maxWidth) (hne : line ≠ [])
    (hin : InLine line 0 segments) (h : wordWrapLine U maxWidth fuel line segments = some chunks) :
    TilesLine line chunks := by
  induction fuel generalizing line segments chunks with
  | zero => cases h
  | succ fuel ih =>
    have hlength := length_pos_of_ne_nil hne
    rw [wordWrapLine, if_neg (not_or.mpr ⟨hne, hpos.ne'⟩)] at h
    split_ifs at h
    · cases h
      refine ⟨⟨rfl, Nat.zero_le _, (sliceOf_self line).symm, rfl⟩, fun last hlast => ?_⟩
      exact some.inj hlast ▸ hlength
    · obtain ⟨w, hw, rfl⟩ := map_eq_some_iff.mp h
      have hkept : Tiling line w [] := by
        refine wrapSegments_kept ?_ ?_ (tiling_start hne hin) hw
        · intro w seg segments subChunks last htiling hwide hsub hlast
          have hsegNe := htiling.inLine.nonempty seg mem_cons_self
          exact (htiling.overflow _).splice
            (WordWrap.overflow_chunkStart hwide htiling.inLine.start_le)
            (ih hsegNe (inLine_baseSegments hU _) hsub) hlast
        · exact fun w seg segments htiling _ => (htiling.overflow _).advance
      refine ⟨hkept.tiles.append ?_, fun last hlast => ?_⟩
      · rw [← sliceOf_to_end]
        exact tiles_singleton hkept.start_lt.le
      · rw [getLast?_concat] at hlast
        exact some.inj hlast ▸ hkept.start_lt

end Loop

end Draht
