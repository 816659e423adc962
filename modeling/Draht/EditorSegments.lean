import Draht.Editor

/-!
# Segments of a line

The segments of a line, with its markers merged, lie one after the other in the line. So what a
word or a grapheme takes off a text is never longer than the text.
-/

namespace Draht
open List Option

structure TextUnits.Lawful (U : TextUnits) : Prop where
  flatten : ∀ text, (U.segment text).flatten = text
  nonempty : ∀ text, [] ∉ U.segment text

/-- Segments from `start` on that lie one after the other and end by `stop`. -/
def InOrder (stop : ℕ) : ℕ → List Segment → Prop
  | start, [] => start ≤ stop
  | start, seg :: segments =>
    start ≤ seg.index ∧ InOrder stop (seg.index + seg.text.length) segments

section InOrder

variable {stop start : ℕ} {segments : List Segment}

theorem InOrder.start_le (h : InOrder stop start segments) : start ≤ stop := by
  induction segments generalizing start with
  | nil => exact h
  | cons seg segments ih =>
    have hrest := ih h.2
    have hseg := h.1
    omega

theorem InOrder.mono {start' : ℕ} (h : InOrder stop start segments) (hle : start' ≤ start) :
    InOrder stop start' segments := by
  cases segments with
  | nil => exact hle.trans h
  | cons seg segments => exact ⟨hle.trans h.1, h.2⟩

theorem InOrder.mem {seg : Segment} (h : InOrder stop start segments) (hseg : seg ∈ segments) :
    start ≤ seg.index ∧ seg.index + seg.text.length ≤ stop := by
  induction segments generalizing start with
  | nil => cases hseg
  | cons first segments ih =>
    have hrest := h.2.start_le
    have hfirst := h.1
    obtain rfl | hseg := mem_cons.mp hseg
    · exact ⟨hfirst, hrest⟩
    · have hmem := ih h.2 hseg
      omega

theorem InOrder.totalLength_le (h : InOrder stop start segments) :
    Editor.totalLength segments + start ≤ stop := by
  induction segments generalizing start with
  | nil => exact (Nat.zero_add start).le.trans h
  | cons seg segments ih =>
    have hrest := ih h.2
    have hseg := h.1
    have hcons : Editor.totalLength (seg :: segments) =
        seg.text.length + Editor.totalLength segments := rfl
    omega

end InOrder

theorem inOrder_indexed (texts : List JsText) (start : ℕ) :
    InOrder (start + texts.flatten.length) start (indexed start texts) := by
  induction texts generalizing start with
  | nil => exact le_refl start
  | cons text texts ih =>
    refine ⟨le_refl start, ?_⟩
    have hrest := ih (start + text.length)
    rwa [Nat.add_assoc, ← length_append, ← flatten_cons] at hrest

variable {rest text : JsText} {U : TextUnits}

theorem inOrder_baseSegments (hU : U.Lawful) (text : JsText) :
    InOrder text.length 0 (baseSegments U text) := by
  have h := inOrder_indexed (U.segment text) 0
  rwa [hU.flatten text, Nat.zero_add] at h

theorem dropPrefix_length {pattern : JsText} (h : text.dropPrefix? pattern = some rest) :
    text.length = pattern.length + rest.length := by
  rw [dropPrefix?_eq_some_iff] at h
  obtain ⟨found, rfl, hfound⟩ := h
  rw [length_append, beq_iff_eq.mp hfound]

theorem digitsFrom_length {d : JsText × JsText} (h : digitsFrom text = some d) :
    d.2.length < text.length := by
  unfold digitsFrom at h
  have htext : (text.takeWhile isDigitUnit ++ text.dropWhile isDigitUnit).length = text.length := by
    rw [takeWhile_append_dropWhile]
  rw [length_append] at htext
  cases hdigits : text.takeWhile isDigitUnit with
  | nil => simp [hdigits] at h
  | cons digit digits =>
    rw [hdigits] at h htext
    cases h
    rw [length_cons] at htext
    simp only
    omega

theorem countFrom_length (h : countFrom text = some rest) : rest.length < text.length := by
  unfold countFrom at h
  cases hplus : text.dropPrefix? (utf16 " +") with
  | none =>
    rw [hplus] at h
    obtain ⟨spaced, hspace, h⟩ := bind_eq_some_iff.mp h
    obtain ⟨d, hd, h⟩ := bind_eq_some_iff.mp h
    have hspace := dropPrefix_length hspace
    have hd := digitsFrom_length hd
    have hrest := dropPrefix_length h
    omega
  | some lined =>
    rw [hplus] at h
    obtain ⟨d, hd, h⟩ := bind_eq_some_iff.mp h
    have hplus := dropPrefix_length hplus
    have hd := digitsFrom_length hd
    have hrest := dropPrefix_length h
    omega

theorem markerFrom_length {m : JsText × JsText} (h : markerFrom text = some m) :
    m.2.length < text.length := by
  obtain ⟨named, hnamed, h⟩ := bind_eq_some_iff.mp h
  obtain ⟨d, hd, h⟩ := bind_eq_some_iff.mp h
  obtain ⟨closed, hclosed, rfl⟩ := map_eq_some_iff.mp h
  have hnamed := dropPrefix_length hnamed
  have hd := digitsFrom_length hd
  have hcount : ((countFrom d.2).getD d.2).length ≤ d.2.length := by
    cases hcount : countFrom d.2 with
    | none => exact le_refl _
    | some rest => exact (countFrom_length hcount).le
  have hclosed := dropPrefix_length hclosed
  simp only
  omega

theorem markersFrom_bounds {index taken : ℕ} {m : Marker} (h : m ∈ markersFrom index taken text) :
    m.start < m.stop ∧ m.stop ≤ index + text.length := by
  induction text generalizing index taken with
  | nil => simp [markersFrom] at h
  | cons c text ih =>
    have hlength : (c :: text).length = text.length + 1 := rfl
    cases taken with
    | succ taken =>
      have hrest := ih h
      omega
    | zero =>
      unfold markersFrom at h
      cases hmarker : markerFrom (c :: text) with
      | none =>
        rw [hmarker] at h
        have hrest := ih h
        omega
      | some found =>
        rw [hmarker] at h
        have hfound := markerFrom_length hmarker
        obtain rfl | h := mem_cons.mp h
        · simp only
          omega
        · have hrest := ih h
          omega

/-- What is emitted lies in order from `low` on, if the segments before `low` belong to the first
marker, which has been emitted. -/
theorem inOrder_merge {segments : List Segment} {markers : List Marker} {start low : ℕ}
    (hmarkers : ∀ m ∈ markers, m.start < m.stop ∧ m.stop ≤ text.length)
    (hne : ∀ seg ∈ segments, seg.text ≠ []) (h : InOrder text.length start segments)
    (hlow : low ≤ start ∨ ∃ m later, markers = m :: later ∧ m.start < start ∧ m.stop = low) :
    InOrder text.length low (mergeMarkers text markers segments) := by
  induction segments generalizing markers start low with
  | nil =>
    obtain hlow | ⟨m, later, rfl, -, rfl⟩ := hlow
    · exact hlow.trans h
    · exact (hmarkers m mem_cons_self).2
  | cons seg segments ih =>
    obtain ⟨hstart, hrest⟩ := h
    have hpos : 0 < seg.text.length := length_pos_of_ne_nil (hne seg mem_cons_self)
    have hne' : ∀ seg ∈ segments, seg.text ≠ [] := fun s hs => hne s (mem_cons_of_mem _ hs)
    have hkept : ∀ m ∈ markers.dropWhile (fun m => decide (m.stop ≤ seg.index)),
        m.start < m.stop ∧ m.stop ≤ text.length :=
      fun m hm => hmarkers m ((dropWhile_sublist _).subset hm)
    -- The marker that `low` is the end of is over, or it is still the first one.
    have hfirst : low ≤ seg.index ∨ ∃ m later, markers.dropWhile
        (fun m => decide (m.stop ≤ seg.index)) = m :: later ∧ m.start < seg.index ∧
          m.stop = low ∧ seg.index < m.stop := by
      obtain hlow | ⟨m, later, rfl, hbegun, rfl⟩ := hlow
      · exact .inl (hlow.trans hstart)
      · by_cases hover : m.stop ≤ seg.index
        · exact .inl hover
        · exact .inr ⟨m, later, dropWhile_cons_of_neg (by simpa using hover), by omega,
            rfl, by omega⟩
    unfold mergeMarkers
    generalize markers.dropWhile (fun m => decide (m.stop ≤ seg.index)) = rest at hkept hfirst ⊢
    cases rest with
    | nil =>
      obtain hlow' | ⟨m, later, hnil, -⟩ := hfirst
      · exact ⟨hlow', ih (by simp) hne' hrest (.inl le_rfl)⟩
      · exact absurd hnil.symm (cons_ne_nil _ _)
    | cons marker later =>
      simp only
      obtain ⟨hmarker, hmarkerLe⟩ := hkept marker mem_cons_self
      split_ifs with hinside hbegins
      · have hlow' : low ≤ marker.start := by
          obtain hlow' | ⟨m, later', heq, hbegun, -⟩ := hfirst
          · omega
          · rw [(cons.inj heq).1] at hbegins
            omega
        have hlength : ((text.drop marker.start).take (marker.stop - marker.start)).length =
            marker.stop - marker.start := by
          rw [length_take, length_drop]
          omega
        refine ⟨hlow', ?_⟩
        simp only [hlength]
        refine ih hkept hne' hrest (.inr ⟨marker, later, rfl, by omega, by omega⟩)
      · obtain hlow' | ⟨m, later', heq, hbegun, hstop, -⟩ := hfirst
        · exact ih hkept hne' hrest (.inl (by omega))
        · exact ih hkept hne' hrest (.inr ⟨m, later', heq, by omega, hstop⟩)
      · have hlow' : low ≤ seg.index := by
          obtain hlow' | ⟨m, later', heq, hbegun, -, hbefore⟩ := hfirst
          · exact hlow'
          · rw [(cons.inj heq).1] at hinside
            exact absurd ⟨hbegun.le, hbefore⟩ hinside
        exact ⟨hlow', ih hkept hne' hrest (.inl le_rfl)⟩

theorem text_mem_of_mem_indexed {texts : List JsText} {start : ℕ} {seg : Segment}
    (h : seg ∈ indexed start texts) : seg.text ∈ texts := by
  induction texts generalizing start with
  | nil => cases h
  | cons text texts ih =>
    obtain rfl | h := mem_cons.mp h
    · exact mem_cons_self
    · exact mem_cons_of_mem _ (ih h)

theorem inOrder_segmentWithMarkers (hU : U.Lawful) (text : JsText) (validIds : List ℕ) :
    InOrder text.length 0 (segmentWithMarkers U text validIds) := by
  have hbase := inOrder_baseSegments hU text
  have hmarkers : ∀ m ∈ (markersFrom 0 0 text).filter fun m => m.id ∈ validIds,
      m.start < m.stop ∧ m.stop ≤ text.length := by
    intro m hm
    have hbounds := markersFrom_bounds (mem_filter.mp hm).1
    omega
  have hne : ∀ seg ∈ baseSegments U text, seg.text ≠ [] := by
    intro seg hseg hempty
    exact hU.nonempty text (hempty ▸ text_mem_of_mem_indexed hseg)
  unfold segmentWithMarkers
  split
  · exact hbase
  · exact inOrder_merge hmarkers hne hbase (.inl le_rfl)

section Lengths

variable {stop start : ℕ} {segments : List Segment}

theorem totalLength_append (xs ys : List Segment) :
    Editor.totalLength (xs ++ ys) = Editor.totalLength xs + Editor.totalLength ys := by
  induction xs with
  | nil => exact (Nat.zero_add _).symm
  | cons seg xs ih =>
    have hcons : ∀ zs, Editor.totalLength (seg :: zs) = seg.text.length + Editor.totalLength zs :=
      fun _ => rfl
    rw [cons_append, hcons, hcons, ih, Nat.add_assoc]

theorem totalLength_reverse (xs : List Segment) :
    Editor.totalLength xs.reverse = Editor.totalLength xs := by
  induction xs with
  | nil => rfl
  | cons seg xs ih =>
    have hsingle : Editor.totalLength [seg] = seg.text.length := rfl
    have hcons : Editor.totalLength (seg :: xs) = seg.text.length + Editor.totalLength xs := rfl
    rw [reverse_cons, totalLength_append, ih, hsingle, hcons, Nat.add_comm]

theorem totalLength_takeWhile_le (p : Segment → Bool) (xs : List Segment) :
    Editor.totalLength (xs.takeWhile p) ≤ Editor.totalLength xs := by
  have hsplit := totalLength_append (xs.takeWhile p) (xs.dropWhile p)
  rw [takeWhile_append_dropWhile] at hsplit
  omega

theorem wordLength_le (xs : List Segment) : Editor.wordLength xs ≤ Editor.totalLength xs := by
  unfold Editor.wordLength
  simp only
  generalize (fun seg : Segment => !isPasteMarker seg.text && isWhitespaceChar seg.text) = space
  have hsplit := totalLength_append (xs.takeWhile space) (xs.dropWhile space)
  rw [takeWhile_append_dropWhile] at hsplit
  have hrun : ∀ p, Editor.totalLength ((xs.dropWhile space).takeWhile p) ≤
      Editor.totalLength (xs.dropWhile space) := fun p => totalLength_takeWhile_le p _
  cases hrest : xs.dropWhile space with
  | nil =>
    simp only
    omega
  | cons seg rest =>
    rw [hrest] at hsplit hrun
    have hcons : Editor.totalLength (seg :: rest) = seg.text.length + Editor.totalLength rest :=
      rfl
    simp only
    split_ifs
    · omega
    · have hpunctuation := hrun fun seg => isPunctuationChar seg.text && !isPasteMarker seg.text
      omega
    · have hword := hrun fun seg => !isWhitespaceChar seg.text &&
        !isPunctuationChar seg.text && !isPasteMarker seg.text
      omega

theorem InOrder.lastLength_le (h : InOrder stop 0 segments) (hpos : 0 < stop) :
    Editor.lastLength segments ≤ stop := by
  unfold Editor.lastLength
  split
  · rename_i seg hseg
    have hmem := h.mem (mem_of_getLast? hseg)
    omega
  · exact hpos

theorem InOrder.firstLength_le (h : InOrder stop 0 segments) (hpos : 0 < stop) :
    Editor.firstLength segments ≤ stop := by
  unfold Editor.firstLength
  split
  · rename_i seg hseg
    have hmem := h.mem (mem_of_mem_head? hseg)
    omega
  · exact hpos

end Lengths

end Draht
