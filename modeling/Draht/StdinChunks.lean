import Draht.StdinConservation

/-!
# Chunks of the standard input

What the buffer emits does not depend on how its input is cut: a text is read marker by marker, and
reading its parts one after another finds the same markers and the same sequences, as long as no
paste start comes inside an unfinished sequence.
-/

namespace Draht

theorem sequenceEnd_eq_some_iff {text : JsText} {n : ℕ} :
    sequenceEnd text = some n ↔ isCompleteSequence (text.take n) ≠ .incomplete ∧
      (1 ≤ n ∧ n ≤ text.length) ∧
      ∀ j, 1 ≤ j → j < n → isCompleteSequence (text.take j) = .incomplete := by
  rw [sequenceEnd, List.find?_range'_eq_some, List.mem_range'_1]
  simp only [decide_eq_true_eq, Bool.not_eq_true', decide_eq_false_iff_not, not_not]
  refine and_congr_right fun _ => and_congr_left fun _ => and_congr_right fun _ => ?_
  omega

theorem sequenceEnd_append {text : JsText} {n : ℕ} (after : JsText)
    (h : sequenceEnd text = some n) : sequenceEnd (text ++ after) = some n := by
  obtain ⟨hcomplete, ⟨hone, hle⟩, hbefore⟩ := sequenceEnd_eq_some_iff.mp h
  refine sequenceEnd_eq_some_iff.mpr ⟨?_, ⟨hone, ?_⟩, fun j hj hlt => ?_⟩
  · rwa [List.take_append_of_le_length hle]
  · rw [List.length_append]
    omega
  · rw [List.take_append_of_le_length (by omega)]
    exact hbefore j hj hlt

theorem extractFrom_of_le {fuel : ℕ} {text : JsText} (h : text.length ≤ fuel) :
    extractFrom fuel text = extractCompleteSequences text := by
  suffices hfuel : ∀ (fuel fuel' : ℕ) (text : JsText), text.length ≤ fuel → text.length ≤ fuel' →
      extractFrom fuel text = extractFrom fuel' text from hfuel _ _ _ h (Nat.le_refl _)
  intro fuel
  induction fuel with
  | zero =>
    intro fuel' text h _
    obtain rfl := List.eq_nil_of_length_eq_zero (Nat.le_zero.mp h)
    cases fuel' <;> rfl
  | succ fuel ih =>
    intro fuel' text h h'
    cases text with
    | nil => cases fuel' <;> rfl
    | cons c rest =>
      rw [List.length_cons] at h h'
      cases fuel' with
      | zero => omega
      | succ fuel' =>
        rw [extractFrom, extractFrom]
        split_ifs with hesc
        · split
          · rename_i n hn
            have hone := (sequenceEnd_eq_some_iff.mp hn).2.1.1
            have hlength : ((c :: rest).drop n).length ≤ rest.length := by
              rw [List.length_drop, List.length_cons]
              omega
            simp only [ih fuel' ((c :: rest).drop n) (by omega) (by omega)]
          · rfl
        · simp only [ih fuel' rest (by omega) (by omega)]

theorem extract_cons {c : UInt16} (rest : JsText) (h : c ≠ esc) :
    extractCompleteSequences (c :: rest) =
      ([c] :: (extractCompleteSequences rest).1, (extractCompleteSequences rest).2) := by
  rw [extractCompleteSequences, List.length_cons, extractFrom, if_neg h]
  rfl

theorem extract_sequence {rest : JsText} {n : ℕ} (h : sequenceEnd (esc :: rest) = some n) :
    extractCompleteSequences (esc :: rest) =
      ((esc :: rest).take n :: (extractCompleteSequences ((esc :: rest).drop n)).1,
        (extractCompleteSequences ((esc :: rest).drop n)).2) := by
  have hone := (sequenceEnd_eq_some_iff.mp h).2.1.1
  rw [extractCompleteSequences, List.length_cons, extractFrom, if_pos rfl, h]
  have hlength : ((esc :: rest).drop n).length ≤ rest.length := by
    rw [List.length_drop, List.length_cons]
    omega
  simp only [extractFrom_of_le hlength]

theorem extract_unfinished {rest : JsText} (h : sequenceEnd (esc :: rest) = none) :
    extractCompleteSequences (esc :: rest) = ([], esc :: rest) := by
  rw [extractCompleteSequences, List.length_cons, extractFrom, if_pos rfl, h]

theorem extract_append (text after : JsText) :
    extractCompleteSequences (text ++ after) =
      ((extractCompleteSequences text).1 ++
          (extractCompleteSequences ((extractCompleteSequences text).2 ++ after)).1,
        (extractCompleteSequences ((extractCompleteSequences text).2 ++ after)).2) := by
  induction hlength : text.length using Nat.strong_induction_on generalizing text with
  | h length ih =>
    cases text with
    | nil => rfl
    | cons c rest =>
      rw [List.length_cons] at hlength
      by_cases hesc : c = esc
      · subst hesc
        cases hend : sequenceEnd (esc :: rest) with
        | none => simp only [extract_unfinished hend, List.nil_append]
        | some n =>
          obtain ⟨-, ⟨hone, hle⟩, -⟩ := sequenceEnd_eq_some_iff.mp hend
          have hrest := ih ((esc :: rest).drop n).length
            (by rw [List.length_drop, List.length_cons]; omega) ((esc :: rest).drop n) rfl
          have hend' : sequenceEnd (esc :: (rest ++ after)) = some n :=
            sequenceEnd_append after hend
          rw [List.cons_append, extract_sequence hend', extract_sequence hend,
            ← List.cons_append, List.take_append_of_le_length hle,
            List.drop_append_of_le_length hle, hrest]
          rfl
      · have hrest := ih rest.length (by omega) rest rfl
        rw [List.cons_append, extract_cons _ hesc, extract_cons _ hesc, hrest]
        rfl

theorem extract_markerPrefix {text : JsText} (h : text <+: bracketedPasteStart)
    (hlt : text.length < bracketedPasteStart.length) :
    extractCompleteSequences text = ([], text) := by
  have hall : ∀ n < 6, extractCompleteSequences (bracketedPasteStart.take n) =
      ([], bracketedPasteStart.take n) := by
    decide
  have htake := hall text.length hlt
  rwa [← List.prefix_iff_eq_take.mp h] at htake

theorem extract_remainder (text : JsText) :
    extractCompleteSequences (extractCompleteSequences text).2 =
      ([], (extractCompleteSequences text).2) := by
  have happend := extract_append text []
  rw [List.append_nil, List.append_nil] at happend
  obtain ⟨hsequences, hremainder⟩ := Prod.ext_iff.mp happend
  exact Prod.ext (List.self_eq_append_right.mp hsequences) hremainder.symm

/-- A text is read in or outside of a paste: what is emitted, whether a paste is open in the end,
and what is left over. No paste start comes after an unfinished sequence. -/
inductive Reads : Bool → JsText → List StdinEvent → Bool → JsText → Prop
  | rest {text : JsText} (hnone : indexOf? bracketedPasteStart text = none) :
      Reads false text ((extractCompleteSequences text).1.map .data) false
        (extractCompleteSequences text).2
  | pasteStart {text : JsText} {startIndex : ℕ} {events : List StdinEvent} {mode : Bool}
      {left : JsText} (hindex : indexOf? bracketedPasteStart text = some startIndex)
      (hfinished : (extractCompleteSequences (text.take startIndex)).2 = [])
      (hpaste : Reads true (text.drop (startIndex + bracketedPasteStart.length)) events mode left) :
      Reads false text
        ((extractCompleteSequences (text.take startIndex)).1.map .data ++ events) mode left
  | pasting {text : JsText} (hnone : indexOf? bracketedPasteEnd text = none) :
      Reads true text [] true text
  | pasteEnd {text : JsText} {endIndex : ℕ} {events : List StdinEvent} {mode : Bool}
      {left : JsText} (hindex : indexOf? bracketedPasteEnd text = some endIndex)
      (hrest : Reads false (text.drop (endIndex + bracketedPasteEnd.length)) events mode left) :
      Reads true text (.paste (text.take endIndex) :: events) mode left

namespace Reads

variable {mode mode' : Bool} {text left left' : JsText} {events events' : List StdinEvent}

theorem unique (h : Reads mode text events mode' left) {after : Bool}
    (h' : Reads mode text events' after left') :
    events' = events ∧ after = mode' ∧ left' = left := by
  induction h generalizing events' after left' with
  | rest hnone =>
    cases h' with
    | rest => exact ⟨rfl, rfl, rfl⟩
    | pasteStart hindex => exact absurd (hnone.symm.trans hindex) (Option.some_ne_none _).symm
  | pasteStart hindex hfinished _ ih =>
    cases h' with
    | rest hnone => exact absurd (hnone.symm.trans hindex) (Option.some_ne_none _).symm
    | pasteStart hindex' _ hpaste =>
      obtain rfl := Option.some.inj (hindex.symm.trans hindex')
      obtain ⟨rfl, rfl, rfl⟩ := ih hpaste
      exact ⟨rfl, rfl, rfl⟩
  | pasting hnone =>
    cases h' with
    | pasting => exact ⟨rfl, rfl, rfl⟩
    | pasteEnd hindex => exact absurd (hnone.symm.trans hindex) (Option.some_ne_none _).symm
  | pasteEnd hindex _ ih =>
    cases h' with
    | pasting hnone => exact absurd (hnone.symm.trans hindex) (Option.some_ne_none _).symm
    | pasteEnd hindex' hrest =>
      obtain rfl := Option.some.inj (hindex.symm.trans hindex')
      obtain ⟨rfl, rfl, rfl⟩ := ih hrest
      exact ⟨rfl, rfl, rfl⟩

theorem settled (h : Reads mode text events mode' left) : Reads mode' left [] mode' left := by
  induction h with
  | @rest text hnone =>
    have hread : Reads false (extractCompleteSequences text).2
        ((extractCompleteSequences (extractCompleteSequences text).2).1.map .data) false
        (extractCompleteSequences (extractCompleteSequences text).2).2 := by
      refine .rest ?_
      rw [← extractCompleteSequences_flatten text] at hnone
      exact (indexOf?_eq_none_of_append hnone).2
    rwa [extract_remainder] at hread
  | pasteStart _ _ _ ih => exact ih
  | pasting hnone => exact .pasting hnone
  | pasteEnd _ _ ih => exact ih

theorem nil : Reads false [] [] false [] := .rest rfl

theorem exists_of_cutOff {fuel : ℕ} (hfuel : text.length < fuel)
    (hcut : StdinBuffer.cutOff fuel mode text = []) :
    ∃ events mode' left, Reads mode text events mode' left := by
  induction fuel generalizing mode text with
  | zero => exact absurd hfuel (Nat.not_lt_zero _)
  | succ fuel ih =>
    have hpasted (text : JsText) (hlength : text.length ≤ fuel)
        (hcut : StdinBuffer.cutAfterPaste (StdinBuffer.cutOff fuel false) text = []) :
        ∃ events mode' left, Reads true text events mode' left := by
      cases hindex : indexOf? bracketedPasteEnd text with
      | none => exact ⟨_, _, _, .pasting hindex⟩
      | some endIndex =>
        have hbound := add_length_le_of_mem_positions (indexOf?_mem hindex)
        have hmarker : bracketedPasteEnd.length = 6 := rfl
        have hrest : (text.drop (endIndex + bracketedPasteEnd.length)).length < fuel := by
          rw [List.length_drop]
          omega
        rw [StdinBuffer.cutAfterPaste, hindex] at hcut
        obtain ⟨events, mode', left, hreads⟩ := ih hrest hcut
        exact ⟨_, _, _, .pasteEnd hindex hreads⟩
    cases mode with
    | true => exact hpasted text (Nat.le_of_lt_succ hfuel) hcut
    | false =>
      rw [StdinBuffer.cutOff] at hcut
      cases hindex : indexOf? bracketedPasteStart text with
      | none => exact ⟨_, _, _, .rest hindex⟩
      | some startIndex =>
        rw [hindex] at hcut
        obtain ⟨hfinished, hafter⟩ := List.append_eq_nil_iff.mp hcut
        have hlength : (text.drop (startIndex + bracketedPasteStart.length)).length ≤
            fuel := by
          rw [List.length_drop]
          omega
        obtain ⟨events, mode', left, hreads⟩ := hpasted _ hlength hafter
        exact ⟨_, _, _, .pasteStart hindex hfinished hreads⟩

variable {before after kept : JsText}

/-- A paste start that ends after a first part: what the first part leaves over begins at or
before it, and with what follows gives the rest of the sequences before it. -/
theorem extract_take_pasteStart {startIndex : ℕ}
    (hindex : indexOf? bracketedPasteStart (before ++ after) = some startIndex)
    (hfinished : (extractCompleteSequences ((before ++ after).take startIndex)).2 = [])
    (hlater : before.length < startIndex + bracketedPasteStart.length) :
    (extractCompleteSequences before).1.flatten.length ≤ startIndex ∧
      extractCompleteSequences ((before ++ after).take startIndex) =
        ((extractCompleteSequences before).1 ++
            (extractCompleteSequences (((extractCompleteSequences before).2 ++ after).take
              (startIndex - (extractCompleteSequences before).1.flatten.length))).1,
          (extractCompleteSequences (((extractCompleteSequences before).2 ++ after).take
            (startIndex - (extractCompleteSequences before).1.flatten.length))).2) := by
  have hlength := congrArg List.length (extractCompleteSequences_flatten before)
  rw [List.length_append] at hlength
  obtain hlt | hle := Nat.lt_or_ge before.length startIndex
  · -- the marker lies in what follows
    have htake : (before ++ after).take startIndex =
        before ++ after.take (startIndex - before.length) := by
      rw [List.take_append, List.take_of_length_le (by omega)]
    have htake' : ((extractCompleteSequences before).2 ++ after).take
        (startIndex - (extractCompleteSequences before).1.flatten.length) =
        (extractCompleteSequences before).2 ++ after.take (startIndex - before.length) := by
      rw [List.take_append, List.take_of_length_le (by omega)]
      congr 2
      omega
    refine ⟨by omega, ?_⟩
    rw [htake, htake', extract_append]
  · -- the marker begins in the first part, which keeps its beginning
    rw [List.take_append_of_le_length hle] at hfinished ⊢
    have hprefix : before.drop startIndex <+: bracketedPasteStart := by
      have hmarker := (mem_positions.mp (indexOf?_mem hindex)).2
      rw [List.drop_append_of_le_length hle] at hmarker
      refine List.prefix_of_prefix_length_le (List.prefix_append _ _) hmarker ?_
      rw [List.length_drop]
      omega
    have hkept := extract_markerPrefix hprefix (by rw [List.length_drop]; omega)
    have hbefore := extract_append (before.take startIndex) (before.drop startIndex)
    rw [List.take_append_drop, hfinished, List.nil_append, hkept, List.append_nil] at hbefore
    rw [hbefore, List.length_drop] at hlength
    have hzero : startIndex - (extractCompleteSequences before).1.flatten.length = 0 := by
      rw [hbefore]
      omega
    refine ⟨by rw [hbefore]; omega, ?_⟩
    rw [hzero, List.take_zero, hbefore]
    exact Prod.ext (List.append_nil _).symm hfinished

theorem indexOf?_eq_none_of_later {marker : JsText} {index : ℕ}
    (hindex : indexOf? marker (before ++ after) = some index)
    (hlater : before.length < index + marker.length) : indexOf? marker before = none := by
  rw [Option.eq_none_iff_forall_ne_some]
  intro i hi
  obtain ⟨hi', hle⟩ := (indexOf?_left_iff after).mp hi
  obtain rfl := Option.some.inj (hindex.symm.trans hi')
  omega

theorem split_pasteStart {startIndex : ℕ}
    (hindex : indexOf? bracketedPasteStart (before ++ after) = some startIndex)
    (hfinished : (extractCompleteSequences ((before ++ after).take startIndex)).2 = [])
    (hpaste : Reads true ((before ++ after).drop (startIndex + bracketedPasteStart.length)) events
      mode' left)
    (hlater : before.length < startIndex + bracketedPasteStart.length) :
    ∃ first middle kept second, Reads false before first middle kept ∧
      Reads middle (kept ++ after) second mode' left ∧
      (extractCompleteSequences ((before ++ after).take startIndex)).1.map .data ++ events =
        first ++ second := by
  obtain ⟨hle, hextract⟩ := extract_take_pasteStart hindex hfinished hlater
  have hrest : (before ++ after).drop (extractCompleteSequences before).1.flatten.length =
      (extractCompleteSequences before).2 ++ after := by
    conv_lhs => rw [← extractCompleteSequences_flatten before, List.append_assoc]
    rw [extractCompleteSequences_flatten, List.drop_left]
  have hindex' := indexOf?_drop hindex hle
  rw [hrest] at hindex'
  rw [hextract] at hfinished
  have hpaste' : Reads true (((extractCompleteSequences before).2 ++ after).drop
      (startIndex - (extractCompleteSequences before).1.flatten.length +
        bracketedPasteStart.length)) events mode' left := by
    rw [← hrest, List.drop_drop]
    convert hpaste using 2
    omega
  refine ⟨_, false, _, _, .rest (indexOf?_eq_none_of_later hindex hlater),
    .pasteStart hindex' hfinished hpaste', ?_⟩
  rw [hextract, List.map_append, List.append_assoc]

theorem split (h : Reads mode (before ++ after) events mode' left) :
    ∃ first middle kept second, Reads mode before first middle kept ∧
      Reads middle (kept ++ after) second mode' left ∧ events = first ++ second := by
  generalize htext : before ++ after = text at h
  induction h generalizing before with
  | rest hnone =>
    subst htext
    have hbefore := (indexOf?_eq_none_of_append hnone).1
    have hkept : indexOf? bracketedPasteStart
        ((extractCompleteSequences before).2 ++ after) = none := by
      rw [← extractCompleteSequences_flatten before, List.append_assoc] at hnone
      exact (indexOf?_eq_none_of_append hnone).2
    rw [extract_append, List.map_append]
    exact ⟨_, _, _, _, .rest hbefore, .rest hkept, rfl⟩
  | @pasteStart _ startIndex _ _ _ hindex hfinished hpaste ih =>
    subst htext
    obtain hlater | hle := Nat.lt_or_ge before.length (startIndex + bracketedPasteStart.length)
    · exact split_pasteStart hindex hfinished hpaste hlater
    · have hindex' := (indexOf?_left_iff after).mpr ⟨hindex, hle⟩
      obtain ⟨first, middle, kept, second, hfirst, hsecond, rfl⟩ :=
        ih (List.drop_append_of_le_length hle).symm
      rw [List.take_append_of_le_length (by omega)] at hfinished ⊢
      refine ⟨_, _, _, _, .pasteStart hindex' hfinished hfirst, hsecond, ?_⟩
      rw [List.append_assoc]
  | pasting hnone =>
    subst htext
    exact ⟨_, _, _, _, .pasting (indexOf?_eq_none_of_append hnone).1, .pasting hnone, rfl⟩
  | @pasteEnd _ endIndex _ _ _ hindex hrest ih =>
    subst htext
    obtain hlater | hle := Nat.lt_or_ge before.length (endIndex + bracketedPasteEnd.length)
    · have hnone := indexOf?_eq_none_of_later hindex hlater
      exact ⟨_, _, _, _, .pasting hnone, .pasteEnd hindex hrest, rfl⟩
    · have hindex' := (indexOf?_left_iff after).mpr ⟨hindex, hle⟩
      obtain ⟨first, middle, kept, second, hfirst, hsecond, rfl⟩ :=
        ih (List.drop_append_of_le_length hle).symm
      refine ⟨_, _, _, _, .pasteEnd hindex' hfirst, hsecond, ?_⟩
      rw [List.take_append_of_le_length (by omega), List.cons_append]

end Reads

namespace StdinBuffer

variable {mode mode' : Bool} {text left : JsText} {emitted events : List StdinEvent}

/-- The buffer holds what is left over of a text; the timer runs if that is an unfinished
sequence. -/
def holding (emitted : List StdinEvent) (mode : Bool) (left : JsText) : StdinBuffer :=
  { buffer := if mode then [] else left
    timeout := !mode && left ≠ []
    pasteMode := mode
    pasteBuffer := if mode then left else []
    emitted }

theorem finishPaste_of_reads {process : StdinBuffer → JsText → StdinBuffer}
    (hreads : Reads true text events mode left)
    (hprocess : ∀ (emitted : List StdinEvent) (remaining : JsText) (events : List StdinEvent),
      remaining ≠ [] → remaining.length < text.length → Reads false remaining events mode left →
        process (holding emitted false []) remaining = holding (emitted ++ events) mode left) :
    (holding emitted true text).finishPaste process = holding (emitted ++ events) mode left := by
  cases hreads with
  | pasting hnone =>
    rw [finishPaste, List.append_nil]
    simp only [holding, if_true, hnone]
  | @pasteEnd _ endIndex rest _ _ hindex hrest =>
    have hbound := add_length_le_of_mem_positions (indexOf?_mem hindex)
    have hmarker : bracketedPasteEnd.length = 6 := rfl
    have hleft : { holding emitted true text with pasteMode := false, pasteBuffer := [] }.emit
        (.paste (text.take endIndex)) =
        holding (emitted ++ [.paste (text.take endIndex)]) false [] := rfl
    have hbuffer : (holding emitted true text).pasteBuffer = text := rfl
    rw [finishPaste, hbuffer, hindex]
    simp only [hleft]
    split_ifs with hempty
    · rw [hempty] at hrest
      obtain ⟨rfl, rfl, rfl⟩ := Reads.nil.unique hrest
      rfl
    · have hlength : (text.drop (endIndex + bracketedPasteEnd.length)).length < text.length := by
        rw [List.length_drop]
        omega
      rw [hprocess _ _ _ hempty hlength hrest, List.append_assoc]
      rfl

theorem processFrom_of_reads {fuel : ℕ} {str : JsText}
    (hfuel : kept.length + str.length < fuel) (hempty : str = [] → mode = false ∧ kept ≠ [])
    (hreads : Reads mode (kept ++ str) events mode' left) :
    (holding emitted mode kept).processFrom fuel str = holding (emitted ++ events) mode' left := by
  induction fuel generalizing mode mode' kept str emitted events left with
  | zero => exact absurd hfuel (Nat.not_lt_zero _)
  | succ fuel ih =>
    have hprocess (bound : ℕ) (hbound : bound ≤ fuel) (emitted : List StdinEvent)
        (remaining : JsText) (events : List StdinEvent) (hne : remaining ≠ [])
        (hlt : remaining.length < bound) (hreads : Reads false remaining events mode' left) :
        processFrom fuel (holding emitted false []) remaining =
          holding (emitted ++ events) mode' left := by
      refine ih ?_ (fun h => absurd h hne) hreads
      rw [List.length_nil]
      omega
    have hsome : ¬(str = [] ∧ (holding emitted mode kept).buffer = []) := by
      rintro ⟨hstr, hbuffer⟩
      obtain ⟨rfl, hkept⟩ := hempty hstr
      exact hkept hbuffer
    have htotal : (kept ++ str).length ≤ fuel := by
      rw [List.length_append]
      omega
    rw [processFrom, if_neg hsome]
    cases mode with
    | true =>
      exact finishPaste_of_reads hreads (hprocess _ htotal)
    | false =>
      have hbuffer : (holding emitted false kept).buffer = kept := rfl
      simp only [hbuffer]
      cases hreads with
      | rest hnone =>
        simp only [hnone]
        rfl
      | @pasteStart _ startIndex rest _ _ hindex hfinished hpaste =>
        have hbound : ((kept ++ str).drop
            (startIndex + bracketedPasteStart.length)).length ≤ fuel := by
          rw [List.length_drop]
          omega
        simp only [hindex, ← List.append_assoc]
        exact finishPaste_of_reads hpaste (hprocess _ hbound)

theorem process_empty (h : mode = true ∨ kept = []) :
    (holding emitted mode kept).process (.text []) = holding (emitted ++ [.data []]) mode kept := by
  have hbuffer : (holding emitted mode kept).buffer = [] := by
    obtain rfl | rfl := h
    · rfl
    · exact ite_self _
  have htimeout : (holding emitted mode kept).timeout = false := by
    obtain rfl | rfl := h
    · rfl
    · cases mode <;> rfl
  rw [process, processFrom, if_pos ⟨rfl, hbuffer⟩]
  rw [emit]
  simp only [holding] at htimeout ⊢
  rw [htimeout]

/-- The chunks arrive one after another; the timer does not fire. -/
def readChunks (s : StdinBuffer) (chunks : List JsText) : StdinBuffer :=
  chunks.foldl (fun s chunk => s.process (.text chunk)) s

/-- What is emitted, but for the empty texts that empty chunks give. -/
def nonempty (events : List StdinEvent) : List StdinEvent := events.filter (· ≠ .data [])

theorem nonempty_append (events events' : List StdinEvent) :
    nonempty (events ++ events') = nonempty events ++ nonempty events' :=
  List.filter_append _ _

theorem process_holding {chunk : JsText} (emitted : List StdinEvent)
    (hreads : Reads mode (kept ++ chunk) events mode' left)
    (hsettled : Reads mode kept [] mode kept) :
    ∃ added, (holding emitted mode kept).process (.text chunk) =
        holding (emitted ++ added) mode' left ∧
      nonempty added = nonempty events ∧ (chunk ≠ [] → added = events) := by
  by_cases hempty : chunk = [] ∧ (mode = true ∨ kept = [])
  · obtain ⟨rfl, hopen⟩ := hempty
    rw [List.append_nil] at hreads
    obtain ⟨rfl, rfl, rfl⟩ := hsettled.unique hreads
    exact ⟨[.data []], process_empty hopen, rfl, fun h => absurd rfl h⟩
  · refine ⟨events, processFrom_of_reads ?_ ?_ hreads, rfl, fun _ => rfl⟩
    · have hlength : (holding emitted mode kept).pasteBuffer.length +
          (holding emitted mode kept).buffer.length = kept.length := by
        cases mode
        · exact Nat.zero_add _
        · rfl
      rw [hlength]
      exact Nat.lt_succ_self _
    · rintro rfl
      rw [not_and, not_or] at hempty
      obtain ⟨hmode, hkept⟩ := hempty rfl
      exact ⟨Bool.eq_false_iff.mpr hmode, hkept⟩

theorem readChunks_holding {chunks : List JsText} (emitted : List StdinEvent)
    (hreads : Reads mode (kept ++ chunks.flatten) events mode' left)
    (hsettled : Reads mode kept [] mode kept) :
    ∃ added, readChunks (holding emitted mode kept) chunks = holding (emitted ++ added) mode' left ∧
      nonempty added = nonempty events ∧ ((∀ chunk ∈ chunks, chunk ≠ []) → added = events) := by
  induction chunks generalizing mode kept emitted events with
  | nil =>
    rw [List.flatten_nil, List.append_nil] at hreads
    obtain ⟨rfl, rfl, rfl⟩ := hsettled.unique hreads
    refine ⟨[], ?_, rfl, fun _ => rfl⟩
    rw [List.append_nil]
    rfl
  | cons chunk chunks ih =>
    rw [List.flatten_cons, ← List.append_assoc] at hreads
    obtain ⟨first, middle, kept', second, hfirst, hsecond, rfl⟩ := hreads.split
    obtain ⟨added, hprocess, hnonempty, hexact⟩ :=
      process_holding emitted hfirst hsettled
    obtain ⟨later, hlater, hnonempty', hexact'⟩ :=
      ih (emitted ++ added) hsecond hfirst.settled
    refine ⟨added ++ later, ?_, ?_, fun hchunks => ?_⟩
    · rw [readChunks, List.foldl_cons, hprocess, ← List.append_assoc]
      exact hlater
    · rw [nonempty_append, nonempty_append, hnonempty, hnonempty']
    · rw [hexact (hchunks chunk List.mem_cons_self),
        hexact' fun c hc => hchunks c (List.mem_cons_of_mem _ hc)]

/-- The same events apart from empty texts, and the same remainder. -/
structure SameReading (s t : StdinBuffer) : Prop where
  emitted : nonempty s.emitted = nonempty t.emitted
  buffer : s.buffer = t.buffer
  pasteMode : s.pasteMode = t.pasteMode
  pasteBuffer : s.pasteBuffer = t.pasteBuffer

/-- Two ways to cut a text, in which no paste start comes after an unfinished sequence, give the
same events and the same remainder: exactly so for chunks that are not empty, and otherwise but for
the empty text that is emitted for an empty chunk. -/
theorem readChunks_independent {text : JsText} (hcut : cutOff (text.length + 1) false text = [])
    {chunks chunks' : List JsText} (h : chunks.flatten = text) (h' : chunks'.flatten = text) :
    SameReading (readChunks initial chunks) (readChunks initial chunks') ∧
      ((∀ chunk ∈ chunks ++ chunks', chunk ≠ []) →
        readChunks initial chunks = readChunks initial chunks') := by
  obtain ⟨events, mode, left, hreads⟩ := Reads.exists_of_cutOff (Nat.lt_succ_self _) hcut
  have hinitial : initial = holding [] false [] := rfl
  rw [hinitial]
  subst h
  obtain ⟨added, hadded, hnonempty, hexact⟩ := readChunks_holding [] hreads Reads.nil
  rw [← h'] at hreads
  obtain ⟨added', hadded', hnonempty', hexact'⟩ := readChunks_holding [] hreads Reads.nil
  rw [hadded, hadded']
  refine ⟨⟨hnonempty.trans hnonempty'.symm, rfl, rfl, rfl⟩, fun hchunks => ?_⟩
  rw [hexact fun c hc => hchunks c (List.mem_append_left _ hc),
    hexact' fun c hc => hchunks c (List.mem_append_right _ hc)]

def keyAndPaste : JsText := utf16 "\x1b[1;5Ax\x1b[200~hi\x1b[201~b\x1b"

/-- The cuts are inside of the key sequence and of both markers. -/
theorem readChunks_independent_keyAndPaste :
    cutOff (keyAndPaste.length + 1) false keyAndPaste = [] ∧
      SameReading
        (readChunks initial [utf16 "\x1b[1;5", utf16 "Ax\x1b[20", utf16 "0~hi\x1b[201", [],
          utf16 "~b\x1b"])
        (readChunks initial [keyAndPaste]) := by
  have hcut : cutOff (keyAndPaste.length + 1) false keyAndPaste = [] := by decide +kernel
  exact ⟨hcut, (readChunks_independent hcut (by decide) (by decide)).1⟩

/-- An empty chunk before a key is emitted. -/
theorem emptyChunk_not_independent :
    ¬∀ (text : JsText) (chunks chunks' : List JsText),
      cutOff (text.length + 1) false text = [] → chunks.flatten = text → chunks'.flatten = text →
        (readChunks initial chunks).emitted = (readChunks initial chunks').emitted ∧
          (readChunks initial chunks).buffer = (readChunks initial chunks').buffer ∧
            (readChunks initial chunks).pasteBuffer = (readChunks initial chunks').pasteBuffer := by
  intro h
  have hemitted := (h (utf16 "a") [[], utf16 "a"] [utf16 "a"] (by decide) rfl rfl).1
  have hne : (readChunks initial [[], utf16 "a"]).emitted ≠
      (readChunks initial [utf16 "a"]).emitted := by
    decide +kernel
  exact hne hemitted

end StdinBuffer

end Draht
