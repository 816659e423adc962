import Draht.StdinBuffer

/-!
# No input is lost

What the buffer hands out, in order, together with what it still holds, is what it received, except
for the unfinished escape sequences that a paste start comes right after.
-/

namespace Draht
open List

theorem extractFrom_flatten (fuel : ℕ) (remaining : JsText) :
    (extractFrom fuel remaining).1.flatten ++ (extractFrom fuel remaining).2 = remaining := by
  induction fuel generalizing remaining with
  | zero => rfl
  | succ fuel ih =>
    cases remaining with
    | nil => rfl
    | cons c rest =>
      simp only [extractFrom]
      split_ifs
      · split
        · rename_i n _
          simp only [flatten_cons, append_assoc, ih]
          exact take_append_drop n _
        · rfl
      · simp only [flatten_cons, append_assoc, ih]
        rfl

theorem extractCompleteSequences_flatten (buffer : JsText) :
    (extractCompleteSequences buffer).1.flatten ++ (extractCompleteSequences buffer).2 = buffer :=
  extractFrom_flatten _ _

namespace StdinBuffer

variable {s s' : StdinBuffer}

def outputText : StdinEvent → JsText
  | .data sequence => sequence
  | .paste content => bracketedPasteStart ++ (content ++ bracketedPasteEnd)
  | .flushed sequences => sequences.flatten

def handedOut (s : StdinBuffer) : JsText := s.emitted.flatMap outputText

/-- What is still held; in paste mode the start marker has been taken off. -/
def held (s : StdinBuffer) : JsText :=
  (if s.pasteMode then bracketedPasteStart else []) ++ (s.pasteBuffer ++ s.buffer)

def accounted (s : StdinBuffer) : JsText := s.handedOut ++ s.held

/-- Only one of the two buffers is in use, and a paste that is collected has not ended. -/
structure Moded (s : StdinBuffer) : Prop where
  pasting : s.pasteMode = true → s.buffer = [] ∧ indexOf? bracketedPasteEnd s.pasteBuffer = none
  reading : s.pasteMode = false → s.pasteBuffer = []

theorem handedOut_emit (s : StdinBuffer) (e : StdinEvent) :
    (s.emit e).handedOut = s.handedOut ++ outputText e := by
  simp [handedOut, emit]

theorem handedOut_emitAll (s : StdinBuffer) (sequences : List JsText) :
    (s.emitAll sequences).handedOut = s.handedOut ++ sequences.flatten := by
  have htext : (sequences.map StdinEvent.data).flatMap outputText = sequences.flatten := by
    rw [flatMap_map]
    exact flatMap_id'
  rw [handedOut, emitAll, flatMap_append, htext]
  rfl

/-- After a paste: what the rest of the text cuts off. -/
def cutAfterPaste (cut : JsText → JsText) (text : JsText) : JsText :=
  match indexOf? bracketedPasteEnd text with
  | some endIndex => cut (text.drop (endIndex + bracketedPasteEnd.length))
  | none => []

/-- The unfinished sequences that paste starts come right after, in a text that is read in or
outside paste mode. -/
def cutOff : ℕ → Bool → JsText → JsText
  | 0, _, _ => []
  | fuel + 1, true, text => cutAfterPaste (cutOff fuel false) text
  | fuel + 1, false, text =>
    match indexOf? bracketedPasteStart text with
    | some startIndex =>
      (extractCompleteSequences (text.take startIndex)).2 ++
        cutAfterPaste (cutOff fuel false)
          (text.drop (startIndex + bracketedPasteStart.length))
    | none => []

theorem cutOff_nil (fuel : ℕ) : cutOff fuel false [] = [] := by
  cases fuel <;> rfl

/-- From `s` to `s'` a text is received, and nothing is lost but what is cut off. -/
structure Accounts (s s' : StdinBuffer) (str cut : JsText) : Prop where
  length : s'.accounted.length + cut.length = s.accounted.length + str.length
  exact : cut = [] → s'.accounted = s.accounted ++ str

theorem Accounts.of_eq {str : JsText} (h : s'.accounted = s.accounted ++ str) :
    Accounts s s' str [] :=
  ⟨by rw [h, length_append, length_nil, Nat.add_zero], fun _ => h⟩

theorem Accounts.trans {t : StdinBuffer} {str cut cut' : JsText} (h : Accounts s t str cut)
    (h' : Accounts t s' [] cut') : Accounts s s' str (cut ++ cut') := by
  refine ⟨?_, ?_⟩
  · have hlen := h.length
    have hlen' := h'.length
    rw [length_nil] at hlen'
    rw [length_append]
    omega
  · intro hnil
    obtain ⟨hcut, hcut'⟩ := append_eq_nil_iff.mp hnil
    rw [h'.exact hcut', h.exact hcut, append_nil]

theorem accounts_finishPaste {process : StdinBuffer → JsText → StdinBuffer}
    {cut : JsText → JsText} (hcut : cut [] = []) (hpaste : s.pasteMode = true)
    (hbuffer : s.buffer = [])
    (hprocess : ∀ (left : StdinBuffer) (remaining : JsText), left.pasteMode = false →
      left.pasteBuffer = [] → left.buffer = [] → remaining.length < s.pasteBuffer.length →
      (process left remaining).Moded ∧
        Accounts left (process left remaining) remaining (cut remaining)) :
    (s.finishPaste process).Moded ∧
      Accounts s (s.finishPaste process) [] (cutAfterPaste cut s.pasteBuffer) := by
  unfold finishPaste cutAfterPaste
  cases hindex : indexOf? bracketedPasteEnd s.pasteBuffer with
  | none =>
    refine ⟨⟨fun _ => ⟨hbuffer, hindex⟩, fun hfalse => ?_⟩, .of_eq (append_nil _).symm⟩
    exact absurd (hpaste.symm.trans hfalse) Bool.noConfusion
  | some endIndex =>
    have hsplit := indexOf?_split hindex
    have hbound := add_length_le_of_mem_positions (indexOf?_mem hindex)
    have hmarker : bracketedPasteEnd.length = 6 := rfl
    generalize hremaining :
      s.pasteBuffer.drop (endIndex + bracketedPasteEnd.length) = remaining at hsplit
    simp only [hremaining]
    set left := { s with pasteMode := false, pasteBuffer := [] }.emit
      (.paste (s.pasteBuffer.take endIndex)) with hleft
    have hlength : remaining.length < s.pasteBuffer.length := by
      rw [← hremaining, length_drop]
      omega
    have haccounted : left.accounted ++ remaining = s.accounted := by
      have hheld : left.held = [] := hbuffer
      rw [accounted, hheld, append_nil, hleft, handedOut_emit, accounted, held, hpaste,
        if_pos rfl, hbuffer, append_nil]
      conv_rhs => rw [hsplit]
      simp [handedOut, outputText]
    split_ifs with hempty
    · rw [hempty, hcut]
      refine ⟨⟨fun htrue => Bool.noConfusion htrue, fun _ => rfl⟩, .of_eq ?_⟩
      rw [← haccounted, hempty, append_nil, append_nil]
    · obtain ⟨hmoded, hlen, hexact⟩ := hprocess left remaining rfl rfl hbuffer hlength
      refine ⟨hmoded, ?_, ?_⟩
      · rw [hlen, ← haccounted, length_append, length_nil, Nat.add_zero]
      · intro hnil
        rw [hexact hnil, haccounted, append_nil]

theorem accounted_reading (hmode : s.pasteMode = false) (hnone : s.pasteBuffer = []) :
    s.accounted = s.handedOut ++ s.buffer := by
  rw [accounted, held, hmode, hnone]
  rfl

theorem accounts_reading (hmode : s.pasteMode = false) (hnone : s.pasteBuffer = [])
    (str : JsText) (timeout : Bool) :
    Accounts s
      { s with
        timeout
        emitted := s.emitted ++ (extractCompleteSequences (s.buffer ++ str)).1.map .data
        buffer := (extractCompleteSequences (s.buffer ++ str)).2 } str [] := by
  have hflatten := extractCompleteSequences_flatten (s.buffer ++ str)
  generalize extractCompleteSequences (s.buffer ++ str) = result at hflatten
  have hafter : accounted
      { s with timeout, emitted := s.emitted ++ result.1.map .data, buffer := result.2 } =
      s.handedOut ++ result.1.flatten ++ result.2 := by
    rw [← handedOut_emitAll]
    apply accounted_reading
    · exact hmode
    · exact hnone
  refine .of_eq ?_
  rw [hafter, accounted_reading hmode hnone, append_assoc, hflatten, append_assoc]

theorem accounts_pasteStart {str pasted : JsText} {startIndex : ℕ} (hmode : s.pasteMode = false)
    (hnone : s.pasteBuffer = [])
    (hindex : indexOf? bracketedPasteStart (s.buffer ++ str) = some startIndex)
    (hpasted : (s.buffer ++ str).drop (startIndex + bracketedPasteStart.length) = pasted)
    {result : List JsText × JsText}
    (hresult : extractCompleteSequences ((s.buffer ++ str).take startIndex) = result) :
    Accounts s
      { s with
        timeout := false, emitted := s.emitted ++ result.1.map .data
        pasteMode := true, pasteBuffer := pasted, buffer := [] } str result.2 := by
  have hsplit := indexOf?_split hindex
  have hflatten := extractCompleteSequences_flatten ((s.buffer ++ str).take startIndex)
  rw [hresult] at hflatten
  rw [hpasted, ← hflatten] at hsplit
  have hbefore : s.accounted ++ str =
      s.handedOut ++ (result.1.flatten ++ (result.2 ++ (bracketedPasteStart ++ pasted))) := by
    rw [accounted_reading hmode hnone, append_assoc, hsplit, append_assoc]
  have hafter : accounted
      { s with
        timeout := false, emitted := s.emitted ++ result.1.map .data
        pasteMode := true, pasteBuffer := pasted, buffer := [] } =
      s.handedOut ++ (result.1.flatten ++ (bracketedPasteStart ++ pasted)) := by
    rw [accounted, held, if_pos rfl, append_nil, ← append_assoc s.handedOut]
    exact congrArg (· ++ (bracketedPasteStart ++ pasted)) (handedOut_emitAll s result.1)
  refine ⟨?_, ?_⟩
  · have hlength := congrArg List.length hbefore
    rw [hafter]
    simp only [length_append] at hlength ⊢
    omega
  · intro hnil
    rw [hafter, hbefore, hnil, nil_append]

theorem accounts_processFrom {fuel : ℕ} {str : JsText} (hmoded : s.Moded)
    (hfuel : s.pasteBuffer.length + s.buffer.length + str.length < fuel) :
    (s.processFrom fuel str).Moded ∧ Accounts s (s.processFrom fuel str) str
      (cutOff fuel s.pasteMode (s.pasteBuffer ++ (s.buffer ++ str))) := by
  induction fuel generalizing s str with
  | zero => exact absurd hfuel (Nat.not_lt_zero _)
  | succ fuel ih =>
    have hprocess (bound : ℕ) (hbound : bound ≤ fuel) (left : StdinBuffer) (remaining : JsText)
        (hmode : left.pasteMode = false) (hpaste : left.pasteBuffer = [])
        (hbuffer : left.buffer = []) (hlt : remaining.length < bound) :
        (processFrom fuel left remaining).Moded ∧
          Accounts left (processFrom fuel left remaining) remaining
            (cutOff fuel false remaining) := by
      have hleft : left.Moded :=
        ⟨fun htrue => absurd (hmode.symm.trans htrue) Bool.noConfusion, fun _ => hpaste⟩
      have hlen : left.pasteBuffer.length + left.buffer.length + remaining.length < fuel := by
        rw [hpaste, hbuffer, length_nil]
        omega
      have hresult := ih hleft hlen
      rwa [hmode, hpaste, hbuffer, nil_append, nil_append] at hresult
    have htotal : (s.pasteBuffer ++ (s.buffer ++ str)).length ≤ fuel := by
      rw [length_append, length_append]
      omega
    unfold processFrom
    simp only
    split_ifs with hempty hpaste
    · -- nothing new: a paste that is collected stays open
      obtain ⟨rfl, hbuffer⟩ := hempty
      refine ⟨⟨hmoded.pasting, hmoded.reading⟩, ?_⟩
      have hcut : cutOff (fuel + 1) s.pasteMode (s.pasteBuffer ++ (s.buffer ++ [])) = [] := by
        cases hmode : s.pasteMode with
        | false =>
          rw [hmoded.reading hmode, hbuffer]
          exact cutOff_nil _
        | true =>
          rw [hbuffer, append_nil, append_nil, cutOff, cutAfterPaste, (hmoded.pasting hmode).2]
      rw [hcut]
      refine .of_eq ?_
      rw [accounted, handedOut_emit, append_nil]
      exact congrArg (· ++ s.held) (append_nil _)
    · -- the paste goes on
      obtain ⟨hbuffer, -⟩ := hmoded.pasting hpaste
      have hstart : Accounts s
          { s with
            timeout := false, pasteBuffer := s.pasteBuffer ++ (s.buffer ++ str), buffer := [] }
          str [] := by
        refine .of_eq ?_
        simp [accounted, held, handedOut, hbuffer]
      obtain ⟨hmoded', haccounts⟩ := accounts_finishPaste
        (s := { s with
          timeout := false, pasteBuffer := s.pasteBuffer ++ (s.buffer ++ str), buffer := [] })
        (cutOff_nil fuel) hpaste rfl (hprocess _ htotal)
      have hcut : cutOff (fuel + 1) s.pasteMode (s.pasteBuffer ++ (s.buffer ++ str)) =
          cutAfterPaste (cutOff fuel false) (s.pasteBuffer ++ (s.buffer ++ str)) := by
        rw [hpaste]
        rfl
      rw [hcut]
      exact ⟨hmoded', hstart.trans haccounts⟩
    · have hmode : s.pasteMode = false := Bool.eq_false_iff.mpr hpaste
      have hnone := hmoded.reading hmode
      rw [hnone, nil_append] at htotal
      rw [hmode, hnone, nil_append, cutOff]
      cases hindex : indexOf? bracketedPasteStart (s.buffer ++ str) with
      | none =>
        have haccounts := accounts_reading hmode hnone str
          ((extractCompleteSequences (s.buffer ++ str)).2 ≠ [])
        rw [hmode, hnone] at haccounts
        exact ⟨⟨fun htrue => Bool.noConfusion htrue, fun _ => rfl⟩, haccounts⟩
      | some startIndex =>
        have haccounts := accounts_pasteStart hmode hnone hindex rfl rfl
        have hbound : ((s.buffer ++ str).drop
            (startIndex + bracketedPasteStart.length)).length ≤ fuel := by
          rw [length_drop]
          omega
        obtain ⟨hmoded', hpaste'⟩ := accounts_finishPaste
          (s := { s with
            timeout := false
            emitted := s.emitted ++
              (extractCompleteSequences ((s.buffer ++ str).take startIndex)).1.map .data
            pasteMode := true
            pasteBuffer := (s.buffer ++ str).drop (startIndex + bracketedPasteStart.length)
            buffer := [] })
          (cutOff_nil fuel) rfl rfl (hprocess _ hbound)
        exact ⟨hmoded', haccounts.trans hpaste'⟩

def inputOf : StdinAction → JsText
  | .process chunk => chunk.str
  | .timeout | .flush => []

/-- The unfinished sequences that an action cuts off. -/
def lost (s : StdinBuffer) : StdinAction → JsText
  | .process chunk =>
    cutOff (s.pasteBuffer.length + s.buffer.length + chunk.str.length + 1) s.pasteMode
      (s.pasteBuffer ++ (s.buffer ++ chunk.str))
  | .timeout | .flush => []

def received (steps : List (Transition StdinBuffer StdinAction)) : JsText :=
  steps.flatMap fun t => inputOf t.action

theorem accounted_flush (hmoded : s.Moded) :
    s.flush.2.handedOut ++ s.flush.1.flatten ++ s.flush.2.held = s.accounted := by
  have hflatten : s.flush.1.flatten = s.buffer := by
    unfold flush
    by_cases h : s.buffer = []
    · simp [h]
    · simp [h]
  rw [hflatten, accounted, held, held]
  cases hmode : s.pasteMode with
  | false => simp [flush, handedOut, hmode, hmoded.reading hmode]
  | true => simp [flush, handedOut, hmode, (hmoded.pasting hmode).1]

theorem accounts_step {a : StdinAction} (hmoded : s.Moded) (hs : step s a = some s') :
    s'.Moded ∧ Accounts s s' (inputOf a) (lost s a) := by
  have hflushed : s.flush.2.Moded :=
    ⟨fun hmode => ⟨rfl, (hmoded.pasting hmode).2⟩, hmoded.reading⟩
  cases a with
  | process chunk =>
    cases hs
    exact accounts_processFrom hmoded (Nat.lt_succ_self _)
  | timeout =>
    simp only [step] at hs
    split_ifs at hs
    cases hs
    refine ⟨⟨hflushed.pasting, hflushed.reading⟩, .of_eq ?_⟩
    rw [inputOf, append_nil, ← accounted_flush hmoded, accounted, handedOut_emitAll]
    rfl
  | flush =>
    cases hs
    refine ⟨⟨hflushed.pasting, hflushed.reading⟩, .of_eq ?_⟩
    rw [inputOf, append_nil, ← accounted_flush hmoded, accounted, handedOut_emit]
    rfl

theorem moded_initial : initial.Moded := ⟨fun h => Bool.noConfusion h, fun _ => rfl⟩

theorem received_concat (steps : List (Transition StdinBuffer StdinAction))
    (t : Transition StdinBuffer StdinAction) :
    received (steps ++ [t]) = received steps ++ inputOf t.action := by
  simp [received]

/-- In every run, what was handed out and what is held is what was received if and only if no
step cuts anything off. -/
theorem stdin_conserved_iff {steps : List (Transition StdinBuffer StdinAction)}
    (h : GuardedRun step (fun _ _ => True) initial steps s) :
    s.handedOut ++ s.held = received steps ↔ ∀ t ∈ steps, lost t.before t.action = [] := by
  have hrun := h.induct (P := fun steps s => s.Moded ∧
    s.accounted.length ≤ (received steps).length ∧
    ((∀ t ∈ steps, lost t.before t.action = []) → s.accounted = received steps) ∧
    (s.accounted.length = (received steps).length → ∀ t ∈ steps, lost t.before t.action = []))
    ⟨moded_initial, Nat.le_refl _, fun _ => rfl, nofun⟩ ?_
  · obtain ⟨-, -, hconserved, hall⟩ := hrun
    exact ⟨fun heq => hall (congrArg List.length heq), hconserved⟩
  intro steps s a s' ⟨hmoded, hle, hconserved, hall⟩ _ hs
  obtain ⟨hmoded', hlength, hexact⟩ := accounts_step hmoded hs
  have htotal : (received (steps ++ [⟨s, a, s'⟩])).length =
      (received steps).length + (inputOf a).length := by
    rw [received_concat, length_append]
  refine ⟨hmoded', by omega, ?_, ?_⟩
  · intro hnone
    have hbefore := hconserved fun t ht => hnone t (mem_append_left _ ht)
    have hlast := hnone ⟨s, a, s'⟩ (mem_append_right _ (mem_singleton_self _))
    rw [hexact hlast, hbefore, received_concat]
  · intro heq t ht
    have hlast : (lost s a).length = 0 := by omega
    have hbefore : s.accounted.length = (received steps).length := by omega
    obtain ht | ht := mem_append.mp ht
    · exact hall hbefore t ht
    · rw [mem_singleton.mp ht]
      exact eq_nil_of_length_eq_zero hlast

def chunk (text : String) : StdinAction := .process (.text (utf16 text))

/-- A paste whose markers are cut, after an escape that the timer has flushed. -/
def cutPaste : List StdinAction :=
  [chunk "a\x1b", .timeout, chunk "\x1b[20", chunk "0~hi\x1b[2", chunk "01~b"]

theorem stdin_conserved_cutPaste :
    ∃ steps s, (GuardedRun step (fun _ _ => True) initial steps s ∧
      s.emitted = [.data (utf16 "a"), .data (utf16 "\x1b"), .paste (utf16 "hi"),
        .data (utf16 "b")]) ∧
      (s.handedOut ++ s.held = received steps ↔ ∀ t ∈ steps, lost t.before t.action = []) := by
  obtain ⟨steps, s, hruns, hemitted⟩ := GuardedRun.exists_of_play step (fun _ _ => True) initial
    cutPaste (fun _ s => s.emitted = [.data (utf16 "a"), .data (utf16 "\x1b"),
      .paste (utf16 "hi"), .data (utf16 "b")]) (by decide +kernel)
  exact ⟨steps, s, ⟨hruns, hemitted⟩, stdin_conserved_iff hruns⟩

/-- An escape that a paste follows at once is not handed out, and not held. -/
theorem escapeBeforePaste_lost :
    ¬∀ (steps : List (Transition StdinBuffer StdinAction)) (s : StdinBuffer),
      GuardedRun step (fun _ _ => True) initial steps s →
        s.handedOut ++ s.held = received steps := by
  intro h
  obtain ⟨steps, s, hruns, hlost⟩ := GuardedRun.exists_of_play step (fun _ _ => True) initial
    [chunk "\x1b", chunk "\x1b[200~hi\x1b[201~"]
    (fun steps s => s.handedOut ++ s.held ≠ received steps) (by decide +kernel)
  exact hlost (h _ _ hruns)

end StdinBuffer

end Draht
