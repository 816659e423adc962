import Draht.SplitOn
import Draht.Utf8

/-!
# Encoded texts in chunks

The bytes of a text arrive cut into chunks. A decoder that keeps the bytes of an unfinished
character from one chunk to the next gives the text; decoding every chunk for itself does so if and
only if no chunk begins inside a character.
-/

namespace Draht
open List

namespace Utf8

theorem readLead_lower_le (b : ℕ) : (readLead b).2.lower ≤ (readLead b).2.upper := by
  unfold readLead
  split_ifs <;> dsimp only [start] <;> omega

theorem readAll_lower_le {q : Decoder} (h : q.lower ≤ q.upper) (bytes : List UInt8) :
    (q.readAll bytes).2.lower ≤ (q.readAll bytes).2.upper := by
  induction bytes generalizing q with
  | nil => exact h
  | cons b bytes ih =>
    refine ih (q := (q.read b.toNat).2) ?_
    unfold Decoder.read
    split_ifs
    · exact readLead_lower_le _
    · exact (by decide : start.lower ≤ start.upper)
    · exact (by decide : 0x80 ≤ 0xBF)
    · exact readLead_lower_le _

theorem readAll_encode (text : List Char) :
    (start.readAll (encode text)).1 = text ∧ (start.readAll (encode text)).2.needed = 0 := by
  obtain ⟨p, hreads⟩ := readAll_reads reads_start (encode text)
  have hdecode (bytes : List UInt8) : (start.readAll (encode text)).1 ++
      (start.readAll (encode text)).2.decode bytes = text ++ start.decode bytes :=
    (decode_append start (encode text) bytes).symm.trans (decode_encode_append text bytes)
  have hlower : (start.readAll (encode text)).2.lower ≤ (start.readAll (encode text)).2.upper :=
    readAll_lower_le (by decide) _
  generalize start.readAll (encode text) = result at hreads hdecode hlower
  obtain ⟨out, q⟩ := result
  simp only at hreads hdecode hlower
  have hend := hdecode []
  rw [decode_nil, decode_nil] at hend
  by_cases hneeded : q.needed = 0
  · rw [Decoder.flush, if_pos hneeded, append_nil] at hend
    exact ⟨hend.trans (append_nil text), hneeded⟩
  · -- one more byte would go on with the character instead of being replaced
    obtain ⟨hlow, hhigh⟩ := hreads.bounds hneeded
    have hnext := hdecode [UInt8.ofNat q.lower]
    have hbyte : (UInt8.ofNat q.lower).toNat = q.lower := toNat_ofNat_byte (by omega)
    have hlead : readLead q.lower = ([replacement], start) := by
      rw [readLead, if_neg (by omega), if_neg (by omega), if_neg (by omega), if_neg (by omega)]
    have hflush : start.flush = [] := rfl
    rw [Decoder.flush, if_neg hneeded, hflush, append_nil] at hend
    rw [decode_cons, decode_cons, hbyte, read_start, hlead, decode_nil, decode_nil, ← hend,
      read_tail hneeded (Nat.le_refl _) hlower, hflush, append_nil, append_assoc] at hnext
    have hlength := congrArg List.length (append_cancel_left hnext)
    split_ifs at hlength with hone
    · rw [hflush] at hlength
      exact absurd hlength (by simp)
    · have hmore : q.needed - 1 ≠ 0 := by
        omega
      rw [Decoder.flush, if_neg hmore] at hlength
      exact absurd hlength (by simp)

theorem encode_cut {a b : List UInt8} {text : List Char} (h : a ++ b = encode text) :
    (∃ left right, text = left ++ right ∧ a = encode left ∧ b = encode right) ∨
      ∃ left c right front back, text = left ++ c :: right ∧ a = encode left ++ front ∧
        b = back ++ encode right ∧ encodeChar c = front ++ back ∧ front ≠ [] ∧ back ≠ [] := by
  induction text generalizing a with
  | nil =>
    obtain ⟨rfl, rfl⟩ := append_eq_nil_iff.mp h
    exact .inl ⟨[], [], rfl, rfl, rfl⟩
  | cons c text ih =>
    rcases append_eq_append_iff.mp h with ⟨back, hc, hb⟩ | ⟨a', ha, hrest⟩
    · by_cases hfront : a = []
      · subst hfront
        exact .inl ⟨[], c :: text, rfl, rfl, h⟩
      by_cases hback : back = []
      · rw [hback, append_nil] at hc
        rw [hback, nil_append] at hb
        exact .inl ⟨[c], text, rfl, hc.symm.trans (append_nil _).symm, hb⟩
      · exact .inr ⟨[], c, text, a, back, rfl, rfl, hb, hc, hfront, hback⟩
    · rcases ih hrest.symm with ⟨left, right, rfl, rfl, hb⟩ |
        ⟨left, c', right, front, back, rfl, rfl, hb, hc', hne⟩
      · exact .inl ⟨c :: left, right, rfl, ha, hb⟩
      · refine .inr ⟨c :: left, c', right, front, back, rfl, ?_, hb, hc', hne⟩
        rw [ha, encode_cons, append_assoc]

variable {front back : List UInt8} {c : Char} {chunks : List (List UInt8)}

theorem decode_continuation (h : ∀ b ∈ front, isContinuation b = true)
    (bytes : List UInt8) :
    decode (front ++ bytes) = List.replicate front.length replacement ++ decode bytes := by
  induction front with
  | nil => rfl
  | cons b front ih =>
    obtain ⟨hb, hfront⟩ := forall_mem_cons.mp h
    have hbounds := (isContinuation_eq b).symm.trans hb
    simp only [Bool.and_eq_true, decide_eq_true_eq] at hbounds
    have hread : start.read b.toNat = ([replacement], start) := by
      rw [read_start, readLead, if_neg (by omega), if_neg (by omega), if_neg (by omega),
        if_neg (by omega)]
    have hrest : start.decode (front ++ bytes) =
        List.replicate front.length replacement ++ start.decode bytes := ih hfront
    rw [cons_append, decode, decode_cons, hread, hrest]
    rfl

theorem decode_front (h : encodeChar c = front ++ back)
    (hfront : front ≠ []) (hback : back ≠ []) :
    ∃ k, 1 ≤ k ∧ decode front = List.replicate k replacement := by
  have hlength := congrArg List.length h
  rw [length_append] at hlength
  have hfrontLength := length_pos_iff.mpr hfront
  have hbackLength := length_pos_iff.mpr hback
  obtain ⟨k, hk⟩ := decode_take_encodeChar c (n := front.length) (by omega)
  rw [h, take_left] at hk
  refine ⟨k, ?_, hk⟩
  by_contra hzero
  obtain rfl : k = 0 := by omega
  have hbytes := le_byteLength_decode reads_start front
  rw [decode] at hk
  rw [hk] at hbytes
  have hnil : byteLength (List.replicate 0 replacement) = 0 := rfl
  omega

def isAscii (c : Char) : Bool := c.toNat < 0x80

/-- What a text becomes when some of its characters are cut: each of them at least two replacement
characters. -/
inductive Garbled : List Char → List Char → Prop
  | nil : Garbled [] []
  | keep (c : Char) {text out : List Char} : Garbled text out → Garbled (c :: text) (c :: out)
  | lose {c : Char} {k : ℕ} {text out : List Char} : isAscii c = false → 2 ≤ k →
      Garbled text out → Garbled (c :: text) (List.replicate k replacement ++ out)

namespace Garbled

variable {text out rest : List Char}

theorem append_left (left : List Char) (h : Garbled text out) :
    Garbled (left ++ text) (left ++ out) := by
  induction left with
  | nil => exact h
  | cons c left ih => exact ih.keep c

theorem length_le (h : Garbled text out) : text.length ≤ out.length := by
  induction h with
  | nil => exact Nat.le_refl 0
  | keep c h ih =>
    rw [length_cons, length_cons]
    omega
  | lose hc hk h ih =>
    rw [length_cons, length_append, length_replicate]
    omega

theorem filter_isAscii (h : Garbled text out) : out.filter isAscii = text.filter isAscii := by
  induction h with
  | nil => rfl
  | keep c h ih => rw [filter_cons, filter_cons, ih]
  | @lose c k text out hc hk h ih =>
    have hreplaced : (List.replicate k replacement).filter isAscii = [] :=
      filter_replicate_of_neg (by decide)
    rw [filter_append, hreplaced, nil_append, ih, filter_cons_of_neg (by simp [hc])]

theorem mem_iff (hc : isAscii c = true) (h : Garbled text out) : c ∈ out ↔ c ∈ text := by
  have hmem (t : List Char) : c ∈ t ↔ c ∈ t.filter isAscii :=
    ⟨fun hct => mem_filter.mpr ⟨hct, hc⟩, fun hct => (mem_filter.mp hct).1⟩
  rw [hmem out, hmem text, h.filter_isAscii]

theorem split (h : Garbled (text ++ rest) out) :
    ∃ out₁ out₂, out = out₁ ++ out₂ ∧ Garbled text out₁ ∧ Garbled rest out₂ := by
  induction text generalizing out with
  | nil => exact ⟨[], out, rfl, .nil, h⟩
  | cons c text ih =>
    cases h with
    | keep _ h =>
      obtain ⟨out₁, out₂, rfl, h₁, h₂⟩ := ih h
      exact ⟨c :: out₁, out₂, rfl, h₁.keep c, h₂⟩
    | lose hc hk h =>
      obtain ⟨out₁, out₂, rfl, h₁, h₂⟩ := ih h
      exact ⟨_ ++ out₁, out₂, (append_assoc _ _ _).symm, h₁.lose hc hk, h₂⟩

theorem lines {sep : Char} (hsep : isAscii sep = true) {lines : List (List Char)}
    (h : Garbled (framed sep lines) out) :
    ∃ outs, out = framed sep outs ∧ List.Forall₂ Garbled lines outs := by
  induction lines generalizing out with
  | nil =>
    cases h
    exact ⟨[], rfl, .nil⟩
  | cons line lines ih =>
    have hframed : framed sep (line :: lines) = line ++ sep :: framed sep lines := by
      rw [framed, flatMap_cons, append_assoc]
      rfl
    rw [hframed] at h
    obtain ⟨out₁, out₂, rfl, hline, hrest⟩ := h.split
    cases hrest with
    | keep _ hrest =>
      obtain ⟨outs, rfl, hlines⟩ := ih hrest
      refine ⟨out₁ :: outs, ?_, .cons hline hlines⟩
      rw [framed, framed, flatMap_cons, append_assoc]
      rfl
    | lose hc => exact absurd hsep (by simp [hc])

end Garbled

theorem isContinuation_back (h : encodeChar c = front ++ back)
    (hfront : front ≠ []) : ∀ b ∈ back, isContinuation b = true := by
  obtain ⟨lead, tail, hc, -, htail⟩ := encodeChar_eq c
  obtain ⟨b, front, rfl⟩ := exists_cons_of_ne_nil hfront
  rw [hc, cons_append] at h
  intro b hb
  refine htail b ?_
  rw [(cons.inj h).2]
  exact mem_append_right front hb

theorem isAscii_of_cut (h : encodeChar c = front ++ back)
    (hfront : front ≠ []) (hback : back ≠ []) : isAscii c = false := by
  have hlength := congrArg List.length h
  have hfrontLength := length_pos_iff.mpr hfront
  have hbackLength := length_pos_iff.mpr hback
  rw [length_append, encodeChar_length] at hlength
  refine decide_eq_false fun hascii => ?_
  rw [if_pos hascii] at hlength
  omega

def startsInside (chunk : List UInt8) : Bool := chunk.head?.any isContinuation

def Aligned (chunks : List (List UInt8)) : Prop := ∀ chunk ∈ chunks, startsInside chunk = false

theorem aligned_nil : Aligned [] := nofun

theorem aligned_cons {chunk : List UInt8} :
    Aligned (chunk :: chunks) ↔ startsInside chunk = false ∧ Aligned chunks :=
  forall_mem_cons

theorem startsInside_encode (text : List Char) : startsInside (encode text) = false := by
  cases text with
  | nil => rfl
  | cons c text =>
    obtain ⟨lead, tail, hc, hlead, -⟩ := encodeChar_eq c
    rw [encode_cons, hc]
    exact hlead

theorem not_aligned_of_continuation {b : UInt8} {bytes : List UInt8}
    (hb : isContinuation b = true) (h : chunks.flatten = b :: bytes) : ¬Aligned chunks := by
  induction chunks with
  | nil => cases h
  | cons chunk chunks ih =>
    rw [aligned_cons]
    rintro ⟨hhead, halign⟩
    cases chunk with
    | nil => exact ih h halign
    | cons b' chunk =>
      obtain rfl : b' = b := (cons.inj h).1
      exact Bool.noConfusion (hhead.symm.trans hb)

/-- Chunks for the rest of a character and a text: the rest is replaced, and the text is read if and
only if no chunk begins inside a character. -/
theorem flatMap_decode_rest {text : List Char}
    (hback : ∀ b ∈ back, isContinuation b = true) (h : chunks.flatten = back ++ encode text) :
    ∃ out, chunks.flatMap decode = List.replicate back.length replacement ++ out ∧
      Garbled text out ∧ (Aligned chunks ↔ back = [] ∧ out = text) := by
  induction chunks generalizing back text with
  | nil =>
    obtain ⟨rfl, htext⟩ := append_eq_nil_iff.mp h.symm
    have hnil : text = [] := by
      rw [← decode_encode text, htext]
      rfl
    subst hnil
    exact ⟨[], rfl, .nil, iff_of_true aligned_nil ⟨rfl, rfl⟩⟩
  | cons chunk chunks ih =>
    have hstart (out : List Char) (hout : back = [] → (Aligned (chunk :: chunks) ↔ out = text)) :
        Aligned (chunk :: chunks) ↔ back = [] ∧ out = text := by
      cases back with
      | nil => exact (hout rfl).trans (and_iff_right rfl).symm
      | cons b back =>
        refine iff_of_false ?_ fun hnil => cons_ne_nil _ _ hnil.1
        exact not_aligned_of_continuation (hback b mem_cons_self) h
    rw [flatMap_cons]
    rcases append_eq_append_iff.mp h with ⟨back', rfl, hrest⟩ | ⟨more, rfl, hmore⟩
    · -- the chunk ends before the rest of the character does
      obtain ⟨hchunk, hback'⟩ := forall_mem_append.mp hback
      obtain ⟨out, hout, hgarbled, haligned⟩ := ih hback' hrest
      have hdecode := decode_continuation hchunk []
      rw [append_nil] at hdecode
      refine ⟨out, ?_, hgarbled, hstart out fun hnil => ?_⟩
      · rw [hdecode, hout, length_append, ← replicate_append_replicate]
        simp only [append_assoc]
        rfl
      · obtain ⟨rfl, rfl⟩ := append_eq_nil_iff.mp hnil
        exact (aligned_cons.trans (and_iff_right rfl)).trans (haligned.trans (and_iff_right rfl))
    · have hdecode := decode_continuation hback more
      rcases encode_cut hmore.symm with ⟨left, right, rfl, rfl, hrest⟩ |
        ⟨left, c, right, front, back', rfl, rfl, hrest, hc, hfront, hback'⟩
      · -- the chunk ends between two characters
        have hnone : ∀ b ∈ ([] : List UInt8), isContinuation b = true :=
          nofun
        obtain ⟨out, hout, hgarbled, haligned⟩ := ih hnone hrest
        rw [decode_encode] at hdecode
        rw [length_nil, replicate_zero, nil_append] at hout
        refine ⟨left ++ out, ?_, hgarbled.append_left left, hstart _ fun hnil => ?_⟩
        · rw [hdecode, hout, append_assoc]
        · subst hnil
          rw [aligned_cons, nil_append, and_iff_right (startsInside_encode left), haligned,
            and_iff_right rfl, append_cancel_left_eq]
      · -- the chunk ends inside of a character
        have hcontinue := isContinuation_back hc hfront
        obtain ⟨out, hout, hgarbled, haligned⟩ := ih hcontinue hrest
        obtain ⟨k, hk, hdecodeFront⟩ := decode_front hc hfront hback'
        have hlength := length_pos_iff.mpr hback'
        rw [decode_encode_append, hdecodeFront] at hdecode
        refine ⟨left ++ (List.replicate (k + back'.length) replacement ++ out), ?_,
          (hgarbled.lose (isAscii_of_cut hc hfront hback') (by omega)).append_left left,
          hstart _ fun _ => iff_of_false ?_ fun heq => ?_⟩
        · rw [hdecode, hout, ← replicate_append_replicate]
          simp only [append_assoc]
        · obtain ⟨b, back', rfl⟩ := exists_cons_of_ne_nil hback'
          have hlater := not_aligned_of_continuation (hcontinue b mem_cons_self) hrest
          exact fun haligned => hlater (aligned_cons.mp haligned).2
        · -- the character became several
          have hle := hgarbled.length_le
          have hsame := congrArg List.length (append_cancel_left heq)
          rw [length_append, length_replicate, length_cons] at hsame
          omega

theorem flatMap_decode {text : List Char}
    (h : chunks.flatten = encode text) :
    Garbled text (chunks.flatMap decode) ∧ (Aligned chunks ↔ chunks.flatMap decode = text) := by
  have hnone : ∀ b ∈ ([] : List UInt8), isContinuation b = true :=
    nofun
  obtain ⟨out, hout, hgarbled, haligned⟩ := flatMap_decode_rest hnone h
  rw [hout]
  exact ⟨hgarbled, haligned.trans (and_iff_right rfl)⟩

end Utf8

end Draht
