import Draht.Utf16

/-!
# Surrogates without their other half

What a request must not carry: a high surrogate that no low one follows, and a low surrogate that no
high one precedes. Deleting them where they stand is what a reading from left to right leaves out,
and the rest encodes characters.
-/

namespace Draht.Providers

open Utf8 (toNat_ofNat_char toNat_valid)

def isHighSurrogate (u : UInt16) : Bool := 0xD800 ≤ u && u ≤ 0xDBFF

def isLowSurrogate (u : UInt16) : Bool := 0xDC00 ≤ u && u ≤ 0xDFFF

/-- Surrogates without their other half are left out; `afterHigh` tells what came before. -/
def sanitizeSurrogates (afterHigh : Bool) : JsText → JsText
  | [] => []
  | u :: rest =>
    let keep :=
      if isHighSurrogate u then rest.head?.any isLowSurrogate
      else !isLowSurrogate u || afterHigh
    let rest := sanitizeSurrogates (isHighSurrogate u) rest
    if keep then u :: rest else rest

/-- A text of pairs of surrogates and units that are none. -/
inductive WellFormed : JsText → Prop where
  | nil : WellFormed []
  | unit {u : UInt16} {rest : JsText} : isHighSurrogate u = false → isLowSurrogate u = false →
      WellFormed rest → WellFormed (u :: rest)
  | pair {high low : UInt16} {rest : JsText} : isHighSurrogate high = true →
      isLowSurrogate low = true → WellFormed rest → WellFormed (high :: low :: rest)

/-- A text read from left to right: a high surrogate and a low one after it are a pair, and every
other surrogate is deleted. -/
inductive Unpaired : JsText → JsText → Prop where
  | nil : Unpaired [] []
  | unit {u : UInt16} {rest kept : JsText} : isHighSurrogate u = false → isLowSurrogate u = false →
      Unpaired rest kept → Unpaired (u :: rest) (u :: kept)
  | pair {high low : UInt16} {rest kept : JsText} : isHighSurrogate high = true →
      isLowSurrogate low = true → Unpaired rest kept →
      Unpaired (high :: low :: rest) (high :: low :: kept)
  | high {u : UInt16} {rest kept : JsText} : isHighSurrogate u = true →
      rest.head?.any isLowSurrogate = false → Unpaired rest kept → Unpaired (u :: rest) kept
  | low {u : UInt16} {rest kept : JsText} : isLowSurrogate u = true → Unpaired rest kept →
      Unpaired (u :: rest) kept

variable {u : UInt16} {text : JsText}

theorem isHighSurrogate_iff :
    isHighSurrogate u = true ↔ 0xD800 ≤ u.toNat ∧ u.toNat ≤ 0xDBFF := by
  simp [isHighSurrogate, UInt16.le_iff_toNat_le]

theorem isLowSurrogate_iff :
    isLowSurrogate u = true ↔ 0xDC00 ≤ u.toNat ∧ u.toNat ≤ 0xDFFF := by
  simp [isLowSurrogate, UInt16.le_iff_toNat_le]

theorem isHigh_of_isLow (h : isLowSurrogate u = true) : isHighSurrogate u = false := by
  rw [Bool.eq_false_iff, Ne, isHighSurrogate_iff]
  have hrange := isLowSurrogate_iff.mp h
  omega

theorem sanitizeSurrogates_of_head (h : text.head?.any isLowSurrogate = false)
    (afterHigh : Bool) : sanitizeSurrogates afterHigh text = sanitizeSurrogates false text := by
  cases text with
  | nil => rfl
  | cons u rest =>
    have hlow : isLowSurrogate u = false := h
    simp [sanitizeSurrogates, hlow]

theorem sanitizeSurrogates_unit (hhigh : isHighSurrogate u = false)
    (hlow : isLowSurrogate u = false) (rest : JsText) :
    sanitizeSurrogates false (u :: rest) = u :: sanitizeSurrogates false rest := by
  simp [sanitizeSurrogates, hhigh, hlow]

theorem sanitizeSurrogates_pair {high low : UInt16} (hhigh : isHighSurrogate high = true)
    (hlow : isLowSurrogate low = true) (rest : JsText) :
    sanitizeSurrogates false (high :: low :: rest) =
      high :: low :: sanitizeSurrogates false rest := by
  simp [sanitizeSurrogates, hhigh, hlow, isHigh_of_isLow hlow]

theorem unpaired_sanitizeSurrogates (text : JsText) :
    Unpaired text (sanitizeSurrogates false text) := by
  induction hlength : text.length using Nat.strong_induction_on generalizing text with
  | _ n ih =>
    subst hlength
    cases text with
    | nil => exact .nil
    | cons u rest =>
      have hrest := ih rest.length (Nat.lt_succ_self _) rest rfl
      cases hhigh : isHighSurrogate u with
      | false =>
        cases hlow : isLowSurrogate u with
        | false =>
          rw [sanitizeSurrogates_unit hhigh hlow]
          exact .unit hhigh hlow hrest
        | true =>
          simpa [sanitizeSurrogates, hhigh, hlow] using Unpaired.low hlow hrest
      | true =>
        cases hnext : rest.head?.any isLowSurrogate with
        | false =>
          simpa [sanitizeSurrogates, hhigh, hnext,
            sanitizeSurrogates_of_head hnext true] using Unpaired.high hhigh hnext hrest
        | true =>
          cases rest with
          | nil => cases hnext
          | cons low rest =>
            have hlow : isLowSurrogate low = true := hnext
            rw [sanitizeSurrogates_pair hhigh hlow]
            refine .pair hhigh hlow (ih rest.length ?_ rest rfl)
            simp only [List.length_cons]
            omega

theorem Unpaired.unique {kept : JsText} (h : Unpaired text kept) :
    kept = sanitizeSurrogates false text := by
  induction h with
  | nil => rfl
  | unit hhigh hlow _ ih => rw [sanitizeSurrogates_unit hhigh hlow, ← ih]
  | pair hhigh hlow _ ih => rw [sanitizeSurrogates_pair hhigh hlow, ← ih]
  | high hhigh hnext _ ih =>
    simp [sanitizeSurrogates, hhigh, hnext, sanitizeSurrogates_of_head hnext true, ih]
  | low hlow _ ih => simp [sanitizeSurrogates, isHigh_of_isLow hlow, hlow, ih]

theorem Unpaired.wellFormed {kept : JsText} (h : Unpaired text kept) : WellFormed kept := by
  induction h with
  | nil => exact .nil
  | unit hhigh hlow _ ih => exact .unit hhigh hlow ih
  | pair hhigh hlow _ ih => exact .pair hhigh hlow ih
  | high _ _ _ ih => exact ih
  | low _ _ ih => exact ih

theorem WellFormed.unpaired (h : WellFormed text) : Unpaired text text := by
  induction h with
  | nil => exact .nil
  | unit hhigh hlow _ ih => exact .unit hhigh hlow ih
  | pair hhigh hlow _ ih => exact .pair hhigh hlow ih

theorem sanitizeSurrogates_of_wellFormed (h : WellFormed text) :
    sanitizeSurrogates false text = text :=
  h.unpaired.unique.symm

theorem wellFormed_utf16Chars (chars : List Char) : WellFormed (utf16Chars chars) := by
  induction chars with
  | nil => exact .nil
  | cons c chars ih =>
    by_cases hc : c.toNat < 0x10000
    · rw [utf16Chars_small hc]
      have hvalid := toNat_valid c
      refine .unit ?_ ?_ ih
      · rw [Bool.eq_false_iff, Ne, isHighSurrogate_iff, unit_toNat hc]
        omega
      · rw [Bool.eq_false_iff, Ne, isLowSurrogate_iff, unit_toNat hc]
        omega
    · rw [utf16Chars_pair hc]
      have hvalid := toNat_valid c
      refine .pair ?_ ?_ ih
      · rw [isHighSurrogate_iff, highUnit_toNat]
        omega
      · rw [isLowSurrogate_iff, lowUnit_toNat]
        omega

theorem wellFormed_iff : WellFormed text ↔ ∃ chars, utf16Chars chars = text := by
  constructor
  · intro h
    induction h with
    | nil => exact ⟨[], rfl⟩
    | @unit u rest hhigh hlow _ ih =>
      obtain ⟨chars, rfl⟩ := ih
      have hu := u.toNat_lt
      rw [Bool.eq_false_iff, Ne, isHighSurrogate_iff] at hhigh
      rw [Bool.eq_false_iff, Ne, isLowSurrogate_iff] at hlow
      have hchar : (Char.ofNat u.toNat).toNat = u.toNat := toNat_ofNat_char (by omega)
      refine ⟨Char.ofNat u.toNat :: chars, ?_⟩
      rw [utf16Chars_small (by omega), hchar, UInt16.ofNat_toNat]
    | @pair high low rest hhigh hlow _ ih =>
      obtain ⟨chars, rfl⟩ := ih
      rw [isHighSurrogate_iff] at hhigh
      rw [isLowSurrogate_iff] at hlow
      obtain ⟨code, hcode⟩ : ∃ code,
          code = 0x10000 + (high.toNat - 0xD800) * 0x400 + (low.toNat - 0xDC00) := ⟨_, rfl⟩
      have hchar : (Char.ofNat code).toNat = code := toNat_ofNat_char (by omega)
      have hhighUnit : highUnit (Char.ofNat code) = high := by
        rw [← UInt16.toNat_inj, highUnit_toNat, hchar]
        omega
      have hlowUnit : lowUnit (Char.ofNat code) = low := by
        rw [← UInt16.toNat_inj, lowUnit_toNat, hchar]
        omega
      refine ⟨Char.ofNat code :: chars, ?_⟩
      rw [utf16Chars_pair (by omega), hhighUnit, hlowUnit]
  · rintro ⟨chars, rfl⟩
    exact wellFormed_utf16Chars chars

/-- Only what is unpaired from left to right is deleted, and nothing is left to delete. -/
theorem sanitizeSurrogates_spec (text : JsText) :
    (∀ kept, Unpaired text kept ↔ kept = sanitizeSurrogates false text) ∧
      WellFormed (sanitizeSurrogates false text) ∧
      (WellFormed text → sanitizeSurrogates false text = text) ∧
      sanitizeSurrogates false (sanitizeSurrogates false text) = sanitizeSurrogates false text := by
  have hkept := unpaired_sanitizeSurrogates text
  refine ⟨fun kept => ⟨fun h => h.unique, ?_⟩, hkept.wellFormed,
    sanitizeSurrogates_of_wellFormed, sanitizeSurrogates_of_wellFormed hkept.wellFormed⟩
  rintro rfl
  exact hkept

end Draht.Providers
