import Draht.Json
import Draht.Text
import Draht.Utf8

/-!
# Slices of UTF-16 texts

Characters as code units: two texts are the same when their units are, and slices of two texts are
the same when their first units are. A slice may end inside a surrogate pair.
-/

namespace Draht
open List

open Utf8 (toNat_ofNat_char toNat_valid)

def highUnit (c : Char) : UInt16 := UInt16.ofNat (0xD800 + (c.toNat - 0x10000) / 0x400)

def lowUnit (c : Char) : UInt16 := UInt16.ofNat (0xDC00 + (c.toNat - 0x10000) % 0x400)

/-- The first half of a surrogate pair that is cut. Characters have no lone surrogates: the last
1024 of them stand for these. -/
def cutPair (c : Char) : Char := Char.ofNat (0x10FC00 + (c.toNat - 0x10000) / 0x400)

/-- `slice(0, n)`. -/
def sliceUnits : ℕ → List Char → List Char
  | 0, _ => []
  | _ + 1, [] => []
  | n + 1, c :: cs =>
    if c.toNat < 0x10000 then c :: sliceUnits n cs
    else
      match n with
      | 0 => [cutPair c]
      | n + 1 => c :: sliceUnits n cs

theorem utf16_ofList (chars : List Char) : utf16 (String.ofList chars) = utf16Chars chars := by
  rw [utf16, String.toList_ofList]

theorem utf16Chars_nil : utf16Chars [] = [] := rfl

variable {c d : Char}

theorem utf16Chars_small (hc : c.toNat < 0x10000) (cs : List Char) :
    utf16Chars (c :: cs) = UInt16.ofNat c.toNat :: utf16Chars cs := by
  simp [utf16Chars, hc]

theorem utf16Chars_pair (hc : ¬ c.toNat < 0x10000) (cs : List Char) :
    utf16Chars (c :: cs) = highUnit c :: lowUnit c :: utf16Chars cs := by
  simp [utf16Chars, hc, highUnit, lowUnit]

theorem unit_toNat (hc : c.toNat < 0x10000) :
    (UInt16.ofNat c.toNat).toNat = c.toNat := by
  exact Nat.mod_eq_of_lt hc

theorem highUnit_toNat (c : Char) :
    (highUnit c).toNat = 0xD800 + (c.toNat - 0x10000) / 0x400 := by
  have hvalid := toNat_valid c
  rw [highUnit, UInt16.toNat_ofNat']
  omega

theorem lowUnit_toNat (c : Char) : (lowUnit c).toNat = 0xDC00 + (c.toNat - 0x10000) % 0x400 := by
  rw [lowUnit, UInt16.toNat_ofNat']
  omega

theorem cutPair_toNat (c : Char) :
    (cutPair c).toNat = 0x10FC00 + (c.toNat - 0x10000) / 0x400 := by
  have hvalid := toNat_valid c
  rw [cutPair, toNat_ofNat_char]
  omega

theorem unit_inj (hc : c.toNat < 0x10000) (hd : d.toNat < 0x10000) :
    UInt16.ofNat c.toNat = UInt16.ofNat d.toNat ↔ c = d := by
  rw [← UInt16.toNat_inj, unit_toNat hc, unit_toNat hd, Char.toNat_inj]

theorem unit_ne_highUnit (hc : c.toNat < 0x10000) (hd : ¬ d.toNat < 0x10000) :
    UInt16.ofNat c.toNat ≠ highUnit d := by
  have hvalid := toNat_valid c
  have hvalid' := toNat_valid d
  rw [Ne, ← UInt16.toNat_inj, unit_toNat hc, highUnit_toNat]
  omega

theorem pair_inj (hc : ¬ c.toNat < 0x10000) (hd : ¬ d.toNat < 0x10000) :
    (highUnit c = highUnit d ∧ lowUnit c = lowUnit d) ↔ c = d := by
  rw [← UInt16.toNat_inj, ← UInt16.toNat_inj, highUnit_toNat, highUnit_toNat, lowUnit_toNat,
    lowUnit_toNat, ← Char.toNat_inj]
  omega

theorem cutPair_inj : cutPair c = cutPair d ↔ highUnit c = highUnit d := by
  rw [← UInt16.toNat_inj, highUnit_toNat, highUnit_toNat, ← Char.toNat_inj, cutPair_toNat,
    cutPair_toNat]
  omega

theorem ne_cutPair (hc : c.toNat < 0x10000) : c ≠ cutPair d := by
  rw [Ne, ← Char.toNat_inj, cutPair_toNat]
  omega

theorem sliceUnits_nil (n : ℕ) : sliceUnits n [] = [] := by
  cases n <;> rfl

theorem sliceUnits_small (hc : c.toNat < 0x10000) (n : ℕ) (cs : List Char) :
    sliceUnits (n + 1) (c :: cs) = c :: sliceUnits n cs := by
  cases n <;> simp [sliceUnits, hc]

theorem sliceUnits_cut (hc : ¬ c.toNat < 0x10000) (cs : List Char) :
    sliceUnits 1 (c :: cs) = [cutPair c] := by
  simp [sliceUnits, hc]

theorem sliceUnits_pair (hc : ¬ c.toNat < 0x10000) (n : ℕ) (cs : List Char) :
    sliceUnits (n + 2) (c :: cs) = c :: sliceUnits n cs := by
  simp [sliceUnits, hc]

theorem sliceUnits_eq_iff (n : ℕ) (a b : List Char) :
    sliceUnits n a = sliceUnits n b ↔ (utf16Chars a).take n = (utf16Chars b).take n := by
  induction n using Nat.strong_induction_on generalizing a b with
  | _ n ih =>
    match n, a, b with
    | 0, _, _ => simp [sliceUnits]
    | n + 1, [], [] => simp
    | n + 1, [], d :: b =>
      by_cases hd : d.toNat < 0x10000
      · simp [sliceUnits_small hd, utf16Chars_small hd, utf16Chars_nil, sliceUnits_nil]
      · cases n with
        | zero => simp [sliceUnits_cut hd, utf16Chars_pair hd, utf16Chars_nil, sliceUnits_nil]
        | succ n =>
          simp [sliceUnits_pair hd, utf16Chars_pair hd, utf16Chars_nil, sliceUnits_nil]
    | n + 1, c :: a, [] =>
      by_cases hc : c.toNat < 0x10000
      · simp [sliceUnits_small hc, utf16Chars_small hc, utf16Chars_nil, sliceUnits_nil]
      · cases n with
        | zero => simp [sliceUnits_cut hc, utf16Chars_pair hc, utf16Chars_nil, sliceUnits_nil]
        | succ n =>
          simp [sliceUnits_pair hc, utf16Chars_pair hc, utf16Chars_nil, sliceUnits_nil]
    | n + 1, c :: a, d :: b =>
      by_cases hc : c.toNat < 0x10000 <;> by_cases hd : d.toNat < 0x10000
      · rw [sliceUnits_small hc, sliceUnits_small hd, utf16Chars_small hc, utf16Chars_small hd,
          take_succ_cons, take_succ_cons, cons_eq_cons, cons_eq_cons,
          unit_inj hc hd, ih n (by omega)]
      · have hne := unit_ne_highUnit hc hd
        have hcd : c ≠ d := fun h => hd (h ▸ hc)
        cases n with
        | zero =>
          simp [sliceUnits_small hc, sliceUnits_cut hd, utf16Chars_small hc,
            utf16Chars_pair hd, hne, ne_cutPair hc]
        | succ n =>
          simp [sliceUnits_small hc, sliceUnits_pair hd, utf16Chars_small hc,
            utf16Chars_pair hd, hne, hcd]
      · have hne := (unit_ne_highUnit hd hc).symm
        have hcd : c ≠ d := fun h => hc (h ▸ hd)
        cases n with
        | zero =>
          simp [sliceUnits_small hd, sliceUnits_cut hc, utf16Chars_small hd,
            utf16Chars_pair hc, hne, (ne_cutPair hd).symm]
        | succ n =>
          simp [sliceUnits_small hd, sliceUnits_pair hc, utf16Chars_small hd,
            utf16Chars_pair hc, hne, hcd]
      · cases n with
        | zero =>
          simp [sliceUnits_cut hc, sliceUnits_cut hd, utf16Chars_pair hc,
            utf16Chars_pair hd, cutPair_inj]
        | succ n =>
          rw [sliceUnits_pair hc, sliceUnits_pair hd, utf16Chars_pair hc, utf16Chars_pair hd]
          simp only [take_succ_cons, cons_eq_cons]
          rw [ih n (by omega), ← pair_inj hc hd, and_assoc]

theorem sliceUnits_of_length_le {n : ℕ} {cs : List Char} (h : (utf16Chars cs).length ≤ n) :
    sliceUnits n cs = cs := by
  induction n using Nat.strong_induction_on generalizing cs with
  | _ n ih =>
    match n, cs with
    | 0, [] => rfl
    | n + 1, [] => rfl
    | 0, c :: cs =>
      by_cases hc : c.toNat < 0x10000
      · simp [utf16Chars_small hc] at h
      · simp [utf16Chars_pair hc] at h
    | n + 1, c :: cs =>
      by_cases hc : c.toNat < 0x10000
      · have hrest : (utf16Chars cs).length ≤ n := by simpa [utf16Chars_small hc] using h
        rw [sliceUnits_small hc, ih n (by omega) hrest]
      · cases n with
        | zero => simp [utf16Chars_pair hc] at h
        | succ n =>
          have hrest : (utf16Chars cs).length ≤ n := by simpa [utf16Chars_pair hc] using h
          rw [sliceUnits_pair hc, ih n (by omega) hrest]

theorem utf16Chars_injective : Function.Injective utf16Chars := by
  intro a b h
  have ha := sliceUnits_of_length_le (le_refl (utf16Chars a).length)
  have hb := sliceUnits_of_length_le (le_refl (utf16Chars b).length)
  rw [← ha, ← hb, ← h, sliceUnits_eq_iff, h]

theorem utf16_inj {a b : String} : utf16 a = utf16 b ↔ a = b := by
  rw [utf16, utf16, utf16Chars_injective.eq_iff, String.toList_inj]

theorem jsLength_eq (s : String) : jsLength s = (utf16 s).length := by
  have hsum : ∀ (cs : List Char) (total : ℕ), cs.foldl
      (fun total c => total + if c.toNat < 0x10000 then 1 else 2) total =
        total + (utf16Chars cs).length := by
    intro cs
    induction cs with
    | nil => simp [utf16Chars_nil]
    | cons c cs ih =>
      intro total
      rw [foldl_cons, ih]
      by_cases hc : c.toNat < 0x10000
      · rw [if_pos hc, utf16Chars_small hc, length_cons]
        omega
      · rw [if_neg hc, utf16Chars_pair hc, length_cons, length_cons]
        omega
  rw [jsLength, totalOf, hsum, utf16]
  omega

end Draht
