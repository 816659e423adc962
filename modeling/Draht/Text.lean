import Mathlib.Data.List.DropRight

/-!
# Texts, white space and trimming

The white space that `trim`, `trimStart` and `trimEnd` remove, by code point, and trimming
of a list of characters or code units.
-/

namespace Draht

abbrev JsText := List UInt16

def utf16Chars (chars : List Char) : JsText :=
  chars.flatMap fun c =>
    if c.toNat < 0x10000 then [UInt16.ofNat c.toNat]
    else [UInt16.ofNat (0xD800 + (c.toNat - 0x10000) / 0x400),
      UInt16.ofNat (0xDC00 + (c.toNat - 0x10000) % 0x400)]

def utf16 (s : String) : JsText := utf16Chars s.toList

/-- `/\d/.test(c)`. -/
def isDigitUnit (c : UInt16) : Bool := 0x30 ≤ c && c ≤ 0x39

/-- `Number.parseInt(digits, 10)`. -/
def parseDigits (digits : JsText) : ℕ := digits.foldl (fun n c => 10 * n + (c.toNat - 48)) 0

/-- White space and line terminators: tab, line feed, vertical tab, form feed, carriage
return, space, no-break space, the Unicode space separators, and the byte order mark. -/
def isWhiteSpaceCode (n : ℕ) : Bool :=
  (9 ≤ n && n ≤ 13) || n == 0x20 || n == 0xA0 || n == 0x1680 || (0x2000 ≤ n && n ≤ 0x200A) ||
    n == 0x2028 || n == 0x2029 || n == 0x202F || n == 0x205F || n == 0x3000 || n == 0xFEFF

def isWhiteSpace (c : Char) : Bool := isWhiteSpaceCode c.toNat

def trimStart {α : Type*} (space : α → Bool) (text : List α) : List α := text.dropWhile space

def trimEnd {α : Type*} (space : α → Bool) (text : List α) : List α := text.rdropWhile space

def trim {α : Type*} (space : α → Bool) (text : List α) : List α :=
  trimEnd space (trimStart space text)

theorem trim_ne_nil {α : Type*} {space : α → Bool} {text : List α} {c : α} (hmem : c ∈ text)
    (hc : space c = false) : trim space text ≠ [] := by
  obtain ⟨before, after, rfl⟩ := List.append_of_mem hmem
  have hstart : c ∈ trimStart space (before ++ c :: after) := by
    rw [trimStart, List.dropWhile_append, List.dropWhile_cons_of_neg (by simp [hc])]
    split_ifs <;> simp
  intro hnil
  rw [trim, trimEnd, List.rdropWhile_eq_nil_iff] at hnil
  simp [hnil c hstart] at hc

/-- `s.trim()`. -/
def jsTrim (s : String) : String := String.ofList (trim isWhiteSpace s.toList)

end Draht
