import Mathlib.Data.List.Basic

/-!
# UTF-8

Encoding of characters, and a decoder that reads one byte at a time and puts a replacement
character where the bytes are not well formed: one for each longest piece that could have begun a
character. Two decoders that start at different points of one sequence of bytes agree after at most
three bytes.
-/

namespace Draht
open List

namespace Utf8

def encodeChar (c : Char) : List UInt8 :=
  let n := c.toNat
  if n < 0x80 then [UInt8.ofNat n]
  else if n < 0x800 then [UInt8.ofNat (0xC0 + n / 0x40), UInt8.ofNat (0x80 + n % 0x40)]
  else if n < 0x10000 then
    [UInt8.ofNat (0xE0 + n / 0x1000), UInt8.ofNat (0x80 + n / 0x40 % 0x40),
      UInt8.ofNat (0x80 + n % 0x40)]
  else
    [UInt8.ofNat (0xF0 + n / 0x40000), UInt8.ofNat (0x80 + n / 0x1000 % 0x40),
      UInt8.ofNat (0x80 + n / 0x40 % 0x40), UInt8.ofNat (0x80 + n % 0x40)]

def encode (text : List Char) : List UInt8 := text.flatMap encodeChar

def byteLength (text : List Char) : ℕ := (encode text).length

theorem byteLength_nil : byteLength [] = 0 := rfl

theorem byteLength_append (t u : List Char) :
    byteLength (t ++ u) = byteLength t + byteLength u := by
  simp [byteLength, encode]

variable (c : Char) (bytes : List UInt8)

theorem byteLength_cons (t : List Char) :
    byteLength (c :: t) = (encodeChar c).length + byteLength t := by
  simp [byteLength, encode]

theorem encodeChar_length : (encodeChar c).length =
    if c.toNat < 0x80 then 1 else if c.toNat < 0x800 then 2 else if c.toNat < 0x10000 then 3
    else 4 := by
  simp only [encodeChar]
  split_ifs <;> rfl

theorem length_le_byteLength (t : List Char) : t.length ≤ byteLength t := by
  induction t with
  | nil => exact Nat.le_refl 0
  | cons c t ih =>
    have hchar : 1 ≤ (encodeChar c).length := by
      rw [encodeChar_length]
      split_ifs <;> omega
    rw [byteLength_cons, length_cons]
    omega

def replacement : Char := '\uFFFD'

/-- How many bytes of a character are still to come, what its bytes so far stand for, and the
bounds of the next byte. -/
structure Decoder where
  needed : ℕ
  codePoint : ℕ
  lower : ℕ
  upper : ℕ
deriving DecidableEq

def start : Decoder := { needed := 0, codePoint := 0, lower := 0x80, upper := 0xBF }

def readLead (b : ℕ) : List Char × Decoder :=
  if b < 0x80 then ([Char.ofNat b], start)
  else if 0xC2 ≤ b ∧ b ≤ 0xDF then
    ([], { needed := 1, codePoint := b - 0xC0, lower := 0x80, upper := 0xBF })
  else if 0xE0 ≤ b ∧ b ≤ 0xEF then
    ([], { needed := 2, codePoint := b - 0xE0, lower := if b = 0xE0 then 0xA0 else 0x80
           upper := if b = 0xED then 0x9F else 0xBF })
  else if 0xF0 ≤ b ∧ b ≤ 0xF4 then
    ([], { needed := 3, codePoint := b - 0xF0, lower := if b = 0xF0 then 0x90 else 0x80
           upper := if b = 0xF4 then 0x8F else 0xBF })
  else ([replacement], start)

/-- One byte; a byte that cannot go on with the character is read again as a first byte. -/
def Decoder.read (q : Decoder) (b : ℕ) : List Char × Decoder :=
  if q.needed = 0 then readLead b
  else if q.lower ≤ b ∧ b ≤ q.upper then
    let codePoint := q.codePoint * 0x40 + (b - 0x80)
    if q.needed = 1 then ([Char.ofNat codePoint], start)
    else ([], { needed := q.needed - 1, codePoint, lower := 0x80, upper := 0xBF })
  else (replacement :: (readLead b).1, (readLead b).2)

def Decoder.readAll : Decoder → List UInt8 → List Char × Decoder
  | q, [] => ([], q)
  | q, b :: bytes =>
    let out := q.read b.toNat
    let rest := out.2.readAll bytes
    (out.1 ++ rest.1, rest.2)

/-- At the end of the bytes a character that is not complete is replaced. -/
def Decoder.flush (q : Decoder) : List Char := if q.needed = 0 then [] else [replacement]

def Decoder.decode (q : Decoder) (bytes : List UInt8) : List Char :=
  (q.readAll bytes).1 ++ (q.readAll bytes).2.flush

def decode (bytes : List UInt8) : List Char := start.decode bytes

theorem decode_nil (q : Decoder) : q.decode [] = q.flush := rfl

theorem decode_cons (q : Decoder) (b : UInt8) (bytes : List UInt8) :
    q.decode (b :: bytes) = (q.read b.toNat).1 ++ (q.read b.toNat).2.decode bytes := by
  simp [Decoder.decode, Decoder.readAll]

theorem readAll_append (q : Decoder) (a b : List UInt8) :
    q.readAll (a ++ b) = ((q.readAll a).1 ++ ((q.readAll a).2.readAll b).1,
      ((q.readAll a).2.readAll b).2) := by
  induction a generalizing q with
  | nil => rfl
  | cons x a ih => simp [Decoder.readAll, ih]

theorem decode_append (q : Decoder) (a b : List UInt8) :
    q.decode (a ++ b) = (q.readAll a).1 ++ (q.readAll a).2.decode b := by
  simp [Decoder.decode, readAll_append]

theorem read_start (b : ℕ) : start.read b = readLead b := rfl

variable {q : Decoder} {p n b : ℕ}

theorem read_of_needed (h : q.needed = 0) (b : ℕ) : q.read b = start.read b := by
  simp [Decoder.read, h, start]

theorem decode_of_needed (h : q.needed = 0) (bytes : List UInt8) :
    q.decode bytes = start.decode bytes := by
  cases bytes with
  | nil =>
    rw [decode_nil, decode_nil, Decoder.flush, if_pos h]
    rfl
  | cons b bytes => rw [decode_cons, decode_cons, read_of_needed h]

/-- The decoders that have read `p` bytes of a character that is not complete. -/
inductive Reads : ℕ → Decoder → Prop
  | between {q : Decoder} : q.needed = 0 → Reads 0 q
  | two {cp : ℕ} : 2 ≤ cp → cp < 0x20 → Reads 1 ⟨1, cp, 0x80, 0xBF⟩
  | three {cp lower upper : ℕ} : cp < 0x10 → 0x80 ≤ lower → upper ≤ 0xBF →
      (cp = 0 → 0xA0 ≤ lower) → (cp = 0xD → upper ≤ 0x9F) → Reads 1 ⟨2, cp, lower, upper⟩
  | threeTail {cp : ℕ} : 0x20 ≤ cp → cp < 0x400 → (cp < 0x360 ∨ 0x380 ≤ cp) →
      Reads 2 ⟨1, cp, 0x80, 0xBF⟩
  | four {cp lower upper : ℕ} : cp < 5 → 0x80 ≤ lower → upper ≤ 0xBF → (cp = 0 → 0x90 ≤ lower) →
      (cp = 4 → upper ≤ 0x8F) → Reads 1 ⟨3, cp, lower, upper⟩
  | fourTail {cp : ℕ} : 0x10 ≤ cp → cp < 0x110 → Reads 2 ⟨2, cp, 0x80, 0xBF⟩
  | fourLast {cp : ℕ} : 0x400 ≤ cp → cp < 0x4400 → Reads 3 ⟨1, cp, 0x80, 0xBF⟩

theorem reads_start : Reads 0 start := .between rfl

theorem Reads.le_three (h : Reads p q) : p ≤ 3 := by
  cases h <;> omega

theorem Reads.bounds (h : Reads p q) (hneeded : q.needed ≠ 0) :
    0x80 ≤ q.lower ∧ q.upper ≤ 0xBF := by
  cases h with
  | between hq => exact (hneeded hq).elim
  | three hcp hlower hupper => exact ⟨hlower, hupper⟩
  | four hcp hlower hupper => exact ⟨hlower, hupper⟩
  | _ => exact ⟨Nat.le_refl _, Nat.le_refl _⟩

theorem toNat_ofNat_char (h : n < 0xD800 ∨ (0xDFFF < n ∧ n < 0x110000)) :
    (Char.ofNat n).toNat = n := by
  have hvalid : n.isValidChar := h
  rw [Char.ofNat, dif_pos hvalid]
  rfl

theorem readLead_reads (hb : b < 0x100) : ∃ p, Reads p (readLead b).2 ∧
    1 ≤ byteLength (readLead b).1 + p := by
  unfold readLead
  by_cases h₁ : b < 0x80
  · rw [if_pos h₁]
    exact ⟨0, reads_start, length_le_byteLength [Char.ofNat b]⟩
  rw [if_neg h₁]
  by_cases h₂ : 0xC2 ≤ b ∧ b ≤ 0xDF
  · rw [if_pos h₂]
    exact ⟨1, .two (by omega) (by omega), by omega⟩
  rw [if_neg h₂]
  by_cases h₃ : 0xE0 ≤ b ∧ b ≤ 0xEF
  · rw [if_pos h₃]
    refine ⟨1, .three (by omega) ?_ ?_ ?_ ?_, by omega⟩ <;> split_ifs <;> omega
  rw [if_neg h₃]
  by_cases h₄ : 0xF0 ≤ b ∧ b ≤ 0xF4
  · rw [if_pos h₄]
    refine ⟨1, .four (by omega) ?_ ?_ ?_ ?_, by omega⟩ <;> split_ifs <;> omega
  rw [if_neg h₄]
  exact ⟨0, reads_start, length_le_byteLength [replacement]⟩

theorem byteLength_singleton : byteLength [c] =
    if c.toNat < 0x80 then 1 else if c.toNat < 0x800 then 2 else if c.toNat < 0x10000 then 3
    else 4 := by
  rw [byteLength_cons, byteLength_nil, encodeChar_length]
  rfl

theorem byteLength_replacement : byteLength [replacement] = 3 := rfl

theorem read_tail (hneeded : q.needed ≠ 0) (hlower : q.lower ≤ b)
    (hupper : b ≤ q.upper) : q.read b =
      if q.needed = 1 then ([Char.ofNat (q.codePoint * 0x40 + (b - 0x80))], start)
      else ([], { needed := q.needed - 1, codePoint := q.codePoint * 0x40 + (b - 0x80)
                  lower := 0x80, upper := 0xBF }) := by
  rw [Decoder.read, if_neg hneeded, if_pos ⟨hlower, hupper⟩]

theorem read_reads (h : Reads p q) (hb : b < 0x100) :
    ∃ p', Reads p' (q.read b).2 ∧ p + 1 ≤ byteLength (q.read b).1 + p' := by
  by_cases hneeded : q.needed = 0
  · have hp : p = 0 := by cases h <;> first | rfl | cases hneeded
    rw [Decoder.read, if_pos hneeded, hp]
    exact readLead_reads hb
  by_cases hrange : q.lower ≤ b ∧ b ≤ q.upper
  · rw [read_tail hneeded hrange.1 hrange.2]
    cases h with
    | between hq => exact (hneeded hq).elim
    | two hlow hhigh =>
      refine ⟨0, reads_start, ?_⟩
      dsimp only at hrange ⊢
      rw [if_pos rfl, byteLength_singleton, toNat_ofNat_char (by omega)]
      split_ifs <;> omega
    | @three cp lower upper hcp hlower hupper hfirst hsurrogate =>
      dsimp only at hrange ⊢
      exact ⟨2, .threeTail (by omega) (by omega) (by omega), by omega⟩
    | threeTail hlow hhigh hsurrogate =>
      refine ⟨0, reads_start, ?_⟩
      dsimp only at hrange ⊢
      rw [if_pos rfl, byteLength_singleton, toNat_ofNat_char (by omega)]
      split_ifs <;> omega
    | four hcp hlower hupper hfirst hlast =>
      dsimp only at hrange ⊢
      exact ⟨2, .fourTail (by omega) (by omega), by omega⟩
    | fourTail hlow hhigh =>
      dsimp only at hrange ⊢
      exact ⟨3, .fourLast (by omega) (by omega), by omega⟩
    | fourLast hlow hhigh =>
      refine ⟨0, reads_start, ?_⟩
      dsimp only at hrange ⊢
      rw [if_pos rfl, byteLength_singleton, toNat_ofNat_char (by omega)]
      split_ifs <;> omega
  · rw [Decoder.read, if_neg hneeded, if_neg hrange]
    obtain ⟨p', hreads, hle⟩ := readLead_reads hb
    refine ⟨p', hreads, ?_⟩
    have hp := h.le_three
    have hout : byteLength (replacement :: (readLead b).1) = 3 + byteLength (readLead b).1 :=
      byteLength_append [replacement] (readLead b).1
    dsimp only
    omega

theorem le_byteLength_decode (h : Reads p q) (bytes : List UInt8) :
    p + bytes.length ≤ byteLength (q.decode bytes) := by
  induction bytes generalizing p q with
  | nil =>
    rw [decode_nil, Decoder.flush]
    by_cases hneeded : q.needed = 0
    · have hp : p = 0 := by cases h <;> first | rfl | cases hneeded
      rw [if_pos hneeded, hp]
      exact Nat.le_refl 0
    · rw [if_neg hneeded, byteLength_replacement]
      exact h.le_three
  | cons b bytes ih =>
    obtain ⟨p', hreads, hle⟩ := read_reads h b.toNat_lt
    have hrest := ih hreads
    rw [decode_cons, byteLength_append, length_cons]
    omega

theorem readAll_reads (h : Reads p q) (bytes : List UInt8) :
    ∃ p', Reads p' (q.readAll bytes).2 := by
  induction bytes generalizing p q with
  | nil => exact ⟨p, h⟩
  | cons b bytes ih =>
    obtain ⟨p', hreads, -⟩ := read_reads h b.toNat_lt
    exact ih hreads

/-- The number of bytes of the decoder's character counted as one if there are any. -/
def Decoder.held (q : Decoder) : ℕ := if q.needed = 0 then 0 else 1

def unitsOf (c : Char) : ℕ := if c.toNat < 0x10000 then 1 else 2

def unitLength : List Char → ℕ
  | [] => 0
  | c :: text => unitsOf c + unitLength text

theorem unitLength_append (t u : List Char) :
    unitLength (t ++ u) = unitLength t + unitLength u := by
  induction t with
  | nil => exact (Nat.zero_add _).symm
  | cons c t ih =>
    rw [cons_append, unitLength, unitLength, ih]
    omega

variable {t text : List Char}

theorem unitLength_le_of_sublist {u : List Char} (h : t.Sublist u) :
    unitLength t ≤ unitLength u := by
  induction h with
  | slnil => exact Nat.le_refl 0
  | cons c h ih =>
    rw [unitLength]
    omega
  | cons_cons c h ih =>
    rw [unitLength, unitLength]
    omega

theorem unitsOf_le_two : unitsOf c ≤ 2 := by
  unfold unitsOf
  split_ifs <;> omega

theorem readLead_units (b : ℕ) : unitLength (readLead b).1 + (readLead b).2.held ≤ 1 := by
  unfold readLead
  by_cases h₁ : b < 0x80
  · have hone : unitsOf (Char.ofNat b) = 1 := by
      rw [unitsOf, toNat_ofNat_char (by omega), if_pos (by omega)]
    rw [if_pos h₁]
    change unitsOf (Char.ofNat b) + 0 + 0 ≤ 1
    omega
  split_ifs <;> exact Nat.le_refl 1

theorem read_units (q : Decoder) (b : ℕ) :
    unitLength (q.read b).1 + (q.read b).2.held ≤ q.held + 1 := by
  have hlead := readLead_units b
  by_cases hneeded : q.needed = 0
  · rw [Decoder.read, if_pos hneeded]
    omega
  have hheld : q.held = 1 := if_neg hneeded
  by_cases hrange : q.lower ≤ b ∧ b ≤ q.upper
  · rw [read_tail hneeded hrange.1 hrange.2]
    split_ifs
    · have hchar := unitsOf_le_two (Char.ofNat (q.codePoint * 0x40 + (b - 0x80)))
      change unitsOf _ + 0 + 0 ≤ _
      omega
    · unfold Decoder.held
      dsimp only [unitLength]
      split_ifs <;> omega
  · rw [Decoder.read, if_neg hneeded, if_neg hrange]
    change unitsOf replacement + unitLength (readLead b).1 + (readLead b).2.held ≤ _
    have hone : unitsOf replacement = 1 := rfl
    omega

theorem readAll_units (q : Decoder) (bytes : List UInt8) :
    unitLength (q.readAll bytes).1 + (q.readAll bytes).2.held ≤ q.held + bytes.length := by
  induction bytes generalizing q with
  | nil =>
    change 0 + q.held ≤ q.held + 0
    omega
  | cons b bytes ih =>
    have hbyte := read_units q b.toNat
    have hrest := ih (q.read b.toNat).2
    rw [Decoder.readAll, length_cons]
    dsimp only
    rw [unitLength_append]
    omega

/-- A decoder in the middle of a character and one at its start agree but for a few characters at
the beginning; those of the second are replacements. -/
theorem decode_resync (h : Reads p q) (bytes : List UInt8) :
    ∃ (first : List Char) (k : ℕ) (rest : List Char), k ≤ q.needed ∧
      q.decode bytes = first ++ rest ∧
      start.decode bytes = List.replicate k replacement ++ rest := by
  induction bytes generalizing p q with
  | nil => exact ⟨q.flush, 0, [], Nat.zero_le _, (append_nil _).symm, rfl⟩
  | cons b bytes ih =>
    by_cases hneeded : q.needed = 0
    · exact ⟨[], 0, start.decode (b :: bytes), Nat.zero_le _, decode_of_needed hneeded _, rfl⟩
    by_cases hrange : q.lower ≤ b.toNat ∧ b.toNat ≤ q.upper
    · -- The byte goes on with the character; read as a first byte it is replaced.
      have hbounds := h.bounds hneeded
      have hlead : start.decode (b :: bytes) = replacement :: start.decode bytes := by
        have hread : start.read b.toNat = ([replacement], start) := by
          rw [read_start, readLead, if_neg (by omega), if_neg (by omega), if_neg (by omega),
            if_neg (by omega)]
        rw [decode_cons, hread]
        rfl
      obtain ⟨p', hreads, -⟩ := read_reads h b.toNat_lt
      obtain ⟨first, k, rest, hk, hq, hstart⟩ := ih hreads
      refine ⟨(q.read b.toNat).1 ++ first, k + 1, rest, ?_, ?_, ?_⟩
      · rw [read_tail hneeded hrange.1 hrange.2] at hk
        split_ifs at hk with hlast
        · have hzero : k ≤ 0 := hk
          omega
        · have hless : k ≤ q.needed - 1 := hk
          omega
      · rw [decode_cons, hq, append_assoc]
      · rw [hlead, hstart]
        rfl
    · -- The byte is read again as a first byte.
      refine ⟨[replacement], 0, start.decode (b :: bytes), Nat.zero_le _, ?_, rfl⟩
      have hread :
          q.read b.toNat = (replacement :: (readLead b.toNat).1, (readLead b.toNat).2) := by
        rw [Decoder.read, if_neg hneeded, if_neg hrange]
      rw [decode_cons, hread, decode_cons, read_of_needed (q := start) rfl]
      rfl

theorem Reads.needed_le (h : Reads p q) : q.needed ≤ 3 := by
  cases h with
  | between hq => omega
  | _ => dsimp only; omega

theorem toNat_valid : c.toNat < 0xD800 ∨ (0xDFFF < c.toNat ∧ c.toNat < 0x110000) :=
  c.valid

theorem toNat_ofNat_byte (h : n < 0x100) : (UInt8.ofNat n).toNat = n := by
  rw [UInt8.toNat_ofNat', Nat.mod_eq_of_lt h]

theorem decode_tail {cp lower upper needed : ℕ} (hlower : lower ≤ 0x80 + n)
    (hupper : 0x80 + n ≤ upper) (hn : n < 0x40) (bytes : List UInt8) :
    (Decoder.mk (needed + 2) cp lower upper).decode (UInt8.ofNat (0x80 + n) :: bytes) =
      (Decoder.mk (needed + 1) (cp * 0x40 + n) 0x80 0xBF).decode bytes := by
  have hread : (Decoder.mk (needed + 2) cp lower upper).read (0x80 + n) =
      ([], ⟨needed + 1, cp * 0x40 + n, 0x80, 0xBF⟩) := by
    rw [read_tail (Nat.succ_ne_zero _) hlower hupper, if_neg (by dsimp only; omega)]
    simp
  rw [decode_cons, toNat_ofNat_byte (by omega), hread]
  rfl

theorem decode_last {cp lower upper : ℕ} {c : Char} (hlower : lower ≤ 0x80 + n)
    (hupper : 0x80 + n ≤ upper) (hn : n < 0x40) (hc : c.toNat = cp * 0x40 + n)
    (bytes : List UInt8) :
    (Decoder.mk 1 cp lower upper).decode (UInt8.ofNat (0x80 + n) :: bytes) =
      c :: start.decode bytes := by
  have hread : (Decoder.mk 1 cp lower upper).read (0x80 + n) = ([c], start) := by
    rw [read_tail Nat.one_ne_zero hlower hupper, if_pos rfl]
    rw [Nat.add_sub_cancel_left, ← hc, Char.ofNat_toNat]
  rw [decode_cons, toNat_ofNat_byte (by omega), hread]
  rfl

theorem decode_lead (hb : b < 0x100) (hlead : readLead b = ([], q))
    (bytes : List UInt8) : start.decode (UInt8.ofNat b :: bytes) = q.decode bytes := by
  rw [decode_cons, toNat_ofNat_byte hb, read_start, hlead]
  rfl

theorem decode_encodeChar : start.decode (encodeChar c ++ bytes) = c :: start.decode bytes := by
  have hvalid := toNat_valid c
  unfold encodeChar
  generalize hn : c.toNat = n at hvalid
  by_cases h₁ : n < 0x80
  · have hread : readLead n = ([c], start) := by
      rw [readLead, if_pos h₁, ← hn, Char.ofNat_toNat]
    rw [if_pos h₁, singleton_append, decode_cons, toNat_ofNat_byte (by omega), read_start, hread]
    rfl
  rw [if_neg h₁]
  by_cases h₂ : n < 0x800
  · rw [if_pos h₂, cons_append, singleton_append]
    rw [decode_lead (q := ⟨1, n / 0x40, 0x80, 0xBF⟩) (by omega)]
    · exact decode_last (by omega) (by omega) (by omega) (by omega) bytes
    · rw [readLead, if_neg (by omega), if_pos (by omega), Nat.add_sub_cancel_left]
  rw [if_neg h₂]
  by_cases h₃ : n < 0x10000
  · rw [if_pos h₃, cons_append, cons_append, singleton_append]
    rw [decode_lead (by omega)
      (by rw [readLead, if_neg (by omega), if_neg (by omega), if_pos (by omega)])]
    rw [decode_tail (by split_ifs <;> omega) (by split_ifs <;> omega) (by omega)]
    exact decode_last (by omega) (by omega) (by omega) (by omega) bytes
  rw [if_neg h₃, cons_append, cons_append, cons_append, singleton_append]
  rw [decode_lead (by omega)
    (by rw [readLead, if_neg (by omega), if_neg (by omega), if_neg (by omega), if_pos (by omega)])]
  rw [decode_tail (by split_ifs <;> omega) (by split_ifs <;> omega) (by omega),
    decode_tail (by omega) (by omega) (by omega)]
  exact decode_last (by omega) (by omega) (by omega) (by omega) bytes

theorem decode_encode (text : List Char) : decode (encode text) = text := by
  induction text with
  | nil => rfl
  | cons c text ih =>
    change start.decode (encodeChar c ++ encode text) = c :: text
    rw [decode_encodeChar]
    exact congrArg (List.cons c) ih

/-- `10xxxxxx`. -/
def isContinuation (b : UInt8) : Bool := b &&& 0xC0 == 0x80

theorem isContinuation_eq (b : UInt8) :
    isContinuation b = (decide (0x80 ≤ b.toNat) && decide (b.toNat < 0xC0)) := by
  have hall : ∀ n : Fin 256, isContinuation (UInt8.ofNat n) =
      (decide (0x80 ≤ n.val) && decide (n.val < 0xC0)) := by decide +kernel
  have hb := hall ⟨b.toNat, b.toNat_lt⟩
  rwa [UInt8.ofNat_toNat] at hb

theorem isContinuation_tail (h : n < 0x40) :
    isContinuation (UInt8.ofNat (0x80 + n)) = true := by
  rw [isContinuation_eq, toNat_ofNat_byte (by omega)]
  simp only [Bool.and_eq_true, decide_eq_true_eq]
  omega

theorem isContinuation_lead (h : n < 0x80 ∨ (0xC0 ≤ n ∧ n < 0x100)) :
    isContinuation (UInt8.ofNat n) = false := by
  rw [isContinuation_eq, toNat_ofNat_byte (by omega)]
  simp only [Bool.and_eq_false_iff, decide_eq_false_iff_not]
  omega

theorem encodeChar_eq : ∃ lead tail, encodeChar c = lead :: tail ∧
    isContinuation lead = false ∧ ∀ b ∈ tail, isContinuation b = true := by
  have hvalid := toNat_valid c
  simp only [encodeChar]
  split_ifs with h₁ h₂ h₃
  · exact ⟨_, _, rfl, isContinuation_lead (by omega), fun b hb => (not_mem_nil hb).elim⟩
  all_goals
    refine ⟨_, _, rfl, isContinuation_lead (by omega), ?_⟩
    simp only [mem_cons, not_mem_nil, or_false, forall_eq_or_imp, forall_eq]
  · exact isContinuation_tail (by omega)
  · exact ⟨isContinuation_tail (by omega), isContinuation_tail (by omega)⟩
  · exact ⟨isContinuation_tail (by omega), isContinuation_tail (by omega),
      isContinuation_tail (by omega)⟩

theorem dropWhile_encode (t : List Char) : (encode t).dropWhile isContinuation = encode t := by
  cases t with
  | nil => rfl
  | cons c t =>
    obtain ⟨lead, tail, hc, hlead, -⟩ := encodeChar_eq c
    change (encodeChar c ++ encode t).dropWhile isContinuation = encodeChar c ++ encode t
    rw [hc, cons_append, dropWhile_cons_of_neg (by simp [hlead])]

theorem dropWhile_drop_encode (t : List Char) (k : ℕ) : ∃ t', t' <:+ t ∧
    ((encode t).drop k).dropWhile isContinuation = encode t' := by
  induction t generalizing k with
  | nil => exact ⟨[], suffix_rfl, by simp [encode]⟩
  | cons c t ih =>
    cases k with
    | zero => exact ⟨c :: t, suffix_rfl, dropWhile_encode (c :: t)⟩
    | succ k =>
      obtain ⟨lead, tail, hc, -, htail⟩ := encodeChar_eq c
      have hdrop : (encode (c :: t)).drop (k + 1) =
          tail.drop k ++ (encode t).drop (k - tail.length) := by
        change (encodeChar c ++ encode t).drop (k + 1) = _
        rw [hc, cons_append, drop_succ_cons, drop_append]
      have hskip : ((encode (c :: t)).drop (k + 1)).dropWhile isContinuation =
          ((encode t).drop (k - tail.length)).dropWhile isContinuation := by
        rw [hdrop]
        exact dropWhile_append_of_pos fun b hb => htail b (mem_of_mem_drop hb)
      obtain ⟨t', hsuffix, ht'⟩ := ih (k - tail.length)
      exact ⟨t', hsuffix.trans (suffix_cons c t), hskip.trans ht'⟩

/-- The longest end of a text, cut between characters, of at most `n` bytes. -/
def endOfBytes (text : List Char) (n : ℕ) : List Char :=
  decode (((encode text).drop (byteLength text - n)).dropWhile isContinuation)

theorem endOfBytes_suffix (text : List Char) (n : ℕ) :
    endOfBytes text n <:+ text ∧ byteLength (endOfBytes text n) ≤ n := by
  obtain ⟨t', hsuffix, ht'⟩ := dropWhile_drop_encode text (byteLength text - n)
  have hend : endOfBytes text n = t' := by
    rw [endOfBytes, ht', decode_encode]
  have hle := (dropWhile_sublist (p := isContinuation)
    (l := (encode text).drop (byteLength text - n))).length_le
  rw [ht', length_drop] at hle
  rw [hend]
  refine ⟨hsuffix, ?_⟩
  change (encode t').length ≤ n
  unfold byteLength at hle
  omega

theorem endOfBytes_longest (h : t <:+ text) (hn : byteLength t ≤ n) : t <:+ endOfBytes text n := by
  obtain ⟨t', hsuffix, ht'⟩ := dropWhile_drop_encode text (byteLength text - n)
  have hend : endOfBytes text n = t' := by
    rw [endOfBytes, ht', decode_encode]
  obtain ⟨y, rfl⟩ := h
  -- The bytes of `t` are behind the cut, and no continuation byte is its first.
  have hbytes : byteLength t ≤ byteLength t' := by
    have hencode : encode (y ++ t) = encode y ++ encode t := flatMap_append
    have hcut : byteLength (y ++ t) - n ≤ (encode y).length := by
      rw [byteLength_append]
      change byteLength y + byteLength t - n ≤ byteLength y
      omega
    rw [hencode, drop_append_of_le_length hcut, dropWhile_append] at ht'
    change (encode t).length ≤ (encode t').length
    rw [← ht']
    split_ifs
    · exact Nat.le_of_eq (congrArg List.length (dropWhile_encode t).symm)
    · rw [length_append]
      omega
  rw [hend]
  obtain hle | ⟨x, hx⟩ := suffix_or_suffix_of_suffix (suffix_append y t) hsuffix
  · exact hle
  · cases x with
    | nil => exact hx ▸ suffix_rfl
    | cons c x =>
      have hlen : byteLength ((c :: x) ++ t') = byteLength t := congrArg byteLength hx
      have hchar := encodeChar_length c
      rw [cons_append, byteLength_cons, byteLength_append] at hlen
      split_ifs at hchar <;> omega

theorem endOfBytes_append (x : List Char) (h : n ≤ byteLength text) :
    endOfBytes (x ++ text) n = endOfBytes text n := by
  have hencode : encode (x ++ text) = encode x ++ encode text := flatMap_append
  have hcut : byteLength (x ++ text) - n = (encode x).length + (byteLength text - n) := by
    rw [byteLength_append]
    change byteLength x + byteLength text - n = byteLength x + _
    omega
  rw [endOfBytes, endOfBytes, hencode, hcut, drop_append,
    drop_eq_nil_of_le (Nat.le_add_right _ _), Nat.add_sub_cancel_left, nil_append]

theorem decode_take_encodeChar (h : n < (encodeChar c).length) :
    ∃ k, decode ((encodeChar c).take n) = List.replicate k replacement := by
  cases n with
  | zero => exact ⟨0, rfl⟩
  | succ n =>
    refine ⟨1, ?_⟩
    have hvalid := toNat_valid c
    revert h
    unfold encodeChar
    dsimp only
    generalize c.toNat = m at hvalid
    intro h
    split_ifs at h ⊢ with h₁ h₂ h₃
    · simp at h
    · simp only [length_cons, length_nil] at h
      obtain rfl : n = 0 := by omega
      exact decode_lead (q := ⟨1, m / 0x40, 0x80, 0xBF⟩) (by omega)
        (by rw [readLead, if_neg (by omega), if_pos (by omega), Nat.add_sub_cancel_left]) []
    · have hlead (bytes : List UInt8) := decode_lead (b := 0xE0 + m / 0x1000) (by omega)
        (by rw [readLead, if_neg (by omega), if_neg (by omega), if_pos (by omega)]) bytes
      simp only [length_cons, length_nil] at h
      obtain rfl | rfl : n = 0 ∨ n = 1 := by omega
      · exact hlead []
      · refine (hlead _).trans ?_
        exact decode_tail (by split_ifs <;> omega) (by split_ifs <;> omega) (by omega) []
    · have hlead (bytes : List UInt8) := decode_lead (b := 0xF0 + m / 0x40000) (by omega)
        (by rw [readLead, if_neg (by omega), if_neg (by omega), if_neg (by omega),
          if_pos (by omega)]) bytes
      simp only [length_cons, length_nil] at h
      obtain rfl | rfl | rfl : n = 0 ∨ n = 1 ∨ n = 2 := by omega
      · exact hlead []
      · refine (hlead _).trans ?_
        exact decode_tail (by split_ifs <;> omega) (by split_ifs <;> omega) (by omega) []
      · refine (hlead _).trans ?_
        refine (decode_tail (by split_ifs <;> omega) (by split_ifs <;> omega) (by omega) _).trans ?_
        exact decode_tail (by omega) (by omega) (by omega) []

theorem encode_cons (text : List Char) : encode (c :: text) = encodeChar c ++ encode text := rfl

theorem decode_encode_append (text : List Char) (bytes : List UInt8) :
    decode (encode text ++ bytes) = text ++ decode bytes := by
  induction text with
  | nil => rfl
  | cons c text ih =>
    rw [encode_cons, append_assoc]
    exact (decode_encodeChar c _).trans (congrArg (List.cons c) ih)

theorem decode_take_encode (h : n < byteLength text) :
    ∃ kept lost k, text = kept ++ lost ∧ lost ≠ [] ∧
      decode ((encode text).take n) = kept ++ List.replicate k replacement := by
  induction text generalizing n with
  | nil => exact absurd h (Nat.not_lt_zero n)
  | cons c text ih =>
    rw [encode_cons]
    by_cases hchar : n < (encodeChar c).length
    · obtain ⟨k, hk⟩ := decode_take_encodeChar c hchar
      refine ⟨[], c :: text, k, rfl, cons_ne_nil _ _, ?_⟩
      rw [take_append_of_le_length (Nat.le_of_lt hchar), hk, nil_append]
    · have hlater : n - (encodeChar c).length < byteLength text := by
        rw [byteLength_cons] at h
        omega
      obtain ⟨kept, lost, k, rfl, hlost, hdecode⟩ := ih hlater
      refine ⟨c :: kept, lost, k, rfl, hlost, ?_⟩
      rw [take_append, take_of_length_le (Nat.le_of_not_lt hchar)]
      exact (decode_encodeChar c _).trans (congrArg (List.cons c) hdecode)

end Utf8

end Draht
