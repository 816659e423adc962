import Mathlib.Data.List.Forall2
import Draht.Text
import Draht.Utf8Chunks

/-!
# Lines that are delivered

Each line of a text is a message. A reader that decodes the chunks of the text one by one delivers
the messages if no chunk begins inside a character; if one does, the line of the character reads
otherwise, and its message is lost or another one.
-/

namespace Draht

open Utf8

/-- What the n-th parsing of a reader makes of a line. -/
abbrev LineParser (M : Type*) := ℕ → List Char → Option M

variable {M : Type*} {parse : LineParser M} {lines outs : List (List Char)} {messages out : List M}

/-- What some lines deliver: those that are blank are skipped, and those that cannot be parsed. -/
inductive Delivers (parse : LineParser M) : List (List Char) → List M → Prop
  | nil : Delivers parse [] []
  | blank {line : List Char} {lines : List (List Char)} {out : List M} :
      trim isWhiteSpace line = [] → Delivers parse lines out → Delivers parse (line :: lines) out
  | unparsed {n : ℕ} {line : List Char} {lines : List (List Char)} {out : List M} :
      parse n line = none → Delivers parse lines out → Delivers parse (line :: lines) out
  | message {n : ℕ} {line : List Char} {lines : List (List Char)} {m : M} {out : List M} :
      trim isWhiteSpace line ≠ [] → parse n line = some m → Delivers parse lines out →
        Delivers parse (line :: lines) (m :: out)

/-- A line that is always parsed as the message, and the only line with its ASCII characters that
ever is. -/
structure Legible (parse : LineParser M) (line : List Char) (m : M) : Prop where
  nonblank : trim isWhiteSpace line ≠ []
  parses : ∀ n, parse n line = some m
  verbatim : ∀ n text, parse n text = some m →
    text.filter isAscii = line.filter isAscii → text = line

namespace Delivers

theorem append (h : Delivers parse lines messages) (hout : Delivers parse outs out) :
    Delivers parse (lines ++ outs) (messages ++ out) := by
  induction h with
  | nil => exact hout
  | blank hblank h ih => exact .blank hblank ih
  | unparsed hnone h ih => exact .unparsed hnone ih
  | message hblank hparse h ih => exact .message hblank hparse ih

theorem length_le (h : Delivers parse lines out) : out.length ≤ lines.length := by
  induction h with
  | nil => exact Nat.le_refl 0
  | message hblank hparse h ih =>
    rw [List.length_cons, List.length_cons]
    omega
  | _ =>
    rw [List.length_cons]
    omega

theorem eq_of_legible (hlegible : List.Forall₂ (Legible parse) lines messages)
    (h : Delivers parse lines out) : out = messages := by
  induction hlegible generalizing out with
  | nil =>
    cases h
    rfl
  | cons hline hlines ih =>
    cases h with
    | blank hblank h => exact absurd hblank hline.nonblank
    | unparsed hnone h => exact absurd (hnone.symm.trans (hline.parses _)) (by simp)
    | message hblank hparse h =>
      obtain rfl := Option.some.inj (hparse.symm.trans (hline.parses _))
      rw [ih h]

theorem eq_iff_of_garbled (hlegible : List.Forall₂ (Legible parse) lines messages)
    (hgarbled : List.Forall₂ Garbled lines outs) (h : Delivers parse outs out) :
    out = messages ↔ outs = lines := by
  constructor
  · rintro rfl
    induction hlegible generalizing outs with
    | nil =>
      cases hgarbled
      rfl
    | cons hline hlines ih =>
      cases hgarbled with
      | cons hfirst hrest =>
        have hlength := hlines.length_eq.symm.trans hrest.length_eq
        cases h with
        | message hblank hparse h =>
          rw [hline.verbatim _ _ hparse hfirst.filter_isAscii, ih hrest h]
        | blank hblank h =>
          -- one line too few is left for the messages
          have hle := h.length_le
          rw [List.length_cons] at hle
          omega
        | unparsed hnone h =>
          have hle := h.length_le
          rw [List.length_cons] at hle
          omega
  · rintro rfl
    exact eq_of_legible hlegible h

theorem eq_iff_aligned {chunks : List (List UInt8)}
    (hlegible : List.Forall₂ (Legible parse) lines messages) (hsep : ∀ line ∈ lines, '\n' ∉ line)
    (hchunks : chunks.flatten = encode (framed '\n' lines))
    (h : Delivers parse (wholeLines '\n' (chunks.flatMap decode)) out) :
    out = messages ↔ Aligned chunks := by
  obtain ⟨hgarbled, haligned⟩ := flatMap_decode hchunks
  obtain ⟨outs, houts, hlines⟩ := hgarbled.lines (by decide)
  have hsep' : ∀ line ∈ outs, '\n' ∉ line := by
    intro line hline
    obtain ⟨i, hi, rfl⟩ := List.mem_iff_getElem.mp hline
    have hlength := hlines.length_eq
    have hget := hlines.get (hlength.symm ▸ hi) hi
    exact fun hmem => hsep _ (List.getElem_mem _) ((hget.mem_iff (by decide)).mp hmem)
  rw [houts] at h haligned
  rw [(lines_framed hsep').1] at h
  rw [haligned, eq_iff_of_garbled hlegible hlines h]
  constructor
  · rintro rfl
    rfl
  · intro hframed
    have hwhole := congrArg (wholeLines '\n') hframed
    rwa [(lines_framed hsep').1, (lines_framed hsep).1] at hwhole

end Delivers

end Draht
