import Mathlib.Data.List.Basic

/-!
# Styles of a terminal

What the numbers of a style sequence do to the style that characters are shown in. A colour is one
number, or one that announces more.
-/

namespace Draht.Sgr

/-- One of the sixteen colours, one of the palette, or a mixture. -/
inductive Colour where
  | basic (n : ℕ)
  | palette (n : ℕ)
  | rgb (r g b : ℕ)
deriving DecidableEq

structure Style where
  bold : Bool
  dim : Bool
  italic : Bool
  underline : Bool
  blink : Bool
  inverse : Bool
  hidden : Bool
  strikethrough : Bool
  fg : Option Colour
  bg : Option Colour
deriving DecidableEq

namespace Style

def plain : Style :=
  { bold := false, dim := false, italic := false, underline := false, blink := false
    inverse := false, hidden := false, strikethrough := false, fg := none, bg := none }

/-- The colour of a number that sets one by itself, counted from the first. -/
def basicColour (first bright n : ℕ) : Option Colour :=
  if first ≤ n ∧ n ≤ first + 7 then some (.basic (n - first))
  else if bright ≤ n ∧ n ≤ bright + 7 then some (.basic (n - bright + 8))
  else none

def rendition (s : Style) : ℕ → Style
  | 0 => plain
  | 1 => { s with bold := true }
  | 2 => { s with dim := true }
  | 3 => { s with italic := true }
  | 4 => { s with underline := true }
  | 5 => { s with blink := true }
  | 7 => { s with inverse := true }
  | 8 => { s with hidden := true }
  | 9 => { s with strikethrough := true }
  | 21 => { s with bold := false }
  | 22 => { s with bold := false, dim := false }
  | 23 => { s with italic := false }
  | 24 => { s with underline := false }
  | 25 => { s with blink := false }
  | 27 => { s with inverse := false }
  | 28 => { s with hidden := false }
  | 29 => { s with strikethrough := false }
  | 39 => { s with fg := none }
  | 49 => { s with bg := none }
  | n =>
    match basicColour 30 90 n, basicColour 40 100 n with
    | some colour, _ => { s with fg := some colour }
    | none, some colour => { s with bg := some colour }
    | none, none => s

variable {n first bright : ℕ}

theorem basicColour_some (h : first ≤ n ∧ n ≤ first + 7 ∨ bright ≤ n ∧ n ≤ bright + 7) :
    ∃ colour, basicColour first bright n = some colour := by
  rw [basicColour]
  split_ifs with hfirst hbright
  · exact ⟨_, rfl⟩
  · exact ⟨_, rfl⟩
  · exact absurd h (not_or.mpr ⟨hfirst, hbright⟩)

theorem basicColour_none (hfirst : ¬ (first ≤ n ∧ n ≤ first + 7))
    (hbright : ¬ (bright ≤ n ∧ n ≤ bright + 7)) : basicColour first bright n = none := by
  rw [basicColour, if_neg hfirst, if_neg hbright]

theorem rendition_fg (h : 30 ≤ n ∧ n ≤ 37 ∨ 90 ≤ n ∧ n ≤ 97) :
    ∃ colour, ∀ s : Style, s.rendition n = { s with fg := some colour } := by
  obtain ⟨colour, hcolour⟩ := (basicColour_some h : ∃ colour, basicColour 30 90 n = some colour)
  refine ⟨colour, fun s => ?_⟩
  rw [rendition, hcolour]
  all_goals omega

theorem rendition_bg (h : 40 ≤ n ∧ n ≤ 47 ∨ 100 ≤ n ∧ n ≤ 107) :
    ∃ colour, ∀ s : Style, s.rendition n = { s with bg := some colour } := by
  obtain ⟨colour, hcolour⟩ := (basicColour_some h : ∃ colour, basicColour 40 100 n = some colour)
  have hnone : basicColour 30 90 n = none := basicColour_none (by omega) (by omega)
  refine ⟨colour, fun s => ?_⟩
  rw [rendition, hnone, hcolour]
  all_goals omega

def apply : Style → List ℕ → Style
  | s, [] => s
  | s, 38 :: 5 :: n :: rest => apply { s with fg := some (.palette n) } rest
  | s, 38 :: 2 :: r :: g :: b :: rest => apply { s with fg := some (.rgb r g b) } rest
  | s, 48 :: 5 :: n :: rest => apply { s with bg := some (.palette n) } rest
  | s, 48 :: 2 :: r :: g :: b :: rest => apply { s with bg := some (.rgb r g b) } rest
  | s, n :: rest => apply (s.rendition n) rest

theorem apply_cons (hfg : n ≠ 38) (hbg : n ≠ 48) (s : Style) (rest : List ℕ) :
    s.apply (n :: rest) = (s.rendition n).apply rest := by
  rw [apply]
  all_goals
    intros
    contradiction

end Style

end Draht.Sgr
