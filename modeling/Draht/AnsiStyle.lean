import Draht.AnsiText
import Draht.SgrStyle

/-!
# What the tracker knows of a style

A tracker shows a style when its codes set the style from scratch. It goes on showing the style of
the terminal as long as the codes have only parameters that it knows.
-/

namespace Draht.AnsiText
open List

open Sgr

/-- The value of a parameter; an empty one counts as zero. -/
def number (part : String) : ℕ := (AnsiCodeTracker.parseInt part).getD 0

def numbers (params : List String) : List ℕ := params.map number

def applyCode (s : Style) : AnsiCode → Style
  | .sgr params => s.apply (numbers params)
  | .osc8 _ => s

def IsDecimal (part : String) : Prop := part ≠ "" ∧ ∀ c ∈ part.toList, c.isDigit = true

def isKnown (n : ℕ) : Bool :=
  n ∈ [0, 1, 2, 3, 4, 5, 7, 8, 9, 21, 22, 23, 24, 25, 27, 28, 29, 39, 49] ||
    (30 ≤ n && n ≤ 37) || (90 ≤ n && n ≤ 97) || (40 ≤ n && n ≤ 47) || (100 ≤ n && n ≤ 107)

/-- Decimal parameters, a colour of the palette or a mixture with all of its parts. -/
inductive KnownParams : List String → Prop
  | nil : KnownParams []
  | one {part : String} {rest : List String} : IsDecimal part → isKnown (number part) = true →
      KnownParams rest → KnownParams (part :: rest)
  | palette {part n : String} {rest : List String} : IsDecimal part →
      number part = 38 ∨ number part = 48 → IsDecimal n → KnownParams rest →
      KnownParams (part :: "5" :: n :: rest)
  | rgb {part r g b : String} {rest : List String} : IsDecimal part →
      number part = 38 ∨ number part = 48 → IsDecimal r → IsDecimal g → IsDecimal b →
      KnownParams rest → KnownParams (part :: "2" :: r :: g :: b :: rest)

def KnownCode : AnsiCode → Prop
  | .sgr params => params = [""] ∨ KnownParams params
  | .osc8 _ => True

def Known {γ : Type} (text : Text γ) : Prop := ∀ c, .code c ∈ text → KnownCode c

variable {part : String} {n : ℕ} {colour : Colour}

theorem isDecimal_of_all
    (h : part ≠ "" ∧ part.toList.all Char.isDigit = true) : IsDecimal part :=
  ⟨h.1, all_eq_true.mp h.2⟩

theorem parseInt_of_isDecimal (h : IsDecimal part) :
    AnsiCodeTracker.parseInt part = some (number part) := by
  rw [number, AnsiCodeTracker.parseInt, if_neg h.1]
  rfl

theorem toList_toString (n : ℕ) : (toString n).toList = Nat.toDigits 10 n := by
  rw [Nat.toString_eq_ofList_toDigits, String.toList_ofList]

theorem isDecimal_toString (n : ℕ) : IsDecimal (toString n) := by
  constructor
  · intro hempty
    have hdigits := toList_toString n
    rw [hempty] at hdigits
    exact Nat.toDigits_ne_nil hdigits.symm
  · intro c hc
    rw [toList_toString] at hc
    exact Nat.isDigit_of_mem_toDigits (by omega) (by omega) hc

theorem number_toString (n : ℕ) : number (toString n) = n := by
  rw [number, AnsiCodeTracker.parseInt, if_neg (isDecimal_toString n).1, toList_toString,
    Option.getD_some]
  exact Nat.ofDigitChars_toDigits (by omega) (by omega)

theorem KnownParams.append {xs ys : List String} (hxs : KnownParams xs) (hys : KnownParams ys) :
    KnownParams (xs ++ ys) := by
  induction hxs with
  | nil => exact hys
  | one hpart hknown _ ih => exact .one hpart hknown ih
  | palette hpart hcode hn _ ih => exact .palette hpart hcode hn ih
  | rgb hpart hcode hr hg hb _ ih => exact .rgb hpart hcode hr hg hb ih

theorem knownParams_toString (hn : isKnown n = true) : KnownParams [toString n] :=
  .one (isDecimal_toString n) (by rwa [number_toString]) .nil

def SetsFg (params : List String) (colour : Colour) : Prop :=
  ∀ (s : Style) (rest : List ℕ),
    s.apply (numbers params ++ rest) = ({ s with fg := some colour } : Style).apply rest

def SetsBg (params : List String) (colour : Colour) : Prop :=
  ∀ (s : Style) (rest : List ℕ),
    s.apply (numbers params ++ rest) = ({ s with bg := some colour } : Style).apply rest

/-- The parameters that are kept for a colour are known, and set it. -/
inductive Kept (sets : List String → Colour → Prop) :
    Option (List String) → Option Colour → Prop
  | none : Kept sets none none
  | some {params : List String} {colour : Colour} : KnownParams params → sets params colour →
      Kept sets (some params) (some colour)

theorem Kept.known {sets : List String → Colour → Prop} {params : Option (List String)}
    {colour : Option Colour} (h : Kept sets params colour) : KnownParams (params.getD []) := by
  cases h with
  | none => exact .nil
  | some hknown => exact hknown

namespace AnsiCodeTracker

def style (t : AnsiCodeTracker) (fg bg : Option Colour) : Style :=
  { bold := t.bold, dim := t.dim, italic := t.italic, underline := t.underline, blink := t.blink
    inverse := t.inverse, hidden := t.hidden, strikethrough := t.strikethrough, fg, bg }

def Shows (t : AnsiCodeTracker) (s : Style) : Prop :=
  ∃ fg bg, s = t.style fg bg ∧ Kept SetsFg t.fgColor fg ∧ Kept SetsBg t.bgColor bg

theorem Shows.reset : Shows reset Style.plain := ⟨none, none, rfl, .none, .none⟩

variable {t : AnsiCodeTracker} {s : Style}

variable {params : List String}

theorem Shows.setFg (h : t.Shows s) (hknown : KnownParams params) (hsets : SetsFg params colour) :
    Shows { t with fgColor := some params } { s with fg := some colour } := by
  obtain ⟨fg, bg, rfl, _, hbg⟩ := h
  exact ⟨some colour, bg, rfl, .some hknown hsets, hbg⟩

theorem Shows.setBg (h : t.Shows s) (hknown : KnownParams params) (hsets : SetsBg params colour) :
    Shows { t with bgColor := some params } { s with bg := some colour } := by
  obtain ⟨fg, bg, rfl, hfg, _⟩ := h
  exact ⟨fg, some colour, rfl, hfg, .some hknown hsets⟩

theorem isKnown_ne (hn : isKnown n = true) : n ≠ 38 ∧ n ≠ 48 := by
  constructor
  · rintro rfl
    exact absurd hn (by decide)
  · rintro rfl
    exact absurd hn (by decide)

theorem setsFg_toString (hn : isKnown n = true)
    (hcolour : ∀ s : Style, s.rendition n = { s with fg := some colour }) :
    SetsFg [toString n] colour := by
  intro s rest
  rw [numbers, map_singleton, number_toString, singleton_append,
    Style.apply_cons (isKnown_ne hn).1 (isKnown_ne hn).2, hcolour]

theorem setsBg_toString (hn : isKnown n = true)
    (hcolour : ∀ s : Style, s.rendition n = { s with bg := some colour }) :
    SetsBg [toString n] colour := by
  intro s rest
  rw [numbers, map_singleton, number_toString, singleton_append,
    Style.apply_cons (isKnown_ne hn).1 (isKnown_ne hn).2, hcolour]

theorem Shows.standardCode (h : t.Shows s) (hn : isKnown n = true) :
    Shows (t.standardCode n) (s.rendition n) := by
  have hshows := h
  obtain ⟨fg, bg, rfl, hfg, hbg⟩ := h
  unfold AnsiCodeTracker.standardCode
  split
  · exact .reset
  all_goals try exact ⟨fg, bg, rfl, hfg, hbg⟩
  · exact ⟨none, bg, rfl, .none, hbg⟩
  · exact ⟨fg, none, rfl, hfg, .none⟩
  · split_ifs with hfgCode hbgCode
    · obtain ⟨colour, hcolour⟩ := Style.rendition_fg hfgCode
      rw [hcolour]
      exact hshows.setFg (knownParams_toString hn) (setsFg_toString hn hcolour)
    · obtain ⟨colour, hcolour⟩ := Style.rendition_bg hbgCode
      rw [hcolour]
      exact hshows.setBg (knownParams_toString hn) (setsBg_toString hn hcolour)
    · exfalso
      simp only [isKnown, mem_cons, not_mem_nil, or_false, Bool.or_eq_true,
        Bool.and_eq_true, decide_eq_true_eq] at hn
      simp only [imp_false] at *
      omega

theorem number_five : number "5" = 5 := by decide

theorem number_two : number "2" = 2 := by decide

theorem Shows.color (h : t.Shows s) (hpart : number part = 38 ∨ number part = 48)
    (params : List String) (hparams : KnownParams (part :: params)) (colour : Colour)
    (hfg : number part = 38 → SetsFg (part :: params) colour)
    (hbg : number part = 48 → SetsBg (part :: params) colour) :
    ∃ s' : Style, (∀ rest, s.apply (numbers (part :: params) ++ rest) = s'.apply rest) ∧
      Shows (if number part = 38 then { t with fgColor := some (part :: params) }
        else { t with bgColor := some (part :: params) }) s' := by
  obtain hcode | hcode := hpart
  · refine ⟨_, hfg hcode s, ?_⟩
    rw [if_pos hcode]
    exact h.setFg hparams (hfg hcode)
  · refine ⟨_, hbg hcode s, ?_⟩
    rw [if_neg (by omega)]
    exact h.setBg hparams (hbg hcode)

theorem processPart_palette {n : String} (hpart : IsDecimal part)
    (hcode : number part = 38 ∨ number part = 48) (rest : List String) :
    t.processPart part ("5" :: n :: rest) =
      (if number part = 38 then { t with fgColor := some [part, "5", n] }
        else { t with bgColor := some [part, "5", n] }, 2) := by
  rw [processPart, parseInt_of_isDecimal hpart]
  simp [hcode, colorParams]

theorem processPart_rgb {r g b : String} (hpart : IsDecimal part)
    (hcode : number part = 38 ∨ number part = 48) (rest : List String) :
    t.processPart part ("2" :: r :: g :: b :: rest) =
      (if number part = 38 then { t with fgColor := some [part, "2", r, g, b] }
        else { t with bgColor := some [part, "2", r, g, b] }, 4) := by
  rw [processPart, parseInt_of_isDecimal hpart]
  simp [hcode, colorParams]

theorem processPart_one (hpart : IsDecimal part)
    (hknown : isKnown (number part) = true) (rest : List String) :
    t.processPart part rest = (t.standardCode (number part), 0) := by
  obtain ⟨hfg, hbg⟩ := isKnown_ne hknown
  rw [processPart, parseInt_of_isDecimal hpart]
  simp [hfg, hbg]

theorem Shows.processParts (h : t.Shows s) (hparams : KnownParams params) :
    Shows (t.processParts 0 params) (s.apply (numbers params)) := by
  induction hparams generalizing t s with
  | nil => exact h
  | @one part rest hpart hknown _ ih =>
    obtain ⟨hfg, hbg⟩ := isKnown_ne hknown
    rw [AnsiCodeTracker.processParts, processPart_one hpart hknown, numbers, map_cons,
      Style.apply_cons hfg hbg]
    exact ih (h.standardCode hknown)
  | @palette part n rest hpart hcode hn _ ih =>
    obtain ⟨s', hs', hshows⟩ := h.color hcode ["5", n] (.palette hpart hcode hn .nil)
      (.palette (number n))
      (fun hfg s rest => by
        simp only [numbers, map_cons, map_nil, cons_append, nil_append, hfg,
          number_five, Style.apply])
      (fun hbg s rest => by
        simp only [numbers, map_cons, map_nil, cons_append, nil_append, hbg,
          number_five, Style.apply])
    have hsplit : numbers (part :: "5" :: n :: rest) =
        numbers [part, "5", n] ++ numbers rest := by simp [numbers]
    rw [AnsiCodeTracker.processParts, processPart_palette hpart hcode, hsplit, hs']
    exact ih hshows
  | @rgb part r g b rest hpart hcode hr hg hb _ ih =>
    obtain ⟨s', hs', hshows⟩ := h.color hcode ["2", r, g, b] (.rgb hpart hcode hr hg hb .nil)
      (.rgb (number r) (number g) (number b))
      (fun hfg s rest => by
        simp only [numbers, map_cons, map_nil, cons_append, nil_append, hfg,
          number_two, Style.apply])
      (fun hbg s rest => by
        simp only [numbers, map_cons, map_nil, cons_append, nil_append, hbg,
          number_two, Style.apply])
    have hsplit : numbers (part :: "2" :: r :: g :: b :: rest) =
        numbers [part, "2", r, g, b] ++ numbers rest := by simp [numbers]
    rw [AnsiCodeTracker.processParts, processPart_rgb hpart hcode, hsplit, hs']
    exact ih hshows

theorem Shows.process (h : t.Shows s) {c : AnsiCode} (hc : KnownCode c) :
    Shows (t.process c) (applyCode s c) := by
  cases c with
  | osc8 text => exact h
  | sgr params =>
    rw [AnsiCodeTracker.process, applyCode]
    by_cases hempty : params = [""]
    · rw [if_pos (.inl hempty), hempty]
      exact .reset
    · by_cases hzero : params = ["0"]
      · rw [if_pos (.inr hzero), hzero]
        exact .reset
      · rw [if_neg (not_or.mpr ⟨hempty, hzero⟩)]
        exact h.processParts (hc.resolve_left hempty)

theorem apply_flag {f : Bool → Style} (hpart : isKnown (number part) = true)
    (hf : (f false).rendition (number part) = f true) (b : Bool) (rest : List String) :
    (f false).apply (numbers ((if b then [part] else []) ++ rest)) =
      (f b).apply (numbers rest) := by
  cases b with
  | false => rfl
  | true =>
    rw [if_pos rfl, singleton_append, numbers, map_cons,
      Style.apply_cons (isKnown_ne hpart).1 (isKnown_ne hpart).2, hf]
    rfl

theorem apply_kept {sets : List String → Colour → Prop} {params : Option (List String)}
    {colour : Option Colour} {f : Option Colour → Style} (h : Kept sets params colour)
    (hsets : ∀ params colour, sets params colour → ∀ rest,
      (f none).apply (numbers params ++ rest) = (f (some colour)).apply rest) (rest : List String) :
    (f none).apply (numbers (params.getD [] ++ rest)) = (f colour).apply (numbers rest) := by
  cases h with
  | none => rfl
  | some _ hkept =>
    rw [Option.getD_some, numbers, map_append]
    exact hsets _ _ hkept _

theorem Shows.apply_codes (h : t.Shows s) : Style.plain.apply (numbers t.codes) = s := by
  obtain ⟨fg, bg, rfl, hfg, hbg⟩ := h
  have hcodes : t.codes = (if t.bold then ["1"] else []) ++ ((if t.dim then ["2"] else []) ++
      ((if t.italic then ["3"] else []) ++ ((if t.underline then ["4"] else []) ++
      ((if t.blink then ["5"] else []) ++ ((if t.inverse then ["7"] else []) ++
      ((if t.hidden then ["8"] else []) ++ ((if t.strikethrough then ["9"] else []) ++
      (t.fgColor.getD [] ++ (t.bgColor.getD [] ++ []))))))))) := by
    simp [codes]
  rw [hcodes]
  -- each code is written after those before it, and finds its attribute unset
  refine (apply_flag (f := fun b => ⟨b, false, false, false, false, false, false, false, none,
      none⟩)
    (by decide) rfl _ _).trans ?_
  refine (apply_flag (f := fun b => ⟨t.bold, b, false, false, false, false, false, false, none,
      none⟩)
    (by decide) rfl _ _).trans ?_
  refine (apply_flag (f := fun b => ⟨t.bold, t.dim, b, false, false, false, false, false, none,
      none⟩)
    (by decide) rfl _ _).trans ?_
  refine (apply_flag (f := fun b => ⟨t.bold, t.dim, t.italic, b, false, false, false, false,
      none, none⟩)
    (by decide) rfl _ _).trans ?_
  refine (apply_flag (f := fun b => ⟨t.bold, t.dim, t.italic, t.underline, b, false, false,
      false, none, none⟩)
    (by decide) rfl _ _).trans ?_
  refine (apply_flag (f := fun b => ⟨t.bold, t.dim, t.italic, t.underline, t.blink, b, false,
      false, none, none⟩)
    (by decide) rfl _ _).trans ?_
  refine (apply_flag (f := fun b => ⟨t.bold, t.dim, t.italic, t.underline, t.blink, t.inverse,
      b, false, none, none⟩)
    (by decide) rfl _ _).trans ?_
  refine (apply_flag (f := fun b => ⟨t.bold, t.dim, t.italic, t.underline, t.blink, t.inverse,
      t.hidden, b, none, none⟩)
    (by decide) rfl _ _).trans ?_
  refine (apply_kept (f := fun fg => t.style fg none) hfg
    (fun params colour hsets rest => hsets _ _) _).trans ?_
  exact apply_kept (f := fun bg => t.style fg bg) hbg (fun params colour hsets rest => hsets _ _) []

theorem knownParams_flag (hpart : IsDecimal part)
    (hknown : isKnown (number part) = true) (b : Bool) :
    KnownParams (if b then [part] else []) := by
  split_ifs
  · exact .one hpart hknown .nil
  · exact .nil

theorem Shows.known_codes (h : t.Shows s) : KnownParams t.codes := by
  obtain ⟨fg, bg, -, hfg, hbg⟩ := h
  have hflag : ∀ part ∈ ["1", "2", "3", "4", "5", "7", "8", "9"], ∀ b : Bool,
      KnownParams (if b then [part] else []) := by
    intro part hpart
    have hdecimal : (part ≠ "" ∧ part.toList.all Char.isDigit = true) ∧
        isKnown (number part) = true := by
      revert part
      decide
    exact knownParams_flag (isDecimal_of_all hdecimal.1) hdecimal.2
  refine .append (.append (.append (.append (.append (.append (.append (.append (.append
    ?_ ?_) ?_) ?_) ?_) ?_) ?_) ?_) hfg.known) hbg.known
  all_goals exact hflag _ (by decide) _

end AnsiCodeTracker

end Draht.AnsiText
