import Draht.AnsiStyle
import Draht.WrapText

/-!
# Columns of a line

What a terminal shows in each column of a line: a part of a grapheme, with the style that it is
shown in, or nothing. How much of a style is looked at is a parameter.
-/

namespace Draht.AnsiText

open Sgr

variable {γ σ : Type} (G : Graphemes γ)

/-- How codes change what characters are shown in; a reset brings back the plain state, and a link
changes nothing. -/
structure Pen (σ : Type) where
  plain : σ
  apply : σ → AnsiCode → σ
  reset : ∀ s, apply s (.sgr ["0"]) = plain
  link : ∀ s text, apply s (.osc8 text) = s

def characters : Pen Unit :=
  { plain := (), apply := fun _ _ => (), reset := fun _ => rfl, link := fun _ _ => rfl }

def styles : Pen Style :=
  { plain := .plain, apply := applyCode, reset := fun _ => rfl, link := fun _ _ => rfl }

namespace Pen

variable (p : Pen σ)

def step (s : σ) : Cell γ → σ
  | .code c => p.apply s c
  | _ => s

def after (s : σ) (text : Text γ) : σ := text.foldl p.step s

@[simp] theorem after_nil (s : σ) : p.after s ([] : Text γ) = s := rfl

@[simp] theorem after_cons (s : σ) (c : Cell γ) (text : Text γ) :
    p.after s (c :: text) = p.after (p.step s c) text := rfl

@[simp] theorem after_append (s : σ) (xs ys : Text γ) :
    p.after s (xs ++ ys) = p.after (p.after s xs) ys := List.foldl_append

/-- A tracker that knows the state goes on knowing it, and its codes set the state from scratch. -/
structure Tracked (allowed : AnsiCode → Prop) (knows : AnsiCodeTracker → σ → Prop) : Prop where
  reset : knows .reset p.plain
  process : ∀ {t s c}, knows t s → allowed c → knows (t.process c) (p.apply s c)
  codes : ∀ {t s}, knows t s →
    (if t.codes = [] then p.plain else p.apply p.plain (.sgr t.codes)) = s

theorem Tracked.getActiveCodes {p : Pen σ} {allowed : AnsiCode → Prop}
    {knows : AnsiCodeTracker → σ → Prop} (h : p.Tracked allowed knows) {t : AnsiCodeTracker} {s : σ}
    (ht : knows t s) : p.after p.plain (t.getActiveCodes : Text γ) = s := by
  have hcodes := h.codes ht
  rw [AnsiCodeTracker.getActiveCodes]
  split_ifs at hcodes ⊢ <;> exact hcodes

end Pen

theorem characters_tracked : characters.Tracked (fun _ => True) fun _ _ => True :=
  ⟨trivial, fun _ _ => trivial, fun _ => rfl⟩

theorem styles_tracked : styles.Tracked KnownCode AnsiCodeTracker.Shows := by
  refine ⟨.reset, fun h hc => h.process hc, fun h => ?_⟩
  have hcodes := h.apply_codes
  split_ifs with hnone
  · rwa [hnone] at hcodes
  · exact hcodes

/-- What a cell shows in the first of its columns, the second and so on. -/
def Cell.part (s : σ) (i : ℕ) : Cell γ → Option (γ × ℕ × σ)
  | .grapheme g => some (g, i, s)
  | _ => none

/-- What a column shows; beyond the text it is nothing, as where the text has a space. -/
def columnAt (p : Pen σ) : σ → Text γ → ℕ → Option (γ × ℕ × σ)
  | _, [], _ => none
  | s, c :: text, i =>
    if i < c.width G then c.part s i else columnAt p (p.step s c) text (i - c.width G)

/-- What stays of a column when all graphemes are dropped that reach out of the columns from `lo`
to `hi`. -/
def uncut (lo hi i : ℕ) (column : Option (γ × ℕ × σ)) : Option (γ × ℕ × σ) :=
  column.filter fun (g, k, _) => lo + k ≤ i && i - k + G.graphemeWidth g ≤ hi

variable {i lo hi : ℕ}

section Columns

variable {G} {p : Pen σ}

variable {i' lo' hi' k : ℕ} {s' : σ} {text : Text γ} {g : γ}

theorem columnAt_of_le (s : σ) (h : visibleWidth G text ≤ i) : columnAt G p s text i = none := by
  induction text generalizing s i with
  | nil => rfl
  | cons c text ih =>
    rw [visibleWidth] at h
    rw [columnAt, if_neg (by omega)]
    exact ih _ (by omega)

theorem columnAt_append_left (s : σ) {xs : Text γ} (ys : Text γ)
    (h : i < visibleWidth G xs) : columnAt G p s (xs ++ ys) i = columnAt G p s xs i := by
  induction xs generalizing s i with
  | nil => exact absurd h (Nat.not_lt_zero _)
  | cons c xs ih =>
    rw [visibleWidth] at h
    rw [List.cons_append, columnAt, columnAt]
    split_ifs
    · rfl
    · exact ih _ (by omega)

theorem columnAt_append_blank (s : σ) (xs : Text γ) {ys : Text γ}
    (hys : ∀ s i, columnAt G p s ys i = none) (i : ℕ) :
    columnAt G p s (xs ++ ys) i = columnAt G p s xs i := by
  induction xs generalizing s i with
  | nil => exact hys s i
  | cons c xs ih => rw [List.cons_append, columnAt, columnAt, ih]

theorem columnAt_append_right (s : σ) (xs ys : Text γ) (i : ℕ) :
    columnAt G p s (xs ++ ys) (visibleWidth G xs + i) = columnAt G p (p.after s xs) ys i := by
  induction xs generalizing s with
  | nil => rw [visibleWidth, Nat.zero_add]; rfl
  | cons c xs ih =>
    rw [List.cons_append, columnAt, visibleWidth, if_neg (by omega), Pen.after_cons, ← ih]
    congr 1
    omega

theorem part_of_columnAt {s : σ} (h : columnAt G p s text i = some (g, k, s')) :
    k ≤ i ∧ k < G.graphemeWidth g := by
  induction text generalizing s i with
  | nil => cases h
  | cons c text ih =>
    rw [columnAt] at h
    split_ifs at h with hfirst
    · cases c with
      | grapheme g' =>
        obtain ⟨rfl, rfl, -⟩ : g' = g ∧ i = k ∧ s = s' := by simpa [Cell.part] using h
        exact ⟨le_rfl, hfirst⟩
      | _ => cases h
    · obtain ⟨hle, hlt⟩ := ih h
      exact ⟨by omega, hlt⟩

theorem uncut_some (lo hi i k : ℕ) (g : γ) (s : σ) :
    uncut G lo hi i (some (g, k, s)) =
      if lo + k ≤ i ∧ i - k + G.graphemeWidth g ≤ hi then some (g, k, s) else none := by
  simp [uncut, Option.filter]

theorem width_of_columnAt {s : σ} {c : Cell γ} (hi : i < c.width G)
    (h : columnAt G p s (c :: text) i = some (g, k, s')) :
    k = i ∧ G.graphemeWidth g = c.width G := by
  rw [columnAt, if_pos hi] at h
  cases c with
  | grapheme g' =>
    obtain ⟨rfl, rfl, -⟩ : g' = g ∧ i = k ∧ s = s' := by simpa [Cell.part] using h
    exact ⟨rfl, rfl⟩
  | _ => cases h

theorem end_of_columnAt {s : σ} (h : columnAt G p s text i = some (g, k, s')) :
    i - k + G.graphemeWidth g ≤ visibleWidth G text := by
  induction text generalizing s i with
  | nil => cases h
  | cons c text ih =>
    rw [visibleWidth]
    by_cases hi : i < c.width G
    · obtain ⟨rfl, hwidth⟩ := width_of_columnAt hi h
      omega
    · rw [columnAt, if_neg hi] at h
      have hrest := ih h
      omega

theorem uncut_eq_self {column : Option (γ × ℕ × σ)}
    (h : ∀ g k s, column = some (g, k, s) → lo + k ≤ i ∧ i - k + G.graphemeWidth g ≤ hi) :
    uncut G lo hi i column = column := by
  cases column with
  | none => rfl
  | some column =>
    obtain ⟨g, k, s⟩ := column
    obtain ⟨hlo, hhi⟩ := h g k s rfl
    simp [uncut, hlo, hhi]

theorem uncut_eq_none {column : Option (γ × ℕ × σ)}
    (h : ∀ g k s, column = some (g, k, s) → hi < i - k + G.graphemeWidth g) :
    uncut G lo hi i column = none := by
  cases column with
  | none => rfl
  | some column =>
    obtain ⟨g, k, s⟩ := column
    have hhi := h g k s rfl
    simp [uncut, hhi]

theorem uncut_eq_none_iff {column : Option (γ × ℕ × σ)} :
    uncut G lo hi i column = none ↔
      ∀ g k s, column = some (g, k, s) → ¬(lo + k ≤ i ∧ i - k + G.graphemeWidth g ≤ hi) := by
  cases column with
  | none => exact iff_of_true rfl nofun
  | some column =>
    obtain ⟨g, k, s⟩ := column
    rw [uncut_some]
    split_ifs with h
    · exact iff_of_false nofun fun hnot => hnot g k s rfl h
    · refine iff_of_true rfl ?_
      rintro _ _ _ ⟨⟩
      exact h

theorem uncut_cases (lo hi i : ℕ) (column : Option (γ × ℕ × σ)) :
    uncut G lo hi i column = column ∨ uncut G lo hi i column = none := by
  cases column with
  | none => exact .inr rfl
  | some column =>
    obtain ⟨g, k, s⟩ := column
    rw [uncut_some]
    split_ifs
    · exact .inl rfl
    · exact .inr rfl

theorem uncut_uncut {lo'' hi'' i'' : ℕ} {column : Option (γ × ℕ × σ)}
    (h : ∀ g k s, column = some (g, k, s) →
      ((lo + k ≤ i ∧ i - k + G.graphemeWidth g ≤ hi) ∧
        (lo' + k ≤ i' ∧ i' - k + G.graphemeWidth g ≤ hi') ↔
          lo'' + k ≤ i'' ∧ i'' - k + G.graphemeWidth g ≤ hi'')) :
    uncut G lo hi i (uncut G lo' hi' i' column) = uncut G lo'' hi'' i'' column := by
  cases column with
  | none => rfl
  | some column =>
    obtain ⟨g, k, s⟩ := column
    have hiff := h g k s rfl
    rw [uncut_some lo', uncut_some lo'']
    split_ifs with hinner houter houter
    · rw [uncut_some, if_pos (hiff.mpr houter).1]
    · rw [uncut_some, if_neg fun hlo => houter (hiff.mp ⟨hlo, hinner⟩)]
    · exact absurd (hiff.mpr houter).2 hinner
    · rfl

theorem uncut_congr {column : Option (γ × ℕ × σ)}
    (h : ∀ g k s, column = some (g, k, s) → ((lo + k ≤ i ∧ i - k + G.graphemeWidth g ≤ hi) ↔
      lo' + k ≤ i' ∧ i' - k + G.graphemeWidth g ≤ hi')) :
    uncut G lo hi i column = uncut G lo' hi' i' column := by
  cases column with
  | none => rfl
  | some column =>
    obtain ⟨g, k, s⟩ := column
    have hiff := h g k s rfl
    rw [uncut_some, uncut_some]
    split_ifs <;> tauto
end Columns

/-- Two texts that look the same, each read from a state of its own. -/
structure SameColumns (p : Pen σ) (s : σ) (xs : Text γ) (t : σ) (ys : Text γ) : Prop where
  width : visibleWidth G xs = visibleWidth G ys
  column : ∀ i, columnAt G p s xs i = columnAt G p t ys i

namespace SameColumns

variable {G} {p : Pen σ} {s t : σ} {xs ys zs ws : Text γ}

theorem refl (p : Pen σ) (s : σ) (xs : Text γ) : SameColumns G p s xs s xs := ⟨rfl, fun _ => rfl⟩

theorem append (h : SameColumns G p s xs t ys)
    (hrest : SameColumns G p (p.after s xs) zs (p.after t ys) ws) :
    SameColumns G p s (xs ++ zs) t (ys ++ ws) := by
  refine ⟨?_, fun i => ?_⟩
  · rw [visibleWidth_append, visibleWidth_append, h.width, hrest.width]
  · by_cases hi : i < visibleWidth G xs
    · rw [columnAt_append_left s zs hi, columnAt_append_left t ws (h.width ▸ hi), h.column]
    · obtain ⟨j, rfl⟩ := Nat.exists_eq_add_of_le (Nat.le_of_not_lt hi)
      rw [columnAt_append_right, hrest.column, h.width, columnAt_append_right]

theorem of_width_zero (s t : σ) {xs ys : Text γ} (hxs : visibleWidth G xs = 0)
    (hys : visibleWidth G ys = 0) :
    SameColumns G p s xs t ys := by
  refine ⟨hxs.trans hys.symm, fun i => ?_⟩
  rw [columnAt_of_le s (by omega), columnAt_of_le t (by omega)]

theorem append_zero (h : SameColumns G p s xs t ys) (hzs : visibleWidth G zs = 0) :
    SameColumns G p s (xs ++ zs) t ys := by
  have hzero : SameColumns G p (p.after s xs) zs (p.after t ys) [] := of_width_zero _ _ hzs rfl
  have hpair := h.append hzero
  rwa [List.append_nil] at hpair

theorem append_zero_right (h : SameColumns G p s xs t ys) (hws : visibleWidth G ws = 0) :
    SameColumns G p s xs t (ys ++ ws) := by
  have hzero : SameColumns G p (p.after s xs) [] (p.after t ys) ws := of_width_zero _ _ rfl hws
  have hpair := h.append hzero
  rwa [List.append_nil] at hpair

end SameColumns

end Draht.AnsiText
