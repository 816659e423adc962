import Draht.LineColumns

/-!
# Lines that are cut

A line is cut behind the first cell that reaches a column, or before the first one that reaches out
of the columns that are wanted.
-/

namespace Draht.AnsiText
open List

variable {γ σ : Type} (G : Graphemes γ)

/-- The cells up to the first that reaches column `n`. -/
def upTo : ℕ → Text γ → Text γ
  | _, [] => []
  | n, c :: text => if n = 0 then [] else c :: upTo (n - c.width G) text

def beyond : ℕ → Text γ → Text γ
  | _, [] => []
  | n, c :: text => if n = 0 then c :: text else beyond (n - c.width G) text

/-- The cells before the first one that does not fit into `n` columns. -/
def takeColumns : ℕ → Text γ → Text γ
  | _, [] => []
  | n, c :: text =>
    if n = 0 ∨ n < c.width G then [] else c :: takeColumns (n - c.width G) text

/-- A grapheme begins before column `n` and ends behind it. -/
def Straddles (text : Text γ) (n : ℕ) : Prop :=
  ∃ before g after, text = before ++ .grapheme g :: after ∧ visibleWidth G before < n ∧
    n < visibleWidth G before + G.graphemeWidth g

/-- What stands on a line: codes, spaces and graphemes of one or two columns. -/
def Cell.OnLine : Cell γ → Prop
  | .grapheme g => G.graphemeWidth g = 1 ∨ G.graphemeWidth g = 2
  | .space | .code _ => True
  | .tab | .newline => False

def IsLine (text : Text γ) : Prop := ∀ c ∈ text, c.OnLine G

section Cuts

variable {G} {n : ℕ} {text xs ys : Text γ}

attribute [local simp] upTo beyond takeColumns

theorem Cell.OnLine.width_le {c : Cell γ} (h : c.OnLine G) : c.width G ≤ 2 := by
  cases c with
  | grapheme g => rcases h with h | h <;> simp [Cell.width, h]
  | space | code => simp [Cell.width]
  | tab | newline => exact h.elim

theorem IsLine.append_iff : IsLine G (xs ++ ys) ↔ IsLine G xs ∧ IsLine G ys :=
  forall_mem_append

theorem isLine_getActiveCodes (t : AnsiCodeTracker) : IsLine G (t.getActiveCodes : Text γ) := by
  rw [AnsiCodeTracker.getActiveCodes]
  split_ifs
  · exact forall_mem_nil _
  · exact forall_mem_singleton.mpr trivial

theorem upTo_zero (text : Text γ) : upTo G 0 text = [] := by cases text <;> rfl

theorem beyond_zero (text : Text γ) : beyond G 0 text = text := by cases text <;> rfl

theorem upTo_append_beyond (n : ℕ) (text : Text γ) : upTo G n text ++ beyond G n text = text := by
  induction text generalizing n with
  | nil => rfl
  | cons c text ih =>
    rw [upTo, beyond]
    split_ifs
    · rfl
    · rw [cons_append, ih]

theorem upTo_append_of_lt (h : visibleWidth G xs < n) (ys : Text γ) :
    upTo G n (xs ++ ys) = xs ++ upTo G (n - visibleWidth G xs) ys := by
  induction xs generalizing n with
  | nil => rfl
  | cons c xs ih =>
    rw [visibleWidth] at h
    rw [cons_append, upTo, if_neg (by omega), ih (by omega), visibleWidth, Nat.sub_add_eq,
      cons_append]

theorem beyond_append_of_lt (h : visibleWidth G xs < n) (ys : Text γ) :
    beyond G n (xs ++ ys) = beyond G (n - visibleWidth G xs) ys := by
  induction xs generalizing n with
  | nil => rfl
  | cons c xs ih =>
    rw [visibleWidth] at h
    rw [cons_append, beyond, if_neg (by omega), ih (by omega), visibleWidth, Nat.sub_add_eq]

theorem upTo_append_of_le (h : n ≤ visibleWidth G xs) (ys : Text γ) :
    upTo G n (xs ++ ys) = upTo G n xs := by
  induction xs generalizing n with
  | nil => rw [Nat.le_zero.mp h, upTo_zero, upTo_zero]
  | cons c xs ih =>
    rw [visibleWidth] at h
    rw [cons_append, upTo, upTo, ih (by omega)]

theorem beyond_append_of_le (h : n ≤ visibleWidth G xs) (ys : Text γ) :
    beyond G n (xs ++ ys) = beyond G n xs ++ ys := by
  induction xs generalizing n with
  | nil => rw [Nat.le_zero.mp h, beyond_zero, beyond_zero]
  | cons c xs ih =>
    rw [visibleWidth] at h
    rw [cons_append, beyond, beyond, ih (by omega)]
    split_ifs <;> rfl

theorem upTo_of_lt (h : visibleWidth G text < n) : upTo G n text = text := by
  have hupTo := upTo_append_of_lt h []
  rwa [append_nil, upTo, append_nil] at hupTo

theorem beyond_of_lt (h : visibleWidth G text < n) : beyond G n text = [] := by
  have hbeyond := beyond_append_of_lt h []
  rwa [append_nil, beyond] at hbeyond

theorem upTo_concat_of_lt (h : visibleWidth G text < n) (c : Cell γ) :
    upTo G n (text ++ [c]) = text ++ [c] := by
  rw [upTo_append_of_lt h, upTo, if_neg (by omega), upTo]

theorem beyond_concat_of_lt (h : visibleWidth G text < n) (c : Cell γ) :
    beyond G n (text ++ [c]) = [] := by
  rw [beyond_append_of_lt h, beyond, if_neg (by omega), beyond]

theorem le_visibleWidth_upTo (h : n ≤ visibleWidth G text) :
    n ≤ visibleWidth G (upTo G n text) := by
  induction text generalizing n with
  | nil => exact h
  | cons c text ih =>
    rw [visibleWidth] at h
    rw [upTo]
    split_ifs with hn
    · omega
    · have hrest := ih (n := n - c.width G) (by omega)
      rw [visibleWidth]
      omega

theorem visibleWidth_upTo_le (hline : IsLine G text) (n : ℕ) :
    visibleWidth G (upTo G n text) ≤ n + 1 := by
  induction text generalizing n with
  | nil => exact Nat.zero_le _
  | cons c text ih =>
    obtain ⟨hc, htext⟩ := forall_mem_cons.mp hline
    rw [upTo]
    split_ifs with hn
    · exact Nat.zero_le _
    · have hrest := ih htext (n - c.width G)
      have hwidth := hc.width_le
      rw [visibleWidth]
      by_cases hover : n < c.width G
      · rw [Nat.sub_eq_zero_of_le hover.le, upTo_zero, visibleWidth]
        omega
      · omega

theorem straddles_iff (hline : IsLine G text) :
    Straddles G text n ↔ visibleWidth G (upTo G n text) = n + 1 := by
  constructor
  · rintro ⟨before, g, after, rfl, hbefore, hg⟩
    have hwidth : Cell.width G (.grapheme g) ≤ 2 :=
      (hline _ (mem_append_right _ mem_cons_self)).width_le
    rw [Cell.width] at hwidth
    rw [upTo_append_of_lt hbefore, upTo, if_neg (by omega), Cell.width,
      Nat.sub_eq_zero_of_le (by omega), upTo_zero, visibleWidth_append, visibleWidth_singleton,
      Cell.width]
    omega
  · intro h
    induction text generalizing n with
    | nil => exact absurd h (Nat.succ_ne_zero n).symm
    | cons c text ih =>
      obtain ⟨hc, htext⟩ := forall_mem_cons.mp hline
      rw [upTo] at h
      split_ifs at h with hn
      · exact absurd h (Nat.succ_ne_zero n).symm
      rw [visibleWidth] at h
      by_cases hover : n < c.width G
      · cases c with
        | grapheme g =>
          exact ⟨[], g, text, rfl, Nat.pos_of_ne_zero hn, by simpa [Cell.width] using hover⟩
        | space => exact absurd hover (by simp only [Cell.width]; omega)
        | code => exact absurd hover (Nat.not_lt_zero n)
        | tab | newline => exact hc.elim
      · obtain ⟨before, g, after, rfl, hbefore, hg⟩ := ih htext (n := n - c.width G) (by omega)
        refine ⟨c :: before, g, after, rfl, ?_, ?_⟩ <;> rw [visibleWidth] <;> omega

theorem visibleWidth_upTo_of_not_straddles (hline : IsLine G text) (h : ¬Straddles G text n)
    (hn : n ≤ visibleWidth G text) : visibleWidth G (upTo G n text) = n := by
  have hle := visibleWidth_upTo_le hline n
  have hge := le_visibleWidth_upTo hn
  have hne := (straddles_iff hline).not.mp h
  omega

theorem visibleWidth_takeColumns_le (n : ℕ) (text : Text γ) :
    visibleWidth G (takeColumns G n text) ≤ n := by
  induction text generalizing n with
  | nil => exact Nat.zero_le _
  | cons c text ih =>
    rw [takeColumns]
    split_ifs with hn
    · exact Nat.zero_le _
    · have hrest := ih (n - c.width G)
      rw [visibleWidth]
      omega

theorem takeColumns_of_lt (h : visibleWidth G text < n) : takeColumns G n text = text := by
  induction text generalizing n with
  | nil => rfl
  | cons c text ih =>
    rw [visibleWidth] at h
    rw [takeColumns, if_neg (by omega), ih (by omega)]

theorem takeColumns_append_of_lt (h : visibleWidth G xs < n) (ys : Text γ) :
    takeColumns G n (xs ++ ys) = xs ++ takeColumns G (n - visibleWidth G xs) ys := by
  induction xs generalizing n with
  | nil => rfl
  | cons c xs ih =>
    rw [visibleWidth] at h
    rw [cons_append, takeColumns, if_neg (by omega), ih (by omega), visibleWidth,
      Nat.sub_add_eq, cons_append]

theorem takeColumns_append_of_le (h : n ≤ visibleWidth G xs) (ys : Text γ) :
    takeColumns G n (xs ++ ys) = takeColumns G n xs := by
  induction xs generalizing n with
  | nil =>
    obtain rfl := Nat.le_zero.mp h
    cases ys <;> rfl
  | cons c xs ih =>
    rw [visibleWidth] at h
    rw [cons_append, takeColumns, takeColumns, ih (by omega)]

theorem isLine_takeColumns (hline : IsLine G text) (n : ℕ) : IsLine G (takeColumns G n text) := by
  induction text generalizing n with
  | nil => exact hline
  | cons c text ih =>
    obtain ⟨hc, htext⟩ := forall_mem_cons.mp hline
    rw [takeColumns]
    split_ifs
    · exact forall_mem_nil _
    · exact forall_mem_cons.mpr ⟨hc, ih htext _⟩

variable {p : Pen σ}

theorem IsLine.graphemeWidth_le (hline : IsLine G text) {s : σ} {i : ℕ} {g : γ} {k : ℕ} {s' : σ}
    (h : columnAt G p s text i = some (g, k, s')) : G.graphemeWidth g ≤ 2 := by
  induction text generalizing s i with
  | nil => cases h
  | cons c text ih =>
    obtain ⟨hc, htext⟩ := forall_mem_cons.mp hline
    by_cases hi : i < c.width G
    · exact (width_of_columnAt hi h).2.trans_le hc.width_le
    · rw [columnAt, if_neg hi] at h
      exact ih htext h

theorem columnAt_upTo (s : σ) {i : ℕ} (hi : i < max n (visibleWidth G (upTo G n text))) :
    columnAt G p s (upTo G n text) i = columnAt G p s text i := by
  have hsplit := upTo_append_beyond (G := G) n text
  by_cases hlt : i < visibleWidth G (upTo G n text)
  · conv_rhs => rw [← hsplit]
    exact (columnAt_append_left s _ hlt).symm
  · have hshort : visibleWidth G text < n := by
      by_contra hlong
      have hwidth := le_visibleWidth_upTo (Nat.le_of_not_lt hlong)
      omega
    rw [upTo_of_lt hshort]

theorem columnAt_beyond (s : σ) (n : ℕ) (text : Text γ) (i : ℕ) :
    columnAt G p (p.after s (upTo G n text)) (beyond G n text) i =
      columnAt G p s text (visibleWidth G (upTo G n text) + i) := by
  conv_rhs => rw [← upTo_append_beyond (G := G) n text]
  rw [upTo_append_beyond, ← columnAt_append_right, upTo_append_beyond]

theorem columnAt_takeColumns (s : σ) (n : ℕ) (text : Text γ) (i : ℕ) :
    columnAt G p s (takeColumns G n text) i = uncut G 0 n i (columnAt G p s text i) := by
  induction text generalizing s n i with
  | nil => rfl
  | cons c text ih =>
    rw [takeColumns]
    by_cases hn : n = 0 ∨ n < c.width G
    · rw [if_pos hn]
      refine (uncut_eq_none fun g k s' hcolumn => ?_).symm
      have hpart := part_of_columnAt hcolumn
      -- the column belongs to the first cell, or lies behind it
      by_cases hi : i < c.width G
      · have hfirst := width_of_columnAt hi hcolumn
        omega
      · omega
    · rw [if_neg hn, columnAt, columnAt]
      split_ifs with hi
      · cases c with
        | grapheme g =>
          rw [Cell.width] at hn
          rw [Cell.part, uncut_some, if_pos (by omega)]
        | _ => rfl
      · rw [ih]
        refine uncut_congr fun g k s' hcolumn => ?_
        have hpart := part_of_columnAt hcolumn
        omega

end Cuts

end Draht.AnsiText
