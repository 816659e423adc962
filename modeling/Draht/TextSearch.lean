import Mathlib.Data.List.Infix

/-!
# Searching and splicing lists

The first occurrence of a pattern, all positions at which it occurs, splitting at it, and the
replacement of several disjoint spans of a text. Replacing the spans from the last to the first
with offsets of the original text substitutes all of them at once.
-/

namespace Draht
open List Option

variable {α : Type*} [DecidableEq α]

/-- `text.indexOf(pattern)`. -/
def indexOf? (pattern : List α) : List α → Option ℕ
  | [] => if pattern = [] then some 0 else none
  | x :: xs =>
    if pattern.isPrefixOf (x :: xs) then some 0 else (indexOf? pattern xs).map (· + 1)

/-- The positions at which a pattern occurs; they may overlap. -/
def positions (pattern text : List α) : List ℕ :=
  (List.range (text.length + 1)).filter (fun i => pattern.isPrefixOf (text.drop i))

theorem mem_positions {pattern text : List α} {i : ℕ} :
    i ∈ positions pattern text ↔ i ≤ text.length ∧ pattern <+: text.drop i := by
  rw [positions, mem_filter, mem_range, isPrefixOf_iff_prefix]
  constructor
  · rintro ⟨hi, hp⟩
    exact ⟨by omega, hp⟩
  · rintro ⟨hi, hp⟩
    exact ⟨by omega, hp⟩

theorem indexOf?_mem {pattern text : List α} {i : ℕ} (h : indexOf? pattern text = some i) :
    i ∈ positions pattern text := by
  rw [mem_positions]
  induction text generalizing i with
  | nil =>
    rw [indexOf?] at h
    split_ifs at h with hp
    cases h
    simp [hp]
  | cons x xs ih =>
    rw [indexOf?] at h
    by_cases hp : pattern.isPrefixOf (x :: xs) = true
    · rw [if_pos hp] at h
      cases h
      exact ⟨Nat.zero_le _, isPrefixOf_iff_prefix.mp hp⟩
    · rw [if_neg hp] at h
      obtain ⟨j, hj, rfl⟩ := map_eq_some_iff.mp h
      obtain ⟨hle, hpre⟩ := ih hj
      refine ⟨?_, hpre⟩
      rw [length_cons]
      omega

theorem take_of_mem_positions {pattern text : List α} {i : ℕ} (h : i ∈ positions pattern text) :
    (text.drop i).take pattern.length = pattern :=
  (prefix_iff_eq_take.mp (mem_positions.mp h).2).symm

theorem indexOf?_split {pattern text : List α} {i : ℕ} (h : indexOf? pattern text = some i) :
    text = text.take i ++ (pattern ++ text.drop (i + pattern.length)) := by
  have hpattern := take_of_mem_positions (indexOf?_mem h)
  conv_lhs => rw [← take_append_drop i text, ← take_append_drop pattern.length
    (text.drop i), hpattern, drop_drop]

theorem add_length_le_of_mem_positions {pattern text : List α} {i : ℕ}
    (h : i ∈ positions pattern text) : i + pattern.length ≤ text.length := by
  obtain ⟨hi, hp⟩ := mem_positions.mp h
  have hlen := hp.length_le
  rw [length_drop] at hlen
  omega

theorem mem_positions_append (before after pattern : List α) :
    before.length ∈ positions pattern (before ++ (pattern ++ after)) := by
  rw [mem_positions, drop_left]
  refine ⟨?_, prefix_append _ _⟩
  rw [length_append]
  omega

theorem mem_positions_cons {pattern text : List α} {x : α} {i : ℕ} :
    i + 1 ∈ positions pattern (x :: text) ↔ i ∈ positions pattern text := by
  rw [mem_positions, mem_positions, length_cons, drop_succ_cons]
  constructor
  · rintro ⟨hi, hp⟩
    exact ⟨by omega, hp⟩
  · rintro ⟨hi, hp⟩
    exact ⟨by omega, hp⟩

section

variable {pattern text after : List α} {i : ℕ}

theorem indexOf?_eq_some_iff :
    indexOf? pattern text = some i ↔
      i ∈ positions pattern text ∧ ∀ j < i, j ∉ positions pattern text := by
  induction text generalizing i with
  | nil =>
    rw [indexOf?]
    split_ifs with hp
    · subst hp
      rw [some.injEq]
      constructor
      · rintro rfl
        refine ⟨mem_positions.mpr ⟨Nat.le_refl _, prefix_refl _⟩, fun j hj => ?_⟩
        omega
      · rintro ⟨hmem, -⟩
        exact (Nat.le_zero.mp (mem_positions.mp hmem).1).symm
    · refine iff_of_false not_false ?_
      rintro ⟨hmem, -⟩
      have hprefix := (mem_positions.mp hmem).2
      rw [drop_nil] at hprefix
      exact hp (prefix_nil.mp hprefix)
  | cons x xs ih =>
    have hzero : 0 ∈ positions pattern (x :: xs) ↔ pattern.isPrefixOf (x :: xs) = true := by
      rw [mem_positions, isPrefixOf_iff_prefix]
      exact and_iff_right (Nat.zero_le _)
    rw [indexOf?]
    by_cases hp : pattern.isPrefixOf (x :: xs) = true
    · rw [if_pos hp, some.injEq]
      constructor
      · rintro rfl
        exact ⟨hzero.mpr hp, fun j hj => absurd hj (Nat.not_lt_zero j)⟩
      · rintro ⟨-, hfirst⟩
        by_contra hne
        exact hfirst 0 (by omega) (hzero.mpr hp)
    · rw [if_neg hp, map_eq_some_iff]
      constructor
      · rintro ⟨j, hj, rfl⟩
        obtain ⟨hmem, hfirst⟩ := ih.mp hj
        refine ⟨mem_positions_cons.mpr hmem, fun k hk => ?_⟩
        cases k with
        | zero => exact fun h => hp (hzero.mp h)
        | succ k => exact fun h => hfirst k (by omega) (mem_positions_cons.mp h)
      · rintro ⟨hmem, hfirst⟩
        cases i with
        | zero => exact absurd (hzero.mp hmem) hp
        | succ i =>
          refine ⟨i, ih.mpr ⟨mem_positions_cons.mp hmem, fun k hk h => ?_⟩, rfl⟩
          exact hfirst (k + 1) (by omega) (mem_positions_cons.mpr h)

theorem indexOf?_eq_none_iff :
    indexOf? pattern text = none ↔ ∀ i, i ∉ positions pattern text := by
  constructor
  · intro hnone i
    induction i using Nat.strong_induction_on with
    | h i ih =>
      intro hmem
      rw [indexOf?_eq_some_iff.mpr ⟨hmem, ih⟩] at hnone
      exact some_ne_none i hnone
  · intro hall
    rw [eq_none_iff_forall_ne_some]
    exact fun i hi => hall i (indexOf?_mem hi)

theorem mem_positions_left :
    i ∈ positions pattern text ↔
      i ∈ positions pattern (text ++ after) ∧ i + pattern.length ≤ text.length := by
  constructor
  · intro h
    have hle := add_length_le_of_mem_positions h
    obtain ⟨hi, hprefix⟩ := mem_positions.mp h
    refine ⟨mem_positions.mpr ⟨?_, ?_⟩, hle⟩
    · rw [length_append]
      omega
    · rw [drop_append_of_le_length hi]
      exact hprefix.trans (prefix_append _ _)
  · rintro ⟨h, hle⟩
    have hi : i ≤ text.length := by omega
    refine mem_positions.mpr ⟨hi, ?_⟩
    have hprefix := (mem_positions.mp h).2
    rw [drop_append_of_le_length hi] at hprefix
    refine prefix_of_prefix_length_le hprefix (prefix_append _ _) ?_
    rw [length_drop]
    omega

theorem mem_positions_drop {k : ℕ} (hk : k ≤ text.length) :
    i ∈ positions pattern (text.drop k) ↔ k + i ∈ positions pattern text := by
  rw [mem_positions, mem_positions, drop_drop, length_drop]
  constructor
  · rintro ⟨hi, hp⟩
    exact ⟨by omega, hp⟩
  · rintro ⟨hi, hp⟩
    exact ⟨by omega, hp⟩

theorem indexOf?_left_iff (after : List α) :
    indexOf? pattern text = some i ↔
      indexOf? pattern (text ++ after) = some i ∧ i + pattern.length ≤ text.length := by
  rw [indexOf?_eq_some_iff, indexOf?_eq_some_iff, mem_positions_left]
  constructor
  · rintro ⟨⟨hmem, hle⟩, hfirst⟩
    refine ⟨⟨hmem, fun j hj h => hfirst j hj ?_⟩, hle⟩
    exact mem_positions_left.mpr ⟨h, by omega⟩
  · rintro ⟨⟨hmem, hfirst⟩, hle⟩
    exact ⟨⟨hmem, hle⟩, fun j hj h => hfirst j hj (mem_positions_left.mp h).1⟩

theorem indexOf?_drop {k : ℕ} (h : indexOf? pattern text = some i) (hk : k ≤ i) :
    indexOf? pattern (text.drop k) = some (i - k) := by
  obtain ⟨hmem, hfirst⟩ := indexOf?_eq_some_iff.mp h
  have hle : k ≤ text.length := by
    have hi := (mem_positions.mp hmem).1
    omega
  refine indexOf?_eq_some_iff.mpr ⟨?_, fun j hj h => ?_⟩
  · rw [mem_positions_drop hle, Nat.add_sub_cancel' hk]
    exact hmem
  · exact hfirst (k + j) (by omega) ((mem_positions_drop hle).mp h)

theorem indexOf?_eq_none_of_append (h : indexOf? pattern (text ++ after) = none) :
    indexOf? pattern text = none ∧ indexOf? pattern after = none := by
  rw [indexOf?_eq_none_iff] at h
  refine ⟨indexOf?_eq_none_iff.mpr fun i hi => h i (mem_positions_left.mp hi).1,
    indexOf?_eq_none_iff.mpr fun i hi => h (text.length + i) ?_⟩
  rw [← mem_positions_drop (by rw [length_append]; omega), drop_left]
  exact hi

end

/-- The pieces between the separators: `skip` units of the last separator are still ahead. -/
def splitFrom (separator : List α) : ℕ → List α → List α → List (List α)
  | _, piece, [] => [piece]
  | skip + 1, piece, _ :: xs => splitFrom separator skip piece xs
  | 0, piece, x :: xs =>
    if separator.isPrefixOf (x :: xs) then
      piece :: splitFrom separator (separator.length - 1) [] xs
    else splitFrom separator 0 (piece ++ [x]) xs

/-- `text.split(separator)`: an empty separator splits into single units. -/
def split (separator text : List α) : List (List α) :=
  if separator = [] then text.map (fun x => [x]) else splitFrom separator 0 [] text

example : split [1, 1] [1, 1, 1] = [[], [1]] := by decide

theorem length_splitFrom {separator : List α} (hsep : separator ≠ []) {text : List α}
    {indices : List ℕ} (skip : ℕ) (piece : List α)
    (hpositions : ∀ i ∈ indices, i ∈ positions separator text ∧ skip ≤ i)
    (hdisjoint : indices.Pairwise fun i j => i + separator.length ≤ j) :
    indices.length + 1 ≤ (splitFrom separator skip piece text).length := by
  have hpos := length_pos_of_ne_nil hsep
  induction text generalizing indices skip piece with
  | nil =>
    cases indices with
    | nil => exact Nat.le_refl 1
    | cons i indices =>
      have hlength := add_length_le_of_mem_positions (hpositions i mem_cons_self).1
      rw [length_nil] at hlength
      omega
  | cons x xs ih =>
    -- Positions after the first unit are positions of the rest.
    have hrest {later : List ℕ} {skip : ℕ} (piece : List α)
        (hlater : ∀ i ∈ later, i ∈ positions separator (x :: xs) ∧ skip + 1 ≤ i)
        (horder : later.Pairwise fun i j => i + separator.length ≤ j) :
        later.length + 1 ≤ (splitFrom separator skip piece xs).length := by
      rw [← length_map (fun i => i - 1)]
      refine ih skip piece ?_ ?_
      · intro j hj
        obtain ⟨i, hi, rfl⟩ := mem_map.mp hj
        obtain ⟨hmem, hle⟩ := hlater i hi
        obtain ⟨k, rfl⟩ : ∃ k, i = k + 1 := ⟨i - 1, by omega⟩
        exact ⟨mem_positions_cons.mp hmem, by omega⟩
      · rw [pairwise_map]
        refine horder.imp_of_mem fun hi _ hij => ?_
        have hle := (hlater _ hi).2
        omega
    cases skip with
    | succ skip => exact hrest piece hpositions hdisjoint
    | zero =>
      rw [splitFrom]
      split_ifs with hpre
      · cases indices with
        | nil => exact Nat.succ_pos _
        | cons i indices =>
          obtain ⟨hfirst, horder⟩ := pairwise_cons.mp hdisjoint
          refine Nat.succ_le_succ (hrest [] (fun j hj => ?_) horder)
          have hle := hfirst j hj
          exact ⟨(hpositions j (mem_cons_of_mem _ hj)).1, by omega⟩
      · refine hrest _ (fun i hi => ⟨(hpositions i hi).1, ?_⟩) hdisjoint
        by_contra hzero
        obtain rfl : i = 0 := by omega
        have hmem := (mem_positions.mp (hpositions 0 hi).1).2
        exact hpre (List.isPrefixOf_iff_prefix.mpr hmem)

theorem two_lt_length_split {separator text : List α} {i j : ℕ} (hsep : separator ≠ [])
    (hi : i ∈ positions separator text) (hj : j ∈ positions separator text)
    (hij : i + separator.length ≤ j) : 2 < (split separator text).length := by
  rw [split, if_neg hsep]
  refine (show [i, j].length + 1 ≤ _ from length_splitFrom hsep 0 [] ?_ ?_)
  · intro k hk
    obtain rfl | hk := mem_cons.mp hk
    · exact ⟨hi, Nat.zero_le _⟩
    · obtain rfl := mem_singleton.mp hk
      exact ⟨hj, Nat.zero_le _⟩
  · simpa using hij

/-- `length` units from `index` on are replaced. -/
structure Span (α : Type*) where
  index : ℕ
  length : ℕ
  newText : List α
deriving DecidableEq

namespace Span

variable {α : Type*} {base : List α} {spans : List (Span α)} {pos : ℕ}

def matched (s : Span α) (base : List α) : List α := (base.drop s.index).take s.length

def Disjoint (s t : Span α) : Prop := s.index + s.length ≤ t.index ∨ t.index + t.length ≤ s.index

/-- The spans follow each other from a position on and do not overlap. -/
def InOrder (pos : ℕ) : List (Span α) → Prop
  | [] => True
  | s :: spans => pos ≤ s.index ∧ InOrder (s.index + s.length) spans

def firstOverlap : List (Span α) → Option (ℕ × ℕ) := go 0
where
  go (i : ℕ) : List (Span α) → Option (ℕ × ℕ)
    | previous :: current :: rest =>
      if current.index < previous.index + previous.length then some (i, i + 1)
      else go (i + 1) (current :: rest)
    | _ => none

theorem inOrder_of_go {i : ℕ} {s : Span α} (h : firstOverlap.go i (s :: spans) = none) :
    InOrder (s.index + s.length) spans := by
  induction spans generalizing i s with
  | nil => trivial
  | cons t spans ih =>
    rw [firstOverlap.go] at h
    split_ifs at h with hlt
    exact ⟨by omega, ih h⟩

theorem inOrder_of_firstOverlap (h : firstOverlap spans = none) : InOrder 0 spans := by
  cases spans with
  | nil => trivial
  | cons s spans => exact ⟨Nat.zero_le _, inOrder_of_go h⟩

theorem InOrder.le (h : InOrder pos spans) {s : Span α} (hs : s ∈ spans) : pos ≤ s.index := by
  induction spans generalizing pos with
  | nil => simp at hs
  | cons t spans ih =>
    obtain ⟨hle, hrest⟩ := h
    obtain rfl | hs := mem_cons.mp hs
    · exact hle
    · have hle' := ih hrest hs
      omega

theorem InOrder.pairwise (h : InOrder pos spans) :
    spans.Pairwise (fun s t => s.index + s.length ≤ t.index) := by
  induction spans generalizing pos with
  | nil => exact .nil
  | cons s spans ih => exact .cons (fun t ht => h.2.le ht) (ih h.2)

def applyFromBack (base : List α) (spans : List (Span α)) : List α :=
  spans.foldr (fun s text => text.take s.index ++ s.newText ++ text.drop (s.index + s.length)) base

structure Piece (α : Type*) where
  span : Span α
  gap : List α

def original (base first : List α) (pieces : List (Piece α)) : List α :=
  first ++ pieces.flatMap (fun p => p.span.matched base ++ p.gap)

def replaced (first : List α) (pieces : List (Piece α)) : List α :=
  first ++ pieces.flatMap (fun p => p.span.newText ++ p.gap)

theorem InOrder.exists_pieces (h : InOrder pos spans)
    (hin : ∀ s ∈ spans, s.index + s.length ≤ base.length) :
    ∃ first pieces, pieces.map Piece.span = spans ∧ base.drop pos = original base first pieces ∧
      applyFromBack base spans = base.take pos ++ replaced first pieces := by
  induction spans generalizing pos with
  | nil => exact ⟨base.drop pos, [], rfl, by simp [original], by simp [replaced, applyFromBack]⟩
  | cons s spans ih =>
    obtain ⟨hpos, hrest⟩ := h
    have hs := hin s mem_cons_self
    obtain ⟨gap, pieces, hpieces, hdrop, happly⟩ :=
      ih hrest (fun t ht => hin t (mem_cons_of_mem _ ht))
    refine ⟨(base.drop pos).take (s.index - pos), ⟨s, gap⟩ :: pieces, by simp [hpieces], ?_, ?_⟩
    · have hfirst :
          base.drop pos = (base.drop pos).take (s.index - pos) ++ base.drop s.index := by
        conv_lhs => rw [← take_append_drop (s.index - pos) (base.drop pos), drop_drop]
        congr 2
        omega
      have hmatched : base.drop s.index = s.matched base ++ base.drop (s.index + s.length) := by
        conv_lhs => rw [← take_append_drop s.length (base.drop s.index), drop_drop]
        rfl
      rw [original, flatMap_cons]
      rw [original] at hdrop
      conv_lhs => rw [hfirst, hmatched, hdrop]
      simp
    · have hpre :
          base.take s.index = base.take pos ++ (base.drop pos).take (s.index - pos) := by
        rw [← take_add]
        congr 1
        omega
      have hlen : (base.take (s.index + s.length)).length = s.index + s.length := by
        rw [length_take]
        omega
      have hstep : applyFromBack base (s :: spans) = (applyFromBack base spans).take s.index ++
          s.newText ++ (applyFromBack base spans).drop (s.index + s.length) := rfl
      rw [hstep, happly, take_append_of_le_length (by omega), take_take,
        drop_append_of_le_length (by omega), drop_of_length_le (by omega),
        Nat.min_eq_left (by omega), hpre, replaced, replaced, flatMap_cons]
      simp

end Span

end Draht
