import Mathlib.Data.List.Infix

/-!
# Longest prefixes and suffixes

The longest prefix, or suffix, of a list with a property that its shorter prefixes, or suffixes,
share: it is found by adding elements until the next one breaks the property.
-/

namespace Draht

variable {α : Type*} {P : List α → Prop} {xs kept : List α}

/-- `kept` has the property, and each prefix with the property is part of it. -/
structure LongestPrefix (P : List α → Prop) (xs kept : List α) : Prop where
  isPrefix : kept <+: xs
  holds : P kept
  longest : ∀ other, other <+: xs → P other → other <+: kept

structure LongestSuffix (P : List α → Prop) (xs kept : List α) : Prop where
  isSuffix : kept <:+ xs
  holds : P kept
  longest : ∀ other, other <:+ xs → P other → other <:+ kept

theorem LongestPrefix.whole (h : P xs) : LongestPrefix P xs xs :=
  ⟨List.prefix_rfl, h, fun _ hother _ => hother⟩

theorem LongestSuffix.whole (h : P xs) : LongestSuffix P xs xs :=
  ⟨List.suffix_rfl, h, fun _ hother _ => hother⟩

theorem longestPrefix_of_next (hclosed : ∀ a b, a <+: b → P b → P a) (hpre : kept <+: xs)
    (hkept : P kept) (hnext : ∀ x, kept ++ [x] <+: xs → ¬P (kept ++ [x])) :
    LongestPrefix P xs kept := by
  refine ⟨hpre, hkept, fun other hother hP => ?_⟩
  obtain h | ⟨more, rfl⟩ := List.prefix_or_prefix_of_prefix hother hpre
  · exact h
  · cases more with
    | nil => rw [List.append_nil]
    | cons x more =>
      have hstep : kept ++ [x] <+: kept ++ x :: more := ⟨more, by simp⟩
      exact absurd (hclosed _ _ hstep hP) (hnext x (hstep.trans hother))

theorem longestSuffix_of_next (hclosed : ∀ a b, a <:+ b → P b → P a) (hsuffix : kept <:+ xs)
    (hkept : P kept) (hnext : ∀ x, x :: kept <:+ xs → ¬P (x :: kept)) :
    LongestSuffix P xs kept := by
  refine ⟨hsuffix, hkept, fun other hother hP => ?_⟩
  obtain h | ⟨more, rfl⟩ := List.suffix_or_suffix_of_suffix hother hsuffix
  · exact h
  · obtain rfl | ⟨more, x, rfl⟩ := List.eq_nil_or_concat more
    · exact List.suffix_rfl
    · have hstep : x :: kept <:+ more.concat x ++ kept := ⟨more, by simp⟩
      exact absurd (hclosed _ _ hstep hP) (hnext x (hstep.trans hother))

end Draht
