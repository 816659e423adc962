import Draht.EditorSegments
import Mathlib.Algebra.Ring.Nat

/-!
# Wrapping returns

A segment that is wider than a line is wrapped by itself, grapheme by grapheme. So the wrapping
goes at most one call deep, unless it comes upon a grapheme that is itself wider than a line: its
own wrapping calls for itself.
-/

namespace Draht
open List Option

section Wrapping

variable {U : TextUnits} {line : JsText} {maxWidth : ℕ} {segments : List Segment}

/-- A segment that has to be wrapped by itself has its chunks. -/
def HasChunks (wrapSub : JsText → Option (List TextChunk)) (seg : Segment) : Prop :=
  ∃ subChunks, wrapSub seg.text = some subChunks ∧ subChunks ≠ []

theorem wrapSegments_isSome_iff (wrapSub : JsText → Option (List TextChunk)) (w : WordWrap) :
    (wrapSegments U line maxWidth wrapSub w segments).isSome ↔
      ∀ seg ∈ segments, maxWidth < U.visibleWidth seg.text → HasChunks wrapSub seg := by
  induction segments generalizing w with
  | nil => exact iff_of_true rfl nofun
  | cons seg segments ih =>
    rw [wrapSegments, forall_mem_cons]
    split_ifs with hwide
    · cases hsub : wrapSub seg.text with
      | none =>
        refine iff_of_false Bool.false_ne_true fun h => ?_
        obtain ⟨subChunks, hsome, -⟩ := h.1 hwide
        rw [hsub] at hsome
        exact some_ne_none _ hsome.symm
      | some subChunks =>
        rw [bind_some]
        cases hlast : subChunks.getLast? with
        | none =>
          refine iff_of_false Bool.false_ne_true fun h => ?_
          obtain ⟨found, hsome, hne⟩ := h.1 hwide
          rw [hsub] at hsome
          cases hsome
          exact hne (getLast?_eq_none_iff.mp hlast)
        | some last =>
          refine (ih _).trans ⟨fun h => ⟨fun _ => ⟨subChunks, hsub, ?_⟩, h⟩, And.right⟩
          intro hnil
          rw [hnil] at hlast
          exact some_ne_none _ hlast.symm
    · exact (ih _).trans ⟨fun h => ⟨fun h' => absurd h' hwide, h⟩, And.right⟩

theorem wordWrapLine_ne_nil {fuel : ℕ} {chunks : List TextChunk}
    (h : wordWrapLine U maxWidth fuel line segments = some chunks) : chunks ≠ [] := by
  cases fuel with
  | zero => cases h
  | succ fuel =>
    rw [wordWrapLine] at h
    split_ifs at h
    · exact some.inj h ▸ cons_ne_nil _ _
    · exact some.inj h ▸ cons_ne_nil _ _
    · obtain ⟨w, -, rfl⟩ := map_eq_some_iff.mp h
      exact append_ne_nil_of_right_ne_nil _ (cons_ne_nil _ _)

theorem wordWrapLine_succ_isSome_iff (hpos : 0 < maxWidth) (fuel : ℕ) :
    (wordWrapLine U maxWidth (fuel + 1) line segments).isSome ↔
      line = [] ∨ U.visibleWidth line ≤ maxWidth ∨
        ∀ seg ∈ segments, maxWidth < U.visibleWidth seg.text →
          (wordWrapLine U maxWidth fuel seg.text (baseSegments U seg.text)).isSome := by
  have hchunks : ∀ seg : Segment,
      HasChunks (fun sub => wordWrapLine U maxWidth fuel sub (baseSegments U sub)) seg ↔
        (wordWrapLine U maxWidth fuel seg.text (baseSegments U seg.text)).isSome := by
    intro seg
    rw [isSome_iff_exists]
    exact exists_congr fun subChunks => ⟨And.left, fun h => ⟨h, wordWrapLine_ne_nil h⟩⟩
  rw [wordWrapLine]
  split_ifs with hempty hfits
  · exact iff_of_true rfl (.inl (hempty.resolve_right hpos.ne'))
  · exact iff_of_true rfl (.inr (.inl hfits))
  · have hne : line ≠ [] := fun hnil => hempty (.inl hnil)
    rw [isSome_map, wrapSegments_isSome_iff, or_iff_right hne, or_iff_right hfits]
    simp [hchunks]

/-- A segment that is wider than a line is made of graphemes that are not. -/
def Segment.Wraps (U : TextUnits) (maxWidth : ℕ) (seg : Segment) : Prop :=
  maxWidth < U.visibleWidth seg.text → ∀ g ∈ U.segment seg.text, U.visibleWidth g ≤ maxWidth

theorem forall_indexed {texts : List JsText} {start : ℕ} {p : JsText → Prop} :
    (∀ seg ∈ indexed start texts, p seg.text) ↔ ∀ text ∈ texts, p text := by
  induction texts generalizing start with
  | nil => exact iff_of_true nofun fun _ h =>
      absurd h not_mem_nil
  | cons text texts ih => rw [indexed, forall_mem_cons, forall_mem_cons, ih]

theorem forall_baseSegments (text : JsText) {p : JsText → Prop} :
    (∀ seg ∈ baseSegments U text, p seg.text) ↔ ∀ g ∈ U.segment text, p g :=
  forall_indexed

theorem wordWrapLine_grapheme {g : JsText} (hpos : 0 < maxWidth) (hne : g ≠ [])
    (hwide : maxWidth < U.visibleWidth g) (hsingle : U.segment g = [g]) (fuel : ℕ) :
    wordWrapLine U maxWidth fuel g (baseSegments U g) = none := by
  induction fuel with
  | zero => rfl
  | succ fuel ih =>
    rw [← not_isSome_iff_eq_none, wordWrapLine_succ_isSome_iff hpos, not_or, not_or]
    refine ⟨hne, hwide.not_ge, fun h => ?_⟩
    have hself := h ⟨g, 0⟩ (by rw [baseSegments, hsingle]; exact mem_singleton_self _) hwide
    rw [ih] at hself
    exact Bool.false_ne_true hself

theorem TextUnits.Lawful.segment_nil (hU : U.Lawful) : U.segment [] = [] := by
  have hflatten := flatten_eq_nil_iff.mp (hU.flatten [])
  cases hsegment : U.segment [] with
  | nil => rfl
  | cons g gs =>
    have hg : g ∈ U.segment [] := hsegment ▸ mem_cons_self
    exact absurd (hflatten g hg ▸ hg) (hU.nonempty [])

section Graphemes

variable (hU : U.Lawful) (hsingle : ∀ text, ∀ g ∈ U.segment text, U.segment g = [g])
  (hpos : 0 < maxWidth)

include hU hsingle hpos

theorem wordWrapLine_baseSegments_isSome_iff (hwide : maxWidth < U.visibleWidth line) (fuel : ℕ) :
    (wordWrapLine U maxWidth (fuel + 1) line (baseSegments U line)).isSome ↔
      ∀ g ∈ U.segment line, U.visibleWidth g ≤ maxWidth := by
  have hgraphemes := forall_baseSegments (U := U) line (p := fun g =>
    maxWidth < U.visibleWidth g → (wordWrapLine U maxWidth fuel g (baseSegments U g)).isSome)
  rw [wordWrapLine_succ_isSome_iff hpos, or_iff_right hwide.not_ge, hgraphemes]
  constructor
  · rintro (rfl | hreturns) g hg
    · rw [hU.segment_nil] at hg
      cases hg
    · rw [← not_lt]
      intro hgwide
      have hself := hreturns g hg hgwide
      have hne : g ≠ [] := fun hnil => hU.nonempty line (hnil ▸ hg)
      rw [wordWrapLine_grapheme hpos hne hgwide (hsingle line g hg)] at hself
      exact Bool.false_ne_true hself
  · intro hfits
    exact .inr fun g hg hgwide => absurd (hfits g hg) hgwide.not_ge

theorem wordWrapLine_isSome_iff (fuel : ℕ) :
    (wordWrapLine U maxWidth (fuel + 2) line segments).isSome ↔
      line = [] ∨ U.visibleWidth line ≤ maxWidth ∨ ∀ seg ∈ segments, seg.Wraps U maxWidth := by
  rw [wordWrapLine_succ_isSome_iff hpos]
  refine or_congr Iff.rfl (or_congr Iff.rfl (forall₂_congr fun seg _ => ?_))
  exact imp_congr_right fun hwide =>
    wordWrapLine_baseSegments_isSome_iff hU hsingle hpos hwide fuel

/-- The wrapping of a line returns just when the line is empty, or fits, or every segment that is
wider than a line has only graphemes that are not. -/
theorem wordWrapLine_returns_iff :
    (∃ fuel, (wordWrapLine U maxWidth fuel line segments).isSome) ↔
      line = [] ∨ U.visibleWidth line ≤ maxWidth ∨ ∀ seg ∈ segments, seg.Wraps U maxWidth := by
  refine ⟨?_, fun h => ⟨2, (wordWrapLine_isSome_iff hU hsingle hpos 0).mpr h⟩⟩
  rintro ⟨fuel, hreturns⟩
  cases fuel with
  | zero => exact absurd hreturns Bool.false_ne_true
  | succ fuel =>
    rw [wordWrapLine_succ_isSome_iff hpos] at hreturns
    refine hreturns.imp_right (Or.imp_right fun hsegments seg hseg hwide => ?_)
    have hsub := hsegments seg hseg hwide
    cases fuel with
    | zero => exact absurd hsub Bool.false_ne_true
    | succ fuel =>
      exact (wordWrapLine_baseSegments_isSome_iff hU hsingle hpos hwide fuel).mp hsub

end Graphemes

end Wrapping

/-- Every unit is a grapheme; the ideographs take two columns. -/
def wideUnits : TextUnits :=
  { segment := fun text => text.map fun c => [c]
    visibleWidth := fun text => (text.map fun c => if 0x4e00 ≤ c ∧ c ≤ 0x9fff then 2 else 1).sum }

theorem wideUnits_lawful : wideUnits.Lawful where
  flatten text := (flatMap_def ..).symm.trans (flatMap_singleton' text)
  nonempty text := by simp [wideUnits]

theorem wideUnits_single (text : JsText) :
    ∀ g ∈ wideUnits.segment text, wideUnits.segment g = [g] := by
  intro g hg
  obtain ⟨c, -, rfl⟩ := mem_map.mp hg
  rfl

theorem wordWrapLine_returns_iff_ideographs :
    (∃ fuel, (wordWrapLine wideUnits 2 fuel [0x4e16, 0x754c]
      (baseSegments wideUnits [0x4e16, 0x754c])).isSome) ↔
      ([0x4e16, 0x754c] : JsText) = [] ∨ wideUnits.visibleWidth [0x4e16, 0x754c] ≤ 2 ∨
        ∀ seg ∈ baseSegments wideUnits [0x4e16, 0x754c], seg.Wraps wideUnits 2 :=
  wordWrapLine_returns_iff wideUnits_lawful wideUnits_single (by decide)

/-- An ideograph in a column never returns. -/
theorem ideograph_not_returns :
    ¬∃ fuel, (wordWrapLine wideUnits 1 fuel [0x4e16] (baseSegments wideUnits [0x4e16])).isSome := by
  rintro ⟨fuel, hreturns⟩
  rw [wordWrapLine_grapheme (by decide) (by decide) (by decide) rfl] at hreturns
  exact Bool.false_ne_true hreturns

end Draht
