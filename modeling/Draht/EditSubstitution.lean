import Mathlib.Data.List.Nodup
import Mathlib.Data.List.Perm.Basic
import Draht.EditDiff

/-!
# Edits are a simultaneous substitution

A call of the edit tool that succeeds replaces disjoint parts of the base text at once, whatever
the order of the edits. It refuses an ambiguous text only when its occurrences do not overlap and
survive the fuzzy normalisation.
-/

namespace Draht
open List Option

namespace EditDiff

variable (nfkc : JsText → JsText)

def matchedText (baseContent : JsText) (e : Edit) : JsText :=
  match indexOf? e.oldText baseContent with
  | some _ => e.oldText
  | none => normalizeForFuzzyMatch nfkc e.oldText

def spanOf (baseContent : JsText) (e : Edit) : Option (Span UInt16) :=
  (fuzzyFindText nfkc baseContent e.oldText).map fun m => ⟨m.index, m.matchLength, e.newText⟩

def spansOf (baseContent : JsText) (edits : List Edit) : List (Span UInt16) :=
  edits.filterMap (spanOf nfkc baseContent)

def sortSpans (spans : List (Span UInt16)) : List (Span UInt16) :=
  spans.mergeSort (fun a b => a.index ≤ b.index)

inductive Refused (baseContent : JsText) (edits : List Edit) : Prop
  | empty {e : Edit} (he : e ∈ edits) (h : e.oldText = [])
  | missing {e : Edit} (he : e ∈ edits) (h : spanOf nfkc baseContent e = none)
  | duplicate {e : Edit} (he : e ∈ edits) (h : 1 < countOccurrences nfkc baseContent e.oldText)
  | overlap (h : Span.firstOverlap (sortSpans (spansOf nfkc baseContent edits)) ≠ none)
  | unchanged
      (h : Span.applyFromBack baseContent (sortSpans (spansOf nfkc baseContent edits)) =
        baseContent)

variable {baseContent content base : JsText} {edits : List Edit}

variable {path : String} {matchedEdits : List MatchedEdit} {e : Edit} {edits' : List Edit}

theorem matchEdits_ok {total i : ℕ}
    (h : matchEdits nfkc baseContent path total i edits = .ok matchedEdits) :
    edits.map (spanOf nfkc baseContent) = matchedEdits.map (fun m => some m.span) ∧
      ∀ e ∈ edits, ¬ 1 < countOccurrences nfkc baseContent e.oldText := by
  induction edits generalizing i matchedEdits with
  | nil =>
    cases h
    simp
  | cons e edits ih =>
    rw [matchEdits] at h
    cases hfind : fuzzyFindText nfkc baseContent e.oldText with
    | none =>
      rw [hfind] at h
      cases h
    | some m =>
      rw [hfind] at h
      simp only at h
      split_ifs at h with hcount
      cases hrest : matchEdits nfkc baseContent path total (i + 1) edits with
      | error err =>
        rw [hrest] at h
        cases h
      | ok rest =>
        rw [hrest] at h
        cases h
        obtain ⟨hspans, hcounts⟩ := ih hrest
        refine ⟨?_, ?_⟩
        · rw [map_cons, map_cons, hspans, spanOf, hfind]
          rfl
        · intro e' he'
          obtain rfl | he' := mem_cons.mp he'
          · exact hcount
          · exact hcounts e' he'

theorem matchEdits_of_found (path : String) (total i : ℕ)
    (hfound : ∀ e ∈ edits, spanOf nfkc baseContent e ≠ none)
    (hcount : ∀ e ∈ edits, ¬ 1 < countOccurrences nfkc baseContent e.oldText) :
    ∃ matchedEdits, matchEdits nfkc baseContent path total i edits = .ok matchedEdits := by
  induction edits generalizing i with
  | nil => exact ⟨[], rfl⟩
  | cons e edits ih =>
    obtain ⟨rest, hrest⟩ := ih (i + 1) (fun e' he' => hfound e' (mem_cons_of_mem _ he'))
      (fun e' he' => hcount e' (mem_cons_of_mem _ he'))
    have he := hfound e mem_cons_self
    rw [spanOf, ne_eq, map_eq_none_iff] at he
    obtain ⟨m, hm⟩ := ne_none_iff_exists'.mp he
    rw [matchEdits, hm]
    simp only [if_neg (hcount e mem_cons_self), hrest]
    exact ⟨_, rfl⟩

theorem spans_of_matchEdits
    (h : edits.map (spanOf nfkc baseContent) = matchedEdits.map (fun m => some m.span)) :
    spansOf nfkc baseContent edits = matchedEdits.map MatchedEdit.span := by
  have hreduce := congrArg (List.filterMap id) h
  simpa [spansOf, Function.comp_def] using hreduce

theorem spans_sortEdits (matchedEdits : List MatchedEdit) :
    (sortEdits matchedEdits).map MatchedEdit.span = sortSpans (matchedEdits.map MatchedEdit.span) :=
  map_mergeSort (fun _ _ _ _ => rfl)

theorem spansOf_sort
    (h : edits.map (spanOf nfkc baseContent) = matchedEdits.map (fun m => some m.span)) :
    (sortEdits matchedEdits).map MatchedEdit.span =
      sortSpans (spansOf nfkc baseContent edits) := by
  rw [spans_sortEdits, spans_of_matchEdits nfkc h]

theorem applyEdits_eq_ok_iff {r : AppliedEditsResult} :
    applyEditsToNormalizedContent nfkc content edits path = .ok r ↔
      ¬ Refused nfkc (baseContentOf nfkc content (edits.map normalizeEdit))
          (edits.map normalizeEdit) ∧
        r = { baseContent := baseContentOf nfkc content (edits.map normalizeEdit)
              newContent :=
                Span.applyFromBack (baseContentOf nfkc content (edits.map normalizeEdit))
                  (sortSpans (spansOf nfkc (baseContentOf nfkc content (edits.map normalizeEdit))
                    (edits.map normalizeEdit))) } := by
  generalize hnormalized : edits.map normalizeEdit = normalized
  generalize hbase : baseContentOf nfkc content normalized = base
  have hunfold : applyEditsToNormalizedContent nfkc content edits path =
      match normalized.findIdx? (fun e => e.oldText = []) with
      | some i => .error (getEmptyOldTextError path i normalized.length)
      | none =>
        matchEdits nfkc base path normalized.length 0 normalized >>=
          replaceMatches base path normalized.length := by
    subst hbase hnormalized
    rfl
  rw [hunfold]
  constructor
  · intro h
    cases hempty : normalized.findIdx? (fun e => e.oldText = []) with
    | some i =>
      rw [hempty] at h
      cases h
    | none =>
      rw [hempty] at h
      cases hmatch : matchEdits nfkc base path normalized.length 0 normalized with
      | error err =>
        rw [hmatch] at h
        cases h
      | ok matchedEdits =>
        rw [hmatch] at h
        obtain ⟨hspans, hcounts⟩ := matchEdits_ok nfkc hmatch
        change replaceMatches base path normalized.length matchedEdits = .ok r at h
        simp only [replaceMatches, spansOf_sort nfkc hspans] at h
        split at h
        · cases h
        · next hoverlap =>
            split_ifs at h with hchange
            cases h
            refine ⟨?_, rfl⟩
            rintro (⟨he, hnil⟩ | ⟨he, hmissing⟩ | ⟨he, hdup⟩ | hover | hsame)
            · have hne := findIdx?_eq_none_iff.mp hempty _ he
              simp [hnil] at hne
            · have hmem : none ∈ normalized.map (spanOf nfkc base) :=
                hmissing ▸ mem_map_of_mem he
              rw [hspans] at hmem
              simp at hmem
            · exact hcounts _ he hdup
            · exact hover hoverlap
            · exact hchange hsame.symm
  · rintro ⟨hrefused, rfl⟩
    have hempty : normalized.findIdx? (fun e => e.oldText = []) = none := by
      rw [findIdx?_eq_none_iff]
      intro e he
      by_cases hnil : e.oldText = []
      · exact (hrefused (.empty he hnil)).elim
      · simp [hnil]
    obtain ⟨matchedEdits, hmatch⟩ := matchEdits_of_found nfkc path normalized.length 0
      (fun e he hmissing => hrefused (.missing he hmissing))
      (fun e he hdup => hrefused (.duplicate he hdup))
    obtain ⟨hspans, _⟩ := matchEdits_ok nfkc hmatch
    have hoverlap : Span.firstOverlap (sortSpans (spansOf nfkc base normalized)) = none := by
      by_contra h
      exact hrefused (.overlap h)
    rw [hempty]
    rw [hmatch]
    change replaceMatches base path normalized.length matchedEdits = _
    simp only [replaceMatches, spansOf_sort nfkc hspans, hoverlap]
    rw [if_neg (fun h => hrefused (.unchanged h.symm))]

theorem base_normalized
    (hfuzzy : normalizeForFuzzyMatch nfkc (normalizeForFuzzyMatch nfkc content) =
      normalizeForFuzzyMatch nfkc content) (he : e ∈ edits)
    (hexact : indexOf? e.oldText (baseContentOf nfkc content edits) = none)
    (hfound : spanOf nfkc (baseContentOf nfkc content edits) e ≠ none) :
    normalizeForFuzzyMatch nfkc (baseContentOf nfkc content edits) =
      baseContentOf nfkc content edits := by
  by_cases hany : edits.any (usesFuzzyMatch nfkc content) = true
  · rw [baseContentOf, if_pos hany]
    exact hfuzzy
  · have hbase : baseContentOf nfkc content edits = content := if_neg hany
    rw [hbase] at hexact hfound
    exfalso
    apply hany
    rw [List.any_eq_true]
    refine ⟨e, he, ?_⟩
    rw [spanOf, ne_eq, map_eq_none_iff] at hfound
    obtain ⟨m, hm⟩ := ne_none_iff_exists'.mp hfound
    rw [usesFuzzyMatch, hm]
    rw [fuzzyFindText, hexact] at hm
    obtain ⟨i, _, rfl⟩ := map_eq_some_iff.mp hm
    rfl

theorem spanOf_position {s : Span UInt16}
    (hnormal : indexOf? e.oldText base = none → normalizeForFuzzyMatch nfkc base = base)
    (h : spanOf nfkc base e = some s) :
    s.index ∈ positions (matchedText nfkc base e) base ∧
      s.length = (matchedText nfkc base e).length ∧ s.newText = e.newText := by
  obtain ⟨m, hm, rfl⟩ := map_eq_some_iff.mp h
  rw [fuzzyFindText] at hm
  rw [matchedText]
  cases hexact : indexOf? e.oldText base with
  | some i =>
    rw [hexact] at hm
    cases hm
    exact ⟨indexOf?_mem hexact, rfl, rfl⟩
  | none =>
    rw [hexact] at hm
    obtain ⟨i, hi, rfl⟩ := map_eq_some_iff.mp hm
    rw [hnormal hexact] at hi
    exact ⟨indexOf?_mem hi, rfl, rfl⟩

/-- An edit with the text it replaces and the text up to the next replacement. -/
structure Replacement where
  edit : Edit
  matched : JsText
  gap : JsText

def textBefore (first : JsText) (replacements : List Replacement) : JsText :=
  first ++ replacements.flatMap (fun r => r.matched ++ r.gap)

def textAfter (first : JsText) (replacements : List Replacement) : JsText :=
  first ++ replacements.flatMap (fun r => r.edit.newText ++ r.gap)

/-- An edit is empty, missing or ambiguous, or two edits overlap. -/
inductive Unsuitable (base : JsText) (edits : List Edit) : Prop
  | empty {e : Edit} (he : e ∈ edits) (h : e.oldText = [] ∨ matchedText nfkc base e = [])
  | missing {e : Edit} (he : e ∈ edits) (h : positions (matchedText nfkc base e) base = [])
  | ambiguous {e : Edit} (he : e ∈ edits)
      (h : 2 ≤ (positions (matchedText nfkc base e) base).length)
  | overlap (h : ¬ (spansOf nfkc base edits).Pairwise Span.Disjoint)

/-- The edits are substituted at once, in whatever order they are listed, or refused. -/
structure SimultaneousSubstitution (content : JsText) (edits : List Edit) (path : String) :
    Prop where
  substitutes : ∀ r, applyEditsToNormalizedContent nfkc content edits path = .ok r →
    ∃ first replacements, (replacements.map Replacement.edit).Perm (edits.map normalizeEdit) ∧
      r.baseContent = textBefore first replacements ∧
        r.newContent = textAfter first replacements ∧
          ∀ x ∈ replacements, x.matched = matchedText nfkc r.baseContent x.edit
  anyOrder : ∀ edits', edits'.Perm edits → ∀ r,
    applyEditsToNormalizedContent nfkc content edits path = .ok r →
      applyEditsToNormalizedContent nfkc content edits' path = .ok r
  refuses : Unsuitable nfkc (baseContentOf nfkc content (edits.map normalizeEdit))
    (edits.map normalizeEdit) →
      ∃ e, applyEditsToNormalizedContent nfkc content edits path = .error e
  changes : ∀ r, applyEditsToNormalizedContent nfkc content edits path = .ok r →
    r.newContent ≠ r.baseContent

theorem exists_replacements {pieces : List (Span.Piece UInt16)}
    (h : edits.map (spanOf nfkc base) = pieces.map (fun p => some p.span)) :
    ∃ replacements : List Replacement, replacements.map Replacement.edit = edits ∧
      replacements.flatMap (fun r => r.matched ++ r.gap) =
        pieces.flatMap (fun p => p.span.matched base ++ p.gap) ∧
      replacements.flatMap (fun r => r.edit.newText ++ r.gap) =
        pieces.flatMap (fun p => p.span.newText ++ p.gap) ∧
      ∀ r ∈ replacements, ∃ s, spanOf nfkc base r.edit = some s ∧ r.matched = s.matched base := by
  induction edits generalizing pieces with
  | nil =>
    obtain rfl := map_eq_nil_iff.mp h.symm
    exact ⟨[], rfl, rfl, rfl, by simp⟩
  | cons e edits ih =>
    obtain ⟨p, rest, rfl, hp, hrest⟩ := map_eq_cons_iff.mp h.symm
    obtain ⟨replacements, hedits, hbefore, hafter, hmatched⟩ := ih hrest.symm
    have hnew : p.span.newText = e.newText := by
      obtain ⟨m, _, hm⟩ := map_eq_some_iff.mp hp.symm
      rw [← hm]
    refine ⟨⟨e, p.span.matched base, p.gap⟩ :: replacements, by simp [hedits], ?_, ?_, ?_⟩
    · simp [hbefore]
    · simp [hafter, hnew]
    · intro r hr
      obtain rfl | hr := mem_cons.mp hr
      · exact ⟨p.span, hp.symm, rfl⟩
      · exact hmatched r hr

variable {nfkc}

/-- A text that is only found after normalisation is found in a normalised base text. -/
def FuzzyBase (nfkc : JsText → JsText) (base : JsText) (edits : List Edit) : Prop :=
  ∀ e ∈ edits, indexOf? e.oldText base = none → spanOf nfkc base e ≠ none →
    normalizeForFuzzyMatch nfkc base = base

theorem fuzzyBase_of_normalized
    (hfuzzy : normalizeForFuzzyMatch nfkc (normalizeForFuzzyMatch nfkc content) =
      normalizeForFuzzyMatch nfkc content) (edits : List Edit) :
    FuzzyBase nfkc (baseContentOf nfkc content edits) edits :=
  fun _ he hexact hfound => base_normalized nfkc hfuzzy he hexact hfound

theorem position_of_not_refused (hnormal : FuzzyBase nfkc base edits)
    (h : ¬ Refused nfkc base edits) (he : e ∈ edits) :
    ∃ s, spanOf nfkc base e = some s ∧ s.index ∈ positions (matchedText nfkc base e) base ∧
      s.length = (matchedText nfkc base e).length ∧ s.newText = e.newText := by
  have hfound : spanOf nfkc base e ≠ none := fun hmissing => h (.missing he hmissing)
  obtain ⟨s, hs⟩ := ne_none_iff_exists'.mp hfound
  exact ⟨s, hs, spanOf_position nfkc (fun hexact => hnormal e he hexact hfound) hs⟩

theorem sortSpans_perm (spans : List (Span UInt16)) : (sortSpans spans).Perm spans :=
  mergeSort_perm _ _

theorem spans_of_not_refused
    (hnormal : FuzzyBase nfkc base edits) (h : ¬ Refused nfkc base edits) :
    Span.InOrder 0 (sortSpans (spansOf nfkc base edits)) ∧
      ∀ s ∈ sortSpans (spansOf nfkc base edits), s.index + s.length ≤ base.length := by
  refine ⟨?_, ?_⟩
  · apply Span.inOrder_of_firstOverlap
    by_contra hoverlap
    exact h (.overlap hoverlap)
  · intro s hs
    obtain ⟨e, he, hes⟩ := mem_filterMap.mp ((sortSpans_perm _).mem_iff.mp hs)
    obtain ⟨s', hs', hpos, hlen, _⟩ := position_of_not_refused hnormal h he
    obtain rfl := some.inj (hs'.symm.trans hes)
    rw [hlen]
    exact add_length_le_of_mem_positions hpos

theorem substitutes_of_not_refused
    (hnormal : FuzzyBase nfkc base edits) (h : ¬ Refused nfkc base edits) :
    ∃ first replacements, (replacements.map Replacement.edit).Perm edits ∧
      base = textBefore first replacements ∧
      Span.applyFromBack base (sortSpans (spansOf nfkc base edits)) =
        textAfter first replacements ∧
      ∀ x ∈ replacements, x.matched = matchedText nfkc base x.edit := by
  obtain ⟨horder, hin⟩ := spans_of_not_refused hnormal h
  obtain ⟨first, pieces, hpieces, hbefore, hafter⟩ := horder.exists_pieces hin
  have hall : (edits.map (spanOf nfkc base)) =
      (spansOf nfkc base edits).map some := by
    have hsome : ∀ e ∈ edits, ∃ s, spanOf nfkc base e = some s := by
      intro e he
      have hfound : spanOf nfkc base e ≠ none := fun hmissing => h (.missing he hmissing)
      exact ne_none_iff_exists'.mp hfound
    clear hnormal h hpieces hafter hbefore horder hin
    induction edits with
    | nil => rfl
    | cons e edits ih =>
      obtain ⟨s, hs⟩ := hsome e mem_cons_self
      rw [map_cons, hs, ih (fun e' he' => hsome e' (mem_cons_of_mem _ he')), spansOf,
        spansOf, filterMap_cons, hs, map_cons]
  have hperm : (edits.map (spanOf nfkc base)).Perm (pieces.map (fun p => some p.span)) := by
    rw [hall]
    have hpieces' : pieces.map (fun p => some p.span) =
        (sortSpans (spansOf nfkc base edits)).map some := by
      rw [← hpieces, List.map_map]
      rfl
    rw [hpieces']
    exact ((sortSpans_perm _).map some).symm
  obtain ⟨edits', hspans, hedits'⟩ : ∃ edits' : List Edit,
      pieces.map (fun p => some p.span) = edits'.map (spanOf nfkc base) ∧ edits'.Perm edits :=
    cast (congrFun (congrFun (eq_map_comp_perm (spanOf nfkc base)) _) _).symm hperm.symm
  obtain ⟨replacements, hreplaced, hb, ha, hmatched⟩ := exists_replacements nfkc hspans.symm
  refine ⟨first, replacements, by rw [hreplaced]; exact hedits', ?_, ?_, ?_⟩
  · rw [textBefore, hb]
    simpa [Span.original] using hbefore
  · rw [textAfter, ha]
    simpa [Span.replaced] using hafter
  · intro x hx
    obtain ⟨s, hs, hxs⟩ := hmatched x hx
    have hmem : x.edit ∈ edits :=
      hedits'.mem_iff.mp (hreplaced ▸ mem_map_of_mem hx)
    obtain ⟨s', hs', hpos, hlen, _⟩ := position_of_not_refused hnormal h hmem
    obtain rfl := some.inj (hs'.symm.trans hs)
    rw [hxs, Span.matched, hlen]
    exact take_of_mem_positions hpos

theorem baseContentOf_perm (h : edits'.Perm edits) :
    baseContentOf nfkc content edits' = baseContentOf nfkc content edits := by
  rw [baseContentOf, baseContentOf, h.any_eq]

theorem sortSpans_pairwise (spans : List (Span UInt16)) :
    (sortSpans spans).Pairwise (fun s t => s.index ≤ t.index) := by
  have htrans : ∀ a b c : Span UInt16, decide (a.index ≤ b.index) → decide (b.index ≤ c.index) →
      decide (a.index ≤ c.index) := by
    intro a b c hab hbc
    simp only [decide_eq_true_eq] at *
    omega
  have htotal : ∀ a b : Span UInt16,
      (decide (a.index ≤ b.index) || decide (b.index ≤ a.index)) = true := by
    intro a b
    simp only [Bool.or_eq_true, decide_eq_true_eq]
    omega
  exact (pairwise_mergeSort htrans htotal spans).imp (fun h => of_decide_eq_true h)

theorem sortSpans_of_perm {spans spans' : List (Span UInt16)} (hperm : spans'.Perm spans)
    (horder : Span.InOrder 0 (sortSpans spans)) (hpos : ∀ s ∈ spans, 0 < s.length) :
    sortSpans spans' = sortSpans spans := by
  have hstrict : (sortSpans spans).Pairwise (fun s t => s.index < t.index) := by
    refine horder.pairwise.imp_of_mem ?_
    intro s t hs _ hle
    have hlen := hpos s ((sortSpans_perm spans).mem_iff.mp hs)
    omega
  have hnodup : ((sortSpans spans).map Span.index).Nodup :=
    pairwise_map.mpr (hstrict.imp (fun h => Nat.ne_of_lt h))
  have hsame : (sortSpans spans').Perm (sortSpans spans) :=
    (sortSpans_perm spans').trans (hperm.trans (sortSpans_perm spans).symm)
  refine Perm.eq_of_pairwise ?_ (sortSpans_pairwise spans') (sortSpans_pairwise spans) hsame
  intro s t hs ht hst hts
  exact inj_on_of_nodup_map hnodup (hsame.mem_iff.mp hs) ht (Nat.le_antisymm hst hts)

/-- Each matched text is not empty and occurs once in the base text. -/
def MatchedOnce (nfkc : JsText → JsText) (base : JsText) (edits : List Edit) : Prop :=
  ∀ e ∈ edits, matchedText nfkc base e ≠ [] ∧ (positions (matchedText nfkc base e) base).length = 1

theorem not_refused_of_perm (hnormal : FuzzyBase nfkc base edits)
    (honce : MatchedOnce nfkc base edits) (hperm : edits'.Perm edits)
    (h : ¬ Refused nfkc base edits) :
    ¬ Refused nfkc base edits' ∧
      sortSpans (spansOf nfkc base edits') = sortSpans (spansOf nfkc base edits) := by
  have hspans : sortSpans (spansOf nfkc base edits') = sortSpans (spansOf nfkc base edits) := by
    apply sortSpans_of_perm (hperm.filterMap _) (spans_of_not_refused hnormal h).1
    intro s hs
    obtain ⟨e, he, hes⟩ := mem_filterMap.mp hs
    obtain ⟨s', hs', _, hlen, _⟩ := position_of_not_refused hnormal h he
    obtain rfl := some.inj (hs'.symm.trans hes)
    rw [hlen]
    exact length_pos_of_ne_nil (honce e he).1
  refine ⟨?_, hspans⟩
  rintro (⟨he, hnil⟩ | ⟨he, hmissing⟩ | ⟨he, hdup⟩ | hover | hsame)
  · exact h (.empty (hperm.mem_iff.mp he) hnil)
  · exact h (.missing (hperm.mem_iff.mp he) hmissing)
  · exact h (.duplicate (hperm.mem_iff.mp he) hdup)
  · exact h (.overlap (hspans ▸ hover))
  · exact h (.unchanged (hspans ▸ hsame))

theorem error_of_refused (h : Refused nfkc (baseContentOf nfkc content (edits.map normalizeEdit))
      (edits.map normalizeEdit)) :
    ∃ e, applyEditsToNormalizedContent nfkc content edits path = .error e := by
  cases hr : applyEditsToNormalizedContent nfkc content edits path with
  | error e => exact ⟨e, rfl⟩
  | ok r => exact ((applyEdits_eq_ok_iff nfkc).mp hr).1 h |>.elim

theorem refused_of_unsuitable
    (hnormal : FuzzyBase nfkc base edits) (honce : MatchedOnce nfkc base edits)
    (h : Unsuitable nfkc base edits) : Refused nfkc base edits := by
  obtain ⟨he, hnil | hnil⟩ | ⟨he, hmissing⟩ | ⟨he, hambiguous⟩ | hoverlap := h
  · exact .empty he hnil
  · exact absurd hnil (honce _ he).1
  · have hone := (honce _ he).2
    rw [hmissing] at hone
    simp at hone
  · have hone := (honce _ he).2
    omega
  · by_contra hrefused
    apply hoverlap
    have hdisjoint : (sortSpans (spansOf nfkc base edits)).Pairwise Span.Disjoint :=
      (spans_of_not_refused hnormal hrefused).1.pairwise.imp (fun hle => .inl hle)
    exact (sortSpans_perm _).pairwise hdisjoint (fun h => h.symm)

/-- The edits are substituted at once or refused exactly when a check refuses them or each text
is matched once. -/
theorem simultaneous_iff (nfkc : JsText → JsText) (content : JsText) (edits : List Edit)
    (path : String)
    (hfuzzy : normalizeForFuzzyMatch nfkc (normalizeForFuzzyMatch nfkc content) =
      normalizeForFuzzyMatch nfkc content) :
    SimultaneousSubstitution nfkc content edits path ↔
      Refused nfkc (baseContentOf nfkc content (edits.map normalizeEdit))
          (edits.map normalizeEdit) ∨
        MatchedOnce nfkc (baseContentOf nfkc content (edits.map normalizeEdit))
          (edits.map normalizeEdit) := by
  constructor
  · intro h
    by_contra hnot
    obtain ⟨hrefused, honce⟩ := not_or.mp hnot
    have hunsuitable : Unsuitable nfkc (baseContentOf nfkc content (edits.map normalizeEdit))
        (edits.map normalizeEdit) := by
      by_contra hsuitable
      apply honce
      intro e he
      refine ⟨fun hnil => hsuitable (.empty he (.inr hnil)), ?_⟩
      have hfound : (positions (matchedText nfkc
          (baseContentOf nfkc content (edits.map normalizeEdit)) e) _).length ≠ 0 :=
        fun hzero => hsuitable (.missing he (length_eq_zero_iff.mp hzero))
      have hunique : ¬ 2 ≤ (positions (matchedText nfkc
          (baseContentOf nfkc content (edits.map normalizeEdit)) e) _).length :=
        fun htwo => hsuitable (.ambiguous he htwo)
      omega
    obtain ⟨e, he⟩ := h.refuses hunsuitable
    have hok : applyEditsToNormalizedContent nfkc content edits path = .ok _ :=
      (applyEdits_eq_ok_iff nfkc).mpr ⟨hrefused, rfl⟩
    rw [he] at hok
    cases hok
  · rintro (hrefused | honce)
    · obtain ⟨e, he⟩ : ∃ e, applyEditsToNormalizedContent nfkc content edits path = .error e :=
        error_of_refused hrefused
      have hnone : ∀ r, applyEditsToNormalizedContent nfkc content edits path ≠ .ok r := by
        intro r hr
        rw [he] at hr
        cases hr
      exact ⟨fun r hr => (hnone r hr).elim, fun _ _ r hr => (hnone r hr).elim, fun _ => ⟨e, he⟩,
        fun r hr => (hnone r hr).elim⟩
    · have hnormal := fuzzyBase_of_normalized hfuzzy (edits.map normalizeEdit)
      refine ⟨?_, ?_, fun h => error_of_refused (refused_of_unsuitable hnormal honce h), ?_⟩
      · intro r hr
        obtain ⟨hrefused, rfl⟩ := (applyEdits_eq_ok_iff nfkc).mp hr
        exact substitutes_of_not_refused hnormal hrefused
      · intro edits' hperm r hr
        obtain ⟨hrefused, rfl⟩ := (applyEdits_eq_ok_iff nfkc).mp hr
        have hperm' := hperm.map normalizeEdit
        obtain ⟨hrefused', hspans⟩ := not_refused_of_perm hnormal honce hperm' hrefused
        rw [applyEdits_eq_ok_iff, baseContentOf_perm hperm', hspans]
        exact ⟨hrefused', rfl⟩
      · intro r hr hsame
        obtain ⟨hrefused, rfl⟩ := (applyEdits_eq_ok_iff nfkc).mp hr
        exact hrefused (.unchanged hsame)

/-- `aa` occurs twice in `aaa`, and the edit goes through. -/
theorem overlappingOccurrences_replaced :
    ¬ SimultaneousSubstitution id [97, 97, 97] [⟨[97, 97], [98]⟩] "f" := by
  intro h
  have hunsuitable : Unsuitable id (baseContentOf id [97, 97, 97] [normalizeEdit ⟨[97, 97], [98]⟩])
      [normalizeEdit ⟨[97, 97], [98]⟩] :=
    .ambiguous mem_cons_self (by decide)
  obtain ⟨e, he⟩ := h.refuses hunsuitable
  have hok : applyEditsToNormalizedContent id [97, 97, 97] [⟨[97, 97], [98]⟩] "f" =
      .ok ⟨[97, 97, 97], [98, 97]⟩ := by decide +kernel
  rw [hok] at he
  cases he

/-- Two edits of `abc`, listed from the back. -/
theorem twoEdits_simultaneous_iff :
    normalizeForFuzzyMatch id (normalizeForFuzzyMatch id [97, 98, 99]) =
        normalizeForFuzzyMatch id [97, 98, 99] ∧
      (SimultaneousSubstitution id [97, 98, 99] [⟨[99], [100, 100]⟩, ⟨[97], []⟩] "f" ↔
        Refused id (baseContentOf id [97, 98, 99]
            ([⟨[99], [100, 100]⟩, ⟨[97], []⟩].map normalizeEdit))
            ([⟨[99], [100, 100]⟩, ⟨[97], []⟩].map normalizeEdit) ∨
          MatchedOnce id (baseContentOf id [97, 98, 99]
            ([⟨[99], [100, 100]⟩, ⟨[97], []⟩].map normalizeEdit))
            ([⟨[99], [100, 100]⟩, ⟨[97], []⟩].map normalizeEdit)) :=
  ⟨by decide +kernel,
    simultaneous_iff id [97, 98, 99] [⟨[99], [100, 100]⟩, ⟨[97], []⟩] "f" (by decide +kernel)⟩

end EditDiff

end Draht
