import Draht.EditSubstitution
import Draht.SplitOn

/-!
# Ambiguous edits

An edit is found by the first occurrence of its text in the base text, and counted by splitting
the normalised base text at its normalised text. An edit whose text is nothing once it is
normalised, whose occurrences overlap, or whose repetition the normal form does not show, goes
through although it is ambiguous.
-/

namespace Draht
open List Option

namespace EditDiff

variable (c : UInt16)

theorem asciiPunctuation_idem : asciiPunctuation (asciiPunctuation c) = asciiPunctuation c := by
  unfold asciiPunctuation
  split_ifs <;> first | rfl | simp_all

theorem asciiPunctuation_eq_newline : asciiPunctuation c = 10 ↔ c = 10 := by
  unfold asciiPunctuation
  constructor
  · intro h
    split_ifs at h with h₁ h₂ h₃ h₄
    · exact absurd h (by decide)
    · exact absurd h (by decide)
    · exact absurd h (by decide)
    · exact absurd h (by decide)
    · exact h
  · rintro rfl
    decide

theorem isLineSpace_asciiPunctuation : isLineSpace (asciiPunctuation c) = isLineSpace c := by
  unfold asciiPunctuation
  split_ifs with h₁ h₂ h₃ h₄
  · simp only [mem_cons, not_mem_nil, or_false] at h₁
    rcases h₁ with rfl | rfl | rfl | rfl <;> decide
  · simp only [mem_cons, not_mem_nil, or_false] at h₂
    rcases h₂ with rfl | rfl | rfl | rfl <;> decide
  · simp only [mem_cons, not_mem_nil, or_false] at h₃
    rcases h₃ with rfl | rfl | rfl | rfl | rfl | rfl | rfl <;> decide
  · simp only [Bool.or_eq_true, Bool.and_eq_true, decide_eq_true_eq, mem_cons,
      not_mem_nil, or_false] at h₄
    rcases h₄ with (rfl | ⟨hlow, hhigh⟩) | rfl | rfl | rfl
    · decide
    · have hlow' : 0x2002 ≤ c.toNat := UInt16.le_iff_toNat_le.mp hlow
      have hhigh' : c.toNat ≤ 0x200A := UInt16.le_iff_toNat_le.mp hhigh
      have hspace : isWhiteSpaceCode c.toNat = true := by
        have hrange : (decide (0x2000 ≤ c.toNat) && decide (c.toNat ≤ 0x200A)) = true := by
          simp only [Bool.and_eq_true, decide_eq_true_eq]
          omega
        simp [isWhiteSpaceCode, hrange]
      exact hspace.symm
    · decide
    · decide
    · decide
  · rfl

def LinesTrimmed (text : JsText) : Prop :=
  ∀ line ∈ text.splitOn 10, trimEnd isLineSpace line = line

def trimLines (text : JsText) : JsText :=
  List.intercalate [10] ((text.splitOn 10).map (trimEnd isLineSpace))

theorem normalizeForFuzzyMatch_eq (nfkc : JsText → JsText) (text : JsText) :
    normalizeForFuzzyMatch nfkc text = (trimLines (nfkc text)).map asciiPunctuation := rfl

theorem splitOn_trimLines (text : JsText) :
    (trimLines text).splitOn 10 = (text.splitOn 10).map (trimEnd isLineSpace) := by
  refine splitOn_intercalate 10 ?_ (by simp [splitOn_ne_nil])
  intro line hline
  obtain ⟨original, horiginal, rfl⟩ := mem_map.mp hline
  intro h
  exact not_mem_of_mem_splitOn horiginal ((List.rdropWhile_prefix isLineSpace original).subset h)

theorem trimEnd_map_asciiPunctuation (line : JsText) :
    trimEnd isLineSpace (line.map asciiPunctuation) =
      (trimEnd isLineSpace line).map asciiPunctuation := by
  have hspace : isLineSpace ∘ asciiPunctuation = isLineSpace :=
    funext isLineSpace_asciiPunctuation
  rw [trimEnd, trimEnd, List.rdropWhile, List.rdropWhile, ← map_reverse, dropWhile_map,
    hspace, map_reverse]

theorem linesTrimmed_normalized (nfkc : JsText → JsText) (text : JsText) :
    LinesTrimmed (normalizeForFuzzyMatch nfkc text) := by
  intro line hline
  rw [normalizeForFuzzyMatch_eq, splitOn_map asciiPunctuation_eq_newline, splitOn_trimLines,
    List.map_map] at hline
  obtain ⟨original, -, rfl⟩ := mem_map.mp hline
  rw [Function.comp_apply, trimEnd_map_asciiPunctuation, trimEnd, trimEnd, rdropWhile_idempotent]

variable {text part : JsText} {e : Edit}

theorem asciiPunctuation_of_mem {nfkc : JsText → JsText} {c : UInt16}
    (h : c ∈ normalizeForFuzzyMatch nfkc text) : asciiPunctuation c = c := by
  obtain ⟨d, -, rfl⟩ := mem_map.mp h
  exact asciiPunctuation_idem d

theorem LinesTrimmed.trimLines (h : LinesTrimmed text) : trimLines text = text := by
  have hmap : (text.splitOn 10).map (trimEnd isLineSpace) = text.splitOn 10 :=
    (map_congr_left h).trans (map_id _)
  rw [EditDiff.trimLines, hmap, intercalate_splitOn]

theorem trimEnd_of_suffix {line : JsText} (hsuffix : part <:+ line)
    (h : trimEnd isLineSpace line = line) : trimEnd isLineSpace part = part := by
  rw [trimEnd, rdropWhile_eq_self_iff] at h ⊢
  intro hpart
  obtain ⟨before, rfl⟩ := hsuffix
  have hlast := h (by simp [hpart])
  rwa [getLast_append_of_ne_nil _ hpart] at hlast

theorem intercalate_concat_prefix (lines : List JsText) {a b : JsText} (hab : a <+: b) :
    List.intercalate [10] (lines ++ [a]) <+: List.intercalate [10] (lines ++ [b]) := by
  induction lines with
  | nil => simpa [List.intercalate] using hab
  | cons line lines ih =>
    obtain ⟨next, rest, hrest⟩ := exists_cons_of_ne_nil (l := lines ++ [a]) (by simp)
    obtain ⟨next', rest', hrest'⟩ := exists_cons_of_ne_nil (l := lines ++ [b]) (by simp)
    rw [cons_append, cons_append, hrest, hrest', intercalate_cons_cons,
      intercalate_cons_cons, append_assoc, append_assoc,
      prefix_append_right_inj, prefix_append_right_inj, ← hrest, ← hrest']
    exact ih

theorem trimLines_prefix (h : LinesTrimmed text) (hpart : part <:+: text) :
    trimLines part <+: part := by
  obtain ⟨before, after, rfl⟩ := hpart
  obtain hnil | ⟨lines, last, hlines⟩ := eq_nil_or_concat (part.splitOn 10)
  · exact absurd hnil (splitOn_ne_nil 10 part)
  rw [concat_eq_append] at hlines
  have htrimmed : ∀ line ∈ lines, trimEnd isLineSpace line = line := by
    intro line hline
    have hmem := splitOn_of_prefix (prefix_append part after) hlines line hline
    obtain ⟨first, rest, hsplit⟩ :=
      exists_cons_of_ne_nil (splitOn_ne_nil 10 (part ++ after))
    obtain ⟨⟨whole, hwhole, hfirst⟩, hrest⟩ := splitOn_of_suffix
      (suffix_append before (part ++ after)) hsplit
    rw [← append_assoc] at hwhole hrest
    rw [hsplit] at hmem
    obtain rfl | hmem := mem_cons.mp hmem
    · exact trimEnd_of_suffix hfirst (h whole hwhole)
    · exact h line (hrest line hmem)
  have hmap : (part.splitOn 10).map (trimEnd isLineSpace) =
      lines ++ [trimEnd isLineSpace last] := by
    rw [hlines, map_append, (map_congr_left htrimmed).trans (map_id _)]
    rfl
  have hpre := intercalate_concat_prefix lines (List.rdropWhile_prefix isLineSpace last)
  rw [← hlines, intercalate_splitOn] at hpre
  rw [EditDiff.trimLines, hmap]
  exact hpre

variable (nfkc : JsText → JsText)

/-- Some edit is found only after normalisation, and all are matched in the normalised text. -/
def FuzzyMatched (content : JsText) (edits : List Edit) : Prop :=
  edits.any (usesFuzzyMatch nfkc content) = true

instance (content : JsText) (edits : List Edit) : Decidable (FuzzyMatched nfkc content edits) :=
  inferInstanceAs (Decidable (_ = true))

def baseText (content : JsText) (edits : List Edit) (e : Edit) : JsText :=
  if FuzzyMatched nfkc content edits then normalizeForFuzzyMatch nfkc e.oldText else e.oldText

/-- Where the call succeeds each text is at one position of the base text. -/
def Unambiguous (content : JsText) (edits : List Edit) (path : String) : Prop :=
  ∀ r, applyEditsToNormalizedContent nfkc content edits path = .ok r →
    ∀ e ∈ edits.map normalizeEdit,
      baseText nfkc content (edits.map normalizeEdit) e ≠ [] ∧
        (positions (baseText nfkc content (edits.map normalizeEdit) e) r.baseContent).length = 1

def Overlapping (pattern text : JsText) : Prop :=
  ∃ i ∈ positions pattern text, ∃ j ∈ positions pattern text, i < j ∧ j < i + pattern.length

def RepetitionHidden (content oldText : JsText) : Prop :=
  countOccurrences nfkc content oldText ≤ 1 ∧
    ∃ i ∈ positions oldText content, ∃ j ∈ positions oldText content, i + oldText.length ≤ j

/-- None of the ways in which an edit is ambiguous and goes through. -/
structure Clear (content : JsText) (edits : List Edit) (e : Edit) : Prop where
  nonempty : baseText nfkc content edits e ≠ []
  apart : ¬Overlapping (baseText nfkc content edits e) (baseContentOf nfkc content edits)
  shown : ¬FuzzyMatched nfkc content edits → ¬RepetitionHidden nfkc content e.oldText

variable {nfkc} {content : JsText} {edits : List Edit}

def PiecesNormal (nfkc : JsText → JsText) (content : JsText) : Prop :=
  ∀ part, part <:+: normalizeForFuzzyMatch nfkc content → nfkc part = part

theorem PiecesNormal.normalized (h : PiecesNormal nfkc content) :
    normalizeForFuzzyMatch nfkc (normalizeForFuzzyMatch nfkc content) =
      normalizeForFuzzyMatch nfkc content := by
  rw [normalizeForFuzzyMatch_eq nfkc (normalizeForFuzzyMatch nfkc content), h _ infix_rfl,
    (linesTrimmed_normalized nfkc content).trimLines]
  exact (map_congr_left fun c hc => asciiPunctuation_of_mem hc).trans (map_id _)

theorem PiecesNormal.infix_of_piece (h : PiecesNormal nfkc content)
    (hpart : part <:+: normalizeForFuzzyMatch nfkc content) :
    normalizeForFuzzyMatch nfkc part <:+: normalizeForFuzzyMatch nfkc content := by
  have hpre := trimLines_prefix (linesTrimmed_normalized nfkc content) hpart
  have hpunctuation : (trimLines part).map asciiPunctuation = trimLines part := by
    refine (map_congr_left fun c hc => ?_).trans (map_id _)
    exact asciiPunctuation_of_mem (hpart.subset (hpre.subset hc))
  rw [normalizeForFuzzyMatch_eq nfkc part, h part hpart, hpunctuation]
  exact hpre.isInfix.trans hpart

theorem baseContentOf_of_fuzzy (h : FuzzyMatched nfkc content edits) :
    baseContentOf nfkc content edits = normalizeForFuzzyMatch nfkc content := if_pos h

theorem baseContentOf_of_not_fuzzy (h : ¬FuzzyMatched nfkc content edits) :
    baseContentOf nfkc content edits = content := if_neg h

theorem baseText_of_fuzzy (h : FuzzyMatched nfkc content edits) (e : Edit) :
    baseText nfkc content edits e = normalizeForFuzzyMatch nfkc e.oldText := if_pos h

theorem baseText_of_not_fuzzy (h : ¬FuzzyMatched nfkc content edits) (e : Edit) :
    baseText nfkc content edits e = e.oldText := if_neg h

theorem exists_position_of_infix {pattern : JsText} (h : pattern <:+: text) :
    ∃ i, i ∈ positions pattern text := by
  obtain ⟨before, after, rfl⟩ := h
  rw [append_assoc]
  exact ⟨before.length, mem_positions_append before after pattern⟩

theorem exists_position_of_not_refused (hpieces : PiecesNormal nfkc content)
    (h : ¬Refused nfkc (baseContentOf nfkc content edits) edits) (he : e ∈ edits) :
    ∃ i, i ∈ positions (baseText nfkc content edits e) (baseContentOf nfkc content edits) := by
  obtain ⟨s, -, hposition, -, -⟩ :=
    position_of_not_refused (fuzzyBase_of_normalized hpieces.normalized edits) h he
  by_cases hfuzzy : FuzzyMatched nfkc content edits
  · rw [baseText_of_fuzzy hfuzzy]
    rw [baseContentOf_of_fuzzy hfuzzy] at hposition ⊢
    cases hexact : indexOf? e.oldText (normalizeForFuzzyMatch nfkc content) with
    | none =>
      rw [matchedText, hexact] at hposition
      exact ⟨s.index, hposition⟩
    | some i =>
      -- The piece that is found has its normal form, which may be shorter, at the same place.
      have hsplit := indexOf?_split hexact
      have hpiece : e.oldText <:+: normalizeForFuzzyMatch nfkc content :=
        ⟨_, _, by rw [append_assoc]; exact hsplit.symm⟩
      exact exists_position_of_infix (hpieces.infix_of_piece hpiece)
  · rw [baseText_of_not_fuzzy hfuzzy]
    rw [baseContentOf_of_not_fuzzy hfuzzy] at hposition ⊢
    cases hexact : indexOf? e.oldText content with
    | some i => exact ⟨i, indexOf?_mem hexact⟩
    | none =>
      -- The edit would be found by its normal form, and the base text be normalised.
      have hfound : spanOf nfkc content e ≠ none := fun hmissing =>
        h (.missing he (by rwa [baseContentOf_of_not_fuzzy hfuzzy]))
      rw [spanOf, ne_eq, map_eq_none_iff, fuzzyFindText, hexact, map_eq_none_iff] at hfound
      obtain ⟨j, hj⟩ := ne_none_iff_exists'.mp hfound
      refine absurd (any_eq_true.mpr ⟨e, he, ?_⟩) hfuzzy
      rw [usesFuzzyMatch, fuzzyFindText, hexact]
      dsimp only
      rw [hj]
      rfl

theorem position_unique (hpieces : PiecesNormal nfkc content)
    (h : ¬Refused nfkc (baseContentOf nfkc content edits) edits) (he : e ∈ edits)
    (hclear : Clear nfkc content edits e) {i j : ℕ}
    (hi : i ∈ positions (baseText nfkc content edits e) (baseContentOf nfkc content edits))
    (hj : j ∈ positions (baseText nfkc content edits e) (baseContentOf nfkc content edits)) :
    ¬i < j := by
  intro hij
  have hcount : countOccurrences nfkc (baseContentOf nfkc content edits) e.oldText ≤ 1 := by
    by_contra hmany
    exact h (.duplicate he (Int.lt_of_not_ge hmany))
  by_cases hover : j < i + (baseText nfkc content edits e).length
  · exact hclear.apart ⟨i, hi, j, hj, hij, hover⟩
  · have hdisjoint : i + (baseText nfkc content edits e).length ≤ j := Nat.le_of_not_lt hover
    by_cases hfuzzy : FuzzyMatched nfkc content edits
    · have hnonempty := hclear.nonempty
      rw [baseText_of_fuzzy hfuzzy] at hi hj hdisjoint hnonempty
      rw [baseContentOf_of_fuzzy hfuzzy] at hi hj hcount
      have hpieces' := two_lt_length_split hnonempty hi hj hdisjoint
      rw [countOccurrences, hpieces.normalized] at hcount
      omega
    · rw [baseText_of_not_fuzzy hfuzzy] at hi hj hdisjoint
      rw [baseContentOf_of_not_fuzzy hfuzzy] at hi hj hcount
      exact hclear.shown hfuzzy ⟨hcount, i, hi, j, hj, hdisjoint⟩

theorem positions_nodup (pattern text : JsText) : (positions pattern text).Nodup :=
  Nodup.filter _ nodup_range

/-- A call is refused or each of its texts is at one position, exactly when the call is refused or
its edits are clear. -/
theorem unambiguous_iff (nfkc : JsText → JsText) (content : JsText) (edits : List Edit)
    (path : String) (hpieces : PiecesNormal nfkc content) :
    Unambiguous nfkc content edits path ↔
      Refused nfkc (baseContentOf nfkc content (edits.map normalizeEdit))
          (edits.map normalizeEdit) ∨
        ∀ e ∈ edits.map normalizeEdit, Clear nfkc content (edits.map normalizeEdit) e := by
  constructor
  · intro h
    by_contra hnot
    obtain ⟨hrefused, hclear⟩ := not_or.mp hnot
    have hunique := h _ ((applyEdits_eq_ok_iff nfkc).mpr ⟨hrefused, rfl⟩)
    refine hclear fun e he => ?_
    obtain ⟨hnonempty, hone⟩ := hunique e he
    obtain ⟨k, hk⟩ := length_eq_one_iff.mp hone
    refine ⟨hnonempty, ?_, ?_⟩
    · rintro ⟨i, hi, j, hj, hij, -⟩
      rw [hk, mem_singleton] at hi hj
      omega
    · rintro hfuzzy ⟨-, i, hi, j, hj, hij⟩
      have hlength : 0 < e.oldText.length := by
        rw [baseText_of_not_fuzzy hfuzzy] at hnonempty
        exact length_pos_of_ne_nil hnonempty
      rw [baseText_of_not_fuzzy hfuzzy, baseContentOf_of_not_fuzzy hfuzzy] at hk
      rw [hk, mem_singleton] at hi hj
      omega
  · rintro (hrefused | hclear) r hr e he
    · exact absurd hrefused ((applyEdits_eq_ok_iff nfkc).mp hr).1
    · obtain ⟨hrefused, rfl⟩ := (applyEdits_eq_ok_iff nfkc).mp hr
      refine ⟨(hclear e he).nonempty, ?_⟩
      obtain ⟨i, hi⟩ := exists_position_of_not_refused hpieces hrefused he
      have hunique : ∀ j, j ∈ positions (baseText nfkc content (edits.map normalizeEdit) e)
          (baseContentOf nfkc content (edits.map normalizeEdit)) ↔ j ∈ [i] := by
        intro j
        rw [mem_singleton]
        constructor
        · intro hj
          have hle := position_unique hpieces hrefused he (hclear e he) hi hj
          have hge := position_unique hpieces hrefused he (hclear e he) hj hi
          omega
        · rintro rfl
          exact hi
      have hperm := (perm_ext_iff_of_nodup (positions_nodup _ _) (nodup_singleton i)).mpr hunique
      exact congrArg List.length (perm_singleton.mp hperm)

/-- `aa` is at two positions of `aaa`, and the edit goes through. -/
theorem overlappingText_ambiguous :
    ¬Unambiguous id [97, 97, 97] [⟨[97, 97], [98]⟩] "f" := by
  intro h
  have hok : applyEditsToNormalizedContent id [97, 97, 97] [⟨[97, 97], [98]⟩] "f" =
      .ok ⟨[97, 97, 97], [98, 97]⟩ := by decide +kernel
  have hone := (h _ hok ⟨[97, 97], [98]⟩ mem_cons_self).2
  revert hone
  decide

/-- One edit of `abc`. -/
theorem oneEdit_unambiguous_iff : Unambiguous id [97, 98, 99] [⟨[98], [100]⟩] "f" ↔
    Refused id (baseContentOf id [97, 98, 99] ([⟨[98], [100]⟩].map normalizeEdit))
        ([⟨[98], [100]⟩].map normalizeEdit) ∨
      ∀ e ∈ [⟨[98], [100]⟩].map normalizeEdit,
        Clear id [97, 98, 99] ([⟨[98], [100]⟩].map normalizeEdit) e :=
  unambiguous_iff id [97, 98, 99] [⟨[98], [100]⟩] "f" fun _ _ => rfl

end EditDiff

end Draht
