import Draht.LongestPart
import Draht.SplitOn
import Draht.Truncation

/-!
# What truncation keeps

`truncateHead` keeps the first lines of a text within the limits. It and `truncateTail` keep as
many lines as the limits allow: the first line that is left out would break one. A last line that
is too long by itself is cut between characters.
-/

namespace Draht
open List

open Utf8

/-- What the loop of `truncateHead` has collected. -/
structure HeadLines where
  outputLines : List OutputText
  outputBytes : ℕ
  truncatedBy : TruncatedBy

/-- The loop of `truncateHead` over the lines from the index `i` on. -/
def collectHead (maxLines maxBytes : ℕ) :
    ℕ → List OutputText → List OutputText → ℕ → HeadLines
  | _, [], outputLines, outputBytes => ⟨outputLines, outputBytes, .lines⟩
  | i, line :: remaining, outputLines, outputBytes =>
    if i < maxLines then
      let lineBytes := byteLength line + if i > 0 then 1 else 0
      if outputBytes + lineBytes > maxBytes then ⟨outputLines, outputBytes, .bytes⟩
      else
        collectHead maxLines maxBytes (i + 1) remaining (outputLines ++ [line])
          (outputBytes + lineBytes)
    else ⟨outputLines, outputBytes, .lines⟩

/-- `truncateHead` without the defaults of its options. -/
def truncateHeadTo (maxLines maxBytes : ℕ) (content : OutputText) : TruncationResult :=
  let totalBytes := byteLength content
  let lines := splitLines content
  let totalLines := lines.length
  if totalLines ≤ maxLines ∧ totalBytes ≤ maxBytes then
    { content, truncated := false, truncatedBy := none, totalLines, totalBytes
      outputLines := totalLines, outputBytes := totalBytes, lastLinePartial := false
      firstLineExceedsLimit := false, maxLines, maxBytes }
  else if byteLength (firstLine content) > maxBytes then
    { content := [], truncated := true, truncatedBy := some .bytes, totalLines, totalBytes
      outputLines := 0, outputBytes := 0, lastLinePartial := false
      firstLineExceedsLimit := true, maxLines, maxBytes }
  else
    let head := collectHead maxLines maxBytes 0 lines [] 0
    let truncatedBy :=
      if head.outputLines.length ≥ maxLines ∧ head.outputBytes ≤ maxBytes then .lines
      else head.truncatedBy
    let outputContent := joinLines head.outputLines
    { content := outputContent, truncated := true, truncatedBy := some truncatedBy, totalLines
      totalBytes, outputLines := head.outputLines.length, outputBytes := byteLength outputContent
      lastLinePartial := false, firstLineExceedsLimit := false, maxLines, maxBytes }

def truncateHead (content : OutputText) (options : TruncationOptions) : TruncationResult :=
  truncateHeadTo (options.maxLines.getD DEFAULT_MAX_LINES)
    (options.maxBytes.getD DEFAULT_MAX_BYTES) content

theorem splitLines_eq_splitOn (text : OutputText) : splitLines text = text.splitOn '\n' := by
  induction text with
  | nil => rfl
  | cons c text ih =>
    obtain ⟨line, lines, htext⟩ := exists_cons_of_ne_nil (splitLines_ne_nil text)
    rw [splitLines, splitOn_cons_eq_if_modifyHead, ← ih, htext, modifyHead_cons]
    by_cases hc : c = '\n'
    · rw [if_pos hc, if_pos (by simp [hc])]
    · rw [if_neg hc, if_neg (by simp [hc])]

variable {kept b a : List OutputText} {line : OutputText}

theorem newline_not_mem {text : OutputText} (h : line ∈ splitLines text) : '\n' ∉ line :=
  not_mem_of_mem_splitOn (splitLines_eq_splitOn text ▸ h)

theorem splitLines_joinLines {lines : List OutputText} (hne : lines ≠ [])
    (h : ∀ line ∈ lines, '\n' ∉ line) : splitLines (joinLines lines) = lines := by
  rw [splitLines_eq_splitOn]
  exact splitOn_intercalate '\n' h hne

variable {maxLines maxBytes : ℕ} {text : OutputText}

def WithinLimits (maxLines maxBytes : ℕ) (lines : List OutputText) : Prop :=
  lines.length ≤ maxLines ∧ byteLength (joinLines lines) ≤ maxBytes

theorem byteLength_joinLines_le (before after : List OutputText) :
    byteLength (joinLines before) ≤ byteLength (joinLines (before ++ after)) ∧
      byteLength (joinLines after) ≤ byteLength (joinLines (before ++ after)) := by
  by_cases hbefore : before = []
  · subst hbefore
    exact ⟨Nat.zero_le _, Nat.le_refl _⟩
  by_cases hafter : after = []
  · subst hafter
    rw [append_nil]
    exact ⟨Nat.le_refl _, Nat.zero_le _⟩
  rw [byteLength_joinLines_append hbefore hafter]
  omega

theorem WithinLimits.of_front (hab : a <+: b) (h : WithinLimits maxLines maxBytes b) :
    WithinLimits maxLines maxBytes a := by
  obtain ⟨after, rfl⟩ := hab
  exact ⟨(prefix_append a after).length_le.trans h.1, (byteLength_joinLines_le a after).1.trans h.2⟩

theorem WithinLimits.of_back (hab : a <:+ b) (h : WithinLimits maxLines maxBytes b) :
    WithinLimits maxLines maxBytes a := by
  obtain ⟨before, rfl⟩ := hab
  exact ⟨(suffix_append before a).length_le.trans h.1,
    (byteLength_joinLines_le before a).2.trans h.2⟩

theorem withinLimits_splitLines :
    WithinLimits maxLines maxBytes (splitLines text) ↔ ¬OverLimits maxLines maxBytes text := by
  unfold WithinLimits OverLimits
  rw [joinLines_splitLines]
  omega

theorem byteLength_joinLines_concat (lines : List OutputText) (line : OutputText) :
    byteLength (joinLines (lines ++ [line])) =
      byteLength (joinLines lines) + (byteLength line + if lines.length > 0 then 1 else 0) := by
  by_cases hlines : lines = []
  · subst hlines
    rw [nil_append, joinLines_singleton]
    exact (Nat.zero_add _).symm
  · rw [byteLength_joinLines_append hlines (cons_ne_nil _ _), joinLines_singleton,
      if_pos (length_pos_of_ne_nil hlines)]
    omega

variable (remaining : List OutputText)

theorem collectHead_spec (hkept : WithinLimits maxLines maxBytes kept) :
    LongestPrefix (WithinLimits maxLines maxBytes) (kept ++ remaining)
      (collectHead maxLines maxBytes kept.length remaining kept
        (byteLength (joinLines kept))).outputLines := by
  induction remaining generalizing kept with
  | nil =>
    rw [append_nil]
    exact .whole hkept
  | cons line remaining ih =>
    have hstop {x : OutputText} (hx : kept ++ [x] <+: kept ++ line :: remaining) : x = line :=
      (cons_prefix_cons.mp ((prefix_append_right_inj kept).mp hx)).1
    rw [collectHead]
    dsimp only
    rw [← byteLength_joinLines_concat]
    split_ifs with hroom hover
    · refine longestPrefix_of_next (fun _ _ => .of_front) (prefix_append _ _) hkept ?_
      intro x hx hwithin
      obtain rfl := hstop hx
      exact absurd hwithin.2 (Nat.not_le_of_lt hover)
    · have hnext : WithinLimits maxLines maxBytes (kept ++ [line]) := by
        refine ⟨?_, by omega⟩
        rw [length_append, length_singleton]
        omega
      have hrest := ih hnext
      rw [append_assoc, singleton_append, length_append, length_singleton] at hrest
      exact hrest
    · refine longestPrefix_of_next (fun _ _ => .of_front) (prefix_append _ _) hkept ?_
      intro x hx hwithin
      have hlines : (kept ++ [x]).length ≤ maxLines := hwithin.1
      rw [length_append, length_singleton] at hlines
      omega

theorem collectTail_longest (hkept : WithinLimits maxLines maxBytes kept)
    (hlast : ∀ line ∈ remaining.head?, kept = [] → byteLength line ≤ maxBytes) :
    LongestSuffix (WithinLimits maxLines maxBytes) (remaining.reverse ++ kept)
        (collectTail maxLines maxBytes remaining kept (byteLength (joinLines kept))).outputLines ∧
      (collectTail maxLines maxBytes remaining kept
        (byteLength (joinLines kept))).lastLinePartial = false := by
  induction remaining generalizing kept with
  | nil => exact ⟨.whole hkept, rfl⟩
  | cons line remaining ih =>
    rw [reverse_cons, append_assoc, singleton_append]
    have hstop {x : OutputText} (hx : x :: kept <:+ remaining.reverse ++ line :: kept) :
        x = line := by
      obtain ⟨before, hbefore⟩ := hx
      exact (cons.inj (append_inj' hbefore rfl).2).1
    have hsuffix : kept <:+ remaining.reverse ++ line :: kept :=
      (suffix_cons line kept).trans (suffix_append _ _)
    rw [collectTail_cons]
    split_ifs with hroom hover hempty
    · obtain rfl := eq_nil_of_length_eq_zero hempty
      rw [joinLines_singleton] at hover
      exact absurd (hlast line rfl rfl) (Nat.not_le_of_lt hover)
    · refine ⟨longestSuffix_of_next (fun _ _ => .of_back) hsuffix hkept ?_, rfl⟩
      intro x hx hwithin
      obtain rfl := hstop hx
      exact absurd hwithin.2 (Nat.not_le_of_lt hover)
    · apply ih
      · exact ⟨hroom, by omega⟩
      · intro _ _ hnil
        cases hnil
    · refine ⟨longestSuffix_of_next (fun _ _ => .of_back) hsuffix hkept ?_, rfl⟩
      intro x hx hwithin
      have hlines : kept.length + 1 ≤ maxLines := hwithin.1
      omega

/-- The longest prefix of whole lines; nothing is kept when the first line is too long. -/
structure KeepsHead (maxLines maxBytes : ℕ) (text : OutputText) (r : TruncationResult) :
    Prop where
  truncated : r.truncated = true ↔ OverLimits maxLines maxBytes text
  lines : ∃ kept, LongestPrefix (WithinLimits maxLines maxBytes) (splitLines text) kept ∧
    r.content = joinLines kept ∧ r.outputLines = kept.length
  bytes : r.outputBytes = byteLength r.content
  exceeds : r.firstLineExceedsLimit = true ↔ maxBytes < byteLength (firstLine text)
  nothing : maxBytes < byteLength (firstLine text) → r.content = [] ∧ r.outputLines = 0
  whole : r.lastLinePartial = false

/-- The longest suffix of whole lines, or of the last line when it is too long by itself. -/
structure KeepsTail (maxLines maxBytes : ℕ) (text : OutputText) (r : TruncationResult) :
    Prop where
  truncated : r.truncated = true ↔ OverLimits maxLines maxBytes text
  lines : byteLength (lastLine text) ≤ maxBytes →
    ∃ kept, LongestSuffix (WithinLimits maxLines maxBytes) (splitLines text) kept ∧
      r.content = joinLines kept ∧ r.outputLines = kept.length
  cut : maxBytes < byteLength (lastLine text) →
    LongestSuffix (fun t => byteLength t ≤ maxBytes) (lastLine text) r.content ∧
      r.outputLines = 1
  bytes : r.outputBytes = byteLength r.content
  partialLine : r.lastLinePartial = true ↔ maxBytes < byteLength (lastLine text)
  exceeds : r.firstLineExceedsLimit = false

theorem splitLines_eq_cons (text : OutputText) :
    ∃ lines, splitLines text = firstLine text :: lines := by
  obtain ⟨line, lines, h⟩ := exists_cons_of_ne_nil (splitLines_ne_nil text)
  exact ⟨lines, by rw [firstLine, h]; rfl⟩

theorem splitLines_eq_concat (text : OutputText) :
    ∃ lines, splitLines text = lines ++ [lastLine text] := by
  refine ⟨(splitLines text).dropLast, ?_⟩
  rw [lastLine, getLast?_eq_some_getLast (splitLines_ne_nil text), Option.getD_some]
  exact (dropLast_append_getLast (splitLines_ne_nil text)).symm

theorem byteLength_line_le (h : line ∈ splitLines text) : byteLength line ≤ byteLength text := by
  obtain ⟨before, after, hsplit⟩ := append_of_mem h
  have hcons := (byteLength_joinLines_le [line] after).1
  have happend := (byteLength_joinLines_le before (line :: after)).2
  rw [← hsplit, joinLines_splitLines] at happend
  rw [joinLines_singleton, singleton_append] at hcons
  exact hcons.trans happend

theorem firstLine_mem (text : OutputText) : firstLine text ∈ splitLines text := by
  obtain ⟨lines, h⟩ := splitLines_eq_cons text
  rw [h]
  exact mem_cons_self

theorem lastLine_mem (text : OutputText) : lastLine text ∈ splitLines text := by
  obtain ⟨lines, h⟩ := splitLines_eq_concat text
  rw [h]
  exact mem_concat_self

theorem not_over_of_mem (h : ¬OverLimits maxLines maxBytes text) (hline : line ∈ splitLines text) :
    ¬maxBytes < byteLength line := by
  have hle := byteLength_line_le hline
  unfold OverLimits at h
  omega

theorem not_within_of_over (h : OverLimits maxLines maxBytes text) :
    ¬((splitLines text).length ≤ maxLines ∧ byteLength text ≤ maxBytes) := by
  unfold OverLimits at h
  omega

theorem truncateHeadTo_keepsHead (maxLines maxBytes : ℕ) (text : OutputText) :
    KeepsHead maxLines maxBytes text (truncateHeadTo maxLines maxBytes text) := by
  unfold truncateHeadTo
  by_cases hover : OverLimits maxLines maxBytes text
  · rw [if_neg (not_within_of_over hover)]
    have hnil : WithinLimits maxLines maxBytes [] := ⟨Nat.zero_le _, Nat.zero_le _⟩
    by_cases hfirst : byteLength (firstLine text) > maxBytes
    · rw [if_pos hfirst]
      refine ⟨by simp [hover], ⟨[], ?_, rfl, rfl⟩, rfl, by simpa using hfirst,
        fun _ => ⟨rfl, rfl⟩, rfl⟩
      refine longestPrefix_of_next (fun _ _ => .of_front) nil_prefix hnil ?_
      intro line hline hwithin
      obtain ⟨lines, hlines⟩ := splitLines_eq_cons text
      rw [hlines] at hline
      obtain rfl := (cons_prefix_cons.mp hline).1
      have hbytes := hwithin.2
      rw [nil_append, joinLines_singleton] at hbytes
      omega
    · rw [if_neg hfirst]
      exact ⟨by simp [hover], ⟨_, collectHead_spec (splitLines text) hnil, rfl, rfl⟩, rfl,
        by simpa using hfirst, fun h => absurd h hfirst, rfl⟩
  · have hwithin := withinLimits_splitLines.mpr hover
    have hfirst := not_over_of_mem hover (firstLine_mem text)
    rw [if_pos (by unfold OverLimits at hover; omega)]
    exact ⟨by simp [hover], ⟨_, .whole hwithin, (joinLines_splitLines text).symm, rfl⟩, rfl,
      by simpa using hfirst, fun h => absurd h hfirst, rfl⟩

theorem truncateTailTo_keepsTail {maxLines : ℕ} (hpos : 0 < maxLines) (maxBytes : ℕ)
    (text : OutputText) :
    KeepsTail maxLines maxBytes text (truncateTailTo maxLines maxBytes text) := by
  by_cases hover : OverLimits maxLines maxBytes text
  · unfold truncateTailTo
    rw [if_neg (not_within_of_over hover)]
    obtain ⟨lines, hlines⟩ := splitLines_eq_concat text
    have hreverse : (splitLines text).reverse = lastLine text :: lines.reverse := by
      rw [hlines, reverse_append]
      rfl
    by_cases hlast : maxBytes < byteLength (lastLine text)
    · have htail : collectTail maxLines maxBytes (lastLine text :: lines.reverse) []
          (byteLength (joinLines [])) = _ := collectTail_cons (lastLine text) lines.reverse []
      rw [length_nil, if_pos hpos, joinLines_singleton, if_pos hlast, if_pos rfl] at htail
      have hcut : truncateStringToBytesFromEnd (lastLine text) maxBytes =
          endOfBytes (lastLine text) maxBytes := if_neg (Nat.not_le_of_lt hlast)
      obtain ⟨hsuffix, hfits⟩ := endOfBytes_suffix (lastLine text) maxBytes
      rw [hreverse]
      change collectTail maxLines maxBytes _ [] 0 = _ at htail
      simp only [htail, hcut, joinLines_singleton]
      exact ⟨by simp [hover], fun h => absurd hlast (Nat.not_lt_of_le h),
        fun _ => ⟨⟨hsuffix, hfits, fun _ => endOfBytes_longest⟩, rfl⟩, rfl,
        ⟨fun _ => hlast, fun _ => rfl⟩, rfl⟩
    · obtain ⟨hlongest, hwholeLines⟩ := collectTail_longest (splitLines text).reverse
        (show WithinLimits maxLines maxBytes [] from ⟨Nat.zero_le _, Nat.zero_le _⟩) (by
          rw [hreverse]
          rintro line hline -
          cases hline
          exact Nat.le_of_not_lt hlast)
      rw [reverse_reverse, append_nil] at hlongest
      exact ⟨by simp [hover], fun _ => ⟨_, hlongest, rfl, rfl⟩, fun h => absurd h hlast, rfl,
        ⟨fun h => absurd (hwholeLines.symm.trans h) Bool.false_ne_true, fun h => absurd h hlast⟩,
        rfl⟩
  · have hwithin := withinLimits_splitLines.mpr hover
    have hlast := not_over_of_mem hover (lastLine_mem text)
    rw [truncateTailTo_of_within hover]
    exact ⟨by simp [hover], fun _ => ⟨_, .whole hwithin, (joinLines_splitLines text).symm, rfl⟩,
      fun h => absurd h hlast, rfl, by simpa using hlast, rfl⟩

/-- Both truncations keep as much as the limits allow, and say what they keep. -/
theorem truncations_longest (content : OutputText) (options : TruncationOptions)
    (hlines : 0 < options.maxLines.getD DEFAULT_MAX_LINES) :
    KeepsHead (options.maxLines.getD DEFAULT_MAX_LINES) (options.maxBytes.getD DEFAULT_MAX_BYTES)
        content (truncateHead content options) ∧
      KeepsTail (options.maxLines.getD DEFAULT_MAX_LINES)
        (options.maxBytes.getD DEFAULT_MAX_BYTES) content (truncateTail content options) :=
  ⟨truncateHeadTo_keepsHead _ _ content, truncateTailTo_keepsTail hlines _ content⟩

/-- Of two lines, the second of two characters of two bytes each, three bytes are kept. -/
theorem twoLines_longest :
    KeepsHead 2 3 ['a', '\n', 'é', 'é'] (truncateHead ['a', '\n', 'é', 'é'] ⟨some 2, some 3⟩) ∧
      KeepsTail 2 3 ['a', '\n', 'é', 'é'] (truncateTail ['a', '\n', 'é', 'é'] ⟨some 2, some 3⟩) :=
  truncations_longest ['a', '\n', 'é', 'é'] ⟨some 2, some 3⟩ (by decide)

end Draht
