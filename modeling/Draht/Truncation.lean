import Draht.Utf8
import Mathlib.Data.List.Infix

/-!
# Truncation of tool outputs

`truncateTail` keeps the last lines of an output within a number of lines and of bytes, whichever
is hit first. Texts are lists of characters; the decoded outputs of commands have no lone
surrogates. What precedes a text over the limits changes only the totals.
-/

namespace Draht
open List

open Utf8

abbrev OutputText := List Char

def DEFAULT_MAX_LINES : ℕ := 2000

def DEFAULT_MAX_BYTES : ℕ := 50 * 1024

inductive TruncatedBy where
  | lines | bytes
deriving DecidableEq

structure TruncationResult where
  content : OutputText
  truncated : Bool
  truncatedBy : Option TruncatedBy
  totalLines : ℕ
  totalBytes : ℕ
  outputLines : ℕ
  outputBytes : ℕ
  lastLinePartial : Bool
  firstLineExceedsLimit : Bool
  maxLines : ℕ
  maxBytes : ℕ
deriving DecidableEq

structure TruncationOptions where
  maxLines : Option ℕ
  maxBytes : Option ℕ

/-- `(bytes / unit).toFixed(1)`. -/
def toFixedOne (bytes unit : ℕ) : String :=
  let tenths := (20 * bytes + unit) / (2 * unit)
  toString (tenths / 10) ++ "." ++ toString (tenths % 10)

def formatSize (bytes : ℕ) : String :=
  if bytes < 1024 then toString bytes ++ "B"
  else if bytes < 1024 * 1024 then toFixedOne bytes 1024 ++ "KB"
  else toFixedOne bytes (1024 * 1024) ++ "MB"

/-- `content.split("\n")`. -/
def splitLines : OutputText → List OutputText
  | [] => [[]]
  | c :: text =>
    if c = '\n' then [] :: splitLines text
    else
      match splitLines text with
      | line :: lines => (c :: line) :: lines
      | [] => [[c]]

/-- `lines[0]`. -/
def firstLine (text : OutputText) : OutputText := (splitLines text).headD []

/-- `text.split("\n").pop()`. -/
def lastLine (text : OutputText) : OutputText := (splitLines text).getLast?.getD []

/-- `lines.join("\n")`. -/
def joinLines (lines : List OutputText) : OutputText := List.intercalate ['\n'] lines

/-- `truncateStringToBytesFromEnd`. -/
def truncateStringToBytesFromEnd (str : OutputText) (maxBytes : ℕ) : OutputText :=
  if byteLength str ≤ maxBytes then str else endOfBytes str maxBytes

/-- What the loop of `truncateTail` has collected. -/
structure TailLines where
  outputLines : List OutputText
  outputBytes : ℕ
  truncatedBy : TruncatedBy
  lastLinePartial : Bool

/-- The loop of `truncateTail` over the lines that remain, the last one first. -/
def collectTail (maxLines maxBytes : ℕ) :
    List OutputText → List OutputText → ℕ → TailLines
  | [], outputLines, outputBytes => ⟨outputLines, outputBytes, .lines, false⟩
  | line :: remaining, outputLines, outputBytes =>
    if outputLines.length < maxLines then
      let lineBytes := byteLength line + if outputLines.length > 0 then 1 else 0
      if outputBytes + lineBytes > maxBytes then
        if outputLines.length = 0 then
          let truncatedLine := truncateStringToBytesFromEnd line maxBytes
          ⟨[truncatedLine], byteLength truncatedLine, .bytes, true⟩
        else ⟨outputLines, outputBytes, .bytes, false⟩
      else collectTail maxLines maxBytes remaining (line :: outputLines) (outputBytes + lineBytes)
    else ⟨outputLines, outputBytes, .lines, false⟩

/-- `truncateTail` without the defaults of its options. -/
def truncateTailTo (maxLines maxBytes : ℕ) (content : OutputText) : TruncationResult :=
  let totalBytes := byteLength content
  let lines := splitLines content
  let totalLines := lines.length
  if totalLines ≤ maxLines ∧ totalBytes ≤ maxBytes then
    { content, truncated := false, truncatedBy := none, totalLines, totalBytes
      outputLines := totalLines, outputBytes := totalBytes, lastLinePartial := false
      firstLineExceedsLimit := false, maxLines, maxBytes }
  else
    let tail := collectTail maxLines maxBytes lines.reverse [] 0
    let truncatedBy :=
      if tail.outputLines.length ≥ maxLines ∧ tail.outputBytes ≤ maxBytes then .lines
      else tail.truncatedBy
    let outputContent := joinLines tail.outputLines
    { content := outputContent, truncated := true, truncatedBy := some truncatedBy, totalLines
      totalBytes, outputLines := tail.outputLines.length, outputBytes := byteLength outputContent
      lastLinePartial := tail.lastLinePartial, firstLineExceedsLimit := false, maxLines, maxBytes }

def truncateTail (content : OutputText) (options : TruncationOptions) : TruncationResult :=
  truncateTailTo (options.maxLines.getD DEFAULT_MAX_LINES)
    (options.maxBytes.getD DEFAULT_MAX_BYTES) content

theorem splitLines_ne_nil (text : OutputText) : splitLines text ≠ [] := by
  cases text with
  | nil => exact cons_ne_nil _ _
  | cons c text =>
    rw [splitLines]
    split_ifs
    · exact cons_ne_nil _ _
    · split <;> exact cons_ne_nil _ _

variable (x line : OutputText) (remaining : List OutputText)

theorem splitLines_append : ∃ before last, ∀ text line lines,
    splitLines text = line :: lines →
      splitLines (x ++ text) = before ++ (last ++ line) :: lines := by
  induction x with
  | nil => exact ⟨[], [], fun text line lines h => h⟩
  | cons c x ih =>
    obtain ⟨before, last, h⟩ := ih
    by_cases hc : c = '\n'
    · refine ⟨[] :: before, last, fun text line lines htext => ?_⟩
      rw [cons_append, splitLines, if_pos hc, h text line lines htext]
      rfl
    · cases before with
      | nil =>
        refine ⟨[], c :: last, fun text line lines htext => ?_⟩
        rw [cons_append, splitLines, if_neg hc, h text line lines htext]
        rfl
      | cons first before =>
        refine ⟨(c :: first) :: before, last, fun text line lines htext => ?_⟩
        rw [cons_append, splitLines, if_neg hc, h text line lines htext]
        rfl

theorem joinLines_cons_cons (next : OutputText) (lines : List OutputText) :
    joinLines (line :: next :: lines) = line ++ '\n' :: joinLines (next :: lines) := by
  simp [joinLines, intercalate_cons_cons]

theorem joinLines_splitLines (text : OutputText) : joinLines (splitLines text) = text := by
  induction text with
  | nil => rfl
  | cons c text ih =>
    obtain ⟨line, lines, htext⟩ := exists_cons_of_ne_nil (splitLines_ne_nil text)
    rw [htext] at ih
    rw [splitLines, htext]
    split_ifs with hc
    · rw [joinLines_cons_cons, ih, hc]
      rfl
    · cases lines with
      | nil =>
        rw [← ih]
        simp [joinLines]
      | cons next lines =>
        rw [← ih]
        rfl

variable {kept before after : List OutputText}

theorem joinLines_append (hbefore : before ≠ []) (hafter : after ≠ []) :
    joinLines (before ++ after) = joinLines before ++ '\n' :: joinLines after := by
  induction before with
  | nil => exact (hbefore rfl).elim
  | cons line before ih =>
    cases before with
    | nil =>
      obtain ⟨next, lines, rfl⟩ := exists_cons_of_ne_nil hafter
      simp [joinLines]
    | cons next before =>
      rw [cons_append, cons_append, joinLines_cons_cons, joinLines_cons_cons,
        ← cons_append, ih (cons_ne_nil _ _), append_assoc, cons_append]

theorem byteLength_newline (text : OutputText) : byteLength ('\n' :: text) = 1 + byteLength text :=
  byteLength_cons '\n' text

theorem byteLength_joinLines_append (hbefore : before ≠ []) (hafter : after ≠ []) :
    byteLength (joinLines (before ++ after)) =
      byteLength (joinLines before) + 1 + byteLength (joinLines after) := by
  rw [joinLines_append hbefore hafter, byteLength_append, byteLength_newline, Nat.add_assoc]

theorem joinLines_singleton : joinLines [line] = line := by
  simp [joinLines]

theorem byteLength_joinLines_cons (lines : List OutputText) :
    byteLength (joinLines (line :: lines)) =
      byteLength (joinLines lines) + (byteLength line + if lines.length > 0 then 1 else 0) := by
  cases lines with
  | nil =>
    rw [joinLines_singleton]
    exact (Nat.zero_add _).symm
  | cons next lines =>
    have hmore : (next :: lines).length > 0 := Nat.succ_pos _
    rw [joinLines_cons_cons, byteLength_append, byteLength_newline, if_pos hmore]
    omega

def OverLimits (maxLines maxBytes : ℕ) (text : OutputText) : Prop :=
  maxLines < (splitLines text).length ∨ maxBytes < byteLength text

instance (maxLines maxBytes : ℕ) (text : OutputText) :
    Decidable (OverLimits maxLines maxBytes text) :=
  inferInstanceAs (Decidable (_ ∨ _))

variable {maxLines maxBytes : ℕ} {text : OutputText}

theorem truncateTailTo_of_within (h : ¬OverLimits maxLines maxBytes text) :
    truncateTailTo maxLines maxBytes text =
      { content := text, truncated := false, truncatedBy := none
        totalLines := (splitLines text).length, totalBytes := byteLength text
        outputLines := (splitLines text).length, outputBytes := byteLength text
        lastLinePartial := false, firstLineExceedsLimit := false, maxLines, maxBytes } := by
  have hle : (splitLines text).length ≤ maxLines ∧ byteLength text ≤ maxBytes := by
    unfold OverLimits at h
    omega
  simp [truncateTailTo, if_pos hle]

theorem truncated_iff : (truncateTailTo maxLines maxBytes text).truncated = true ↔
    OverLimits maxLines maxBytes text := by
  by_cases h : OverLimits maxLines maxBytes text
  · have hnot : ¬((splitLines text).length ≤ maxLines ∧ byteLength text ≤ maxBytes) := by
      unfold OverLimits at h
      omega
    simp [truncateTailTo, if_neg hnot, h]
  · simp [truncateTailTo_of_within h, h]

theorem collectTail_cons (kept : List OutputText) :
    collectTail maxLines maxBytes (line :: remaining) kept (byteLength (joinLines kept)) =
      if kept.length < maxLines then
        if byteLength (joinLines (line :: kept)) > maxBytes then
          if kept.length = 0 then
            ⟨[truncateStringToBytesFromEnd line maxBytes],
              byteLength (truncateStringToBytesFromEnd line maxBytes), .bytes, true⟩
          else ⟨kept, byteLength (joinLines kept), .bytes, false⟩
        else
          collectTail maxLines maxBytes remaining (line :: kept)
            (byteLength (joinLines (line :: kept)))
      else ⟨kept, byteLength (joinLines kept), .lines, false⟩ := by
  rw [collectTail, byteLength_joinLines_cons]

theorem collectTail_spec (hlines : kept.length ≤ maxLines)
    (hbytes : byteLength (joinLines kept) ≤ maxBytes) {tail : TailLines}
    (htail : collectTail maxLines maxBytes remaining kept (byteLength (joinLines kept)) = tail) :
    (∃ taken rest, remaining = taken ++ rest ∧ tail.outputLines = taken.reverse ++ kept ∧
        tail.outputLines.length ≤ maxLines ∧
        byteLength (joinLines tail.outputLines) ≤ maxBytes) ∨
      (kept = [] ∧ ∃ line rest, remaining = line :: rest ∧ maxBytes < byteLength line ∧
        tail.outputLines = [endOfBytes line maxBytes]) := by
  induction remaining generalizing kept with
  | nil =>
    subst htail
    exact .inl ⟨[], [], rfl, rfl, hlines, hbytes⟩
  | cons line remaining ih =>
    rw [collectTail_cons] at htail
    split_ifs at htail with hroom hover hempty
    · obtain rfl := eq_nil_of_length_eq_zero hempty
      rw [joinLines_singleton] at hover
      subst htail
      refine .inr ⟨rfl, line, remaining, rfl, hover, ?_⟩
      rw [truncateStringToBytesFromEnd, if_neg (Nat.not_le_of_lt hover)]
    · subst htail
      exact .inl ⟨[], line :: remaining, rfl, rfl, hlines, hbytes⟩
    · obtain ⟨taken, rest, rfl, hout, hfits⟩ | ⟨hnil, -⟩ :=
        ih (by rw [length_cons]; omega) (by omega) htail
      · refine .inl ⟨line :: taken, rest, rfl, ?_, hfits⟩
        rw [hout, reverse_cons, append_assoc, singleton_append]
      · cases hnil
    · subst htail
      exact .inl ⟨[], line :: remaining, rfl, rfl, hlines, hbytes⟩

theorem collectTail_common (common : List OutputText) {a b : List OutputText}
    (h : collectTail maxLines maxBytes a (common.reverse ++ kept)
        (byteLength (joinLines (common.reverse ++ kept))) =
      collectTail maxLines maxBytes b (common.reverse ++ kept)
        (byteLength (joinLines (common.reverse ++ kept)))) :
    collectTail maxLines maxBytes (common ++ a) kept (byteLength (joinLines kept)) =
      collectTail maxLines maxBytes (common ++ b) kept (byteLength (joinLines kept)) := by
  induction common generalizing kept with
  | nil => exact h
  | cons line common ih =>
    rw [reverse_cons, append_assoc, singleton_append] at h
    rw [cons_append, cons_append, collectTail_cons, collectTail_cons, ih h]

theorem collectTail_firstLine {line last : OutputText} {lines : List OutputText}
    (h : maxLines < lines.length + 1 ∨ maxBytes < byteLength (joinLines (line :: lines))) :
    collectTail maxLines maxBytes ((last ++ line) :: before) lines
        (byteLength (joinLines lines)) =
      collectTail maxLines maxBytes [line] lines (byteLength (joinLines lines)) := by
  rw [collectTail_cons, collectTail_cons]
  by_cases hroom : lines.length < maxLines
  · have hover : byteLength (joinLines (line :: lines)) > maxBytes := by omega
    have hmore : byteLength (joinLines ((last ++ line) :: lines)) > maxBytes := by
      rw [byteLength_joinLines_cons] at hover ⊢
      rw [byteLength_append]
      omega
    rw [if_pos hroom, if_pos hroom, if_pos hover, if_pos hmore]
    by_cases hempty : lines.length = 0
    · obtain rfl := eq_nil_of_length_eq_zero hempty
      rw [joinLines_singleton] at hover hmore
      have hcut : truncateStringToBytesFromEnd (last ++ line) maxBytes =
          truncateStringToBytesFromEnd line maxBytes := by
        rw [truncateStringToBytesFromEnd, truncateStringToBytesFromEnd,
          if_neg (Nat.not_le_of_lt hmore), if_neg (Nat.not_le_of_lt hover),
          endOfBytes_append last (Nat.le_of_lt hover)]
      rw [if_pos hempty, if_pos hempty, hcut]
    · rw [if_neg hempty, if_neg hempty]
  · rw [if_neg hroom, if_neg hroom]

theorem overLimits_append (h : OverLimits maxLines maxBytes text) :
    OverLimits maxLines maxBytes (x ++ text) := by
  obtain ⟨before, last, hsplit⟩ := splitLines_append x
  obtain ⟨line, lines, htext⟩ := exists_cons_of_ne_nil (splitLines_ne_nil text)
  unfold OverLimits at h ⊢
  rw [hsplit text line lines htext, byteLength_append, length_append, length_cons]
  rw [htext, length_cons] at h
  omega

theorem truncateTailTo_append (h : OverLimits maxLines maxBytes text) :
    truncateTailTo maxLines maxBytes (x ++ text) =
      { truncateTailTo maxLines maxBytes text with
        totalLines := (splitLines (x ++ text)).length, totalBytes := byteLength (x ++ text) } := by
  have hover : ∀ t, OverLimits maxLines maxBytes t →
      ¬((splitLines t).length ≤ maxLines ∧ byteLength t ≤ maxBytes) := by
    intro t ht
    unfold OverLimits at ht
    omega
  obtain ⟨before, last, hsplit⟩ := splitLines_append x
  obtain ⟨line, lines, htext⟩ := exists_cons_of_ne_nil (splitLines_ne_nil text)
  have hlong : maxLines < lines.length + 1 ∨ maxBytes < byteLength (joinLines (line :: lines)) := by
    unfold OverLimits at h
    rw [← joinLines_splitLines text, htext] at h
    rwa [← htext, joinLines_splitLines, htext, length_cons, ← joinLines_splitLines text, htext] at h
  have htail : collectTail maxLines maxBytes (splitLines (x ++ text)).reverse [] 0 =
      collectTail maxLines maxBytes (splitLines text).reverse [] 0 := by
    rw [hsplit text line lines htext, htext, reverse_append, reverse_cons,
      reverse_cons, append_assoc, singleton_append]
    apply collectTail_common
    rw [reverse_reverse, append_nil]
    exact collectTail_firstLine hlong
  simp [truncateTailTo, if_neg (hover text h), if_neg (hover _ (overLimits_append x h)), htail]

theorem byteLength_content_lt (hlines : 0 < maxLines) (h : OverLimits maxLines maxBytes text) :
    byteLength (truncateTailTo maxLines maxBytes text).content < byteLength text := by
  have hover : ¬((splitLines text).length ≤ maxLines ∧ byteLength text ≤ maxBytes) := by
    unfold OverLimits at h
    omega
  have hjoin := joinLines_splitLines text
  simp only [truncateTailTo, if_neg hover]
  obtain ⟨taken, rest, hsplit, hout, hcount, hbytes⟩ | ⟨-, line, rest, hsplit, hlong, hout⟩ :=
    collectTail_spec (splitLines text).reverse (Nat.zero_le maxLines)
      (show byteLength (joinLines []) ≤ maxBytes from Nat.zero_le _) rfl
  all_goals
    have hlinesEq := congrArg List.reverse hsplit
    rw [reverse_reverse] at hlinesEq
    rw [hlinesEq] at hjoin
    change byteLength (joinLines (collectTail maxLines maxBytes (splitLines text).reverse []
      (byteLength (joinLines []))).outputLines) < _
  · -- Some lines are left out, or the text would be within the limits.
    rw [append_nil] at hout
    rw [reverse_append, ← hout] at hlinesEq hjoin
    have hrest : rest.reverse ≠ [] := by
      intro hnil
      rw [hnil, nil_append] at hlinesEq hjoin
      rw [hjoin] at hbytes
      rw [← hlinesEq] at hcount
      exact hover ⟨hcount, hbytes⟩
    by_cases hempty : (collectTail maxLines maxBytes (splitLines text).reverse []
        (byteLength (joinLines []))).outputLines = []
    · have hpos : 0 < byteLength text := by
        cases text with
        | nil =>
          have hone : (splitLines []).length = 1 := rfl
          exact (hover ⟨by omega, Nat.zero_le _⟩).elim
        | cons c text =>
          exact Nat.lt_of_lt_of_le (Nat.succ_pos text.length) (length_le_byteLength (c :: text))
      rw [hempty]
      exact hpos
    · have hsum := byteLength_joinLines_append hrest hempty
      rw [hjoin] at hsum
      omega
  · rw [hout, joinLines_singleton, ← hjoin, reverse_cons]
    have hfits := (endOfBytes_suffix line maxBytes).2
    by_cases hrest : rest.reverse = []
    · rw [hrest, nil_append, joinLines_singleton]
      omega
    · rw [byteLength_joinLines_append hrest (cons_ne_nil _ _), joinLines_singleton]
      omega

end Draht
