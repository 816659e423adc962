import Draht.TruncationLimits

/-!
# Reading a file page by page

The read tool returns a part of a file from an offset on, within a limit of lines of its caller and
within the limits of `truncateHead`. While there is more of the file it names the offset to go on
with. A caller that follows these offsets gets each line once.
-/

namespace Draht.ReadTool
open List Option

open Utf8

/-- What is said below a page that does not end the file. -/
inductive Notice where
  | lines (startLineDisplay endLineDisplay totalFileLines nextOffset : ℕ)
  | bytes (startLineDisplay endLineDisplay totalFileLines nextOffset : ℕ)
  | more (remaining nextOffset : ℕ)
deriving DecidableEq

namespace Notice

def nextOffset : Notice → ℕ
  | lines _ _ _ nextOffset | bytes _ _ _ nextOffset | more _ nextOffset => nextOffset

def text : Notice → String
  | lines startLineDisplay endLineDisplay totalFileLines nextOffset =>
    "\n\n[Showing lines " ++ toString startLineDisplay ++ "-" ++ toString endLineDisplay ++
      " of " ++ toString totalFileLines ++ ". Use offset=" ++ toString nextOffset ++
      " to continue.]"
  | bytes startLineDisplay endLineDisplay totalFileLines nextOffset =>
    "\n\n[Showing lines " ++ toString startLineDisplay ++ "-" ++ toString endLineDisplay ++
      " of " ++ toString totalFileLines ++ " (" ++ formatSize DEFAULT_MAX_BYTES ++
      " limit). Use offset=" ++ toString nextOffset ++ " to continue.]"
  | more remaining nextOffset =>
    "\n\n[" ++ toString remaining ++ " more lines in file. Use offset=" ++ toString nextOffset ++
      " to continue.]"

end Notice

/-- The text of a result: a part of the file with a notice, or a line that is too long to show. -/
inductive ReadText where
  | page (content : OutputText) (notice : Option Notice)
  | lineTooLong (lineNumber lineBytes : ℕ) (path : String)
deriving DecidableEq

def ReadText.outputText : ReadText → OutputText
  | page content notice => content ++ ((notice.map Notice.text).getD "").toList
  | lineTooLong lineNumber lineBytes path =>
    ("[Line " ++ toString lineNumber ++ " is " ++ formatSize lineBytes ++ ", exceeds " ++
      formatSize DEFAULT_MAX_BYTES ++ " limit. Use bash: sed -n '" ++ toString lineNumber ++
      "p' " ++ path ++ " | head -c " ++ toString DEFAULT_MAX_BYTES ++ "]").toList

structure ReadResult where
  text : ReadText
  truncation : Option TruncationResult
deriving DecidableEq

def selectLines (allLines : List OutputText) (startLine : ℕ) : Option ℕ → List OutputText
  | some limit => (allLines.take (min (startLine + limit) allLines.length)).drop startLine
  | none => allLines.drop startLine

/-- `userLimitedLines`. -/
def userLimitedLines (allLines : List OutputText) (startLine limit : ℕ) : ℕ :=
  min (startLine + limit) allLines.length - startLine

def resultOf (path : String) (allLines : List OutputText) (startLine : ℕ) (limit : Option ℕ)
    (truncation : TruncationResult) : ReadResult :=
  let totalFileLines := allLines.length
  let startLineDisplay := startLine + 1
  if truncation.firstLineExceedsLimit then
    { text := .lineTooLong startLineDisplay (byteLength (allLines[startLine]?.getD [])) path
      truncation := some truncation }
  else if truncation.truncated then
    let endLineDisplay := startLineDisplay + truncation.outputLines - 1
    let nextOffset := endLineDisplay + 1
    let notice :=
      if truncation.truncatedBy = some .lines then
        Notice.lines startLineDisplay endLineDisplay totalFileLines nextOffset
      else .bytes startLineDisplay endLineDisplay totalFileLines nextOffset
    { text := .page truncation.content (some notice), truncation := some truncation }
  else
    match limit.map (userLimitedLines allLines startLine) with
    | some limited =>
      if startLine + limited < totalFileLines then
        let remaining := totalFileLines - (startLine + limited)
        { text := .page truncation.content (some (.more remaining (startLine + limited + 1)))
          truncation := none }
      else { text := .page truncation.content none, truncation := none }
    | none => { text := .page truncation.content none, truncation := none }

/-- `execute` for a text file that has been read; line numbers start at one. -/
def readText (path : String) (textContent : OutputText) (offset limit : Option ℕ) :
    Except String ReadResult :=
  let allLines := splitLines textContent
  let startLine := offset.getD 0 - 1
  if startLine ≥ allLines.length then
    .error ("Offset " ++ toString (offset.getD 0) ++ " is beyond end of file (" ++
      toString allLines.length ++ " lines total)")
  else
    let selectedContent := joinLines (selectLines allLines startLine limit)
    .ok (resultOf path allLines startLine limit
      (truncateHead selectedContent { maxLines := none, maxBytes := none }))

/-- Calls with the offset of the notice before, until there is none: the contents of the pages.
`none` when a call fails or shows no page, or when there were more calls. -/
def readPages (path : String) (textContent : OutputText) (limit : Option ℕ) :
    ℕ → Option ℕ → Option (List OutputText)
  | 0, _ => none
  | calls + 1, offset =>
    match readText path textContent offset limit with
    | .ok { text := .page content (some notice), .. } =>
      (readPages path textContent limit calls (some notice.nextOffset)).map (content :: ·)
    | .ok { text := .page content none, .. } => some [content]
    | _ => none

variable {path : String} {textContent : OutputText} {allLines : List OutputText}
  {startLine : ℕ} {offset limit : Option ℕ}

theorem selectLines_some (allLines : List OutputText) (startLine limit : ℕ) :
    selectLines allLines startLine (some limit) =
      (allLines.drop startLine).take (userLimitedLines allLines startLine limit) :=
  drop_take

theorem selectLines_prefix (allLines : List OutputText) (startLine : ℕ) (limit : Option ℕ) :
    selectLines allLines startLine limit <+: allLines.drop startLine := by
  cases limit with
  | none => exact prefix_rfl
  | some limit =>
    rw [selectLines_some]
    exact take_prefix _ _

theorem length_selectLines_some (allLines : List OutputText) (startLine limit : ℕ) :
    (selectLines allLines startLine (some limit)).length =
      userLimitedLines allLines startLine limit := by
  rw [selectLines_some, length_take, length_drop, userLimitedLines]
  omega

theorem selectLines_ne_nil (hstart : startLine < allLines.length) (hlimit : ∀ l ∈ limit, 0 < l) :
    selectLines allLines startLine limit ≠ [] := by
  apply ne_nil_of_length_pos
  cases limit with
  | none =>
    rw [selectLines, length_drop]
    omega
  | some limit =>
    have hpos := hlimit limit rfl
    rw [length_selectLines_some, userLimitedLines]
    omega

theorem selectLines_rest (limit : Option ℕ) (hstart : startLine < allLines.length) :
    (∃ l, limit = some l ∧ startLine + userLimitedLines allLines startLine l < allLines.length) ∨
      (selectLines allLines startLine limit = allLines.drop startLine ∧
        ∀ l ∈ limit, ¬startLine + userLimitedLines allLines startLine l < allLines.length) := by
  cases limit with
  | none => exact .inr ⟨rfl, nofun⟩
  | some limit =>
    by_cases hmore : startLine + userLimitedLines allLines startLine limit < allLines.length
    · exact .inl ⟨limit, rfl, hmore⟩
    · refine .inr ⟨?_, fun l hl => some.inj hl ▸ hmore⟩
      rw [selectLines_some, take_of_length_le]
      rw [length_drop]
      omega

theorem readText_page (path : String) (hstart : offset.getD 0 - 1 = startLine)
    (hin : startLine < (splitLines textContent).length) (hlimit : ∀ l ∈ limit, 0 < l)
    (hfit : ∀ line ∈ splitLines textContent, byteLength line ≤ DEFAULT_MAX_BYTES) :
    ∃ kept rest notice truncation, (splitLines textContent).drop startLine = kept ++ rest ∧
      kept ≠ [] ∧
      readText path textContent offset limit =
        .ok { text := .page (joinLines kept) notice, truncation } ∧
      (rest = [] → notice = none) ∧
      (rest ≠ [] → ∃ n, notice = some n ∧ n.nextOffset = startLine + kept.length + 1) := by
  generalize hall : splitLines textContent = allLines at hin hfit
  generalize hselected : selectLines allLines startLine limit = selected
  have hpre : selected <+: allLines.drop startLine := hselected ▸ selectLines_prefix _ _ _
  have hne : selected ≠ [] := hselected ▸ selectLines_ne_nil hin hlimit
  have hmem {line : OutputText} (h : line ∈ selected) : line ∈ allLines :=
    mem_of_mem_drop (hpre.subset h)
  have hsplit : splitLines (joinLines selected) = selected :=
    splitLines_joinLines hne fun line hline => newline_not_mem (hall ▸ hmem hline)
  have hkeeps := truncateHeadTo_keepsHead DEFAULT_MAX_LINES DEFAULT_MAX_BYTES (joinLines selected)
  obtain ⟨kept, hlongest, hcontent, houtputLines⟩ := hkeeps.lines
  rw [hsplit] at hlongest
  have hread : readText path textContent offset limit =
      .ok (resultOf path allLines startLine limit
        (truncateHeadTo DEFAULT_MAX_LINES DEFAULT_MAX_BYTES (joinLines selected))) := by
    unfold readText
    simp only [hall, hstart, hselected]
    rw [if_neg (Nat.not_le_of_lt hin)]
    rfl
  generalize truncateHeadTo DEFAULT_MAX_LINES DEFAULT_MAX_BYTES (joinLines selected) = truncation
    at hkeeps hcontent houtputLines hread
  obtain ⟨first, others, hcons⟩ := exists_cons_of_ne_nil hne
  have hfirstFits : byteLength first ≤ DEFAULT_MAX_BYTES :=
    hfit first (hmem (hcons ▸ mem_cons_self))
  have hexceeds : ¬truncation.firstLineExceedsLimit = true := by
    rw [hkeeps.exceeds, firstLine, hsplit, hcons]
    exact Nat.not_lt_of_le hfirstFits
  have hkept : kept ≠ [] := by
    have hfirst : [first] <+: kept := by
      apply hlongest.longest
      · exact hcons ▸ ⟨others, rfl⟩
      · refine ⟨by simp [DEFAULT_MAX_LINES], ?_⟩
        rw [joinLines_singleton]
        exact hfirstFits
    rintro rfl
    exact absurd (prefix_nil.mp hfirst) (cons_ne_nil _ _)
  obtain ⟨unselected, hrest⟩ := hpre
  obtain ⟨left, hleft⟩ := hlongest.isPrefix
  have hlines : allLines.drop startLine = kept ++ (left ++ unselected) := by
    rw [← append_assoc, hleft, hrest]
  by_cases htruncated : truncation.truncated = true
  · -- The limits of `truncateHead` leave a selected line out.
    have hover := hkeeps.truncated.mp htruncated
    have hleftNe : left ≠ [] := by
      rintro rfl
      rw [append_nil] at hleft
      have hwithin := hlongest.holds
      rw [hleft, ← hsplit] at hwithin
      exact withinLimits_splitLines.mp hwithin hover
    have hmore : left ++ unselected ≠ [] := fun h => hleftNe (append_eq_nil_iff.mp h).1
    have hnext : ∃ notice, readText path textContent offset limit =
        .ok { text := .page truncation.content (some notice), truncation := some truncation } ∧
          notice.nextOffset = startLine + 1 + truncation.outputLines - 1 + 1 := by
      rw [hread, resultOf]
      simp only [if_neg hexceeds, if_pos htruncated]
      refine ⟨_, rfl, ?_⟩
      split_ifs <;> rfl
    obtain ⟨notice, hresult, hoffset⟩ := hnext
    rw [hcontent] at hresult
    refine ⟨kept, left ++ unselected, some notice, _, hlines, hkept, hresult,
      fun h => absurd h hmore, fun _ => ⟨notice, rfl, ?_⟩⟩
    omega
  · -- All selected lines are shown.
    have hall' : selected = kept := by
      have hover : ¬OverLimits DEFAULT_MAX_LINES DEFAULT_MAX_BYTES (joinLines selected) :=
        fun h => htruncated (hkeeps.truncated.mpr h)
      have hwithin := withinLimits_splitLines.mpr hover
      rw [hsplit] at hwithin
      have hpre := hlongest.longest selected prefix_rfl hwithin
      exact hpre.eq_of_length_le hlongest.isPrefix.length_le
    subst hall'
    have hlength := congrArg List.length hrest
    rw [length_append, length_drop] at hlength
    obtain ⟨l, rfl, hmore⟩ | ⟨hwhole, hmore⟩ := selectLines_rest limit hin
    · have hcount := length_selectLines_some allLines startLine l
      rw [hselected] at hcount
      refine ⟨selected, unselected, some (.more (allLines.length -
        (startLine + userLimitedLines allLines startLine l))
        (startLine + userLimitedLines allLines startLine l + 1)), none, hrest.symm, hkept, ?_, ?_,
        fun _ => ⟨_, rfl, ?_⟩⟩
      · rw [hread, resultOf]
        simp [if_neg hexceeds, if_neg htruncated, if_pos hmore, hcontent]
      · rintro rfl
        rw [length_nil] at hlength
        omega
      · rw [hcount]
        rfl
    · have hnil : unselected = [] := by
        rw [← hselected, hwhole] at hrest
        exact append_right_eq_self.mp hrest
      refine ⟨selected, unselected, none, none, hrest.symm, hkept, ?_, fun _ => rfl,
        fun h => absurd hnil h⟩
      rw [hread, resultOf]
      cases limit with
      | none => simp only [if_neg hexceeds, if_neg htruncated, map_none, hcontent]
      | some l =>
        simp [if_neg hexceeds, if_neg htruncated, if_neg (hmore l rfl), hcontent]

theorem readPages_from (hlimit : ∀ l ∈ limit, 0 < l)
    (hfit : ∀ line ∈ splitLines textContent, byteLength line ≤ DEFAULT_MAX_BYTES) (calls : ℕ)
    (hstart : offset.getD 0 - 1 = startLine) (hin : startLine < (splitLines textContent).length)
    (hcalls : (splitLines textContent).length ≤ startLine + calls) :
    ∃ pages, readPages path textContent limit calls offset = some pages ∧
      pages.flatMap splitLines = (splitLines textContent).drop startLine := by
  induction calls generalizing offset startLine with
  | zero => omega
  | succ calls ih =>
    obtain ⟨kept, rest, notice, truncation, hlines, hkept, hread, hlast, hmore⟩ :=
      readText_page path hstart hin hlimit hfit
    have hsplit : splitLines (joinLines kept) = kept := by
      refine splitLines_joinLines hkept fun line hline => ?_
      have hmem : line ∈ (splitLines textContent).drop startLine :=
        hlines ▸ mem_append_left _ hline
      exact newline_not_mem (mem_of_mem_drop hmem)
    by_cases hrest : rest = []
    · obtain rfl := hlast hrest
      refine ⟨[joinLines kept], by rw [readPages, hread], ?_⟩
      rw [hlines, hrest, flatMap_singleton, hsplit, append_nil]
    · obtain ⟨n, rfl, hnext⟩ := hmore hrest
      have hlength := congrArg List.length hlines
      rw [length_append, length_drop] at hlength
      have hkeptPos := length_pos_of_ne_nil hkept
      have hrestPos := length_pos_of_ne_nil hrest
      have hoffset : (some n.nextOffset).getD 0 - 1 = startLine + kept.length := by
        rw [getD_some, hnext]
        omega
      obtain ⟨pages, hpages, hcover⟩ := ih hoffset (by omega) (by omega)
      refine ⟨joinLines kept :: pages, ?_, ?_⟩
      · rw [readPages, hread]
        dsimp only
        rw [hpages]
        rfl
      · rw [flatMap_cons, hsplit, hcover, hlines, ← drop_drop, hlines,
          drop_left]

/-- Following the offsets shows each line of a file once, in order. -/
theorem readPages_cover (path : String) (textContent : OutputText) (limit : Option ℕ)
    (hlimit : ∀ l ∈ limit, 0 < l)
    (hfit : ∀ line ∈ splitLines textContent, byteLength line ≤ DEFAULT_MAX_BYTES) :
    ∃ calls pages, readPages path textContent limit calls none = some pages ∧
      pages.flatMap splitLines = splitLines textContent :=
  ⟨_, readPages_from hlimit hfit (splitLines textContent).length rfl
    (length_pos_of_ne_nil (splitLines_ne_nil textContent)) (by omega)⟩

/-- A file of three lines, two at a time. -/
theorem threeLines_cover : ∃ calls pages,
    readPages "f" ['a', '\n', 'b', '\n', 'c'] (some 2) calls none = some pages ∧
      pages.flatMap splitLines = [['a'], ['b'], ['c']] :=
  readPages_cover "f" ['a', '\n', 'b', '\n', 'c'] (some 2)
    (fun l hl => some.inj hl ▸ Nat.zero_lt_two) (by decide)

end Draht.ReadTool
