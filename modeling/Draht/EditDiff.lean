import Draht.Text
import Draht.TextSearch

/-!
# Edits of a file

The edits of one call of the edit tool: each is found in the same text, exactly or after
normalisation, they must not overlap, and they are applied from the last to the first. Texts
are lists of UTF-16 code units. NFKC is a parameter.
-/

namespace Draht

namespace EditDiff

def isLineSpace (c : UInt16) : Bool := isWhiteSpaceCode c.toNat

/-- `replace(/\r\n/g, "\n")`. -/
def replaceCRLF : JsText → JsText
  | 13 :: 10 :: rest => 10 :: replaceCRLF rest
  | c :: rest => c :: replaceCRLF rest
  | [] => []

def normalizeToLF (text : JsText) : JsText :=
  (replaceCRLF text).map (fun c => if c = 13 then 10 else c)

theorem normalizeToLF_crlf (text : JsText) :
    normalizeToLF (13 :: 10 :: text) = 10 :: normalizeToLF text := rfl

theorem normalizeToLF_cons {c : UInt16} (hc : c ≠ 13) (text : JsText) :
    normalizeToLF (c :: text) = c :: normalizeToLF text := by
  have hreplace : replaceCRLF (c :: text) = c :: replaceCRLF text := by
    rw [replaceCRLF]
    rintro rest rfl
    exact absurd rfl hc
  rw [normalizeToLF, hreplace, List.map_cons, if_neg hc]
  rfl

theorem normalizeToLF_eq_self {text : JsText} (h : 13 ∉ text) : normalizeToLF text = text := by
  induction text with
  | nil => rfl
  | cons c text ih =>
    have hc : c ≠ 13 := fun hc => h (hc ▸ List.mem_cons_self)
    rw [normalizeToLF_cons hc, ih fun hmem => h (List.mem_cons_of_mem _ hmem)]

/-- Smart quotes, dashes and special spaces become ASCII. -/
def asciiPunctuation (c : UInt16) : UInt16 :=
  if c ∈ [0x2018, 0x2019, 0x201A, 0x201B] then 0x27
  else if c ∈ [0x201C, 0x201D, 0x201E, 0x201F] then 0x22
  else if c ∈ [0x2010, 0x2011, 0x2012, 0x2013, 0x2014, 0x2015, 0x2212] then 0x2D
  else if c = 0xA0 || (0x2002 ≤ c && c ≤ 0x200A) || c ∈ [0x202F, 0x205F, 0x3000] then 0x20
  else c

def normalizeForFuzzyMatch (nfkc : JsText → JsText) (text : JsText) : JsText :=
  (List.intercalate [10] (((nfkc text).splitOn 10).map (trimEnd isLineSpace))).map asciiPunctuation

structure FuzzyMatchResult where
  index : ℕ
  matchLength : ℕ
  usedFuzzyMatch : Bool
  contentForReplacement : JsText
deriving DecidableEq

structure Edit where
  oldText : JsText
  newText : JsText
deriving DecidableEq

structure MatchedEdit where
  editIndex : ℕ
  span : Span UInt16
deriving DecidableEq

structure AppliedEditsResult where
  baseContent : JsText
  newContent : JsText
deriving DecidableEq

section

variable (nfkc : JsText → JsText)

/-- `none` stands for `found: false`. -/
def fuzzyFindText (content oldText : JsText) : Option FuzzyMatchResult :=
  match indexOf? oldText content with
  | some exactIndex =>
    some { index := exactIndex, matchLength := oldText.length, usedFuzzyMatch := false
           contentForReplacement := content }
  | none =>
    let fuzzyContent := normalizeForFuzzyMatch nfkc content
    let fuzzyOldText := normalizeForFuzzyMatch nfkc oldText
    (indexOf? fuzzyOldText fuzzyContent).map fun fuzzyIndex =>
      { index := fuzzyIndex, matchLength := fuzzyOldText.length, usedFuzzyMatch := true
        contentForReplacement := fuzzyContent }

def countOccurrences (content oldText : JsText) : ℤ :=
  (split (normalizeForFuzzyMatch nfkc oldText) (normalizeForFuzzyMatch nfkc content)).length - 1

def editName (editIndex : ℕ) : String := "edits[" ++ toString editIndex ++ "]"

def getNotFoundError (path : String) (editIndex totalEdits : ℕ) : String :=
  if totalEdits = 1 then
    "Could not find the exact text in " ++ path ++ ". The old text must match exactly " ++
      "including all whitespace and newlines."
  else
    "Could not find " ++ editName editIndex ++ " in " ++ path ++ ". The oldText must match " ++
      "exactly including all whitespace and newlines."

def getDuplicateError (path : String) (editIndex totalEdits : ℕ) (occurrences : ℤ) : String :=
  if totalEdits = 1 then
    "Found " ++ toString occurrences ++ " occurrences of the text in " ++ path ++ ". The text " ++
      "must be unique. Please provide more context to make it unique."
  else
    "Found " ++ toString occurrences ++ " occurrences of " ++ editName editIndex ++ " in " ++
      path ++ ". Each oldText must be unique. Please provide more context to make it unique."

def getEmptyOldTextError (path : String) (editIndex totalEdits : ℕ) : String :=
  if totalEdits = 1 then "oldText must not be empty in " ++ path ++ "."
  else editName editIndex ++ ".oldText must not be empty in " ++ path ++ "."

def getNoChangeError (path : String) (totalEdits : ℕ) : String :=
  if totalEdits = 1 then
    "No changes made to " ++ path ++ ". The replacement produced identical content. This " ++
      "might indicate an issue with special characters or the text not existing as expected."
  else "No changes made to " ++ path ++ ". The replacements produced identical content."

def getOverlapError (path : String) (previous current : ℕ) : String :=
  editName previous ++ " and " ++ editName current ++ " overlap in " ++ path ++
    ". Merge them into one edit or target disjoint regions."

def normalizeEdit (e : Edit) : Edit :=
  { oldText := normalizeToLF e.oldText, newText := normalizeToLF e.newText }

def usesFuzzyMatch (content : JsText) (e : Edit) : Bool :=
  (fuzzyFindText nfkc content e.oldText).any FuzzyMatchResult.usedFuzzyMatch

def baseContentOf (normalizedContent : JsText) (normalizedEdits : List Edit) : JsText :=
  if normalizedEdits.any (usesFuzzyMatch nfkc normalizedContent) then
    normalizeForFuzzyMatch nfkc normalizedContent
  else normalizedContent

/-- The loop that matches the edits, from the one of the given index on. -/
def matchEdits (baseContent : JsText) (path : String) (total : ℕ) :
    ℕ → List Edit → Except String (List MatchedEdit)
  | _, [] => .ok []
  | i, e :: rest =>
    match fuzzyFindText nfkc baseContent e.oldText with
    | none => .error (getNotFoundError path i total)
    | some matchResult =>
      let occurrences := countOccurrences nfkc baseContent e.oldText
      if 1 < occurrences then .error (getDuplicateError path i total occurrences)
      else do
        let matchedEdits ← matchEdits baseContent path total (i + 1) rest
        return { editIndex := i
                 span := ⟨matchResult.index, matchResult.matchLength, e.newText⟩ } ::
          matchedEdits

def sortEdits (matchedEdits : List MatchedEdit) : List MatchedEdit :=
  matchedEdits.mergeSort (fun a b => a.span.index ≤ b.span.index)

/-- The index of the edit at a position of the sorted list. -/
def editIndexAt (sorted : List MatchedEdit) (i : ℕ) : ℕ :=
  (sorted[i]?.map MatchedEdit.editIndex).getD 0

/-- The checks and the replacement once the edits are matched. -/
def replaceMatches (baseContent : JsText) (path : String) (total : ℕ)
    (matchedEdits : List MatchedEdit) : Except String AppliedEditsResult :=
  let sorted := sortEdits matchedEdits
  match Span.firstOverlap (sorted.map MatchedEdit.span) with
  | some (previous, current) =>
    .error (getOverlapError path (editIndexAt sorted previous) (editIndexAt sorted current))
  | none =>
    let newContent := Span.applyFromBack baseContent (sorted.map MatchedEdit.span)
    if baseContent = newContent then .error (getNoChangeError path total)
    else .ok { baseContent, newContent }

def applyEditsToNormalizedContent (normalizedContent : JsText) (edits : List Edit)
    (path : String) : Except String AppliedEditsResult :=
  let normalizedEdits := edits.map normalizeEdit
  match normalizedEdits.findIdx? (fun e => e.oldText = []) with
  | some i => .error (getEmptyOldTextError path i normalizedEdits.length)
  | none => do
      let baseContent := baseContentOf nfkc normalizedContent normalizedEdits
      let matchedEdits ←
        matchEdits nfkc baseContent path normalizedEdits.length 0 normalizedEdits
      replaceMatches baseContent path normalizedEdits.length matchedEdits

end

end EditDiff

end Draht
