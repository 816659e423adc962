import Draht.SplitOn
import Draht.Text
import Mathlib.Data.List.Infix

/-!
# The diff of an edit

`generateDiffString` numbers the lines of the parts of a diff, shows the changes with a few lines
around them, and marks what it leaves out. The parts come from a library, as changes of whole
lines.
-/

namespace Draht.LineDiff
open List

/-- A part of a diff; one that is neither added nor removed is in both texts. -/
structure Part where
  value : JsText
  added : Bool
  removed : Bool
deriving DecidableEq

def Part.isChange (part : Part) : Bool := part.added || part.removed

/-- A line of the output; `skip` stands for the lines that are left out. -/
inductive DiffLine where
  | added (lineNum : ℕ) (line : JsText)
  | removed (lineNum : ℕ) (line : JsText)
  | context (lineNum : ℕ) (line : JsText)
  | skip
deriving DecidableEq

def padStart (width : ℕ) (text : JsText) : JsText :=
  List.replicate (width - text.length) 32 ++ text

def DiffLine.render (lineNumWidth : ℕ) : DiffLine → JsText
  | added lineNum line => [43] ++ padStart lineNumWidth (utf16 (toString lineNum)) ++ [32] ++ line
  | removed lineNum line => [45] ++ padStart lineNumWidth (utf16 (toString lineNum)) ++ [32] ++ line
  | context lineNum line => [32] ++ padStart lineNumWidth (utf16 (toString lineNum)) ++ [32] ++ line
  | skip => [32] ++ padStart lineNumWidth [] ++ utf16 " ..."

/-- `part.value.split("\n")` without the empty text behind the last line break. -/
def rawLines (value : JsText) : List JsText :=
  let raw := value.splitOn 10
  if raw.getLast? = some [] then raw.dropLast else raw

structure DiffState where
  output : List DiffLine
  oldLineNum : ℕ
  newLineNum : ℕ
  lastWasChange : Bool
  firstChangedLine : Option ℕ

namespace DiffState

def initial : DiffState :=
  { output := [], oldLineNum := 1, newLineNum := 1, lastWasChange := false
    firstChangedLine := none }

def showAdded (s : DiffState) (line : JsText) : DiffState :=
  { s with output := s.output ++ [.added s.newLineNum line], newLineNum := s.newLineNum + 1 }

def showRemoved (s : DiffState) (line : JsText) : DiffState :=
  { s with output := s.output ++ [.removed s.oldLineNum line], oldLineNum := s.oldLineNum + 1 }

def showContext (s : DiffState) (line : JsText) : DiffState :=
  { s with
    output := s.output ++ [.context s.oldLineNum line]
    oldLineNum := s.oldLineNum + 1
    newLineNum := s.newLineNum + 1 }

def skipLines (s : DiffState) (skippedLines : ℕ) : DiffState :=
  { s with
    output := s.output ++ [.skip]
    oldLineNum := s.oldLineNum + skippedLines
    newLineNum := s.newLineNum + skippedLines }

def addContext (contextLines : ℕ) (s : DiffState) (raw : List JsText) (nextPartIsChange : Bool) :
    DiffState :=
  let hasLeadingChange := s.lastWasChange
  let hasTrailingChange := nextPartIsChange
  if hasLeadingChange && hasTrailingChange then
    if raw.length ≤ contextLines * 2 then raw.foldl showContext s
    else
      let leadingLines := raw.take contextLines
      let trailingLines := raw.drop (raw.length - contextLines)
      let skippedLines := raw.length - leadingLines.length - trailingLines.length
      trailingLines.foldl showContext ((leadingLines.foldl showContext s).skipLines skippedLines)
  else if hasLeadingChange then
    let shownLines := raw.take contextLines
    let skippedLines := raw.length - shownLines.length
    let s := shownLines.foldl showContext s
    if skippedLines > 0 then s.skipLines skippedLines else s
  else if hasTrailingChange then
    let skippedLines := raw.length - contextLines
    let s := if skippedLines > 0 then s.skipLines skippedLines else s
    (raw.drop skippedLines).foldl showContext s
  else
    { s with
      oldLineNum := s.oldLineNum + raw.length
      newLineNum := s.newLineNum + raw.length }

def addPart (contextLines : ℕ) (s : DiffState) (part : Part) (nextPartIsChange : Bool) :
    DiffState :=
  let raw := rawLines part.value
  if part.added || part.removed then
    let s := { s with firstChangedLine := s.firstChangedLine.or (some s.newLineNum) }
    let s := raw.foldl (fun s line => if part.added then s.showAdded line else s.showRemoved line) s
    { s with lastWasChange := true }
  else { s.addContext contextLines raw nextPartIsChange with lastWasChange := false }

def addParts (contextLines : ℕ) (s : DiffState) : List Part → DiffState
  | [] => s
  | part :: parts =>
    (s.addPart contextLines part (parts.head?.any Part.isChange)).addParts contextLines parts

end DiffState

structure DiffResult where
  diff : JsText
  firstChangedLine : Option ℕ

/-- `String(maxLineNum).length`. -/
def lineNumWidth (oldContent newContent : JsText) : ℕ :=
  (utf16 (toString (max (oldContent.splitOn 10).length (newContent.splitOn 10).length))).length

def generateDiffString (diffLines : JsText → JsText → List Part) (oldContent newContent : JsText)
    (contextLines : ℕ) : DiffResult :=
  let s := DiffState.initial.addParts contextLines (diffLines oldContent newContent)
  { diff := List.intercalate [10]
      (s.output.map (DiffLine.render (lineNumWidth oldContent newContent)))
    firstChangedLine := s.firstChangedLine }

def numberFrom (f : ℕ → JsText → DiffLine) : ℕ → List JsText → List DiffLine
  | _, [] => []
  | n, line :: lines => f n line :: numberFrom f (n + 1) lines

def Part.lines (oldLineNum newLineNum : ℕ) (part : Part) : List DiffLine :=
  if part.added then numberFrom .added newLineNum (rawLines part.value)
  else if part.removed then numberFrom .removed oldLineNum (rawLines part.value)
  else numberFrom .context oldLineNum (rawLines part.value)

def Part.oldCount (part : Part) : ℕ := if part.added then 0 else (rawLines part.value).length

def Part.newCount (part : Part) : ℕ :=
  if part.added then (rawLines part.value).length
  else if part.removed then 0
  else (rawLines part.value).length

def allLines (oldLineNum newLineNum : ℕ) : List Part → List DiffLine
  | [] => []
  | part :: parts =>
    part.lines oldLineNum newLineNum ++
      allLines (oldLineNum + part.oldCount) (newLineNum + part.newCount) parts

@[simp] theorem length_numberFrom (f : ℕ → JsText → DiffLine) (n : ℕ) (lines : List JsText) :
    (numberFrom f n lines).length = lines.length := by
  induction lines generalizing n with
  | nil => rfl
  | cons line lines ih => rw [numberFrom, length_cons, length_cons, ih]

theorem numberFrom_take (f : ℕ → JsText → DiffLine) (n k : ℕ) (lines : List JsText) :
    numberFrom f n (lines.take k) = (numberFrom f n lines).take k := by
  induction lines generalizing n k with
  | nil => simp [numberFrom]
  | cons line lines ih =>
    cases k with
    | zero => rfl
    | succ k => rw [take_succ_cons, numberFrom, numberFrom, take_succ_cons, ih]

theorem numberFrom_drop (f : ℕ → JsText → DiffLine) (n k : ℕ) (lines : List JsText) :
    numberFrom f (n + k) (lines.drop k) = (numberFrom f n lines).drop k := by
  induction lines generalizing n k with
  | nil => simp [numberFrom]
  | cons line lines ih =>
    cases k with
    | zero => rfl
    | succ k =>
      rw [drop_succ_cons, numberFrom, drop_succ_cons, ← ih (n + 1) k]
      congr 1
      omega

theorem getElem?_numberFrom (f : ℕ → JsText → DiffLine) (n k : ℕ) (lines : List JsText) :
    (numberFrom f n lines)[k]? = lines[k]?.map (f (n + k)) := by
  induction lines generalizing n k with
  | nil => rfl
  | cons line lines ih =>
    cases k with
    | zero => rfl
    | succ k =>
      rw [numberFrom, getElem?_cons_succ, getElem?_cons_succ, ih]
      congr 2
      omega

theorem mem_numberFrom {f : ℕ → JsText → DiffLine} {n : ℕ} {lines : List JsText} {d : DiffLine}
    (h : d ∈ numberFrom f n lines) : ∃ k line, lines[k]? = some line ∧ d = f (n + k) line := by
  obtain ⟨k, hk⟩ := mem_iff_getElem?.mp h
  rw [getElem?_numberFrom] at hk
  obtain ⟨line, hline, hd⟩ := Option.map_eq_some_iff.mp hk
  exact ⟨k, line, hline, hd.symm⟩

def shownContext (contextLines : ℕ) (lastWasChange nextPartIsChange : Bool)
    (lines : List DiffLine) : List DiffLine :=
  let skipped := if lines.length - contextLines > 0 then [DiffLine.skip] else []
  if lastWasChange && nextPartIsChange then
    if lines.length ≤ contextLines * 2 then lines
    else lines.take contextLines ++ .skip :: lines.drop (lines.length - contextLines)
  else if lastWasChange then lines.take contextLines ++ skipped
  else if nextPartIsChange then skipped ++ lines.drop (lines.length - contextLines)
  else []

def Part.shown (contextLines : ℕ) (s : DiffState) (part : Part) (nextPartIsChange : Bool) :
    List DiffLine :=
  if part.isChange then part.lines s.oldLineNum s.newLineNum
  else shownContext contextLines s.lastWasChange nextPartIsChange
    (part.lines s.oldLineNum s.newLineNum)

namespace DiffState

variable (s : DiffState) (contextLines : ℕ)

theorem foldl_showAdded (lines : List JsText) :
    lines.foldl showAdded s =
      { s with output := s.output ++ numberFrom .added s.newLineNum lines
               newLineNum := s.newLineNum + lines.length } := by
  induction lines generalizing s with
  | nil => simp [numberFrom]
  | cons line lines ih =>
    rw [foldl_cons, ih]
    simp [showAdded, numberFrom, Nat.add_assoc, Nat.add_comm 1]

theorem foldl_showRemoved (lines : List JsText) :
    lines.foldl showRemoved s =
      { s with output := s.output ++ numberFrom .removed s.oldLineNum lines
               oldLineNum := s.oldLineNum + lines.length } := by
  induction lines generalizing s with
  | nil => simp [numberFrom]
  | cons line lines ih =>
    rw [foldl_cons, ih]
    simp [showRemoved, numberFrom, Nat.add_assoc, Nat.add_comm 1]

theorem foldl_showContext (lines : List JsText) :
    lines.foldl showContext s =
      { s with output := s.output ++ numberFrom .context s.oldLineNum lines
               oldLineNum := s.oldLineNum + lines.length
               newLineNum := s.newLineNum + lines.length } := by
  induction lines generalizing s with
  | nil => simp [numberFrom]
  | cons line lines ih =>
    rw [foldl_cons, ih]
    simp [showContext, numberFrom, Nat.add_assoc, Nat.add_comm 1]

theorem addContext_eq (s : DiffState) (raw : List JsText) (nextPartIsChange : Bool) :
    s.addContext contextLines raw nextPartIsChange =
      { s with
        output := s.output ++ shownContext contextLines s.lastWasChange nextPartIsChange
          (numberFrom .context s.oldLineNum raw)
        oldLineNum := s.oldLineNum + raw.length
        newLineNum := s.newLineNum + raw.length } := by
  obtain ⟨output, oldLineNum, newLineNum, lastWasChange, firstChangedLine⟩ := s
  have hdrop (k : ℕ) := numberFrom_drop DiffLine.context oldLineNum k raw
  unfold addContext shownContext
  cases lastWasChange <;> cases nextPartIsChange <;>
    simp only [Bool.and_true, Bool.and_false, Bool.and_self, Bool.false_eq_true, if_true, if_false,
      length_numberFrom, foldl_showContext, skipLines, numberFrom_take, append_nil,
      length_take, length_drop]
  · -- Lines before a change.
    split_ifs with hskip
    · simp only [hdrop, append_assoc, singleton_append]
      congr 1 <;> omega
    · have hzero : raw.length - contextLines = 0 := by omega
      simp [hzero]
  · -- Lines behind a change.
    split_ifs with h₁ h₂ h₂
    · simp only [append_assoc]
      congr 1 <;> omega
    · omega
    · omega
    · simp only [append_nil]
      congr 1 <;> omega
  · -- Lines between two changes.
    split_ifs with hall
    · rfl
    · have hnum : oldLineNum + min contextLines raw.length +
          (raw.length - min contextLines raw.length - (raw.length - (raw.length - contextLines))) =
            oldLineNum + (raw.length - contextLines) := by omega
      simp only [hnum, hdrop, append_assoc, singleton_append]
      congr 1 <;> omega

theorem addPart_eq (s : DiffState) (part : Part) (nextPartIsChange : Bool) :
    s.addPart contextLines part nextPartIsChange =
      { output := s.output ++ part.shown contextLines s nextPartIsChange
        oldLineNum := s.oldLineNum + part.oldCount
        newLineNum := s.newLineNum + part.newCount
        lastWasChange := part.isChange
        firstChangedLine :=
          if part.isChange then s.firstChangedLine.or (some s.newLineNum)
          else s.firstChangedLine } := by
  obtain ⟨value, added, removed⟩ := part
  unfold addPart Part.shown Part.isChange Part.oldCount Part.newCount Part.lines
  cases added with
  | true => simp [foldl_showAdded]
  | false =>
    cases removed with
    | true => simp [foldl_showRemoved]
    | false => simp [addContext_eq]

end DiffState

end Draht.LineDiff
