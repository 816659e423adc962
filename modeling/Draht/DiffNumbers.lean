import Draht.DiffString

/-!
# The line numbers of a diff

With parts of whole lines each line of the diff has its number in its text, all changes are shown,
and a line that is in both texts is shown only near a change.
-/

namespace Draht.LineDiff
open List Option

open DiffState

/-- Each text but the last one ends with a line break. -/
def WholeLines : List JsText → Prop
  | [] => True
  | [_] => True
  | value :: values => (value = [] ∨ ∃ lines, value = lines ++ [10]) ∧ WholeLines values

def oldSide (parts : List Part) : List Part := parts.filter fun part => !part.added

def newSide (parts : List Part) : List Part := parts.filter fun part => !part.removed

/-- What the library promises: parts of whole lines that make up both texts. -/
structure LineAligned (parts : List Part) (oldContent newContent : JsText) : Prop where
  exclusive : ∀ part ∈ parts, ¬(part.added = true ∧ part.removed = true)
  nonempty : ∀ part ∈ parts, part.isChange = true → part.value ≠ []
  old : (oldSide parts).flatMap Part.value = oldContent
  new : (newSide parts).flatMap Part.value = newContent
  oldLines : WholeLines ((oldSide parts).map Part.value)
  newLines : WholeLines ((newSide parts).map Part.value)

theorem rawLines_of_break (lines : JsText) : rawLines (lines ++ [10]) = lines.splitOn 10 := by
  have happend : (lines ++ [10]).splitOn 10 = lines.splitOn 10 ++ [[]] :=
    splitOn_append_cons_self lines []
  simp [rawLines, happend]

theorem rawLines_prefix (value : JsText) : rawLines value <+: value.splitOn 10 := by
  unfold rawLines
  dsimp only
  split_ifs
  · exact dropLast_prefix _
  · exact prefix_rfl

theorem rawLines_ne_nil {value : JsText} (h : value ≠ []) : rawLines value ≠ [] := by
  obtain hnil | ⟨lines, c, rfl⟩ := eq_nil_or_concat value
  · exact absurd hnil h
  rw [concat_eq_append]
  by_cases hc : c = 10
  · rw [hc, rawLines_of_break]
    exact splitOn_ne_nil 10 lines
  · obtain hnil | ⟨start, last, hsplit⟩ := eq_nil_or_concat (lines.splitOn 10)
    · exact absurd hnil (splitOn_ne_nil 10 lines)
    · rw [concat_eq_append] at hsplit
      have hsingle : [c].splitOn 10 = [[c]] :=
        splitOn_eq_singleton (by simpa using Ne.symm hc)
      have happend : (lines ++ [c]).splitOn 10 = start ++ [last ++ [c]] :=
        splitOn_append hsplit hsingle
      simp [rawLines, happend]

theorem rawLines_flatMap_prefix {values : List JsText} (h : WholeLines values) :
    values.flatMap rawLines <+: values.flatten.splitOn 10 := by
  induction values with
  | nil => exact nil_prefix
  | cons value values ih =>
    cases values with
    | nil =>
      rw [flatMap_singleton, flatten_singleton]
      exact rawLines_prefix value
    | cons next values =>
      obtain ⟨hvalue, hrest⟩ := h
      rw [flatMap_cons, flatten_cons]
      obtain rfl | ⟨lines, rfl⟩ := hvalue
      · exact ih hrest
      · have hsplit : (lines ++ [10] ++ (next :: values).flatten).splitOn 10 =
            lines.splitOn 10 ++ (next :: values).flatten.splitOn 10 := by
          rw [append_assoc, singleton_append, splitOn_append_cons_self]
        rw [hsplit, rawLines_of_break, prefix_append_right_inj]
        exact ih hrest

namespace DiffLine

def isChange : DiffLine → Bool
  | added _ _ | removed _ _ => true
  | context _ _ | skip => false

def inNew : DiffLine → Bool
  | added _ _ | context _ _ => true
  | removed _ _ | skip => false

def NumberedIn (oldLines newLines : List JsText) : DiffLine → Prop
  | added lineNum line => 0 < lineNum ∧ newLines[lineNum - 1]? = some line
  | removed lineNum line => 0 < lineNum ∧ oldLines[lineNum - 1]? = some line
  | context lineNum line => 0 < lineNum ∧ oldLines[lineNum - 1]? = some line
  | skip => True

theorem NumberedIn.mono {oldLines newLines oldText newText : List JsText} {d : DiffLine}
    (hold : oldLines <+: oldText) (hnew : newLines <+: newText)
    (h : d.NumberedIn oldLines newLines) : d.NumberedIn oldText newText := by
  have hmore {lines text : List JsText} (hpre : lines <+: text) {k : ℕ} {line : JsText}
      (hline : lines[k]? = some line) : text[k]? = some line := by
    obtain ⟨rest, rfl⟩ := hpre
    rwa [List.getElem?_append_left (List.getElem?_eq_some_iff.mp hline).1]
  cases d with
  | skip => trivial
  | added n line => exact ⟨h.1, hmore hnew h.2⟩
  | removed n line => exact ⟨h.1, hmore hold h.2⟩
  | context n line => exact ⟨h.1, hmore hold h.2⟩

end DiffLine

def linesOf (parts : List Part) : List JsText := parts.flatMap fun part => rawLines part.value

variable {d : DiffLine} {lines : List JsText} {f : ℕ → JsText → DiffLine} {part : Part}
  {g : DiffLine → Option JsText}

theorem numbered_of_getElem? {before rest : List JsText} {k : ℕ} {line : JsText}
    (h : lines[k]? = some line) :
    0 < before.length + 1 + k ∧ (before ++ (lines ++ rest))[before.length + 1 + k - 1]? =
      some line := by
  refine ⟨by omega, ?_⟩
  have hk : k < lines.length := (List.getElem?_eq_some_iff.mp h).1
  rw [getElem?_append_right (by omega), getElem?_append_left (by omega)]
  rwa [show before.length + 1 + k - 1 - before.length = k by omega]

variable {parts : List Part}

theorem numberedIn_of_mem_allLines
    (hexclusive : ∀ part ∈ parts, ¬(part.added = true ∧ part.removed = true))
    (oldBefore newBefore : List JsText)
    (h : d ∈ allLines (oldBefore.length + 1) (newBefore.length + 1) parts) :
    d.NumberedIn (oldBefore ++ linesOf (oldSide parts)) (newBefore ++ linesOf (newSide parts)) := by
  induction parts generalizing oldBefore newBefore with
  | nil => cases h
  | cons part parts ih =>
    have hpart := hexclusive part mem_cons_self
    have hrest (p : Part) (hp : p ∈ parts) := hexclusive p (mem_cons_of_mem _ hp)
    rw [allLines, mem_append] at h
    cases hadded : part.added with
    | true =>
      have hremoved : part.removed = false := by
        simpa [hadded] using hpart
      have hold : oldSide (part :: parts) = oldSide parts := by simp [oldSide, hadded]
      have hnew : newSide (part :: parts) = part :: newSide parts := by
        simp [newSide, hremoved]
      rw [hold, hnew, linesOf, linesOf, flatMap_cons]
      obtain h | h := h
      · rw [Part.lines, if_pos hadded] at h
        obtain ⟨k, line, hline, rfl⟩ := mem_numberFrom h
        exact numbered_of_getElem? hline
      · rw [Part.oldCount, Part.newCount, if_pos hadded, if_pos hadded] at h
        rw [← append_assoc]
        apply ih hrest
        rwa [length_append, Nat.add_right_comm]
    | false =>
      have hold : oldSide (part :: parts) = part :: oldSide parts := by simp [oldSide, hadded]
      rw [hold, linesOf, flatMap_cons]
      cases hremoved : part.removed with
      | true =>
        have hnew : newSide (part :: parts) = newSide parts := by simp [newSide, hremoved]
        rw [hnew]
        obtain h | h := h
        · rw [Part.lines, if_neg (by simp [hadded]), if_pos hremoved] at h
          obtain ⟨k, line, hline, rfl⟩ := mem_numberFrom h
          exact numbered_of_getElem? hline
        · rw [Part.oldCount, Part.newCount, if_neg (by simp [hadded]),
            if_neg (by simp [hadded]), if_pos hremoved] at h
          rw [← append_assoc]
          apply ih hrest
          rwa [length_append, Nat.add_right_comm]
      | false =>
        have hnew : newSide (part :: parts) = part :: newSide parts := by
          simp [newSide, hremoved]
        rw [hnew, linesOf, flatMap_cons]
        obtain h | h := h
        · rw [Part.lines, if_neg (by simp [hadded]), if_neg (by simp [hremoved])] at h
          obtain ⟨k, line, hline, rfl⟩ := mem_numberFrom h
          exact numbered_of_getElem? hline
        · rw [Part.oldCount, Part.newCount, if_neg (by simp [hadded]),
            if_neg (by simp [hadded]), if_neg (by simp [hremoved])] at h
          rw [← append_assoc, ← append_assoc]
          apply ih hrest
          rwa [length_append, length_append, Nat.add_right_comm,
            Nat.add_right_comm newBefore.length]

/-- Of some lines all changes are shown, and others next to a change. -/
structure Shows (contextLines : ℕ) (afterChange beforeChange : Prop) (lines shown : List DiffLine) :
    Prop where
  sublist : (shown.filter (· ≠ .skip)).Sublist lines
  changes : shown.filter DiffLine.isChange = lines.filter DiffLine.isChange
  near : ∀ n line, .context n line ∈ shown → ∃ k : ℕ, lines[k]? = some (.context n line) ∧
    ((afterChange ∧ k < contextLines) ∨ (beforeChange ∧ lines.length ≤ k + contextLines))

theorem isChange_of_mem_numberFrom {b : Bool} {n : ℕ} (hf : ∀ n line, (f n line).isChange = b)
    (h : d ∈ numberFrom f n lines) : d.isChange = b := by
  obtain ⟨k, line, -, rfl⟩ := mem_numberFrom h
  exact hf _ _

theorem numberFrom_filter_skip (hf : ∀ n line, f n line ≠ .skip) (n : ℕ) (lines : List JsText) :
    (numberFrom f n lines).filter (· ≠ .skip) = numberFrom f n lines := by
  rw [filter_eq_self]
  intro d hd
  obtain ⟨k, line, -, rfl⟩ := mem_numberFrom hd
  exact decide_eq_true (hf _ _)

theorem shows_change {contextLines : ℕ} {oldLineNum newLineNum : ℕ}
    {afterChange beforeChange : Prop} (h : part.isChange = true) :
    Shows contextLines afterChange beforeChange (part.lines oldLineNum newLineNum)
      (part.lines oldLineNum newLineNum) := by
  have hlines : (part.lines oldLineNum newLineNum).filter (· ≠ .skip) =
        part.lines oldLineNum newLineNum ∧
      ∀ d ∈ part.lines oldLineNum newLineNum, d.isChange = true := by
    rw [Part.isChange, Bool.or_eq_true] at h
    rw [Part.lines]
    split_ifs with hadded hremoved
    · exact ⟨numberFrom_filter_skip (fun _ _ => DiffLine.noConfusion) _ _,
        fun d hd => isChange_of_mem_numberFrom (b := true) (fun _ _ => rfl) hd⟩
    · exact ⟨numberFrom_filter_skip (fun _ _ => DiffLine.noConfusion) _ _,
        fun d hd => isChange_of_mem_numberFrom (b := true) (fun _ _ => rfl) hd⟩
    · exact absurd h (by simp [hadded, hremoved])
  refine ⟨by rw [hlines.1], rfl, fun n line hmem => ?_⟩
  exact absurd (hlines.2 _ hmem) Bool.false_ne_true

variable (contextLines : ℕ) (s : DiffState) (oldLineNum newLineNum : ℕ)

theorem shows_context (lastWasChange nextPartIsChange : Bool) (n : ℕ) (raw : List JsText) :
    Shows contextLines (lastWasChange = true) (nextPartIsChange = true)
      (numberFrom .context n raw)
      (shownContext contextLines lastWasChange nextPartIsChange (numberFrom .context n raw)) := by
  have hfilter := numberFrom_filter_skip (f := .context) (fun _ _ => DiffLine.noConfusion) n raw
  have hchange {d : DiffLine} (hd : d ∈ numberFrom .context n raw) : ¬d.isChange = true := by
    rw [isChange_of_mem_numberFrom (b := false) (fun _ _ => rfl) hd]
    exact Bool.false_ne_true
  generalize numberFrom .context n raw = lines at hfilter hchange
  have hsub {part : List DiffLine} (hpart : part.Sublist lines) :
      part.filter (· ≠ .skip) = part ∧ part.filter DiffLine.isChange = [] := by
    refine ⟨filter_eq_self.mpr fun d hd => ?_, filter_eq_nil_iff.mpr fun d hd => ?_⟩
    · exact filter_eq_self.mp hfilter d (hpart.subset hd)
    · exact hchange (hpart.subset hd)
  have htake := hsub (take_sublist contextLines lines)
  have hdrop := hsub (drop_sublist (lines.length - contextLines) lines)
  have hall := hsub (Sublist.refl lines)
  have hmemTake {d : DiffLine} (hd : d ∈ lines.take contextLines) :
      ∃ k : ℕ, lines[k]? = some d ∧ k < contextLines := by
    obtain ⟨k, hk⟩ := mem_iff_getElem?.mp hd
    rw [getElem?_take] at hk
    split_ifs at hk with hlt
    exact ⟨k, hk, hlt⟩
  have hmemDrop {d : DiffLine} (hd : d ∈ lines.drop (lines.length - contextLines)) :
      ∃ k : ℕ, lines[k]? = some d ∧ lines.length ≤ k + contextLines := by
    obtain ⟨k, hk⟩ := mem_iff_getElem?.mp hd
    rw [getElem?_drop] at hk
    exact ⟨_, hk, by omega⟩
  have hskip : (if lines.length - contextLines > 0 then [DiffLine.skip] else []).filter
        (· ≠ .skip) = [] ∧
      (if lines.length - contextLines > 0 then [DiffLine.skip] else []).filter
        DiffLine.isChange = [] ∧
      ∀ n line, DiffLine.context n line ∉
        (if lines.length - contextLines > 0 then [DiffLine.skip] else []) := by
    split_ifs
    · exact ⟨rfl, rfl, fun n line hmem => DiffLine.noConfusion (mem_singleton.mp hmem)⟩
    · exact ⟨rfl, rfl, fun n line => not_mem_nil⟩
  unfold shownContext
  cases lastWasChange <;> cases nextPartIsChange <;>
    simp only [Bool.and_true, Bool.and_false, Bool.and_self, Bool.false_eq_true, if_true, if_false]
  · exact ⟨nil_sublist _, hall.2.symm, nofun⟩
  · refine ⟨?_, ?_, fun n line hmem => ?_⟩
    · rw [filter_append, hskip.1, hdrop.1]
      exact drop_sublist _ _
    · rw [filter_append, hskip.2.1, hdrop.2, hall.2]
      rfl
    · obtain hmem | hmem := mem_append.mp hmem
      · exact absurd hmem (hskip.2.2 n line)
      · obtain ⟨k, hk, hlast⟩ := hmemDrop hmem
        exact ⟨k, hk, .inr ⟨trivial, hlast⟩⟩
  · refine ⟨?_, ?_, fun n line hmem => ?_⟩
    · rw [filter_append, hskip.1, htake.1, append_nil]
      exact take_sublist _ _
    · rw [filter_append, hskip.2.1, htake.2, hall.2]
      rfl
    · obtain hmem | hmem := mem_append.mp hmem
      · obtain ⟨k, hk, hfirst⟩ := hmemTake hmem
        exact ⟨k, hk, .inl ⟨trivial, hfirst⟩⟩
      · exact absurd hmem (hskip.2.2 n line)
  · split_ifs with hfew
    · refine ⟨by rw [hall.1], rfl, fun n line hmem => ?_⟩
      obtain ⟨k, hk⟩ := mem_iff_getElem?.mp hmem
      refine ⟨k, hk, ?_⟩
      by_cases hfirst : k < contextLines
      · exact .inl ⟨trivial, hfirst⟩
      · exact .inr ⟨trivial, by omega⟩
    · refine ⟨?_, ?_, fun n line hmem => ?_⟩
      · rw [filter_append, filter_cons_of_neg (by simp), htake.1, hdrop.1]
        have hle : contextLines ≤ lines.length - contextLines := by omega
        calc (lines.take contextLines ++ lines.drop (lines.length - contextLines)).Sublist
              (lines.take contextLines ++ lines.drop contextLines) :=
              (Sublist.refl _).append (drop_sublist_drop_left lines hle)
          _ = lines := take_append_drop _ _
      · rw [filter_append, filter_cons_of_neg (by simp [DiffLine.isChange]), htake.2,
          hdrop.2, hall.2]
        rfl
      · obtain hmem | hmem := mem_append.mp hmem
        · obtain ⟨k, hk, hfirst⟩ := hmemTake hmem
          exact ⟨k, hk, .inl ⟨trivial, hfirst⟩⟩
        · obtain hmem | hmem := mem_cons.mp hmem
          · exact DiffLine.noConfusion hmem
          · obtain ⟨k, hk, hlast⟩ := hmemDrop hmem
            exact ⟨k, hk, .inr ⟨trivial, hlast⟩⟩

def NearChange (contextLines : ℕ) (lines : List DiffLine) (d : DiffLine) : Prop :=
  ∃ p q : ℕ, ∃ e, lines[p]? = some d ∧ lines[q]? = some e ∧ e.isChange = true ∧
    p ≤ q + contextLines ∧ q ≤ p + contextLines

/-- What a run over parts shows of their lines; `before` are the lines of the parts before. -/
structure ShowsAll (contextLines : ℕ) (before lines shown : List DiffLine) : Prop where
  sublist : (shown.filter (· ≠ .skip)).Sublist lines
  changes : shown.filter DiffLine.isChange = lines.filter DiffLine.isChange
  near : ∀ n line, .context n line ∈ shown →
    NearChange contextLines (before ++ lines) (.context n line)

theorem shown_shows (part : Part) (nextPartIsChange : Bool) :
    Shows contextLines (s.lastWasChange = true) (nextPartIsChange = true)
      (part.lines s.oldLineNum s.newLineNum) (part.shown contextLines s nextPartIsChange) := by
  rw [Part.shown]
  split_ifs with hchange
  · exact shows_change hchange
  · have hlines : part.lines s.oldLineNum s.newLineNum =
        numberFrom .context s.oldLineNum (rawLines part.value) := by
      simp only [Part.isChange, Bool.or_eq_true, not_or] at hchange
      rw [Part.lines, if_neg hchange.1, if_neg hchange.2]
    rw [hlines]
    exact shows_context contextLines _ _ _ _

theorem lines_of_change (hvalue : part.value ≠ []) (h : part.isChange = true)
    (oldLineNum newLineNum : ℕ) : part.lines oldLineNum newLineNum ≠ [] ∧
      ∀ d ∈ part.lines oldLineNum newLineNum, d.isChange = true := by
  have hraw := rawLines_ne_nil hvalue
  have hne {f : ℕ → JsText → DiffLine} {n : ℕ} : numberFrom f n (rawLines part.value) ≠ [] := by
    intro hnil
    have hlength := congrArg List.length hnil
    rw [length_numberFrom] at hlength
    exact hraw (eq_nil_of_length_eq_zero hlength)
  rw [Part.isChange, Bool.or_eq_true] at h
  rw [Part.lines]
  split_ifs with hadded hremoved
  · exact ⟨hne, fun d hd => isChange_of_mem_numberFrom (b := true) (fun _ _ => rfl) hd⟩
  · exact ⟨hne, fun d hd => isChange_of_mem_numberFrom (b := true) (fun _ _ => rfl) hd⟩
  · exact absurd h (by simp [hadded, hremoved])

theorem addParts_shows (before : List DiffLine)
    (hparts : ∀ part ∈ parts, part.isChange = true → part.value ≠ [])
    (hlast : s.lastWasChange = true → ∃ start d, before = start ++ [d] ∧ d.isChange = true) :
    ∃ shown, (s.addParts contextLines parts).output = s.output ++ shown ∧
      ShowsAll contextLines before (allLines s.oldLineNum s.newLineNum parts) shown := by
  induction parts generalizing s before with
  | nil =>
    refine ⟨[], (append_nil _).symm, .slnil, rfl, fun n line h => ?_⟩
    cases h
  | cons part parts ih =>
    generalize hnext : parts.head?.any Part.isChange = nextPartIsChange
    have hpart := shown_shows contextLines s part nextPartIsChange
    generalize hlines : part.lines s.oldLineNum s.newLineNum = lines at hpart
    have heq := addPart_eq contextLines s part nextPartIsChange
    obtain ⟨shown, houtput, hshown⟩ := ih (s.addPart contextLines part nextPartIsChange)
      (before ++ lines) (fun p hp => hparts p (mem_cons_of_mem _ hp)) (by
        intro hchange
        rw [heq] at hchange
        obtain ⟨hne, hall⟩ := lines_of_change (hparts part mem_cons_self hchange) hchange
          s.oldLineNum s.newLineNum
        rw [hlines] at hne hall
        obtain hnil | ⟨start, d, rfl⟩ := eq_nil_or_concat lines
        · exact absurd hnil hne
        · exact ⟨before ++ start, d, by simp, hall d (by simp)⟩)
    rw [DiffState.addParts, hnext, houtput]
    simp only [heq] at hshown ⊢
    rw [allLines, hlines]
    refine ⟨_, append_assoc _ _ _, ?_, ?_, fun n line hmem => ?_⟩
    · rw [filter_append]
      exact hpart.sublist.append hshown.sublist
    · rw [filter_append, filter_append, hpart.changes, hshown.changes]
    · obtain hmem | hmem := mem_append.mp hmem
      · obtain ⟨k, hk, hnear⟩ := hpart.near n line hmem
        have hlt : k < lines.length := (List.getElem?_eq_some_iff.mp hk).1
        have hat {rest : List DiffLine} :
            (before ++ (lines ++ rest))[before.length + k]? = some (.context n line) := by
          rw [getElem?_append_right (by omega), Nat.add_sub_cancel_left, getElem?_append_left hlt]
          exact hk
        obtain ⟨hafter, hfirst⟩ | ⟨hbefore, hend⟩ := hnear
        · -- The change is the line before the part.
          obtain ⟨start, d, rfl, hd⟩ := hlast hafter
          refine ⟨_, start.length, d, hat, by simp, hd, ?_, ?_⟩
          all_goals
            rw [length_append, length_singleton]
            omega
        · -- The change is the first line of the next part.
          cases parts with
          | nil => exact absurd (hnext.trans hbefore) Bool.false_ne_true
          | cons next parts =>
            have hchange : next.isChange = true := hnext.trans hbefore
            obtain ⟨hne, hall⟩ := lines_of_change
              (hparts next (mem_cons_of_mem _ mem_cons_self) hchange) hchange
              (s.oldLineNum + part.oldCount) (s.newLineNum + part.newCount)
            obtain ⟨d, rest, hcons⟩ := exists_cons_of_ne_nil hne
            refine ⟨_, before.length + lines.length, d, hat, ?_, ?_, by omega, by omega⟩
            · rw [allLines, hcons, cons_append,
                getElem?_append_right (by omega), Nat.add_sub_cancel_left]
              simp
            · exact hall d (hcons ▸ mem_cons_self)
      · have hnear := hshown.near n line hmem
        rwa [append_assoc] at hnear

theorem lines_of_context (h : ¬part.isChange = true) (oldLineNum newLineNum : ℕ) :
    (∀ d ∈ part.lines oldLineNum newLineNum, d.isChange = false ∧ d.inNew = true) ∧
      (part.lines oldLineNum newLineNum).length = part.newCount := by
  simp only [Part.isChange, Bool.or_eq_true, not_or] at h
  rw [Part.lines, if_neg h.1, if_neg h.2, Part.newCount, if_neg h.1, if_neg h.2, length_numberFrom]
  refine ⟨fun d hd => ?_, rfl⟩
  obtain ⟨k, line, -, rfl⟩ := mem_numberFrom hd
  exact ⟨rfl, rfl⟩

/-- The first change of some lines, by its line number in the new text. -/
def firstChange (newLineNum : ℕ) (lines : List DiffLine) : Option ℕ :=
  (lines.findIdx? DiffLine.isChange).map fun i => newLineNum + (lines.take i).countP DiffLine.inNew

theorem addParts_firstChangedLine (hparts : ∀ part ∈ parts, part.isChange = true → part.value ≠ []) :
    (s.addParts contextLines parts).firstChangedLine =
      s.firstChangedLine.or
        (firstChange s.newLineNum (allLines s.oldLineNum s.newLineNum parts)) := by
  induction parts generalizing s with
  | nil => exact (or_none).symm
  | cons part parts ih =>
    have hrest := ih (s.addPart contextLines part (parts.head?.any Part.isChange))
      fun p hp => hparts p (mem_cons_of_mem _ hp)
    rw [DiffState.addParts, hrest, addPart_eq, allLines]
    split_ifs with hchange
    · obtain ⟨hne, hall⟩ := lines_of_change (hparts part mem_cons_self hchange) hchange
        s.oldLineNum s.newLineNum
      obtain ⟨d, lines, hcons⟩ := exists_cons_of_ne_nil hne
      have hd : d.isChange = true := hall d (hcons ▸ mem_cons_self)
      have hfirst (rest : List DiffLine) :
          firstChange s.newLineNum (part.lines s.oldLineNum s.newLineNum ++ rest) =
            some s.newLineNum := by
        rw [hcons, firstChange, cons_append, findIdx?_cons, if_pos hd]
        rfl
      rw [hfirst]
      cases s.firstChangedLine <;> rfl
    · obtain ⟨hall, hlength⟩ := lines_of_context hchange s.oldLineNum s.newLineNum
      generalize part.lines s.oldLineNum s.newLineNum = lines at hall hlength
      have hnone : lines.findIdx? DiffLine.isChange = none :=
        findIdx?_eq_none_iff.mpr fun d hd => (hall d hd).1
      have hcount : lines.countP DiffLine.inNew = part.newCount := by
        rw [← hlength, countP_eq_length]
        exact fun d hd => (hall d hd).2
      congr 1
      rw [firstChange, firstChange, List.findIdx?_append, hnone, Option.none_or, Option.map_map]
      congr 1
      funext i
      rw [Function.comp_apply, Nat.add_comm i, take_length_add_append, countP_append,
        hcount, Nat.add_assoc]

def DiffLine.addedLine : DiffLine → Option JsText
  | added _ line => some line
  | _ => none

def DiffLine.removedLine : DiffLine → Option JsText
  | removed _ line => some line
  | _ => none

theorem filterMap_numberFrom {h : JsText → Option JsText} (hf : ∀ n line, g (f n line) = h line)
    (n : ℕ) (lines : List JsText) : (numberFrom f n lines).filterMap g = lines.filterMap h := by
  induction lines generalizing n with
  | nil => rfl
  | cons line lines ih => rw [numberFrom, filterMap_cons, filterMap_cons, hf, ih]

theorem addedLines_allLines (parts : List Part) :
    (allLines oldLineNum newLineNum parts).filterMap DiffLine.addedLine =
      linesOf (parts.filter Part.added) := by
  induction parts generalizing oldLineNum newLineNum with
  | nil => rfl
  | cons part parts ih =>
    rw [allLines, filterMap_append, ih, Part.lines]
    split_ifs with hadded hremoved
    · rw [filterMap_numberFrom (h := some) (fun _ _ => rfl), filterMap_some,
        filter_cons_of_pos hadded]
      rfl
    · rw [filterMap_numberFrom (h := fun _ => none) (fun _ _ => rfl), filterMap_none,
        filter_cons_of_neg hadded]
      rfl
    · rw [filterMap_numberFrom (h := fun _ => none) (fun _ _ => rfl), filterMap_none,
        filter_cons_of_neg hadded]
      rfl

theorem removedLines_allLines
    (hexclusive : ∀ part ∈ parts, ¬(part.added = true ∧ part.removed = true))
    (oldLineNum newLineNum : ℕ) :
    (allLines oldLineNum newLineNum parts).filterMap DiffLine.removedLine =
      linesOf (parts.filter Part.removed) := by
  induction parts generalizing oldLineNum newLineNum with
  | nil => rfl
  | cons part parts ih =>
    have hpart := hexclusive part mem_cons_self
    rw [allLines, filterMap_append, ih fun p hp => hexclusive p (mem_cons_of_mem _ hp), Part.lines]
    split_ifs with hadded hremoved
    · rw [filterMap_numberFrom (h := fun _ => none) (fun _ _ => rfl), filterMap_none,
        filter_cons_of_neg fun hremoved => hpart ⟨hadded, hremoved⟩]
      rfl
    · rw [filterMap_numberFrom (h := some) (fun _ _ => rfl), filterMap_some,
        filter_cons_of_pos hremoved]
      rfl
    · rw [filterMap_numberFrom (h := fun _ => none) (fun _ _ => rfl), filterMap_none,
        filter_cons_of_neg hremoved]
      rfl

theorem filterMap_of_changes (hg : ∀ d, d.isChange = false → g d = none) {a b : List DiffLine}
    (h : a.filter DiffLine.isChange = b.filter DiffLine.isChange) :
    a.filterMap g = b.filterMap g := by
  have hfilter (lines : List DiffLine) :
      (lines.filter DiffLine.isChange).filterMap g = lines.filterMap g := by
    rw [filterMap_filter]
    refine filterMap_congr fun d _ => ?_
    cases hd : d.isChange with
    | true => rfl
    | false => exact (hg d hd).symm
  rw [← hfilter a, h, hfilter b]

/-- The lines of a diff: their numbers, which of them are shown, and the first change. -/
structure RightDiff (contextLines : ℕ) (parts : List Part) (oldContent newContent : JsText)
    (output : List DiffLine) (firstChangedLine : Option ℕ) : Prop where
  numbers : ∀ d ∈ output, d.NumberedIn (oldContent.splitOn 10) (newContent.splitOn 10)
  allAdded : output.filterMap DiffLine.addedLine = linesOf (parts.filter Part.added)
  allRemoved : output.filterMap DiffLine.removedLine = linesOf (parts.filter Part.removed)
  inOrder : (output.filter (· ≠ .skip)).Sublist (allLines 1 1 parts)
  near : ∀ n line, .context n line ∈ output →
    NearChange contextLines (allLines 1 1 parts) (.context n line)
  firstChangedLine : firstChangedLine = firstChange 1 (allLines 1 1 parts)

theorem rightDiff_addParts {oldContent newContent : JsText}
    (h : LineAligned parts oldContent newContent) (contextLines : ℕ) :
    RightDiff contextLines parts oldContent newContent
      (DiffState.initial.addParts contextLines parts).output
      (DiffState.initial.addParts contextLines parts).firstChangedLine := by
  obtain ⟨shown, houtput, hshown⟩ := addParts_shows contextLines DiffState.initial []
    h.nonempty fun hlast => absurd hlast Bool.false_ne_true
  rw [houtput]
  have hside {side : List Part} {content : JsText} (hcontent : side.flatMap Part.value = content)
      (hwhole : WholeLines (side.map Part.value)) : linesOf side <+: content.splitOn 10 := by
    have hpre := rawLines_flatMap_prefix hwhole
    rwa [flatMap_map, ← flatMap_def, hcontent] at hpre
  have hadded := filterMap_of_changes (g := DiffLine.addedLine)
    (fun d hd => by cases d <;> first | rfl | cases hd) hshown.changes
  have hremoved := filterMap_of_changes (g := DiffLine.removedLine)
    (fun d hd => by cases d <;> first | rfl | cases hd) hshown.changes
  refine ⟨fun d hd => ?_, hadded.trans (addedLines_allLines 1 1 parts),
    hremoved.trans (removedLines_allLines h.exclusive 1 1), hshown.sublist, hshown.near, ?_⟩
  · by_cases hskip : d = .skip
    · rw [hskip]
      trivial
    · have hmem : d ∈ allLines 1 1 parts :=
        hshown.sublist.subset (mem_filter.mpr ⟨hd, decide_eq_true hskip⟩)
      have hnumber := numberedIn_of_mem_allLines h.exclusive [] [] hmem
      exact hnumber.mono (hside h.old h.oldLines) (hside h.new h.newLines)
  · exact addParts_firstChangedLine contextLines DiffState.initial h.nonempty

/-- With line-aligned parts the diff has the right lines with the right numbers. -/
theorem generateDiffString_right (diffLines : JsText → JsText → List Part)
    (oldContent newContent : JsText) (contextLines : ℕ)
    (h : LineAligned (diffLines oldContent newContent) oldContent newContent) :
    ∃ output, (generateDiffString diffLines oldContent newContent contextLines).diff =
        List.intercalate [10]
          (output.map (DiffLine.render (lineNumWidth oldContent newContent))) ∧
      RightDiff contextLines (diffLines oldContent newContent) oldContent newContent output
        (generateDiffString diffLines oldContent newContent contextLines).firstChangedLine :=
  ⟨_, rfl, rightDiff_addParts h contextLines⟩

/-- The parts of `"a\nb\n"` and `"a\nc\n"`. -/
def changedLine : List Part :=
  [⟨[97, 10], false, false⟩, ⟨[98, 10], false, true⟩, ⟨[99, 10], true, false⟩]

theorem changedLine_aligned : LineAligned changedLine [97, 10, 98, 10] [97, 10, 99, 10] where
  exclusive := by decide
  nonempty := by decide
  old := rfl
  new := rfl
  oldLines := ⟨.inr ⟨[97], rfl⟩, trivial⟩
  newLines := ⟨.inr ⟨[97], rfl⟩, trivial⟩

theorem changedLine_right : ∃ output,
    (generateDiffString (fun _ _ => changedLine) [97, 10, 98, 10] [97, 10, 99, 10] 4).diff =
        List.intercalate [10]
          (output.map (DiffLine.render (lineNumWidth [97, 10, 98, 10] [97, 10, 99, 10]))) ∧
      RightDiff 4 changedLine [97, 10, 98, 10] [97, 10, 99, 10] output
        (generateDiffString (fun _ _ => changedLine) [97, 10, 98, 10]
          [97, 10, 99, 10] 4).firstChangedLine :=
  generateDiffString_right (fun _ _ => changedLine) [97, 10, 98, 10] [97, 10, 99, 10] 4
    changedLine_aligned

end Draht.LineDiff
