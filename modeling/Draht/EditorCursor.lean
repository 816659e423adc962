import Draht.EditorFlat
import Draht.EditorMarkers

/-!
# The cursor on the screen

The lines that are drawn and the visual lines that the cursor moves over come from two loops. Both
go over the same chunks, so they put the cursor in the same place, if the wrapping returns.
-/

namespace Draht
open List Option

structure LayoutLine where
  text : JsText
  hasCursor : Bool
  cursorPos : Option ℕ
deriving DecidableEq

/-- A chunk as it is drawn; the cursor is kept within the text of the chunk. -/
def LayoutLine.ofChunk (isCurrentLine isLastChunk : Bool) (cursorPos : ℕ) (chunk : TextChunk) :
    LayoutLine :=
  if isCurrentLine then
    if isLastChunk then
      if chunk.startIndex ≤ cursorPos then ⟨chunk.text, true, some (cursorPos - chunk.startIndex)⟩
      else ⟨chunk.text, false, none⟩
    else if chunk.startIndex ≤ cursorPos ∧ cursorPos < chunk.endIndex then
      ⟨chunk.text, true, some (min (cursorPos - chunk.startIndex) chunk.text.length)⟩
    else ⟨chunk.text, false, none⟩
  else ⟨chunk.text, false, none⟩

def layoutChunks (isCurrentLine : Bool) (cursorPos : ℕ) : List TextChunk → List LayoutLine
  | [] => []
  | chunk :: chunks =>
    LayoutLine.ofChunk isCurrentLine chunks.isEmpty cursorPos chunk ::
      layoutChunks isCurrentLine cursorPos chunks

section Layout

variable (U : TextUnits) (validIds : List ℕ) (contentWidth cursorLine cursorCol : ℕ)

/-- The loop over the lines from the line `i` on. -/
def layoutLines : ℕ → List JsText → Option (List LayoutLine)
  | _, [] => some []
  | i, line :: lines =>
    let isCurrentLine := decide (i = cursorLine)
    let here :=
      if U.visibleWidth line ≤ contentWidth then
        some [⟨line, isCurrentLine, if isCurrentLine then some cursorCol else none⟩]
      else
        (wordWrapLine U contentWidth (line.length + 2) line
          (segmentWithMarkers U line validIds)).map (layoutChunks isCurrentLine cursorCol)
    here.bind fun layout => (layoutLines (i + 1) lines).map fun rest => layout ++ rest

def layoutText (lines : List JsText) : Option (List LayoutLine) :=
  if lines = [] ∨ lines = [[]] then some [⟨[], true, some 0⟩]
  else layoutLines U validIds contentWidth cursorLine cursorCol 0 lines

end Layout

def lineChunks (U : TextUnits) (validIds : List ℕ) (width : ℕ) (line : JsText) :
    Option (List TextChunk) :=
  if line = [] ∨ U.visibleWidth line ≤ width then some [⟨line, 0, line.length⟩]
  else wordWrapLine U width (line.length + 2) line (segmentWithMarkers U line validIds)

def visualChunks (i : ℕ) (chunks : List TextChunk) : List VisualLine :=
  chunks.map fun c => ⟨i, c.startIndex, c.endIndex - c.startIndex⟩

section Chunks

variable {U : TextUnits} {validIds : List ℕ} {width : ℕ}

theorem buildVisualLineMap_cons (i : ℕ) (line : JsText) (lines : List JsText) :
    buildVisualLineMap U validIds width i (line :: lines) =
      (lineChunks U validIds width line).bind fun chunks =>
        (buildVisualLineMap U validIds width (i + 1) lines).map fun rest =>
          visualChunks i chunks ++ rest := by
  rw [buildVisualLineMap, lineChunks]
  by_cases hempty : line = []
  · subst hempty
    rfl
  · by_cases hfits : U.visibleWidth line ≤ width
    · simp only [if_neg hempty, if_pos hfits, if_pos (.inr hfits : line = [] ∨ _)]
      rfl
    · rw [if_neg (not_or.mpr ⟨hempty, hfits⟩)]
      simp only [if_neg hempty, if_neg hfits]
      rw [bind_map]
      rfl

theorem layoutLines_cons (cursorLine cursorCol i : ℕ) (line : JsText) (lines : List JsText) :
    layoutLines U validIds width cursorLine cursorCol i (line :: lines) =
      (lineChunks U validIds width line).bind fun chunks =>
        (layoutLines U validIds width cursorLine cursorCol (i + 1) lines).map fun rest =>
          layoutChunks (decide (i = cursorLine)) cursorCol chunks ++ rest := by
  have hsingle : layoutChunks (decide (i = cursorLine)) cursorCol [⟨line, 0, line.length⟩] =
      [⟨line, decide (i = cursorLine),
        if decide (i = cursorLine) then some cursorCol else none⟩] := by
    cases decide (i = cursorLine) with
    | true => rfl
    | false => rfl
  rw [layoutLines, lineChunks]
  by_cases hfits : U.visibleWidth line ≤ width
  · simp [if_pos hfits, if_pos (.inr hfits : line = [] ∨ _), hsingle]
  · simp only [if_neg hfits]
    by_cases hempty : line = []
    · subst hempty
      rfl
    · rw [if_neg (not_or.mpr ⟨hempty, hfits⟩), bind_map]
      rfl

end Chunks

/-- The visual line `j` of `visual` and the line `j` of `layout` either both have the cursor, in the
same column, or neither has it. -/
structure SameCursor (cursorLine cursorCol : ℕ) (layout : List LayoutLine)
    (visual : List VisualLine) : Prop where
  length_eq : layout.length = visual.length
  shown : ∀ j, ((layout[j]?).any fun l => l.hasCursor) = holdsCursor visual cursorLine cursorCol j
  column : ∀ (j : ℕ) (l : LayoutLine) (vl : VisualLine), layout[j]? = some l →
    visual[j]? = some vl → l.hasCursor = true → vl.startCol ≤ cursorCol ∧
      l.cursorPos = some (cursorCol - vl.startCol)

theorem holdsCursor_cons (vl : VisualLine) (visual : List VisualLine) (cursorLine cursorCol j : ℕ) :
    holdsCursor (vl :: visual) cursorLine cursorCol (j + 1) =
      holdsCursor visual cursorLine cursorCol j := rfl

variable {later here : List VisualLine}

theorem holdsCursor_append {i cursorLine cursorCol j : ℕ} (hhere : ∀ vl ∈ here, vl.logicalLine = i)
    (hlater : ∀ vl ∈ later, vl.logicalLine ≠ i) (hj : j < here.length) :
    holdsCursor (here ++ later) cursorLine cursorCol j =
      holdsCursor here cursorLine cursorCol j := by
  induction here generalizing j with
  | nil => exact absurd hj (Nat.not_lt_zero j)
  | cons vl here ih =>
    cases j with
    | succ j =>
      exact ih (fun v hv => hhere v (mem_cons_of_mem _ hv)) (Nat.lt_of_succ_lt_succ hj)
    | zero =>
      have hvl := hhere vl mem_cons_self
      cases here with
      | cons next here => rfl
      | nil =>
        cases later with
        | nil => rfl
        | cons next later =>
          have hnext : (next.logicalLine != i) = true :=
            bne_iff_ne.mpr (hlater next mem_cons_self)
          simp [holdsCursor, isLastSegment, hvl, hnext]

theorem holdsCursor_append_right {cursorLine cursorCol j : ℕ} :
    holdsCursor (here ++ later) cursorLine cursorCol (here.length + j) =
      holdsCursor later cursorLine cursorCol j := by
  induction here with
  | nil => rw [nil_append, length_nil, Nat.zero_add]
  | cons vl here ih =>
    rw [cons_append, length_cons, Nat.add_right_comm, holdsCursor_cons, ih]

theorem sameCursor_nil (cursorLine cursorCol : ℕ) : SameCursor cursorLine cursorCol [] [] where
  length_eq := rfl
  shown _ := rfl
  column _ _ _ h := absurd h.symm (some_ne_none _)

theorem SameCursor.append {layout laterLayout : List LayoutLine} {i cursorLine cursorCol : ℕ}
    (h : SameCursor cursorLine cursorCol layout here)
    (h' : SameCursor cursorLine cursorCol laterLayout later)
    (hhere : ∀ vl ∈ here, vl.logicalLine = i) (hlater : ∀ vl ∈ later, vl.logicalLine ≠ i) :
    SameCursor cursorLine cursorCol (layout ++ laterLayout) (here ++ later) where
  length_eq := by rw [length_append, length_append, h.length_eq, h'.length_eq]
  shown j := by
    obtain hj | hj := Nat.lt_or_ge j here.length
    · rw [getElem?_append_left (h.length_eq ▸ hj), holdsCursor_append hhere hlater hj,
        h.shown]
    · obtain ⟨k, rfl⟩ := Nat.exists_eq_add_of_le hj
      rw [holdsCursor_append_right, ← h.length_eq,
        getElem?_append_right (Nat.le_add_right _ _), Nat.add_sub_cancel_left, h'.shown]
  column j l vl hl hvl := by
    obtain hj | hj := Nat.lt_or_ge j here.length
    · rw [getElem?_append_left (h.length_eq ▸ hj)] at hl
      rw [getElem?_append_left hj] at hvl
      exact h.column j l vl hl hvl
    · rw [getElem?_append_right (h.length_eq ▸ hj), h.length_eq] at hl
      rw [getElem?_append_right hj] at hvl
      exact h'.column _ l vl hl hvl

section Chunks

variable {line : JsText} {start stop cursorLine cursorCol i : ℕ} {chunks : List TextChunk}

theorem logicalLine_visualChunks {vl : VisualLine} (h : vl ∈ visualChunks i chunks) :
    vl.logicalLine = i := by
  obtain ⟨c, -, rfl⟩ := mem_map.mp h
  rfl

theorem sameCursor_of_ne (hne : i ≠ cursorLine) :
    SameCursor cursorLine cursorCol (layoutChunks (decide (i = cursorLine)) cursorCol chunks)
      (visualChunks i chunks) := by
  rw [decide_eq_false hne]
  induction chunks with
  | nil => exact sameCursor_nil _ _
  | cons c chunks ih =>
    refine ⟨congrArg (· + 1) ih.length_eq, fun j => ?_, fun j l vl hl hvl hshown => ?_⟩
    · cases j with
      | succ j => exact ih.shown j
      | zero => simp [layoutChunks, LayoutLine.ofChunk, visualChunks, holdsCursor, hne]
    · cases j with
      | succ j => exact ih.column j l vl hl hvl hshown
      | zero =>
        cases hl
        exact absurd hshown Bool.false_ne_true

theorem hasCursor_last (c : TextChunk) (cursorPos : ℕ) :
    (LayoutLine.ofChunk true true cursorPos c).hasCursor = true ↔ c.startIndex ≤ cursorPos := by
  simp only [LayoutLine.ofChunk, if_true]
  split_ifs with h
  · exact iff_of_true rfl h
  · exact iff_of_false not_false h

theorem hasCursor_inner (c : TextChunk) (cursorPos : ℕ) :
    (LayoutLine.ofChunk true false cursorPos c).hasCursor = true ↔
      c.startIndex ≤ cursorPos ∧ cursorPos < c.endIndex := by
  simp only [LayoutLine.ofChunk, if_true, Bool.false_eq_true, if_false]
  split_ifs with h
  · exact iff_of_true rfl h
  · exact iff_of_false not_false h

theorem holdsCursor_single (i startCol length cursorCol : ℕ) :
    holdsCursor [⟨i, startCol, length⟩] i cursorCol 0 = true ↔
      startCol ≤ cursorCol ∧ cursorCol - startCol ≤ length := by
  simp only [holdsCursor, isLastSegment, getElem?_cons_zero, getElem?_cons_succ,
    getElem?_nil, decide_true, Bool.true_and, Bool.and_eq_true, Bool.or_eq_true,
    decide_eq_true_eq]
  omega

theorem holdsCursor_first (i startCol length startCol' length' cursorCol : ℕ)
    (visual : List VisualLine) :
    holdsCursor (⟨i, startCol, length⟩ :: ⟨i, startCol', length'⟩ :: visual) i cursorCol 0 = true ↔
      startCol ≤ cursorCol ∧ cursorCol - startCol < length := by
  simp [holdsCursor, isLastSegment]

theorem sameCursor_of_tiles (h : Tiles line stop start chunks) (hstop : stop ≤ line.length)
    (hcol : cursorCol ≤ stop) :
    SameCursor cursorLine cursorCol (layoutChunks true cursorCol chunks)
      (visualChunks cursorLine chunks) := by
  induction chunks generalizing start with
  | nil => exact sameCursor_nil _ _
  | cons c chunks ih =>
    obtain ⟨rfl, hle, htext, hrest⟩ := h
    have hagree := ih hrest
    have hend := hrest.start_le
    have hlength : c.text.length = c.endIndex - c.startIndex := by
      rw [htext, sliceOf_length _ (hend.trans hstop)]
    refine ⟨congrArg (· + 1) hagree.length_eq, fun j => ?_, fun j l vl hl hvl hshown => ?_⟩
    · cases j with
      | succ j => exact hagree.shown j
      | zero =>
        rw [Bool.eq_iff_iff]
        cases chunks with
        | nil =>
          -- the last chunk ends where the line does
          obtain rfl : c.endIndex = stop := hrest
          simp only [layoutChunks, isEmpty_nil, getElem?_cons_zero, any_some,
            hasCursor_last, visualChunks, map_cons, map_nil, holdsCursor_single]
          omega
        | cons d chunks =>
          simp only [layoutChunks, isEmpty_cons, getElem?_cons_zero,
            any_some, hasCursor_inner, visualChunks, map_cons,
            holdsCursor_first]
          omega
    · cases j with
      | succ j => exact hagree.column j l vl hl hvl hshown
      | zero =>
        cases hl
        cases hvl
        simp only [LayoutLine.ofChunk, if_true] at hshown ⊢
        split_ifs at hshown ⊢ with hlast hbegun hinside
        · exact ⟨hbegun, rfl⟩
        · exact ⟨hinside.1, congrArg some (Nat.min_eq_left (by omega))⟩

theorem not_holdsCursor_of_lt (cursorLine : ℕ) (h : Tiles line stop start chunks)
    (hlt : cursorCol < start) (j : ℕ) :
    holdsCursor (visualChunks cursorLine chunks) cursorLine cursorCol j = false := by
  induction chunks generalizing start j with
  | nil => rfl
  | cons c chunks ih =>
    obtain ⟨rfl, hle, -, hrest⟩ := h
    cases j with
    | succ j => exact ih hrest (hlt.trans_le hle) j
    | zero =>
      have hbefore : ¬c.startIndex ≤ cursorCol := hlt.not_ge
      simp [visualChunks, holdsCursor, hbefore]

theorem holdsCursor_unique (cursorLine : ℕ) (h : Tiles line stop start chunks)
    (hne : chunks ≠ []) (hstart : start ≤ cursorCol) (hstop : cursorCol ≤ stop) :
    ∃ k < chunks.length, ∀ j,
      holdsCursor (visualChunks cursorLine chunks) cursorLine cursorCol j = true ↔ j = k := by
  induction chunks generalizing start with
  | nil => exact absurd rfl hne
  | cons c chunks ih =>
    obtain ⟨rfl, hle, -, hrest⟩ := h
    cases chunks with
    | nil =>
      obtain rfl : c.endIndex = stop := hrest
      refine ⟨0, Nat.one_pos, fun j => ?_⟩
      cases j with
      | zero =>
        refine iff_of_true ((holdsCursor_single ..).mpr ⟨hstart, ?_⟩) rfl
        omega
      | succ j => exact iff_of_false Bool.false_ne_true (Nat.succ_ne_zero j)
    | cons d chunks =>
      have hfirst := holdsCursor_first cursorLine c.startIndex (c.endIndex - c.startIndex)
        d.startIndex (d.endIndex - d.startIndex) cursorCol (visualChunks cursorLine chunks)
      obtain hinside | hbehind := Nat.lt_or_ge cursorCol c.endIndex
      · refine ⟨0, Nat.succ_pos _, fun j => ?_⟩
        cases j with
        | zero => exact iff_of_true (hfirst.mpr ⟨hstart, by omega⟩) rfl
        | succ j =>
          have hnot := not_holdsCursor_of_lt cursorLine hrest hinside j
          refine iff_of_false (fun hholds => ?_) (Nat.succ_ne_zero j)
          exact Bool.false_ne_true (hnot.symm.trans hholds)
      · obtain ⟨k, hk, hunique⟩ := ih hrest (cons_ne_nil _ _) hbehind
        refine ⟨k + 1, Nat.succ_lt_succ hk, fun j => ?_⟩
        cases j with
        | zero =>
          refine iff_of_false (fun hholds => ?_) (Nat.succ_ne_zero k).symm
          have hinside := hfirst.mp hholds
          omega
        | succ j => exact (hunique j).trans Nat.succ_inj.symm

end Chunks

variable {visual : List VisualLine}

section Lines

variable {U : TextUnits} {validIds : List ℕ} {width cursorLine cursorCol i : ℕ}
  {lines : List JsText}

theorem layoutLines_isSome_iff :
    (layoutLines U validIds width cursorLine cursorCol i lines).isSome ↔
      ∀ line ∈ lines, (lineChunks U validIds width line).isSome := by
  induction lines generalizing i with
  | nil => exact iff_of_true rfl nofun
  | cons line lines ih =>
    rw [layoutLines_cons, forall_mem_cons]
    cases lineChunks U validIds width line with
    | none => exact iff_of_false Bool.false_ne_true fun h => absurd h.1 Bool.false_ne_true
    | some chunks =>
      rw [bind_some, isSome_map, ih]
      exact (and_iff_right rfl).symm

theorem buildVisualLineMap_isSome_iff :
    (buildVisualLineMap U validIds width i lines).isSome ↔
      ∀ line ∈ lines, (lineChunks U validIds width line).isSome := by
  induction lines generalizing i with
  | nil => exact iff_of_true rfl nofun
  | cons line lines ih =>
    rw [buildVisualLineMap_cons, forall_mem_cons]
    cases lineChunks U validIds width line with
    | none => exact iff_of_false Bool.false_ne_true fun h => absurd h.1 Bool.false_ne_true
    | some chunks =>
      rw [bind_some, isSome_map, ih]
      exact (and_iff_right rfl).symm

theorem le_logicalLine
    (h : buildVisualLineMap U validIds width i lines = some visual) :
    ∀ vl ∈ visual, i ≤ vl.logicalLine := by
  induction lines generalizing i visual with
  | nil =>
    cases h
    exact nofun
  | cons line lines ih =>
    rw [buildVisualLineMap_cons] at h
    obtain ⟨chunks, -, h⟩ := bind_eq_some_iff.mp h
    obtain ⟨rest, hrest, rfl⟩ := map_eq_some_iff.mp h
    refine forall_mem_append.mpr ⟨fun vl hvl => (logicalLine_visualChunks hvl).ge, fun vl hvl => ?_⟩
    have hlater := ih hrest vl hvl
    omega

theorem not_holdsCursor_of_ne
    (h : ∀ vl ∈ visual, vl.logicalLine ≠ cursorLine) (j : ℕ) :
    holdsCursor visual cursorLine cursorCol j = false := by
  unfold holdsCursor
  split
  · rfl
  · rename_i vl hvl
    simp [h vl (mem_of_getElem? hvl)]

theorem lineChunks_tiles (hU : U.Lawful) (hpos : 0 < width) {line : JsText}
    {chunks : List TextChunk} (h : lineChunks U validIds width line = some chunks) :
    Tiles line line.length 0 chunks ∧ chunks ≠ [] := by
  unfold lineChunks at h
  split_ifs at h with hwhole
  · cases h
    exact ⟨⟨rfl, Nat.zero_le _, (sliceOf_self line).symm, rfl⟩, cons_ne_nil _ _⟩
  · have hne : line ≠ [] := fun hnil => hwhole (.inl hnil)
    exact ⟨(wordWrapLine_tiles hU hpos hne (inLine_segmentWithMarkers hU line validIds) h).tiles,
      wordWrapLine_ne_nil h⟩

theorem sameCursor_lines (hU : U.Lawful) (hpos : 0 < width)
    (hcol : ∀ k line, lines[k]? = some line → i + k = cursorLine → cursorCol ≤ line.length)
    {layout : List LayoutLine}
    (hlayout : layoutLines U validIds width cursorLine cursorCol i lines = some layout)
    (hvisual : buildVisualLineMap U validIds width i lines = some visual) :
    SameCursor cursorLine cursorCol layout visual ∧
      (i ≤ cursorLine → cursorLine < i + lines.length → ∃ k < visual.length, ∀ j,
        holdsCursor visual cursorLine cursorCol j = true ↔ j = k) := by
  induction lines generalizing i layout visual with
  | nil =>
    cases hlayout
    cases hvisual
    exact ⟨sameCursor_nil _ _, fun hle hlt => absurd hlt hle.not_gt⟩
  | cons line lines ih =>
    rw [layoutLines_cons] at hlayout
    rw [buildVisualLineMap_cons] at hvisual
    obtain ⟨chunks, hchunks, hlayout⟩ := bind_eq_some_iff.mp hlayout
    obtain ⟨laterLayout, hlaterLayout, rfl⟩ := map_eq_some_iff.mp hlayout
    rw [hchunks, bind_some] at hvisual
    obtain ⟨later, hlater, rfl⟩ := map_eq_some_iff.mp hvisual
    obtain ⟨htiles, hne⟩ := lineChunks_tiles hU hpos hchunks
    have hhere : ∀ vl ∈ visualChunks i chunks, vl.logicalLine = i :=
      fun vl hvl => logicalLine_visualChunks hvl
    have hothers : ∀ vl ∈ later, vl.logicalLine ≠ i :=
      fun vl hvl => (Nat.lt_of_succ_le (le_logicalLine hlater vl hvl)).ne'
    obtain ⟨hsame, hfound⟩ := ih
      (fun k line hline hk => hcol (k + 1) line hline (by omega)) hlaterLayout hlater
    obtain rfl | hother := eq_or_ne i cursorLine
    · have hline := hcol 0 line rfl (Nat.add_zero i)
      rw [decide_eq_true rfl]
      refine ⟨(sameCursor_of_tiles htiles le_rfl hline).append hsame hhere hothers, fun _ _ => ?_⟩
      obtain ⟨k, hk, hunique⟩ := holdsCursor_unique i htiles hne (Nat.zero_le _) hline
      have hlength : (visualChunks i chunks).length = chunks.length := length_map _
      refine ⟨k, by rw [length_append]; omega, fun j => ?_⟩
      obtain hj | hj := Nat.lt_or_ge j (visualChunks i chunks).length
      · rw [holdsCursor_append hhere hothers hj]
        exact hunique j
      · obtain ⟨j, rfl⟩ := Nat.exists_eq_add_of_le hj
        rw [holdsCursor_append_right, not_holdsCursor_of_ne hothers]
        exact iff_of_false Bool.false_ne_true (by omega)
    · refine ⟨(sameCursor_of_ne hother).append hsame hhere hothers, fun hle hlt => ?_⟩
      obtain ⟨k, hk, hunique⟩ := hfound (by omega) (by rw [length_cons] at hlt; omega)
      refine ⟨(visualChunks i chunks).length + k, by rw [length_append]; omega, fun j => ?_⟩
      obtain hj | hj := Nat.lt_or_ge j (visualChunks i chunks).length
      · rw [holdsCursor_append hhere hothers hj,
          not_holdsCursor_of_ne fun vl hvl => (hhere vl hvl).trans_ne hother]
        exact iff_of_false Bool.false_ne_true (by omega)
      · obtain ⟨j, rfl⟩ := Nat.exists_eq_add_of_le hj
        rw [holdsCursor_append_right, hunique j]
        omega

theorem findCurrentVisualLine_eq {k : ℕ} (hk : k < visual.length)
    (h : ∀ j, holdsCursor visual cursorLine cursorCol j = true ↔ j = k) :
    findCurrentVisualLine visual cursorLine cursorCol = k := by
  have hfind : (List.range visual.length).find? (holdsCursor visual cursorLine cursorCol) =
      some k := by
    rw [find?_range_eq_some]
    refine ⟨(h k).mpr rfl, mem_range.mpr hk, fun j hj => ?_⟩
    rw [Bool.not_eq_true', ← Bool.not_eq_true]
    exact fun hholds => hj.ne ((h j).mp hholds)
  rw [findCurrentVisualLine, hfind]
  rfl

end Lines

/-- `layoutText(contentWidth)`. -/
def Editor.layoutText (U : TextUnits) (e : Editor) (contentWidth : ℕ) : Option (List LayoutLine) :=
  Draht.layoutText U e.pastes.keys contentWidth e.state.cursorLine e.state.cursorCol e.state.lines

/-- One drawn line has the cursor, the visual line with its number is the one that is found for the
cursor, and the cursor is in the same column of both. -/
def CursorsAgree (s : EditorState) (layout : List LayoutLine) (visual : List VisualLine) : Prop :=
  ∃ l vl, layout[findCurrentVisualLine visual s.cursorLine s.cursorCol]? = some l ∧
    visual[findCurrentVisualLine visual s.cursorLine s.cursorCol]? = some vl ∧
    (∀ (j : ℕ) (l : LayoutLine), layout[j]? = some l →
      (l.hasCursor = true ↔ j = findCurrentVisualLine visual s.cursorLine s.cursorCol)) ∧
    vl.startCol ≤ s.cursorCol ∧ l.cursorPos = some (s.cursorCol - vl.startCol)

def LineWraps (U : TextUnits) (validIds : List ℕ) (width : ℕ) (line : JsText) : Prop :=
  line = [] ∨ U.visibleWidth line ≤ width ∨
    ∀ seg ∈ segmentWithMarkers U line validIds, seg.Wraps U width

section Editor

variable {U : TextUnits} {width : ℕ} {e : Editor}

theorem lineChunks_isSome_iff (hU : U.Lawful)
    (hsingle : ∀ text, ∀ g ∈ U.segment text, U.segment g = [g]) (hpos : 0 < width)
    (validIds : List ℕ) (line : JsText) :
    (lineChunks U validIds width line).isSome ↔ LineWraps U validIds width line := by
  unfold lineChunks LineWraps
  split_ifs with hwhole
  · exact iff_of_true rfl (hwhole.imp_right .inl)
  · exact wordWrapLine_isSome_iff hU hsingle hpos _

theorem layoutText_eq (hsound : e.state.Sound) :
    e.layoutText U width = layoutLines U e.pastes.keys width e.state.cursorLine e.state.cursorCol 0
      e.state.lines := by
  have hrow := hsound.row
  have hcol := hsound.col
  unfold Editor.layoutText layoutText
  split_ifs with hempty
  · obtain hnone | hlines := hempty
    · rw [hnone] at hrow
      exact absurd hrow (Nat.not_lt_zero _)
    · rw [hlines] at hrow
      have hline : e.state.cursorLine = 0 := Nat.lt_one_iff.mp hrow
      rw [EditorState.currentLine, EditorState.lineAt, hlines, hline] at hcol
      rw [hlines, hline, Nat.le_zero.mp hcol, layoutLines_cons, lineChunks, if_pos (.inl rfl)]
      rfl
  · rfl

/-- The two views of the cursor agree just when the wrapping of every line returns. -/
theorem cursorsAgree_iff (hU : U.Lawful)
    (hsingle : ∀ text, ∀ g ∈ U.segment text, U.segment g = [g]) (hpos : 0 < width)
    (hsound : e.state.Sound) :
    (∃ layout visual, e.layoutText U width = some layout ∧
      buildVisualLineMap U e.pastes.keys width 0 e.state.lines = some visual ∧
        CursorsAgree e.state layout visual) ↔
      ∀ line ∈ e.state.lines, LineWraps U e.pastes.keys width line := by
  have hwraps : (∀ line ∈ e.state.lines, LineWraps U e.pastes.keys width line) ↔
      ∀ line ∈ e.state.lines, (lineChunks U e.pastes.keys width line).isSome :=
    forall₂_congr fun line _ => (lineChunks_isSome_iff hU hsingle hpos _ line).symm
  rw [hwraps, layoutText_eq hsound]
  constructor
  · rintro ⟨layout, visual, -, hvisual, -⟩
    exact buildVisualLineMap_isSome_iff.mp (isSome_iff_exists.mpr ⟨visual, hvisual⟩)
  · intro hreturns
    obtain ⟨layout, hlayout⟩ := isSome_iff_exists.mp (layoutLines_isSome_iff.mpr hreturns)
    obtain ⟨visual, hvisual⟩ := isSome_iff_exists.mp (buildVisualLineMap_isSome_iff.mpr hreturns)
    have hcol : ∀ k line, e.state.lines[k]? = some line → 0 + k = e.state.cursorLine →
        e.state.cursorCol ≤ line.length := by
      intro k line hline hk
      rw [Nat.zero_add] at hk
      have hcurrent : e.state.currentLine = line := by
        rw [EditorState.currentLine, EditorState.lineAt, ← hk, getD_eq_getElem?_getD, hline]
        rfl
      exact hcurrent ▸ hsound.col
    obtain ⟨hsame, hfound⟩ := sameCursor_lines hU hpos hcol hlayout hvisual
    obtain ⟨k, hk, hunique⟩ := hfound (Nat.zero_le _) (by rw [Nat.zero_add]; exact hsound.row)
    have hindex := findCurrentVisualLine_eq hk hunique
    refine ⟨layout, visual, hlayout, hvisual, ?_⟩
    unfold CursorsAgree
    rw [hindex]
    have hshown : ∀ (j : ℕ) (l : LayoutLine), layout[j]? = some l →
        (l.hasCursor = true ↔ j = k) := by
      intro j l hl
      rw [← hunique j, ← hsame.shown j, hl, any_some]
    have hl := getElem?_eq_getElem (hsame.length_eq.symm ▸ hk : k < layout.length)
    have hvl := getElem?_eq_getElem hk
    exact ⟨_, _, hl, hvl, hshown, hsame.column k _ _ hl hvl ((hshown k _ hl).mpr rfl)⟩

end Editor

def typedIdeograph : Editor := Editor.initial.insertTextAtCursor [0x61, 0x4e16]

theorem typedIdeograph_sound : typedIdeograph.state.Sound := by
  exact ⟨by decide, by decide, by decide⟩

theorem cursorsAgree_iff_typedIdeograph :
    (∃ layout visual, typedIdeograph.layoutText wideUnits 2 = some layout ∧
      buildVisualLineMap wideUnits typedIdeograph.pastes.keys 2 0 typedIdeograph.state.lines =
        some visual ∧ CursorsAgree typedIdeograph.state layout visual) ↔
      ∀ line ∈ typedIdeograph.state.lines,
        LineWraps wideUnits typedIdeograph.pastes.keys 2 line :=
  cursorsAgree_iff wideUnits_lawful wideUnits_single (by decide) typedIdeograph_sound

/-- In one column the ideograph is never drawn. -/
theorem typedIdeograph_not_cursorsAgree :
    ¬∃ layout visual, typedIdeograph.layoutText wideUnits 1 = some layout ∧
      buildVisualLineMap wideUnits typedIdeograph.pastes.keys 1 0 typedIdeograph.state.lines =
        some visual ∧ CursorsAgree typedIdeograph.state layout visual := by
  rintro ⟨layout, visual, hlayout, -, -⟩
  exact some_ne_none _ hlayout.symm

end Draht
