import Mathlib.Algebra.BigOperators.Fin
import Mathlib.Algebra.Order.BigOperators.Group.Finset
import Draht.CompositeLine
import Draht.Unstyled

/-!
# Tables of the width they are given

The columns of a table are shrunk until it fits. It is too wide only where they are not: an empty
column adds nothing to the natural width of the table, and yet it is drawn one column wide.
-/

namespace Draht.AnsiText
open List

variable {γ : Type} {n : ℕ}

/-- The cells as their inline tokens are rendered; every row has one for each column. -/
structure Table (γ : Type) (n : ℕ) where
  header : Fin n → Text γ
  rows : List (Fin n → Text γ)
  raw : Text γ

def frameCharacters : List Char := ['─', '│', '┌', '┬', '┐', '├', '┼', '┤', '└', '┴', '┘']

structure TableTheme (G : Graphemes γ) where
  glyph : Char → γ
  bold : Text γ → Text γ
  glyph_width : ∀ c ∈ frameCharacters, G.graphemeWidth (glyph c) = 1
  bold_width : ∀ text, visibleWidth G (bold text) = visibleWidth G text

/-- Columns as they grow, and the columns that are left for them. -/
structure Growing (n : ℕ) where
  widths : Fin n → ℕ
  remaining : ℕ

def growColumn (natural : Fin n → ℕ) (s : Growing n) (i : Fin n) : Growing n :=
  if 0 < s.remaining ∧ s.widths i < natural i then
    { widths := Function.update s.widths i (s.widths i + 1), remaining := s.remaining - 1 }
  else s

def growOnce (natural : Fin n → ℕ) (s : Growing n) : Growing n :=
  (List.finRange n).foldl (growColumn natural) s

/-- A pass that grows no column is the last one. -/
def growColumns (natural : Fin n → ℕ) (s : Growing n) : Growing n :=
  if (growOnce natural s).remaining < s.remaining then growColumns natural (growOnce natural s)
  else growOnce natural s
termination_by s.remaining

/-- `Math.floor((weight / totalWeight) * room)`, or 0 when there is no weight. -/
def share (weights : Fin n → ℕ) (room : ℕ) (i : Fin n) : ℕ := weights i * room / ∑ j, weights j

/-- One column each, a share of the rest by the longest words, and what the rounding leaves over to
the first columns. -/
def shrinkWords (minWordWidths : Fin n → ℕ) (availableForCells : ℕ) (i : Fin n) : ℕ :=
  let remaining := availableForCells - n
  let growth := share (fun j => minWordWidths j - 1) remaining
  let leftover := remaining - ∑ j, growth j
  1 + growth i + if i.val < leftover then 1 else 0

section Widths

variable (G : Graphemes γ)

def getLongestWordWidth (text : Text γ) (maxWidth : ℕ) : ℕ :=
  let words := (text.splitOnP (Cell.isWhitespace G)).filter fun word => !word.isEmpty
  min ((words.map (visibleWidth G)).foldl max 0) maxWidth

def maxUnbrokenWordWidth : ℕ := 30

def naturalWidths (table : Table γ n) (i : Fin n) : ℕ :=
  table.rows.foldl (fun width row => max width (visibleWidth G (row i)))
    (visibleWidth G (table.header i))

def minWordWidths (table : Table γ n) (i : Fin n) : ℕ :=
  table.rows.foldl
    (fun width row => max width (getLongestWordWidth G (row i) maxUnbrokenWordWidth))
    (max 1 (getLongestWordWidth G (table.header i) maxUnbrokenWordWidth))

def minColumnWidths (table : Table γ n) (availableForCells : ℕ) : Fin n → ℕ :=
  if availableForCells < ∑ i, minWordWidths G table i then
    shrinkWords (minWordWidths G table) availableForCells
  else minWordWidths G table

def columnWidths (table : Table γ n) (availableForCells : ℕ) : Fin n → ℕ :=
  let natural := naturalWidths G table
  let minWidths := minColumnWidths G table availableForCells
  if ∑ i, natural i ≤ availableForCells then fun i => max (natural i) (minWidths i)
  else
    let extraWidth := availableForCells - ∑ i, minWidths i
    let grow := share (fun i => natural i - minWidths i) extraWidth
    let widths := fun i => minWidths i + grow i
    (growColumns natural { widths, remaining := availableForCells - ∑ i, widths i }).widths

end Widths

section Lines

variable {G : Graphemes γ} (T : TableTheme G)

def frameLine (left cross right fill : Cell γ) (parts : List (Text γ)) : Text γ :=
  [left, fill] ++ List.intercalate [fill, cross, fill] parts ++ [fill, right]

def TableTheme.borderLine (left cross right : Char) (widths : Fin n → ℕ) : Text γ :=
  let cell c := .grapheme (T.glyph c)
  frameLine (cell left) (cell cross) (cell right) (cell '─')
    (List.ofFn fun i => List.replicate (widths i) (cell '─'))

def TableTheme.rowLines (widths : Fin n → ℕ) (style : Text γ → Text γ) (row : Fin n → Text γ) :
    List (Text γ) :=
  let cellLines i := wrapTextWithAnsi G (row i) (max 1 (widths i))
  let lineCount := (List.ofFn fun i => (cellLines i).length).foldl max 0
  let bar := .grapheme (T.glyph '│')
  (List.range lineCount).map fun lineIdx =>
    frameLine bar bar bar .space (List.ofFn fun i =>
      let text := (cellLines i).getD lineIdx []
      style (text ++ spaces (widths i - visibleWidth G text)))

def TableTheme.tableLines (table : Table γ n) (widths : Fin n → ℕ) : List (Text γ) :=
  let separatorLine := T.borderLine '├' '┼' '┤' widths
  T.borderLine '┌' '┬' '┐' widths :: T.rowLines widths T.bold table.header ++ separatorLine ::
    List.intercalate [separatorLine] (table.rows.map (T.rowLines widths id)) ++
    [T.borderLine '└' '┴' '┘' widths]

def spacing (nextTokenType : Option String) : List (Text γ) :=
  if nextTokenType.all fun type => type = "" ∨ type = "space" then [] else [[]]

def TableTheme.renderTable (table : Table γ n) (availableWidth : ℕ)
    (nextTokenType : Option String) : List (Text γ) :=
  let availableForCells := availableWidth - (3 * n + 1)
  if n = 0 then []
  else if availableForCells < n then
    (if table.raw.isEmpty then [] else wrapTextWithAnsi G table.raw availableWidth) ++
      spacing nextTokenType
  else T.tableLines table (columnWidths G table availableForCells) ++ spacing nextTokenType

end Lines

theorem sum_share_le (weights : Fin n → ℕ) (room : ℕ) : ∑ i, share weights room i ≤ room := by
  obtain htotal | htotal := Nat.eq_zero_or_pos (∑ i, weights i)
  · simp [share, htotal]
  refine Nat.le_of_mul_le_mul_left ?_ htotal
  calc (∑ i, weights i) * ∑ i, share weights room i
      = ∑ i, (∑ j, weights j) * share weights room i := Finset.mul_sum ..
    _ ≤ ∑ i, weights i * room := Finset.sum_le_sum fun i _ => Nat.mul_div_le _ _
    _ = (∑ i, weights i) * room := (Finset.sum_mul ..).symm

theorem sum_first_le (k : ℕ) : ∑ i : Fin n, (if i.val < k then 1 else 0) ≤ k := by
  induction n with
  | zero => exact Nat.zero_le _
  | succ n ih =>
    rw [Fin.sum_univ_castSucc]
    by_cases hlast : n < k
    · have hn : ∑ i : Fin n, (if i.castSucc.val < k then 1 else 0) ≤ n := by
        simpa using Finset.sum_le_sum fun (i : Fin n) (_ : i ∈ Finset.univ) =>
          (by split_ifs <;> omega : (if i.castSucc.val < k then 1 else 0) ≤ 1)
      rw [if_pos (show (Fin.last n).val < k from hlast)]
      omega
    · rw [if_neg (show ¬(Fin.last n).val < k from hlast)]
      exact ih

theorem sum_shrinkWords_le (minWordWidths : Fin n → ℕ) {room : ℕ} (h : n ≤ room) :
    ∑ i, shrinkWords minWordWidths room i ≤ room := by
  simp only [shrinkWords, Finset.sum_add_distrib, Finset.sum_const, Finset.card_univ,
    Fintype.card_fin, smul_eq_mul, mul_one]
  have hshares := sum_share_le (fun j => minWordWidths j - 1) (room - n)
  have hfirst := sum_first_le (n := n) (room - n -
    ∑ j, share (fun j => minWordWidths j - 1) (room - n) j)
  omega

/-- Growing moves columns from what remains to the widths. -/
structure Grows (s s' : Growing n) : Prop where
  widths : ∀ i, s.widths i ≤ s'.widths i
  total : ∑ i, s'.widths i + s'.remaining = ∑ i, s.widths i + s.remaining

theorem Grows.trans {s s' s'' : Growing n} (h : Grows s s') (h' : Grows s' s'') : Grows s s'' :=
  ⟨fun i => (h.widths i).trans (h'.widths i), h'.total.trans h.total⟩

theorem grows_growColumn (natural : Fin n → ℕ) (s : Growing n) (i : Fin n) :
    Grows s (growColumn natural s i) := by
  rw [growColumn]
  split_ifs with hgrow
  · constructor
    · intro j
      obtain rfl | hj := eq_or_ne j i
      · simp
      · simp [hj]
    · have hsum := Finset.add_sum_erase Finset.univ s.widths (Finset.mem_univ i)
      simp only [Finset.sum_update_of_mem (Finset.mem_univ i), Finset.sdiff_singleton_eq_erase]
      omega
  · exact ⟨fun _ => le_rfl, rfl⟩

theorem grows_growOnce (natural : Fin n → ℕ) (s : Growing n) : Grows s (growOnce natural s) := by
  unfold growOnce
  induction List.finRange n generalizing s with
  | nil => exact ⟨fun _ => le_rfl, rfl⟩
  | cons i columns ih => exact (grows_growColumn natural s i).trans (ih _)

theorem grows_growColumns (natural : Fin n → ℕ) (s : Growing n) :
    Grows s (growColumns natural s) := by
  fun_induction growColumns natural s with
  | case1 s _ ih => exact (grows_growOnce natural s).trans ih
  | case2 s => exact grows_growOnce natural s

section Columns

variable (G : Graphemes γ)

theorem width_le_of_mem_splitOnP {text word : Text γ}
    (h : word ∈ text.splitOnP (Cell.isWhitespace G)) :
    visibleWidth G word ≤ visibleWidth G text := by
  induction text generalizing word with
  | nil =>
    rw [splitOnP_nil, mem_singleton] at h
    rw [h]
  | cons c text ih =>
    rw [splitOnP_cons_eq_if_modifyHead] at h
    split_ifs at h with hc
    · obtain rfl | h := mem_cons.mp h
      · exact Nat.zero_le _
      · exact (ih h).trans (Nat.le_add_left _ _)
    · obtain ⟨first, rest, hsplit⟩ := exists_cons_of_ne_nil
        (splitOnP_ne_nil (Cell.isWhitespace G) text)
      rw [hsplit, modifyHead_cons] at h
      obtain rfl | h := mem_cons.mp h
      · exact Nat.add_le_add_left (ih (hsplit ▸ mem_cons_self)) _
      · exact (ih (hsplit ▸ mem_cons_of_mem _ h)).trans (Nat.le_add_left _ _)

theorem getLongestWordWidth_le (text : Text γ) (maxWidth : ℕ) :
    getLongestWordWidth G text maxWidth ≤ visibleWidth G text := by
  have hfold : ∀ (widths : List ℕ) (longest : ℕ), longest ≤ visibleWidth G text →
      (∀ width ∈ widths, width ≤ visibleWidth G text) →
      widths.foldl max longest ≤ visibleWidth G text := by
    intro widths
    induction widths with
    | nil => exact fun _ h _ => h
    | cons width widths ih =>
      intro longest hlongest hwidths
      exact ih _ (max_le hlongest (hwidths width mem_cons_self))
        fun w hw => hwidths w (mem_cons_of_mem _ hw)
  refine (min_le_left _ _).trans (hfold _ 0 (Nat.zero_le _) fun width hwidth => ?_)
  obtain ⟨word, hword, rfl⟩ := mem_map.mp hwidth
  exact width_le_of_mem_splitOnP G (mem_of_mem_filter hword)

variable (table : Table γ n)

theorem minWordWidths_spec (i : Fin n) :
    1 ≤ minWordWidths G table i ∧
      minWordWidths G table i ≤ max (naturalWidths G table i) 1 := by
  have hcell := getLongestWordWidth_le G (table.header i) maxUnbrokenWordWidth
  have hstart : 1 ≤ max 1 (getLongestWordWidth G (table.header i) maxUnbrokenWordWidth) ∧
      max 1 (getLongestWordWidth G (table.header i) maxUnbrokenWordWidth) ≤
        max (visibleWidth G (table.header i)) 1 := by omega
  unfold minWordWidths naturalWidths
  generalize max 1 _ = word, visibleWidth G (table.header i) = natural at hstart ⊢
  induction table.rows generalizing word natural with
  | nil => exact hstart
  | cons row rows ih =>
    have hrow := getLongestWordWidth_le G (row i) maxUnbrokenWordWidth
    rw [foldl_cons, foldl_cons]
    refine ih _ _ ?_
    omega

variable {availableForCells : ℕ}

theorem minColumnWidths_spec (h : n ≤ availableForCells) :
    (∀ i, 1 ≤ minColumnWidths G table availableForCells i) ∧
      ∑ i, minColumnWidths G table availableForCells i ≤ availableForCells := by
  unfold minColumnWidths
  split_ifs with hwords
  · exact ⟨fun i => by rw [shrinkWords]; omega, sum_shrinkWords_le _ h⟩
  · exact ⟨fun i => (minWordWidths_spec G table i).1, not_lt.mp hwords⟩

/-- The cells fit, but not with one column for each column of empty cells. -/
def CrowdedByEmpty (table : Table γ n) (availableForCells : ℕ) : Prop :=
  ∑ i, naturalWidths G table i ≤ availableForCells ∧
    availableForCells < ∑ i, max (naturalWidths G table i) 1

theorem columnWidths_spec (h : n ≤ availableForCells) :
    (∀ i, 1 ≤ columnWidths G table availableForCells i) ∧
      (∑ i, columnWidths G table availableForCells i ≤ availableForCells ↔
        ¬CrowdedByEmpty G table availableForCells) := by
  obtain ⟨hpos, hmin⟩ := minColumnWidths_spec G table h
  unfold columnWidths
  split_ifs with hnatural
  · refine ⟨fun i => le_max_of_le_right (hpos i), fun hsum hcrowded => ?_, fun hroomy => ?_⟩
    · have hones : ∑ i, max (naturalWidths G table i) 1 ≤ ∑ i, max (naturalWidths G table i)
          (minColumnWidths G table availableForCells i) :=
        Finset.sum_le_sum fun i _ => max_le_max le_rfl (hpos i)
      exact (hcrowded.2.trans_le hones).not_ge hsum
    · have hroom : ∑ i, max (naturalWidths G table i) 1 ≤ availableForCells :=
        not_lt.mp fun hlt => hroomy ⟨hnatural, hlt⟩
      have hwords : ∑ i, minWordWidths G table i ≤ availableForCells :=
        (Finset.sum_le_sum fun i _ => (minWordWidths_spec G table i).2).trans hroom
      refine (Finset.sum_le_sum fun i _ => ?_).trans hroom
      rw [minColumnWidths, if_neg hwords.not_gt]
      exact max_le (le_max_left _ _) (minWordWidths_spec G table i).2
  · have hshares := sum_share_le (fun i => naturalWidths G table i -
      minColumnWidths G table availableForCells i)
      (availableForCells - ∑ i, minColumnWidths G table availableForCells i)
    simp only
    generalize share (fun i => naturalWidths G table i - _) _ = grow at hshares ⊢
    have hgrows := grows_growColumns (naturalWidths G table)
      { widths := fun i => minColumnWidths G table availableForCells i + grow i
        remaining := availableForCells -
          ∑ i, (minColumnWidths G table availableForCells i + grow i) }
    refine ⟨fun i => ?_, iff_of_true ?_ fun hcrowded => hnatural hcrowded.1⟩
    · exact (Nat.le_add_right_of_le (hpos i)).trans (hgrows.widths i)
    · have htotal := hgrows.total
      simp only [Finset.sum_add_distrib] at htotal ⊢
      omega

end Columns

section Framed

variable {G : Graphemes γ}

theorem visibleWidth_replicate {c : Cell γ} (hc : c.width G = 1) (k : ℕ) :
    visibleWidth G (List.replicate k c) = k := by
  induction k with
  | zero => rfl
  | succ k ih => rw [replicate_succ, visibleWidth, hc, ih, Nat.add_comm]

theorem visibleWidth_intercalate (separator part : Text γ) (parts : List (Text γ)) :
    visibleWidth G (List.intercalate separator (part :: parts)) = visibleWidth G part +
      (parts.map fun p => visibleWidth G separator + visibleWidth G p).sum := by
  induction parts generalizing part with
  | nil => simp [List.intercalate]
  | cons next parts ih =>
    have hrest := ih next
    simp only [List.intercalate, intersperse_cons_cons, flatten_cons,
      visibleWidth_append] at hrest ⊢
    rw [hrest, map_cons, sum_cons]
    omega

theorem visibleWidth_frameLine {left cross right fill : Cell γ}
    (hcells : ∀ c ∈ [left, cross, right, fill], c.width G = 1) (hn : n ≠ 0)
    (parts : Fin n → Text γ) :
    visibleWidth G (frameLine left cross right fill (List.ofFn parts)) =
      ∑ i, visibleWidth G (parts i) + (3 * n + 1) := by
  obtain ⟨k, rfl⟩ := Nat.exists_eq_succ_of_ne_zero hn
  simp only [forall_mem_cons] at hcells
  obtain ⟨hleft, hcross, hright, hfill, -⟩ := hcells
  rw [frameLine, ofFn_succ, visibleWidth_append, visibleWidth_append, visibleWidth_intercalate,
    map_ofFn, sum_ofFn, Fin.sum_univ_succ]
  simp only [Function.comp_apply, visibleWidth, hleft, hcross, hright, hfill,
    Finset.sum_add_distrib, Finset.sum_const, Finset.card_univ, Fintype.card_fin, smul_eq_mul]
  omega

end Framed

section Cells

variable {G : Graphemes γ}

variable {text line : Text γ}

theorem splitLines_of_single (h : ∀ c ∈ text, c.width G = 1) : splitLines text = [text] := by
  induction text with
  | nil => rfl
  | cons c text ih =>
    rw [forall_mem_cons] at h
    obtain ⟨rfl, -⟩ | ⟨line, lines, hrest, hsplit⟩ := splitLines_cons c text
    · exact absurd h.1 Nat.zero_ne_one
    · rw [ih h.2, cons.injEq] at hrest
      rw [hsplit, ← hrest.1, ← hrest.2]

/-- A line can only stick out of its column where a code underlines it. -/
theorem wrapTextWithAnsi_single (h : ∀ c ∈ text, c.width G = 1) {width : ℕ} (hwidth : 1 ≤ width)
    (hline : line ∈ wrapTextWithAnsi G text width) : visibleWidth G line ≤ width := by
  rw [wrapTextWithAnsi_eq, splitLines_of_single h, mem_flatMap] at hline
  obtain ⟨styled, hstyled, hline⟩ := hline
  obtain rfl : styled = text := mem_singleton.mp hstyled
  refine (wrapSingleLine_spec G fun c hc => (h c hc).trans_le hwidth).1.mpr ?_ line hline
  rintro ⟨before, blank, word, after, htokens, hblank, -⟩
  have hstrip : strip before.flatten = before.flatten := by
    refine filter_eq_self.mpr fun c hc => ?_
    have hmem : c ∈ styled := by
      rw [← splitIntoTokensWithAnsi_flatten styled, htokens, flatten_append]
      exact mem_append_left _ hc
    rw [Bool.not_eq_true', Bool.eq_false_iff]
    exact fun hstyle => Nat.zero_ne_one ((width_of_isStyle hstyle).symm.trans (h c hmem))
  have hunderline := hblank.2.2.2
  rw [← hstrip, updateTrackerFromText_strip] at hunderline
  exact Bool.false_ne_true hunderline

theorem forall_mem_intercalate {P : Text γ → Prop} {separator : List (Text γ)}
    {groups : List (List (Text γ))} (hseparator : ∀ line ∈ separator, P line)
    (hgroups : ∀ lines ∈ groups, ∀ line ∈ lines, P line) :
    ∀ line ∈ List.intercalate separator groups, P line := by
  induction groups with
  | nil => exact forall_mem_nil _
  | cons lines groups ih =>
    rw [forall_mem_cons] at hgroups
    cases groups with
    | nil => simpa [List.intercalate] using hgroups.1
    | cons next groups =>
      have hrest := ih hgroups.2
      simp only [List.intercalate, intersperse_cons_cons, flatten_cons,
        forall_mem_append] at hrest ⊢
      exact ⟨hgroups.1, hseparator, hrest⟩

variable (T : TableTheme G) {widths : Fin n → ℕ} (hn : n ≠ 0)

include hn

theorem TableTheme.width_borderLine {left cross right : Char}
    (hchars : ∀ c ∈ [left, cross, right, '─'], c ∈ frameCharacters) :
    visibleWidth G (T.borderLine left cross right widths) = ∑ i, widths i + (3 * n + 1) := by
  have hcells : ∀ c ∈ [left, cross, right, '─'], (Cell.grapheme (T.glyph c)).width G = 1 :=
    fun c hc => T.glyph_width c (hchars c hc)
  simp only [forall_mem_cons] at hcells
  rw [borderLine, visibleWidth_frameLine (by simpa using hcells) hn]
  simp [visibleWidth_replicate hcells.2.2.2.1]

theorem TableTheme.width_rowLines {style : Text γ → Text γ}
    (hstyle : ∀ text, visibleWidth G (style text) = visibleWidth G text)
    (hwidths : ∀ i, 1 ≤ widths i) {row : Fin n → Text γ} (hrow : ∀ i, ∀ c ∈ row i, c.width G = 1)
    (hline : line ∈ T.rowLines widths style row) :
    visibleWidth G line = ∑ i, widths i + (3 * n + 1) := by
  obtain ⟨lineIdx, -, rfl⟩ := mem_map.mp hline
  have hbar : (Cell.grapheme (T.glyph '│')).width G = 1 :=
    T.glyph_width _ (by simp [frameCharacters])
  rw [visibleWidth_frameLine (by simpa [Cell.width] using hbar) hn]
  congr 1
  refine Finset.sum_congr rfl fun i _ => ?_
  have hfits : visibleWidth G ((wrapTextWithAnsi G (row i) (max 1 (widths i))).getD lineIdx []) ≤
      widths i := by
    rw [getD_eq_getElem?_getD]
    cases hget : (wrapTextWithAnsi G (row i) (max 1 (widths i)))[lineIdx]? with
    | none => exact Nat.zero_le _
    | some text =>
      have htext := wrapTextWithAnsi_single (hrow i) (le_max_left _ _) (mem_of_getElem? hget)
      rwa [max_eq_right (hwidths i)] at htext
  dsimp only
  rw [hstyle, visibleWidth_append, spaces, visibleWidth_replicate rfl]
  omega

theorem TableTheme.width_tableLines {table : Table γ n} (hwidths : ∀ i, 1 ≤ widths i)
    (hcells : ∀ row ∈ table.header :: table.rows, ∀ i, ∀ c ∈ row i, c.width G = 1) :
    ∀ line ∈ T.tableLines table widths,
      visibleWidth G line = ∑ i, widths i + (3 * n + 1) := by
  rw [forall_mem_cons] at hcells
  have hseparator : visibleWidth G (T.borderLine '├' '┼' '┤' widths) =
      ∑ i, widths i + (3 * n + 1) := T.width_borderLine hn (by simp [frameCharacters])
  have hheader : ∀ line ∈ T.rowLines widths T.bold table.header,
      visibleWidth G line = ∑ i, widths i + (3 * n + 1) :=
    fun line hline => T.width_rowLines hn T.bold_width hwidths hcells.1 hline
  have hrows : ∀ lines ∈ table.rows.map (T.rowLines widths id), ∀ line ∈ lines,
      visibleWidth G line = ∑ i, widths i + (3 * n + 1) := by
    intro lines hlines line hline
    obtain ⟨row, hrow, rfl⟩ := mem_map.mp hlines
    exact T.width_rowLines hn (fun _ => rfl) hwidths (hcells.2 row hrow) hline
  have hbody := forall_mem_intercalate (forall_mem_singleton.mpr hseparator) hrows
  simp only [tableLines, forall_mem_cons, forall_mem_append]
  exact ⟨⟨⟨T.width_borderLine hn (by simp [frameCharacters]), hheader⟩, hseparator, hbody⟩,
    T.width_borderLine hn (by simp [frameCharacters]), forall_mem_nil _⟩

end Cells

variable {G : Graphemes γ}

def Table.SingleWidth (G : Graphemes γ) (table : Table γ n) : Prop :=
  ∀ row ∈ table.header :: table.rows, ∀ i, ∀ c ∈ row i, c.width G = 1

structure TableFits (T : TableTheme G) (table : Table γ n) (availableWidth : ℕ)
    (nextTokenType : Option String) : Prop where
  positive : ∀ i, 1 ≤ columnWidths G table (availableWidth - (3 * n + 1)) i
  sum : ∑ i, columnWidths G table (availableWidth - (3 * n + 1)) i ≤ availableWidth - (3 * n + 1)
  lines : ∃ lines blank, T.renderTable table availableWidth nextTokenType = lines ++ blank ∧
    (∀ line ∈ blank, line = []) ∧
    ∃ width ≤ availableWidth, ∀ line ∈ lines, visibleWidth G line = width

def plainTable : TableTheme letters where
  glyph := id
  bold := id
  glyph_width _ _ := rfl
  bold_width _ := rfl

/-- A table of one row. -/
def headerOf (names : Fin n → List Char) : Table Char n where
  header i := (names i).map .grapheme
  rows := []
  raw := []

theorem headerOf_singleWidth (names : Fin n → List Char) :
    (headerOf names).SingleWidth letters := by
  intro row hrow i c hc
  obtain rfl := mem_singleton.mp hrow
  obtain ⟨letter, -, rfl⟩ := mem_map.mp hc
  rfl

end Draht.AnsiText
