import Draht.Tui

/-!
# What the drawing operations do

The effect of each sequence of operations of a rendering on the rows, the cursor and the part of
the rows that is on the screen.
-/

namespace Draht
open List

namespace Tui

open Screen

variable {α : Type*} {columns rows : ℕ} (cells : JsText → List α) {s : Screen α columns rows}
  {top cursorRow : ℕ} {grid : ℕ → ℕ → Option α}

theorem shows_bounds (h : s.Shows top cursorRow grid) :
    top ≤ cursorRow ∧ cursorRow < top + rows := by
  obtain ⟨rfl, rfl, _⟩ := h
  exact ⟨s.top_le, s.lt_bottom⟩

theorem shows_congr (h : s.Shows top cursorRow grid) {top' cursorRow' : ℕ}
    {grid' : ℕ → ℕ → Option α} (htop : top = top') (hrow : cursorRow = cursorRow')
    (hgrid : ∀ i j, grid i j = grid' i j) : s.Shows top' cursorRow' grid' := by
  subst htop hrow
  obtain rfl : grid = grid' := by
    funext i j
    exact hgrid i j
  exact h

variable {lineDiff : ℤ} {renderEnd n previousLength newLength : ℕ} {lines : List JsText}
  {erase : Ops}

theorem shows_moveBy (h : s.Shows top cursorRow grid) (target : ℕ)
    (hdiff : lineDiff = (target : ℤ) - cursorRow) (htop : top ≤ target)
    (hbottom : target < top + rows) : (s.run cells (moveBy lineDiff)).Shows top target grid := by
  obtain ⟨hge, hlt⟩ := shows_bounds h
  rw [moveBy]
  by_cases hdown : 0 < lineDiff
  · rw [if_pos hdown]
    have hmove := h.cursorDown (n := lineDiff.toNat) (by omega) (by omega)
    exact shows_congr hmove rfl (by omega) (fun _ _ => rfl)
  · rw [if_neg hdown]
    by_cases hup : lineDiff < 0
    · rw [if_pos hup]
      have hmove := h.cursorUp (n := (-lineDiff).toNat) (by omega) (by omega)
      exact shows_congr hmove rfl (by omega) (fun _ _ => rfl)
    · rw [if_neg hup]
      exact shows_congr h rfl (by omega) (fun _ _ => rfl)

theorem shows_crlf (h : s.Shows top cursorRow grid) :
    (s.run cells crlf).Shows (max top (cursorRow + 2 - rows)) (cursorRow + 1) grid :=
  h.carriageReturn.lineFeed

/-- A line is written over what is erased, or into blank rows. -/
def Blanks (erase : Ops) (grid : ℕ → ℕ → Option α) (first : ℕ) : Prop :=
  erase = [.eraseLine] ∨ erase = [] ∧ ∀ i j, first ≤ i → grid i j = none

theorem shows_line (h : s.Shows top cursorRow grid) (hcol : s.cursorCol = 0)
    (hblank : Blanks erase grid cursorRow) {line : JsText} (hfit : (cells line).length ≤ columns) :
    (s.run cells (erase ++ [.text line])).Shows top cursorRow
      (fun i j => if i = cursorRow then (cells line)[j]? else grid i j) := by
  obtain rfl | ⟨rfl, hblank⟩ := hblank
  · have htext := h.eraseLine.text hcol (fun j => if_pos rfl) hfit
    refine shows_congr htext rfl rfl ?_
    intro i j
    by_cases hi : i = cursorRow
    · rw [if_pos hi, if_pos hi]
    · rw [if_neg hi, if_neg hi, if_neg hi]
  · exact h.text hcol (fun j => hblank _ _ le_rfl) hfit

theorem shows_moreLines (h : s.Shows top cursorRow grid)
    (hblank : Blanks erase grid (cursorRow + 1))
    (hfit : ∀ line ∈ lines, (cells line).length ≤ columns) :
    (s.run cells (lines.flatMap fun line => crlf ++ erase ++ [.text line])).Shows
      (max top (cursorRow + lines.length + 1 - rows)) (cursorRow + lines.length)
      (fun i j => if cursorRow < i ∧ i ≤ cursorRow + lines.length then
        cellsOf cells lines (i - (cursorRow + 1)) j else grid i j) := by
  induction lines generalizing s top cursorRow grid with
  | nil =>
    obtain ⟨_, hlt⟩ := shows_bounds h
    refine shows_congr h (by rw [length_nil]; omega) rfl ?_
    intro i j
    rw [if_neg (by rw [length_nil]; omega)]
  | cons line lines ih =>
    have hline := shows_line cells (shows_crlf cells h) rfl hblank (hfit line mem_cons_self)
    have hblank' : Blanks erase
        (fun i j => if i = cursorRow + 1 then (cells line)[j]? else grid i j)
        (cursorRow + 1 + 1) := by
      obtain herase | ⟨herase, hnone⟩ := hblank
      · exact .inl herase
      · refine .inr ⟨herase, ?_⟩
        intro i j hi
        have hne : ¬ i = cursorRow + 1 := by omega
        simp only [hne, if_false]
        exact hnone i j (by omega)
    have hrest := ih hline hblank' (fun l hl => hfit l (mem_cons_of_mem _ hl))
    rw [flatMap_cons]
    simp only [run_append] at hrest ⊢
    refine shows_congr hrest (by rw [length_cons]; omega) (by rw [length_cons]; omega) ?_
    intro i j
    rw [length_cons]
    by_cases hfirst : i = cursorRow + 1
    · rw [if_neg (by omega), if_pos hfirst, if_pos (by omega), hfirst, Nat.sub_self]
      rfl
    · rw [if_neg hfirst]
      by_cases hin : cursorRow + 1 < i ∧ i ≤ cursorRow + 1 + lines.length
      · rw [if_pos hin, if_pos (by omega)]
        obtain ⟨k, rfl⟩ := Nat.exists_eq_add_of_le (show cursorRow + 1 + 1 ≤ i by omega)
        have hsub : cursorRow + 1 + 1 + k - (cursorRow + 1) = k + 1 := by omega
        rw [Nat.add_sub_cancel_left, hsub, cellsOf_cons_succ]
      · rw [if_neg hin, if_neg (by omega)]

theorem shows_writeLines (h : s.Shows top cursorRow grid) (hcol : s.cursorCol = 0)
    (hblank : Blanks erase grid cursorRow) (hne : lines ≠ [])
    (hfit : ∀ line ∈ lines, (cells line).length ≤ columns) :
    (s.run cells (writeLines erase lines)).Shows (max top (cursorRow + lines.length - rows))
      (cursorRow + lines.length - 1)
      (fun i j => if cursorRow ≤ i ∧ i < cursorRow + lines.length then
        cellsOf cells lines (i - cursorRow) j else grid i j) := by
  cases lines with
  | nil => exact absurd rfl hne
  | cons line lines =>
    have hline := shows_line cells h hcol hblank (hfit line mem_cons_self)
    have hblank' : Blanks erase
        (fun i j => if i = cursorRow then (cells line)[j]? else grid i j) (cursorRow + 1) := by
      obtain herase | ⟨herase, hnone⟩ := hblank
      · exact .inl herase
      · refine .inr ⟨herase, ?_⟩
        intro i j hi
        have hne : ¬ i = cursorRow := by omega
        simp only [hne, if_false]
        exact hnone i j (by omega)
    have hrest := shows_moreLines cells hline hblank' (fun l hl => hfit l (mem_cons_of_mem _ hl))
    have hops : writeLines erase (line :: lines) = erase ++ [.text line] ++
        lines.flatMap fun line => crlf ++ erase ++ [.text line] := by
      rw [writeLines, append_assoc]
      rfl
    rw [hops, run_append]
    refine shows_congr hrest (by rw [length_cons]; omega) (by rw [length_cons]; omega) ?_
    intro i j
    rw [length_cons]
    by_cases hfirst : i = cursorRow
    · rw [if_neg (by omega), if_pos hfirst, if_pos (by omega), hfirst, Nat.sub_self]
      rfl
    · rw [if_neg hfirst]
      by_cases hin : cursorRow < i ∧ i ≤ cursorRow + lines.length
      · rw [if_pos hin, if_pos (by omega)]
        obtain ⟨k, rfl⟩ := Nat.exists_eq_add_of_le (show cursorRow + 1 ≤ i by omega)
        have hsub : cursorRow + 1 + k - cursorRow = k + 1 := by omega
        rw [Nat.add_sub_cancel_left, hsub, cellsOf_cons_succ]
      · rw [if_neg hin, if_neg (by omega)]

theorem shows_clearLines (h : s.Shows top cursorRow grid) (hn : 0 < n)
    (hbottom : cursorRow + n ≤ top + rows) :
    (s.run cells (clearLines n)).Shows top (cursorRow + n - 1)
      (fun i j => if cursorRow ≤ i ∧ i < cursorRow + n then none else grid i j) := by
  induction n generalizing s cursorRow grid with
  | zero => omega
  | succ n ih =>
    have hfirst := h.carriageReturn.eraseLine
    cases n with
    | zero =>
      refine shows_congr hfirst rfl (by omega) ?_
      intro i j
      by_cases hi : i = cursorRow
      · rw [if_pos hi, if_pos (by omega)]
      · rw [if_neg hi, if_neg (by omega)]
    | succ n =>
      have hdown := hfirst.cursorDown (n := 1) (by omega) (by omega)
      refine shows_congr (ih hdown (by omega) (by omega)) rfl (by omega) ?_
      intro i j
      by_cases hi : i = cursorRow
      · rw [if_neg (by omega), if_pos hi, if_pos (by omega)]
      · rw [if_neg hi]
        by_cases hin : cursorRow + 1 ≤ i ∧ i < cursorRow + 1 + (n + 1)
        · rw [if_pos hin, if_pos (by omega)]
        · rw [if_neg hin, if_neg (by omega)]

theorem shows_clearExtraLines (h : s.Shows top cursorRow grid) (hn : 0 < n)
    (hbottom : cursorRow + n < top + rows) :
    (s.run cells (clearExtraLines n)).Shows top cursorRow
      (fun i j => if cursorRow < i ∧ i ≤ cursorRow + n then none else grid i j) := by
  obtain ⟨hge, _⟩ := shows_bounds h
  have hdown := h.cursorDown (n := 1) (by omega) (by omega)
  have hclear := shows_clearLines cells hdown hn (by omega)
  have hup := hclear.cursorUp hn (by omega)
  rw [clearExtraLines, if_pos hn, if_pos hn, run_append, run_append]
  refine shows_congr hup rfl (by omega) ?_
  intro i j
  by_cases hin : cursorRow < i ∧ i ≤ cursorRow + n
  · rw [if_pos (by omega), if_pos hin]
  · rw [if_neg (by omega), if_neg hin]

theorem shows_eraseRows (h : s.Shows top cursorRow grid) (hbottom : cursorRow + n < top + rows) :
    (s.run cells (List.replicate n (crlf ++ [.eraseLine])).flatten).Shows top (cursorRow + n)
      (fun i j => if cursorRow < i ∧ i ≤ cursorRow + n then none else grid i j) := by
  induction n generalizing s cursorRow grid with
  | zero =>
    refine shows_congr h rfl rfl ?_
    intro i j
    rw [if_neg (by omega)]
  | succ n ih =>
    have hrow : (s.run cells (crlf ++ [.eraseLine])).Shows top (cursorRow + 1)
        (fun i j => if i = cursorRow + 1 then none else grid i j) :=
      shows_congr (shows_crlf cells h).eraseLine (by omega) rfl (fun _ _ => rfl)
    refine shows_congr (ih hrow (by omega)) rfl (by omega) ?_
    intro i j
    by_cases hi : i = cursorRow + 1
    · rw [if_neg (by omega), if_pos hi, if_pos (by omega)]
    · rw [if_neg hi]
      by_cases hin : cursorRow + 1 < i ∧ i ≤ cursorRow + 1 + n
      · rw [if_pos hin, if_pos (by omega)]
      · rw [if_neg hin, if_neg (by omega)]

theorem clearRest_fst (hend : renderEnd < newLength) :
    (clearRest renderEnd previousLength newLength).1 =
      if newLength < previousLength then newLength - 1 else renderEnd := by
  rw [clearRest]
  by_cases hshorter : newLength < previousLength
  · rw [if_pos hshorter, if_pos hshorter]
    change (if renderEnd < newLength - 1 then newLength - 1 else renderEnd) = newLength - 1
    split_ifs <;> omega
  · rw [if_neg hshorter, if_neg hshorter]

theorem shows_clearRest (h : s.Shows top renderEnd grid) (hpos : 0 < newLength)
    (hend : renderEnd < newLength)
    (hinside : newLength < previousLength → previousLength ≤ top + rows) (htop : top < newLength) :
    (s.run cells (clearRest renderEnd previousLength newLength).2).Shows top
      (clearRest renderEnd previousLength newLength).1
      (fun i j => if newLength ≤ i ∧ i < previousLength then none else grid i j) := by
  rw [clearRest]
  by_cases hshorter : newLength < previousLength
  · rw [if_pos hshorter]
    have hdown : (s.run cells (if renderEnd < newLength - 1 then
        [.cursorDown (newLength - 1 - renderEnd)] else [])).Shows top (newLength - 1) grid := by
      by_cases hless : renderEnd < newLength - 1
      · rw [if_pos hless]
        have hmove := h.cursorDown (n := newLength - 1 - renderEnd) (by omega) (by omega)
        exact shows_congr hmove rfl (by omega) (fun _ _ => rfl)
      · rw [if_neg hless]
        exact shows_congr h rfl (by omega) (fun _ _ => rfl)
    have hlast : (if renderEnd < newLength - 1 then newLength - 1 else renderEnd) =
        newLength - 1 := by
      split_ifs <;> omega
    have herase := shows_eraseRows cells (n := previousLength - newLength) hdown (by omega)
    have hup := herase.cursorUp (n := previousLength - newLength) (by omega) (by omega)
    simp only [run_append]
    refine shows_congr hup rfl (by omega) ?_
    intro i j
    by_cases hin : newLength ≤ i ∧ i < previousLength
    · rw [if_pos (by omega), if_pos hin]
    · rw [if_neg (by omega), if_neg hin]
  · rw [if_neg hshorter]
    refine shows_congr h rfl rfl ?_
    intro i j
    rw [if_neg (by omega)]

theorem shows_toFirst (h : s.Shows top cursorRow grid) {appendStart : Bool}
    {firstChanged moveTargetRow : ℕ} (hdiff : lineDiff = (moveTargetRow : ℤ) - cursorRow)
    (hfirst : firstChanged = moveTargetRow + (if appendStart then 1 else 0))
    (htop : top ≤ moveTargetRow) (hbottom : moveTargetRow < top + rows) :
    (s.run cells (moveBy lineDiff ++ if appendStart then crlf else [.carriageReturn])).Shows
        (max top (firstChanged + 1 - rows)) firstChanged grid ∧
      (s.run cells (moveBy lineDiff ++
        if appendStart then crlf else [.carriageReturn])).cursorCol = 0 := by
  have hmove := shows_moveBy cells h moveTargetRow hdiff htop hbottom
  rw [run_append]
  cases appendStart with
  | true =>
    obtain rfl : firstChanged = moveTargetRow + 1 := hfirst
    exact ⟨shows_crlf cells hmove, rfl⟩
  | false =>
    obtain rfl : firstChanged = moveTargetRow := hfirst
    exact ⟨shows_congr hmove.carriageReturn (by omega) rfl (fun _ _ => rfl), rfl⟩

end Tui

end Draht
