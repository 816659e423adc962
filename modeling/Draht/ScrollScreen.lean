import Mathlib.Data.List.Basic
import Mathlib.Order.Basic

/-!
# A terminal screen with its scrollback

An ideal terminal: rows of cells, of which the last ones are on the screen, a cursor on the
screen, and the operations that a program draws with. Rows are numbered from the first row of
the scrollback, so that scrolling moves the screen and no row. A row below the screen is blank.
-/

namespace Draht

/-- `top` rows have been scrolled out of the screen. -/
structure Screen (α : Type*) (columns rows : ℕ) where
  grid : ℕ → ℕ → Option α
  top : ℕ
  cursorRow : ℕ
  cursorCol : ℕ
  cursorShown : Bool
  top_le : top ≤ cursorRow
  lt_bottom : cursorRow < top + rows
  below : ∀ i j, top + rows ≤ i → grid i j = none

/-- A text is one line without control characters. -/
inductive ScreenOp (τ : Type*) where
  | text (t : τ)
  | carriageReturn
  | lineFeed
  | cursorUp (n : ℕ)
  | cursorDown (n : ℕ)
  | cursorColumn (n : ℕ)
  | cursorHome
  | eraseLine
  | eraseScreen
  | eraseScrollback
  | showCursor
  | hideCursor
  | beginSync
  | endSync
deriving DecidableEq

namespace Screen

variable {α τ : Type*} {columns rows : ℕ}

def clean (α : Type*) (columns : ℕ) {rows : ℕ} (h : 0 < rows) : Screen α columns rows where
  grid _ _ := none
  top := 0
  cursorRow := 0
  cursorCol := 0
  cursorShown := true
  top_le := Nat.le_refl 0
  lt_bottom := by omega
  below _ _ _ := rfl

def carriageReturn (s : Screen α columns rows) : Screen α columns rows := { s with cursorCol := 0 }

/-- The screen scrolls when the cursor is in its last row. -/
def lineFeed (s : Screen α columns rows) : Screen α columns rows where
  grid := s.grid
  top := max s.top (s.cursorRow + 2 - rows)
  cursorRow := s.cursorRow + 1
  cursorCol := s.cursorCol
  cursorShown := s.cursorShown
  top_le := by
    have htop := s.top_le
    have hbottom := s.lt_bottom
    omega
  lt_bottom := by omega
  below i j h := s.below i j (by omega)

def cursorUp (s : Screen α columns rows) (n : ℕ) : Screen α columns rows where
  grid := s.grid
  top := s.top
  cursorRow := max s.top (s.cursorRow - max n 1)
  cursorCol := s.cursorCol
  cursorShown := s.cursorShown
  top_le := by omega
  lt_bottom := by
    have htop := s.top_le
    have hbottom := s.lt_bottom
    omega
  below := s.below

def cursorDown (s : Screen α columns rows) (n : ℕ) : Screen α columns rows where
  grid := s.grid
  top := s.top
  cursorRow := min (s.top + rows - 1) (s.cursorRow + max n 1)
  cursorCol := s.cursorCol
  cursorShown := s.cursorShown
  top_le := by
    have htop := s.top_le
    have hbottom := s.lt_bottom
    omega
  lt_bottom := by
    have htop := s.top_le
    have hbottom := s.lt_bottom
    omega
  below := s.below

def cursorColumn (s : Screen α columns rows) (n : ℕ) : Screen α columns rows :=
  { s with cursorCol := min (n - 1) (columns - 1) }

def cursorHome (s : Screen α columns rows) : Screen α columns rows where
  grid := s.grid
  top := s.top
  cursorRow := s.top
  cursorCol := 0
  cursorShown := s.cursorShown
  top_le := Nat.le_refl _
  lt_bottom := by
    have htop := s.top_le
    have hbottom := s.lt_bottom
    omega
  below := s.below

def paint (s : Screen α columns rows) (grid : ℕ → ℕ → Option α)
    (below : ∀ i j, s.top + rows ≤ i → grid i j = none) : Screen α columns rows :=
  { s with grid, below }

def eraseLine (s : Screen α columns rows) : Screen α columns rows :=
  s.paint (fun i j => if i = s.cursorRow then none else s.grid i j) (by
    intro i j h
    have hbottom := s.lt_bottom
    rw [if_neg (by omega)]
    exact s.below i j h)

def eraseScreen (s : Screen α columns rows) : Screen α columns rows :=
  s.paint (fun i j => if s.top ≤ i then none else s.grid i j) (by
    intro i j h
    exact if_pos (by omega))

/-- The first row of the screen becomes the first row of all. -/
def eraseScrollback (s : Screen α columns rows) : Screen α columns rows where
  grid i j := s.grid (s.top + i) j
  top := 0
  cursorRow := s.cursorRow - s.top
  cursorCol := s.cursorCol
  cursorShown := s.cursorShown
  top_le := Nat.zero_le _
  lt_bottom := by
    have htop := s.top_le
    have hbottom := s.lt_bottom
    omega
  below i j h := s.below _ j (by omega)

def setCell (s : Screen α columns rows) (c : α) : Screen α columns rows :=
  s.paint (fun i j => if i = s.cursorRow ∧ j = s.cursorCol then some c else s.grid i j) (by
    intro i j h
    have hbottom := s.lt_bottom
    rw [if_neg (by omega)]
    exact s.below i j h)

/-- A cell past the last column goes to the next row. -/
def putCell (s : Screen α columns rows) (c : α) : Screen α columns rows :=
  let s := if columns ≤ s.cursorCol then s.lineFeed.carriageReturn else s
  { s.setCell c with cursorCol := s.cursorCol + 1 }

def putCells (s : Screen α columns rows) (cs : List α) : Screen α columns rows :=
  cs.foldl putCell s

def step (cells : τ → List α) (s : Screen α columns rows) : ScreenOp τ → Screen α columns rows
  | .text t => s.putCells (cells t)
  | .carriageReturn => s.carriageReturn
  | .lineFeed => s.lineFeed
  | .cursorUp n => s.cursorUp n
  | .cursorDown n => s.cursorDown n
  | .cursorColumn n => s.cursorColumn n
  | .cursorHome => s.cursorHome
  | .eraseLine => s.eraseLine
  | .eraseScreen => s.eraseScreen
  | .eraseScrollback => s.eraseScrollback
  | .showCursor => { s with cursorShown := true }
  | .hideCursor => { s with cursorShown := false }
  | .beginSync => s
  | .endSync => s

def run (cells : τ → List α) (s : Screen α columns rows) (ops : List (ScreenOp τ)) :
    Screen α columns rows :=
  ops.foldl (step cells) s

@[simp] theorem run_nil (cells : τ → List α) (s : Screen α columns rows) : s.run cells [] = s :=
  rfl

@[simp] theorem run_cons (cells : τ → List α) (s : Screen α columns rows) (op : ScreenOp τ)
    (ops : List (ScreenOp τ)) : s.run cells (op :: ops) = (s.step cells op).run cells ops := rfl

@[simp] theorem run_append (cells : τ → List α) (s : Screen α columns rows)
    (ops ops' : List (ScreenOp τ)) :
    s.run cells (ops ++ ops') = (s.run cells ops).run cells ops' :=
  List.foldl_append

def cellsOf (cells : τ → List α) (lines : List τ) (i j : ℕ) : Option α :=
  (lines[i]?).bind fun t => (cells t)[j]?

theorem cellsOf_of_le (cells : τ → List α) {lines : List τ} {i : ℕ} (h : lines.length ≤ i)
    (j : ℕ) : cellsOf cells lines i j = none := by
  rw [cellsOf, List.getElem?_eq_none h]
  rfl

@[simp] theorem cellsOf_cons_zero (cells : τ → List α) (t : τ) (lines : List τ) (j : ℕ) :
    cellsOf cells (t :: lines) 0 j = (cells t)[j]? := rfl

@[simp] theorem cellsOf_cons_succ (cells : τ → List α) (t : τ) (lines : List τ) (i j : ℕ) :
    cellsOf cells (t :: lines) (i + 1) j = cellsOf cells lines i j := rfl

variable {s s' : Screen α columns rows} {cells : τ → List α}

theorem putCells_spec (cs : List α) (h : s.cursorCol + cs.length ≤ columns) :
    (s.putCells cs).top = s.top ∧ (s.putCells cs).cursorRow = s.cursorRow ∧
      ∀ i j, (s.putCells cs).grid i j =
        if i = s.cursorRow ∧ s.cursorCol ≤ j ∧ j < s.cursorCol + cs.length then
          cs[j - s.cursorCol]?
        else s.grid i j := by
  induction cs generalizing s with
  | nil =>
    refine ⟨rfl, rfl, ?_⟩
    intro i j
    rw [if_neg (by simp)]
    rfl
  | cons c cs ih =>
    rw [List.length_cons] at h
    have hput : s.putCell c = { s.setCell c with cursorCol := s.cursorCol + 1 } := by
      rw [putCell, if_neg (by omega)]
    have hcol : (s.putCell c).cursorCol = s.cursorCol + 1 := by rw [hput]
    have hrow : (s.putCell c).cursorRow = s.cursorRow := by
      rw [hput]
      rfl
    have htop : (s.putCell c).top = s.top := by
      rw [hput]
      rfl
    have hgrid : ∀ i j, (s.putCell c).grid i j =
        if i = s.cursorRow ∧ j = s.cursorCol then some c else s.grid i j := by
      intro i j
      rw [hput]
      rfl
    obtain ⟨htop', hrow', hgrid'⟩ := ih (s := s.putCell c) (by omega)
    refine ⟨htop'.trans htop, hrow'.trans hrow, ?_⟩
    intro i j
    have hstep : s.putCells (c :: cs) = (s.putCell c).putCells cs := rfl
    rw [hstep, hgrid', hgrid, hrow, hcol, List.length_cons]
    by_cases hi : i = s.cursorRow
    · by_cases hj : j = s.cursorCol
      · subst hj
        rw [if_neg (by omega), if_pos ⟨hi, rfl⟩, if_pos (by omega), Nat.sub_self]
        rfl
      · by_cases hin : s.cursorCol + 1 ≤ j ∧ j < s.cursorCol + 1 + cs.length
        · rw [if_pos ⟨hi, hin⟩, if_pos (by omega)]
          obtain ⟨k, rfl⟩ := Nat.exists_eq_add_of_le hin.1
          rw [Nat.add_sub_cancel_left, Nat.add_assoc, Nat.add_sub_cancel_left, Nat.add_comm 1 k,
            List.getElem?_cons_succ]
        · rw [if_neg (by omega), if_neg (by omega), if_neg (by omega)]
    · rw [if_neg (by omega), if_neg (by omega), if_neg (by omega)]

/-- Where the cursor and the screen are, and what the rows are. -/
structure Shows (s : Screen α columns rows) (top cursorRow : ℕ) (grid : ℕ → ℕ → Option α) :
    Prop where
  top_eq : s.top = top
  cursor_eq : s.cursorRow = cursorRow
  grid_eq : s.grid = grid

variable {top cursorRow : ℕ} {grid : ℕ → ℕ → Option α}

section

variable (h : s.Shows top cursorRow grid)
include h

theorem Shows.carriageReturn :
    s.carriageReturn.Shows top cursorRow grid := ⟨h.top_eq, h.cursor_eq, h.grid_eq⟩

theorem Shows.lineFeed :
    s.lineFeed.Shows (max top (cursorRow + 2 - rows)) (cursorRow + 1) grid := by
  obtain ⟨rfl, rfl, rfl⟩ := h
  exact ⟨rfl, rfl, rfl⟩

theorem Shows.cursorUp {n : ℕ} (hn : 0 < n)
    (htop : top + n ≤ cursorRow) : (s.cursorUp n).Shows top (cursorRow - n) grid := by
  obtain ⟨rfl, rfl, rfl⟩ := h
  refine ⟨rfl, ?_, rfl⟩
  change max s.top (s.cursorRow - max n 1) = s.cursorRow - n
  omega

theorem Shows.cursorDown {n : ℕ} (hn : 0 < n)
    (hbottom : cursorRow + n < top + rows) : (s.cursorDown n).Shows top (cursorRow + n) grid := by
  obtain ⟨rfl, rfl, rfl⟩ := h
  refine ⟨rfl, ?_, rfl⟩
  change min (s.top + rows - 1) (s.cursorRow + max n 1) = s.cursorRow + n
  omega

theorem Shows.eraseLine :
    s.eraseLine.Shows top cursorRow (fun i j => if i = cursorRow then none else grid i j) := by
  obtain ⟨rfl, rfl, rfl⟩ := h
  exact ⟨rfl, rfl, rfl⟩

theorem Shows.text (hcol : s.cursorCol = 0) {cs : List α}
    (hblank : ∀ j, grid cursorRow j = none) (hfit : cs.length ≤ columns) :
    (s.putCells cs).Shows top cursorRow
      (fun i j => if i = cursorRow then cs[j]? else grid i j) := by
  obtain ⟨rfl, rfl, rfl⟩ := h
  obtain ⟨htop, hrow, hgrid⟩ := putCells_spec cs (s := s) (by omega)
  refine ⟨htop, hrow, ?_⟩
  funext i j
  rw [hgrid, hcol, Nat.sub_zero]
  by_cases hi : i = s.cursorRow
  · by_cases hj : j < cs.length
    · rw [if_pos (by omega), if_pos hi]
    · rw [if_neg (by omega), if_pos hi, hi, hblank, List.getElem?_eq_none (by omega)]
  · rw [if_neg (by omega), if_neg hi]

end

theorem shows_erased (s : Screen α columns rows) :
    s.eraseScreen.cursorHome.eraseScrollback.Shows 0 0 (fun _ _ => none) := by
  refine ⟨rfl, Nat.sub_self _, ?_⟩
  funext i j
  exact if_pos (Nat.le_add_right _ _)

end Screen

end Draht
