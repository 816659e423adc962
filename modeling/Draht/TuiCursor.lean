import Draht.GuardedRun
import Draht.TuiRender

/-!
# The row of the cursor

Frames may be empty and may have a cursor marker. The rendering keeps knowing the row of the cursor,
and the screen shows nothing but the frame, as long as no marker lies above the screen and no empty
frame is drawn by clearing the lines of another one: the cursor cannot leave the screen, and the
clearing begins below the first row.
-/

namespace Draht
open List Option

namespace Tui

open Screen

variable {α : Type*} {env : RenderEnv}

def positioned (cursorPos : Option CursorPos) (totalLines : ℕ) (drawn : State × Ops) :
    State × Ops :=
  let (tui, cursorOps) := positionHardwareCursor drawn.1 cursorPos totalLines
  (tui, drawn.2 ++ cursorOps)

variable {tui : State} {newLines : List JsText}

theorem positioned_finish (cursorPos : Option CursorPos) (totalLines : ℕ) (tui : State) (ops : Ops)
    (finish : State → State)
    (hcommute : ∀ row, finish { tui with hardwareCursorRow := row } =
      { finish tui with hardwareCursorRow := row })
    (hshow : (finish tui).showHardwareCursor = tui.showHardwareCursor)
    (hrow : (finish tui).hardwareCursorRow = tui.hardwareCursorRow) :
    (finish (positionHardwareCursor tui cursorPos totalLines).1,
        ops ++ (positionHardwareCursor tui cursorPos totalLines).2) =
      positioned cursorPos totalLines (finish tui, ops) := by
  rw [positioned]
  cases cursorPos with
  | none => rfl
  | some pos =>
    by_cases hempty : totalLines = 0
    · simp [positionHardwareCursor, if_pos hempty]
    · simp only [positionHardwareCursor, if_neg hempty]
      refine Prod.ext (hcommute _) ?_
      rw [hshow, hrow]

theorem fullRender_positioned (env : RenderEnv) (tui : State) (newLines : List JsText)
    (clear : Bool) :
    ∃ drawn, ∀ cursorPos, fullRender env tui newLines cursorPos clear =
      positioned cursorPos newLines.length drawn :=
  ⟨_, fun cursorPos => positioned_finish cursorPos _ _ _ (remember env · newLines)
    (fun _ => rfl) rfl rfl⟩

theorem renderDeletedLines_positioned (env : RenderEnv) (tui : State) (newLines : List JsText)
    (prevViewportTop : ℕ) :
    ∃ drawn, ∀ cursorPos, renderDeletedLines env tui newLines cursorPos prevViewportTop =
      positioned cursorPos newLines.length drawn := by
  let finish (tui : State) : State :=
    { remember env tui newLines with previousViewportTop := prevViewportTop }
  simp only [renderDeletedLines]
  split_ifs with hshorter htop hextra
  · exact fullRender_positioned env tui newLines true
  · exact fullRender_positioned env tui newLines true
  · exact ⟨_, fun cursorPos =>
      positioned_finish cursorPos _ _ _ finish (fun _ => rfl) rfl rfl⟩
  · exact ⟨_, fun cursorPos =>
      positioned_finish cursorPos _ _ _ finish (fun _ => rfl) rfl rfl⟩

theorem renderChangedLines_positioned (env : RenderEnv) (tui : State) (newLines : List JsText)
    (prevViewportTop firstChanged lastChanged : ℕ) :
    ∃ drawn : Except RenderCrash (State × Ops), ∀ cursorPos,
      renderChangedLines env tui newLines cursorPos prevViewportTop firstChanged lastChanged =
        drawn.map (positioned cursorPos newLines.length) := by
  simp only [renderChangedLines]
  split
  · exact ⟨.error _, fun _ => rfl⟩
  · exact ⟨.ok _, fun cursorPos => congrArg Except.ok
      (positioned_finish cursorPos _ _ _ (remember env · newLines) (fun _ => rfl) rfl rfl)⟩

theorem drawWith_positioned (env : RenderEnv) (tui : State) (newLines : List JsText)
    (widthChanged heightChanged : Bool) (prevViewportTop : ℕ) :
    ∃ drawn : Except RenderCrash (State × Ops), ∀ cursorPos,
      drawWith env tui cursorPos newLines widthChanged heightChanged prevViewportTop =
        drawn.map (positioned cursorPos newLines.length) := by
  have hfull : ∀ clear, ∃ drawn : Except RenderCrash (State × Ops), ∀ cursorPos,
      .ok (fullRender env tui newLines cursorPos clear) =
        drawn.map (positioned cursorPos newLines.length) := by
    intro clear
    obtain ⟨drawn, hdrawn⟩ := fullRender_positioned env tui newLines clear
    exact ⟨.ok drawn, fun cursorPos => congrArg Except.ok (hdrawn cursorPos)⟩
  let finish (tui : State) : State :=
    { tui with previousViewportTop := prevViewportTop, previousHeight := env.rows }
  simp only [drawWith]
  split_ifs with hfirst hwidth hheight hshrink
  · exact hfull false
  · exact hfull true
  · exact hfull true
  · exact hfull true
  · cases changedRange tui.previousLines newLines with
    | none =>
      exact ⟨.ok _, fun cursorPos => congrArg Except.ok
        (positioned_finish cursorPos _ tui [] finish (fun _ => rfl) rfl rfl)⟩
    | some range =>
      obtain ⟨firstChanged, lastChanged⟩ := range
      simp only
      split_ifs with hdeleted hhidden
      · obtain ⟨drawn, hdrawn⟩ :=
          renderDeletedLines_positioned env tui newLines prevViewportTop
        exact ⟨.ok drawn, fun cursorPos => congrArg Except.ok (hdrawn cursorPos)⟩
      · exact hfull true
      · exact renderChangedLines_positioned env tui newLines _ _ _

theorem drawLines_positioned (env : RenderEnv) (tui : State) (newLines : List JsText) :
    ∃ drawn : Except RenderCrash (State × Ops), ∀ cursorPos,
      drawLines env tui cursorPos newLines =
        drawn.map (positioned cursorPos newLines.length) :=
  drawWith_positioned env tui newLines _ _ _

variable {display : Display env α} {s : Screen α env.columns env.rows}
  {cursorPos : Option CursorPos}

@[simp] theorem previousViewportTop_positionHardwareCursor (cursorPos : Option CursorPos)
    (totalLines : ℕ) :
    (positionHardwareCursor tui cursorPos totalLines).1.previousViewportTop =
      tui.previousViewportTop := by
  cases cursorPos with
  | none => rfl
  | some pos =>
    rw [positionHardwareCursor]
    by_cases hempty : totalLines = 0
    · rw [if_pos hempty]
    · rw [if_neg hempty]

theorem positionHardwareCursor_zero (tui : State) (cursorPos : Option CursorPos) :
    positionHardwareCursor tui cursorPos 0 = (tui, [.hideCursor]) := by
  cases cursorPos with
  | none => rfl
  | some pos => rfl

theorem Synced.positionHardwareCursor {totalLines : ℕ} (h : Synced display tui s)
    (hlength : tui.previousLines.length = totalLines)
    (hinside : ∀ pos, cursorPos = some pos → tui.previousViewportTop ≤ pos.row) :
    Synced display (positionHardwareCursor tui cursorPos totalLines).1
        (s.run display.cells (positionHardwareCursor tui cursorPos totalLines).2) ∧
      (positionHardwareCursor tui cursorPos totalLines).1.previousLines = tui.previousLines ∧
        Kept tui (positionHardwareCursor tui cursorPos totalLines).1 := by
  obtain ⟨hshows, hviewport, hlast, hblank, hwidth, hheight⟩ := h
  cases cursorPos with
  | none =>
    exact ⟨⟨run_hideCursor hshows, hviewport, hlast, hblank, hwidth, hheight⟩, rfl, rfl, rfl⟩
  | some pos =>
    have hrow := hinside pos rfl
    have hne : totalLines ≠ 0 := by omega
    rw [Tui.positionHardwareCursor, if_neg hne]
    refine ⟨⟨?_, hviewport, hlast, hblank, hwidth, hheight⟩, rfl, rfl, rfl⟩
    have hmove := shows_moveBy display.cells hshows (min pos.row (totalLines - 1)) rfl (by omega)
      (by omega)
    rw [run_append, run_append]
    cases tui.showHardwareCursor with
    | true => exact ⟨hmove.top_eq, hmove.cursor_eq, hmove.grid_eq⟩
    | false => exact ⟨hmove.top_eq, hmove.cursor_eq, hmove.grid_eq⟩

variable {frame : List JsText} {tui' : State}

theorem viewport_drawLines_le (hsynced : Synced display tui s) {ops : Ops}
    (h : drawLines env tui cursorPos newLines = .ok (tui', ops)) :
    tui'.previousViewportTop ≤ max tui.previousViewportTop (newLines.length - env.rows) := by
  have hfull : ∀ clear, (fullRender env tui newLines cursorPos clear).1.previousViewportTop =
      max env.rows newLines.length - env.rows := by
    intro clear
    simp [fullRender, remember]
  have hfull' : ∀ clear, fullRender env tui newLines cursorPos clear = (tui', ops) →
      tui'.previousViewportTop ≤ max tui.previousViewportTop (newLines.length - env.rows) := by
    intro clear hrender
    have htop := hfull clear
    rw [hrender] at htop
    simp only at htop
    omega
  rw [drawLines_of_synced hsynced] at h
  split_ifs at h with hshrink
  · exact hfull' true (Except.ok.inj h)
  · cases hrange : changedRange tui.previousLines newLines with
    | none =>
      rw [hrange] at h
      obtain ⟨rfl, _⟩ := Prod.mk.inj (Except.ok.inj h)
      exact le_max_left _ _
    | some range =>
      obtain ⟨firstChanged, lastChanged⟩ := range
      rw [hrange] at h
      simp only at h
      split_ifs at h with hdeleted hhidden
      · have h' := Except.ok.inj h
        simp only [renderDeletedLines] at h'
        split_ifs at h' with hshorter htop hextra
        · exact hfull' true h'
        · exact hfull' true h'
        · obtain ⟨rfl, _⟩ := Prod.mk.inj h'
          exact le_max_left _ _
        · obtain ⟨rfl, _⟩ := Prod.mk.inj h'
          exact le_max_left _ _
      · exact hfull' true (Except.ok.inj h)
      · simp only [renderChangedLines] at h
        split at h
        · cases h
        · obtain ⟨rfl, _⟩ := Prod.mk.inj (Except.ok.inj h)
          simp only [remember, previousViewportTop_positionHardwareCursor]
          rw [clearRest_fst (by omega)]
          simp only [scrollTo]
          split_ifs <;> simp only <;> omega

section

variable (cells : JsText → List α) {columns rows : ℕ} {screen : Screen α columns rows}
  {top cursorRow : ℕ} {grid : ℕ → ℕ → Option α}

theorem shows_cursorDown_clamped (n : ℕ) (h : screen.Shows top cursorRow grid) :
    (screen.cursorDown n).Shows top (min (top + rows - 1) (cursorRow + max n 1)) grid := by
  obtain ⟨rfl, rfl, rfl⟩ := h
  exact ⟨rfl, rfl, rfl⟩

theorem shows_clearLines_clamped (n : ℕ) (h : screen.Shows top cursorRow grid) :
    (screen.run cells (clearLines (n + 1))).Shows top (min (top + rows - 1) (cursorRow + n))
        (fun i j => if cursorRow ≤ i ∧ i ≤ cursorRow + n then none else grid i j) ∧
      (screen.run cells (clearLines (n + 1))).cursorCol = 0 := by
  induction n generalizing screen cursorRow grid with
  | zero =>
    obtain ⟨_, hlt⟩ := shows_bounds h
    refine ⟨shows_congr h.carriageReturn.eraseLine rfl (by omega) ?_, rfl⟩
    intro i j
    by_cases hi : i = cursorRow
    · rw [if_pos hi, if_pos (by omega)]
    · rw [if_neg hi, if_neg (by omega)]
  | succ n ih =>
    obtain ⟨hge, hlt⟩ := shows_bounds h
    have hbelow : ∀ i j, top + rows ≤ i → grid i j = none := by
      obtain ⟨rfl, _, rfl⟩ := h
      exact screen.below
    have hdown : (screen.run cells [.carriageReturn, .eraseLine, .cursorDown 1]).Shows top
        (min (top + rows - 1) (cursorRow + 1))
        (fun i j => if i = cursorRow then none else grid i j) :=
      shows_cursorDown_clamped 1 h.carriageReturn.eraseLine
    obtain ⟨hclear, hcol⟩ := ih hdown
    refine ⟨shows_congr hclear rfl (by omega) ?_, hcol⟩
    intro i j
    by_cases hin : cursorRow ≤ i ∧ i ≤ cursorRow + (n + 1)
    · rw [if_pos hin]
      by_cases hrest : min (top + rows - 1) (cursorRow + 1) ≤ i ∧
          i ≤ min (top + rows - 1) (cursorRow + 1) + n
      · rw [if_pos hrest]
      · rw [if_neg hrest]
        by_cases hi : i = cursorRow
        · rw [if_pos hi]
        · rw [if_neg hi]
          exact hbelow i j (by omega)
    · rw [if_neg hin, if_neg (by omega), if_neg (by omega)]

theorem shows_clearExtraLines_home {n : ℕ} (hn : 0 < n) (h : screen.Shows 0 0 grid)
    (hrest : ∀ i j, n < i → grid i j = none) (hfirst : rows = 1 ∨ ∀ j, grid 0 j = none) :
    (screen.run cells (clearExtraLines n)).Shows 0 0 (fun _ _ => none) ∧
      (screen.run cells (clearExtraLines n)).cursorCol = 0 := by
  obtain ⟨_, hlt⟩ := shows_bounds h
  obtain ⟨m, rfl⟩ : ∃ m, n = m + 1 := ⟨n - 1, by omega⟩
  have hbelow : ∀ i j, rows ≤ i → grid i j = none := by
    obtain ⟨htop, _, rfl⟩ := h
    exact fun i j hi => screen.below i j (by omega)
  have hdown : (screen.run cells [.cursorDown 1]).Shows 0 (min (0 + rows - 1) (0 + 1)) grid :=
    shows_cursorDown_clamped 1 h
  obtain ⟨hclear, hcol⟩ := shows_clearLines_clamped cells m hdown
  rw [clearExtraLines, if_pos hn, if_pos hn, run_append, run_append]
  generalize (screen.run cells [.cursorDown 1]).run cells (clearLines (m + 1)) = cleared at *
  obtain ⟨htop, hrow, hgrid⟩ := hclear
  refine ⟨⟨htop, ?_, ?_⟩, hcol⟩
  · change max cleared.top (cleared.cursorRow - max (m + 1) 1) = 0
    omega
  · change cleared.grid = _
    rw [hgrid]
    funext i j
    split_ifs with hin
    · rfl
    · by_cases hi : i = 0
      · subst hi
        obtain hone | hnone := hfirst
        · omega
        · exact hnone j
      · by_cases hlast : m + 1 < i
        · exact hrest i j hlast
        · exact hbelow i j (by omega)

end

/-- Nothing is on the screen, and the cursor is where drawing begins. -/
structure Emptied (tui : State) (s : Screen α env.columns env.rows) : Prop where
  lines : tui.previousLines = []
  width : tui.previousWidth = env.columns
  height : tui.previousHeight = env.rows
  row : tui.hardwareCursorRow = 0
  viewport : tui.previousViewportTop = 0
  clean : s.Shows 0 0 (fun _ _ => none)
  home : s.cursorCol = 0

theorem Emptied.settled (h : Emptied tui s) : Settled display tui s :=
  .blank h.lines (.inr h.width) (.inr h.height) h.clean h.home

theorem emptied_fullRender (clear : Bool)
    (hclean : clear = false → s.Shows 0 0 (fun _ _ => none) ∧ s.cursorCol = 0) :
    Emptied (fullRender env tui [] cursorPos clear).1
        (s.run display.cells (fullRender env tui [] cursorPos clear).2) ∧
      Kept tui (fullRender env tui [] cursorPos clear).1 := by
  simp only [fullRender, length_nil, positionHardwareCursor_zero]
  refine ⟨⟨rfl, rfl, rfl, rfl, by simp [remember], ?_, ?_⟩, rfl, rfl⟩
  · cases clear with
    | true =>
      obtain ⟨htop, hrow, hgrid⟩ := shows_erased s
      exact ⟨htop, hrow, hgrid⟩
    | false =>
      obtain ⟨htop, hrow, hgrid⟩ := (hclean rfl).1
      exact ⟨htop, hrow, hgrid⟩
  · cases clear with
    | true => rfl
    | false => exact (hclean rfl).2

theorem synced_of_not_redrawsFully (hsettled : Settled display tui s)
    (h : ¬ redrawsFully env tui newLines = true) : Synced display tui s := by
  obtain ⟨hlines, _⟩ | hwidth | hsynced := hsettled
  · simp [redrawsFully, hlines] at h
  · simp [redrawsFully, hwidth] at h
  · exact hsynced

theorem emptied_renderDeletedLines (hsynced : Synced display tui s)
    (htop : tui.previousViewportTop = 0) (hroom : tui.previousLines.length ≤ env.rows)
    (hempty : env.rows = 1 ∨ display.cells (lineAt tui.previousLines 0) = []) :
    Emptied (renderDeletedLines env tui [] cursorPos tui.previousViewportTop).1
        (s.run display.cells
          (renderDeletedLines env tui [] cursorPos tui.previousViewportTop).2) ∧
      Kept tui (renderDeletedLines env tui [] cursorPos tui.previousViewportTop).1 := by
  obtain ⟨hshows, hviewport, _, _, _, _⟩ := hsynced
  simp only [renderDeletedLines, length_nil, Nat.sub_zero, positionHardwareCursor_zero]
  rw [if_pos (by omega), if_neg (by omega), if_neg (by omega)]
  have hdiff : computeLineDiff tui.hardwareCursorRow tui.previousViewportTop
      tui.previousViewportTop (0 - 1) = ((0 : ℕ) : ℤ) - tui.hardwareCursorRow := by
    rw [computeLineDiff]
    omega
  have hmove := shows_congr (shows_moveBy display.cells hshows 0 hdiff (by omega) (by omega)) htop
    rfl (fun _ _ => rfl)
  have hfirst : env.rows = 1 ∨ ∀ j, cellsOf display.cells tui.previousLines 0 j = none := by
    refine hempty.imp_right fun hcells j => ?_
    rw [lineAt, getElem?_eq_getElem (by omega), getD_some] at hcells
    rw [cellsOf, getElem?_eq_getElem (by omega), bind_some, hcells]
    rfl
  obtain ⟨hclear, hcol⟩ := shows_clearExtraLines_home display.cells
    (show 0 < tui.previousLines.length by omega) hmove.carriageReturn
    (fun i j hi => cellsOf_of_le _ (by omega) j) hfirst
  simp only [run_append, run_cons]
  exact ⟨⟨rfl, rfl, rfl, rfl, htop, ⟨hclear.top_eq, hclear.cursor_eq, hclear.grid_eq⟩, hcol⟩,
    rfl, rfl⟩

theorem emptied_drawLines (hsettled : Settled display tui s)
    (hempty : redrawsFully env tui [] = true ∨ env.rows = 1 ∨
      display.cells (lineAt tui.previousLines 0) = []) :
    ∃ tui' ops, drawLines env tui cursorPos [] = .ok (tui', ops) ∧
      Emptied tui' (s.run display.cells ops) ∧ Kept tui tui' := by
  by_cases hfull : redrawsFully env tui [] = true
  · obtain ⟨clear, hrender, hclean⟩ := drawLines_of_redrawsFully cursorPos hsettled hfull
    exact ⟨_, _, hrender, emptied_fullRender clear hclean⟩
  · have hsynced := synced_of_not_redrawsFully hsettled hfull
    have hviewport := hsynced.viewport
    have hne : tui.previousLines ≠ [] := ne_nil_of_length_pos (by omega)
    rw [drawLines_of_synced hsynced]
    split_ifs with hshrink
    · exact ⟨_, _, rfl, emptied_fullRender true (by simp)⟩
    · cases hrange : changedRange tui.previousLines [] with
      | none =>
        exact absurd (changedRange_none hsynced.noBlank (by simp [NoBlank]) hrange) hne
      | some range =>
        have hreach : outOfReach env tui [] = false := by
          simp only [redrawsFully, Bool.or_eq_true, not_or] at hfull
          exact eq_false_of_ne_true hfull.2
        rw [outOfReach, hrange] at hreach
        simp only [length_nil, Nat.zero_le, if_true, Nat.sub_zero, Bool.and_eq_false_iff,
          Bool.or_eq_false_iff, decide_eq_false_iff_not] at hreach
        exact ⟨_, _, rfl, emptied_renderDeletedLines hsynced (by omega) (by omega)
          (hempty.resolve_left hfull)⟩

/-- The rendering knows where the cursor and the screen are, and each row of the screen shows the
frame's line for it, or nothing. -/
structure Bookkept (display : Display env α) (newLines : List JsText) (tui : State)
    (s : Screen α env.columns env.rows) : Prop where
  cursor : s.cursorRow = tui.hardwareCursorRow
  viewport : s.top = tui.previousViewportTop
  shown : ∀ r < env.rows, ∀ j,
    s.grid (s.top + r) j = cellsOf display.cells newLines (tui.previousViewportTop + r) j

theorem Emptied.bookkept (h : Emptied tui s) : Bookkept display [] tui s where
  cursor := h.clean.cursor_eq.trans h.row.symm
  viewport := h.clean.top_eq.trans h.viewport.symm
  shown r _ j := by
    rw [h.clean.grid_eq]
    rfl

theorem Synced.bookkept (h : Synced display tui s) (hlines : tui.previousLines = newLines) :
    Bookkept display newLines tui s where
  cursor := h.shows.cursor_eq
  viewport := h.shows.top_eq
  shown r _ j := by
    rw [h.shows.grid_eq, h.shows.top_eq, hlines]

theorem bookkept_drawLines (hrows : 0 < env.rows) (hsettled : Settled display tui s)
    (hblank : NoBlank newLines)
    (hfits : ∀ line ∈ newLines, (display.cells line).length ≤ env.columns)
    (hpos : ∀ pos, cursorPos = some pos → newLines.length - env.rows ≤ pos.row)
    (hvisible : ∀ pos, cursorPos = some pos →
      tui.previousViewportTop ≤ pos.row ∨ redrawsFully env tui newLines = true)
    (hempty : newLines = [] → redrawsFully env tui [] = true ∨ env.rows = 1 ∨
      display.cells (lineAt tui.previousLines 0) = []) :
    ∃ tui' ops, drawLines env tui cursorPos newLines = .ok (tui', ops) ∧
      Settled display tui' (s.run display.cells ops) ∧
        Bookkept display newLines tui' (s.run display.cells ops) ∧ Kept tui tui' := by
  by_cases hnil : newLines = []
  · subst hnil
    obtain ⟨tui', ops, hrender, hemptied, hkept⟩ := emptied_drawLines hsettled (hempty rfl)
    exact ⟨tui', ops, hrender, hemptied.settled, hemptied.bookkept, hkept⟩
  · obtain ⟨tui₀, ops₀, hrender, hsynced, hlines, hkept⟩ :=
      synced_drawLines hrows hsettled ⟨hnil, hblank, hfits⟩
    have hviewport : ∀ pos, cursorPos = some pos → tui₀.previousViewportTop ≤ pos.row := by
      intro pos hsome
      have hlow := hpos pos hsome
      by_cases hfull : redrawsFully env tui newLines = true
      · obtain ⟨clear, hdrawn, _⟩ :=
          drawLines_of_redrawsFully none hsettled hfull
        obtain ⟨rfl, _⟩ := Prod.mk.inj (Except.ok.inj (hrender.symm.trans hdrawn))
        change max env.rows newLines.length - env.rows ≤ pos.row
        omega
      · have htop := viewport_drawLines_le (synced_of_not_redrawsFully hsettled hfull) hrender
        have hknown := (hvisible pos hsome).resolve_right hfull
        omega
    obtain ⟨drawn, hdrawn⟩ := drawLines_positioned env tui newLines
    rw [hdrawn none] at hrender
    cases drawn with
    | error crash => cases hrender
    | ok drawn =>
      obtain ⟨rfl, rfl⟩ := Prod.mk.inj (Except.ok.inj hrender)
      have hunhidden : Synced display drawn.1 (s.run display.cells drawn.2) := by
        have hshows := hsynced.shows
        simp only [run_append] at hshows
        exact ⟨⟨hshows.top_eq, hshows.cursor_eq, hshows.grid_eq⟩, hsynced.viewport,
          hsynced.inside, hsynced.noBlank, hsynced.width_eq, hsynced.height_eq⟩
      obtain ⟨hsynced', hlines', hkept'⟩ := hunhidden.positionHardwareCursor
        (congrArg List.length hlines) hviewport
      refine ⟨_, _, hdrawn cursorPos, ?_⟩
      simp only [run_append]
      exact ⟨.synced hsynced', hsynced'.bookkept (hlines'.trans hlines),
        hkept'.1.trans hkept.1, hkept'.2.trans hkept.2⟩

theorem prepareLines_row {pos : CursorPos} (h : (prepareLines env tui frame).1 = some pos) :
    (prepareLines env tui frame).2.length - env.rows ≤ pos.row := by
  rw [prepareLines] at h ⊢
  simp only [applyLineResets, length_map] at h ⊢
  generalize (if 0 < tui.overlayStackLength then env.compositeOverlays frame else frame) =
    composed at h ⊢
  rw [extractCursorPosition] at h ⊢
  cases hmarker : findMarker composed (composed.length - env.rows) with
  | none =>
    rw [hmarker] at h
    cases h
  | some found =>
    obtain ⟨row, markerIndex⟩ := found
    rw [hmarker] at h
    obtain rfl := some.inj h
    obtain ⟨row', hmem, hfound⟩ := exists_of_findSome?_eq_some hmarker
    obtain ⟨_, _, hpair⟩ := map_eq_some_iff.mp hfound
    obtain ⟨rfl, rfl⟩ := Prod.mk.inj hpair
    have hrow := of_decide_eq_true (mem_filter.mp hmem).2
    simp only [length_set]
    exact hrow

/-- What happens to an interface of fixed size, whose overlays come and go. -/
inductive FrameEvent where
  | interface (action : Action)
  | setOverlays (count : ℕ)

def frameStep (display : Display env α) (state : State × Screen α env.columns env.rows) :
    FrameEvent → Option (State × Screen α env.columns env.rows)
  | .interface action => (perform display state.1 state.2 action).toOption
  | .setOverlays count => some ({ state.1 with overlayStackLength := count }, state.2)

/-- The lines fit in the terminal. A marker is not above the rows that stay on the screen, or
everything is drawn anew; and so it is when the frame is empty, unless clearing from the second line
on leaves nothing. -/
structure DrawnSafely (display : Display env α) (tui : State) (frame : List JsText) : Prop where
  fits : ∀ line ∈ (prepareLines env tui frame).2, env.visibleWidth line ≤ env.columns
  marker : ∀ pos, (prepareLines env tui frame).1 = some pos →
    tui.previousViewportTop ≤ pos.row ∨
      redrawsFully env tui (prepareLines env tui frame).2 = true
  empty : (prepareLines env tui frame).2 = [] →
    redrawsFully env tui [] = true ∨ env.rows = 1 ∨
      display.cells (lineAt tui.previousLines 0) = []

instance (tui : State) (frame : List JsText) : Decidable (DrawnSafely display tui frame) :=
  decidable_of_iff
    ((prepareLines env tui frame).2.all (fun line => env.visibleWidth line ≤ env.columns) = true ∧
      (prepareLines env tui frame).1.all (fun pos => tui.previousViewportTop ≤ pos.row ||
        redrawsFully env tui (prepareLines env tui frame).2) = true ∧
      ((prepareLines env tui frame).2.isEmpty = true → redrawsFully env tui [] = true ∨
        env.rows = 1 ∨ (display.cells (lineAt tui.previousLines 0)).isEmpty = true))
    ⟨fun h => ⟨by simpa using h.1, by simpa [Option.all_eq_true] using h.2.1,
        by simpa using h.2.2⟩,
      fun h => ⟨by simpa using h.fits, by simpa [Option.all_eq_true] using h.marker,
        by simpa using h.empty⟩⟩

def FrameEvent.Safe (display : Display env α) (state : State × Screen α env.columns env.rows) :
    FrameEvent → Prop
  | .interface (.render frame) => DrawnSafely display state.1 frame
  | _ => True

instance (state : State × Screen α env.columns env.rows) :
    (event : FrameEvent) → Decidable (event.Safe display state)
  | .interface (.render frame) => inferInstanceAs (Decidable (DrawnSafely display state.1 frame))
  | .interface .requestForcedRender => .isTrue trivial
  | .interface (.setClearOnShrink _) => .isTrue trivial
  | .setOverlays _ => .isTrue trivial

theorem bookkept_doRender (hrows : 0 < env.rows) (hsettled : Settled display tui s)
    (hstopped : tui.stopped = false) (hsafe : DrawnSafely display tui frame) :
    ∃ tui' ops, doRender env tui frame = .ok (tui', ops) ∧
      Settled display tui' (s.run display.cells ops) ∧
        Bookkept display (prepareLines env tui frame).2 tui' (s.run display.cells ops) ∧
          Kept tui tui' := by
  rw [doRender_eq hstopped]
  apply bookkept_drawLines hrows hsettled
  · exact noBlank_applyLineResets _
  · intro line hline
    rw [← display.width_eq]
    exact hsafe.fits line hline
  · exact fun pos => prepareLines_row
  · exact hsafe.marker
  · exact hsafe.empty

theorem Settled.congr (h : Settled display tui s) (hlines : tui'.previousLines = tui.previousLines)
    (hwidth : tui'.previousWidth = tui.previousWidth)
    (hheight : tui'.previousHeight = tui.previousHeight)
    (hviewport : tui'.previousViewportTop = tui.previousViewportTop)
    (hrow : tui'.hardwareCursorRow = tui.hardwareCursorRow) : Settled display tui' s := by
  obtain ⟨lines, width, height, clean, home⟩ | width | synced := h
  · exact .blank (hlines.trans lines) (by rwa [hwidth]) (by rwa [hheight]) clean home
  · exact .forced (hwidth.trans width)
  · refine .synced ⟨?_, ?_, ?_, ?_, hwidth.trans synced.width_eq, hheight.trans synced.height_eq⟩
    · rw [hviewport, hrow, hlines]
      exact synced.shows
    · rw [hviewport, hlines]
      exact synced.viewport
    · rw [hviewport, hlines]
      exact synced.inside
    · rw [hlines]
      exact synced.noBlank

theorem bookkept_frameStep (hrows : 0 < env.rows)
    {state : State × Screen α env.columns env.rows} (hsettled : Settled display state.1 state.2)
    (hstopped : state.1.stopped = false) {event : FrameEvent} (hsafe : event.Safe display state) :
    ∃ state', frameStep display state event = some state' ∧
      (Settled display state'.1 state'.2 ∧ state'.1.stopped = false) ∧
        ∀ frame, event = .interface (.render frame) →
          Bookkept display (prepareLines env state.1 frame).2 state'.1 state'.2 := by
  obtain action | count := event
  · cases action with
    | render frame =>
      obtain ⟨tui', ops, hrender, hsettled', hbooks, hkept⟩ :=
        bookkept_doRender hrows hsettled hstopped hsafe
      refine ⟨(tui', state.2.run display.cells ops), ?_, ⟨hsettled', hkept.1.trans hstopped⟩, ?_⟩
      · rw [frameStep, perform, hrender]
        rfl
      · intro frame' hframe
        cases hframe
        exact hbooks
    | requestForcedRender =>
      exact ⟨_, rfl, ⟨.forced rfl, hstopped⟩, fun _ h => by cases h⟩
    | setClearOnShrink enabled =>
      exact ⟨_, rfl, ⟨hsettled.congr rfl rfl rfl rfl rfl, hstopped⟩, fun _ h => by cases h⟩
  · exact ⟨_, rfl, ⟨hsettled.congr rfl rfl rfl rfl rfl, hstopped⟩, fun _ h => by cases h⟩

/-- In every run of safe events, each rendering leaves the row of the cursor known and the screen
with nothing but the frame, and a safe event is always possible. -/
theorem cursor_bookkept (display : Display env α) (hrows : 0 < env.rows)
    (showHardwareCursor clearOnShrink : Bool)
    {steps : List (Transition (State × Screen α env.columns env.rows) FrameEvent)}
    {state : State × Screen α env.columns env.rows}
    (hrun : GuardedRun (frameStep display) (fun state event => event.Safe display state)
      (initial showHardwareCursor clearOnShrink, clean α env.columns hrows) steps state) :
    (∀ t ∈ steps, ∀ frame, t.action = .interface (.render frame) →
      Bookkept display (prepareLines env t.before.1 frame).2 t.after.1 t.after.2) ∧
      ∀ event : FrameEvent, event.Safe display state →
        ∃ state', frameStep display state event = some state' := by
  have hinit : Settled display (initial showHardwareCursor clearOnShrink)
      (clean α env.columns hrows) := .blank rfl (.inl rfl) (.inl rfl) ⟨rfl, rfl, rfl⟩ rfl
  have hstep : ∀ state event state', Settled display state.1 state.2 ∧ state.1.stopped = false →
      event.Safe display state → frameStep display state event = some state' →
        (Settled display state'.1 state'.2 ∧ state'.1.stopped = false) ∧
          ∀ frame, event = .interface (.render frame) →
            Bookkept display (prepareLines env state.1 frame).2 state'.1 state'.2 := by
    intro state event state' hinv hsafe hs
    obtain ⟨next, hnext, hkeeps⟩ := bookkept_frameStep hrows hinv.1 hinv.2 hsafe
    obtain rfl := some.inj (hs.symm.trans hnext)
    exact hkeeps
  constructor
  · exact hrun.forall_step (Q := fun t => ∀ frame, t.action = .interface (.render frame) →
      Bookkept display (prepareLines env t.before.1 frame).2 t.after.1 t.after.2)
      ⟨hinit, rfl⟩ hstep
  · intro event hsafe
    have hinv := hrun.invariant (I := fun state =>
      Settled display state.1 state.2 ∧ state.1.stopped = false) ⟨hinit, rfl⟩
      (fun state event state' hinv hsafe hs => (hstep state event state' hinv hsafe hs).1)
    obtain ⟨next, hnext, _⟩ := bookkept_frameStep hrows hinv.1 hinv.2 hsafe
    exact ⟨next, hnext⟩

/-- A frame that is longer than the terminal, then one with a marker, and a shorter one. -/
theorem cursor_bookkept_threeFrames : ∃ steps state,
    GuardedRun (frameStep smallDisplay) (fun state event => event.Safe smallDisplay state)
      (initial false false, clean UInt16 3 (by decide)) steps state ∧ steps.length = 3 ∧
      ∀ t ∈ steps, ∀ frame, t.action = .interface (.render frame) →
        Bookkept smallDisplay (prepareLines smallTerminal t.before.1 frame).2 t.after.1
          t.after.2 := by
  obtain ⟨steps, state, hrun, hlength⟩ := GuardedRun.exists_of_play (frameStep smallDisplay)
    (fun state event => event.Safe smallDisplay state)
    (initial false false, clean UInt16 3 (by decide))
    [.interface (.render [[97], [98], [99]]),
      .interface (.render [[97], [98], CURSOR_MARKER ++ [100]]),
      .interface (.render [[97], [98]])]
    (fun steps _ => steps.length = 3) (by decide +kernel)
  exact ⟨steps, state, hrun, hlength, (cursor_bookkept smallDisplay (by decide) false false hrun).1⟩

/-- A marker above the rows that stay on the screen takes the row of the cursor out of the screen,
and the only line of a frame stays on the screen under an empty one. -/
theorem markerAbove_emptyFrame_not_bookkept :
    (frameStep smallDisplay (initial false false, clean UInt16 3 (by decide))
          (.interface (.render [[97], [98], [99], [100]])) >>= fun state =>
        frameStep smallDisplay state
          (.interface (.render [[97], CURSOR_MARKER ++ [98], [99]]))).map
        (fun state => (state.1.hardwareCursorRow, state.2.cursorRow)) = some (1, 2) ∧
      (frameStep smallDisplay (initial false false, clean UInt16 3 (by decide))
          (.interface (.render [[97]])) >>= fun state =>
        frameStep smallDisplay state (.interface (.render []))).map
        (fun state => (state.1.previousLines, state.2.grid state.2.top 0)) = some ([], some 97) :=
  ⟨by decide +kernel, by decide +kernel⟩

end Tui

end Draht
