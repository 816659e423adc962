import Draht.TuiOps

/-!
# The screen shows the last frame

Between two renderings the rows of the terminal, scrolled out or on the screen, are the lines of
the frame drawn last, and the rendering knows the row of the cursor and the first row on the
screen. Each way to draw a frame keeps this.
-/

namespace Draht
open List Option

namespace Tui

open Screen

variable {α : Type*} {env : RenderEnv}

/-- What the terminal shows for a line: as many cells as the line is wide, and nothing for the
reset sequence at its end. -/
structure Display (env : RenderEnv) (α : Type*) where
  cells : JsText → List α
  width_eq : ∀ line, env.visibleWidth line = (cells line).length
  reset : ∀ line, cells (line ++ SEGMENT_RESET) = cells line

/-- A frame with a line, of lines that fit, without images and without a cursor marker. -/
structure PlainFrame (env : RenderEnv) (frame : List JsText) : Prop where
  ne_nil : frame ≠ []
  fits : ∀ line ∈ frame, env.visibleWidth line ≤ env.columns
  noImage : ∀ line ∈ frame, isImageLine line = false
  noMarker : ∀ line ∈ frame, indexOf? CURSOR_MARKER line = none

def NoBlank (lines : List JsText) : Prop := ∀ line ∈ lines, line ≠ []

structure Synced (display : Display env α) (tui : State) (s : Screen α env.columns env.rows) :
    Prop where
  shows : s.Shows tui.previousViewportTop tui.hardwareCursorRow
    (cellsOf display.cells tui.previousLines)
  viewport : tui.previousViewportTop < tui.previousLines.length
  inside : tui.previousLines.length ≤ tui.previousViewportTop + env.rows
  noBlank : NoBlank tui.previousLines
  width_eq : tui.previousWidth = env.columns
  height_eq : tui.previousHeight = env.rows

variable {frame lines previousLines newLines : List JsText} {tui : State}

theorem applyLineResets_plain (h : ∀ line ∈ frame, isImageLine line = false) :
    applyLineResets frame = frame.map (· ++ SEGMENT_RESET) := by
  apply map_congr_left
  intro line hline
  rw [if_neg (by simp [h line hline])]

theorem cellsOf_applyLineResets (display : Display env α)
    (h : ∀ line ∈ frame, isImageLine line = false) :
    cellsOf display.cells (applyLineResets frame) = cellsOf display.cells frame := by
  funext i j
  rw [applyLineResets_plain h, cellsOf, cellsOf, getElem?_map]
  cases frame[i]? with
  | none => rfl
  | some line => simp [display.reset]

theorem findMarker_plain (h : ∀ line ∈ frame, indexOf? CURSOR_MARKER line = none)
    (viewportTop : ℕ) : findMarker frame viewportTop = none := by
  rw [findMarker, findSome?_eq_none_iff]
  intro row hrow
  have hlt : row < frame.length := by
    simpa using (mem_filter.mp hrow).1
  rw [getElem?_eq_getElem hlt]
  simp [h _ (getElem_mem hlt)]

theorem prepareLines_plain (hplain : PlainFrame env frame) (hoverlay : tui.overlayStackLength = 0) :
    prepareLines env tui frame = (none, applyLineResets frame) := by
  rw [prepareLines, extractCursorPosition, if_neg (by omega), findMarker_plain hplain.noMarker]

theorem noBlank_applyLineResets (lines : List JsText) : NoBlank (applyLineResets lines) := by
  intro line hline
  obtain ⟨raw, _, rfl⟩ := mem_map.mp hline
  by_cases himage : isImageLine raw = true
  · rw [if_pos himage]
    rintro rfl
    exact absurd himage (by decide)
  · rw [if_neg himage]
    exact append_ne_nil_of_right_ne_nil _ (by decide)

theorem fits_applyLineResets (display : Display env α) (hplain : PlainFrame env frame) :
    ∀ line ∈ applyLineResets frame, (display.cells line).length ≤ env.columns := by
  rw [applyLineResets_plain hplain.noImage]
  intro line hline
  obtain ⟨raw, hraw, rfl⟩ := mem_map.mp hline
  rw [display.reset, ← display.width_eq]
  exact hplain.fits raw hraw

variable {i first current : ℕ} {l : List ℕ} {previous : ℤ}

theorem getElem?_eq_of_lineAt (hold : NoBlank previousLines) (hnew : NoBlank newLines)
    (h : lineAt previousLines i = lineAt newLines i) : previousLines[i]? = newLines[i]? := by
  rw [lineAt, lineAt] at h
  cases hp : previousLines[i]? with
  | none =>
    cases hn : newLines[i]? with
    | none => rfl
    | some line =>
      rw [hp, hn] at h
      exact absurd h.symm (hnew line (mem_of_getElem? hn))
  | some line =>
    cases hn : newLines[i]? with
    | none =>
      rw [hp, hn] at h
      exact absurd h (hold line (mem_of_getElem? hp))
    | some line' =>
      rw [hp, hn] at h
      exact congrArg some h

theorem mem_changedRows : i ∈ changedRows previousLines newLines ↔
    i < max newLines.length previousLines.length ∧ lineAt previousLines i ≠ lineAt newLines i := by
  simp [changedRows]

theorem lineAt_eq_of_not_changed (h : i ∉ changedRows previousLines newLines) :
    lineAt previousLines i = lineAt newLines i := by
  by_contra hne
  by_cases hi : i < max newLines.length previousLines.length
  · exact h (mem_changedRows.mpr ⟨hi, hne⟩)
  · rw [lineAt, lineAt, getElem?_eq_none (by omega), getElem?_eq_none (by omega)] at hne
    exact hne rfl

theorem changedRows_sorted (previousLines newLines : List JsText) :
    (changedRows previousLines newLines).Pairwise (· < ·) :=
  (pairwise_lt_range).filter _

/-- Rows outside the range are unchanged, and the range is inside the longer frame. -/
structure ChangedRange (previousLines newLines : List JsText) (firstChanged lastChanged : ℕ) :
    Prop where
  before : ∀ i, i < firstChanged → lineAt previousLines i = lineAt newLines i
  after : ∀ i, lastChanged < i → lineAt previousLines i = lineAt newLines i
  le : firstChanged ≤ lastChanged
  first_le : firstChanged ≤ previousLines.length
  shorter : newLines.length ≤ previousLines.length → firstChanged < previousLines.length
  longer : previousLines.length < newLines.length → lastChanged = newLines.length - 1

theorem head_le_of_sorted (h : l.Pairwise (· < ·)) (hfirst : l.head? = some first) (hi : i ∈ l) :
    first ≤ i := by
  obtain ⟨rest, rfl⟩ := head?_eq_some_iff.mp hfirst
  obtain rfl | hi := mem_cons.mp hi
  · exact Nat.le_refl _
  · exact Nat.le_of_lt ((pairwise_cons.mp h).1 i hi)

theorem le_last_of_sorted (h : l.Pairwise (· < ·)) {last : ℕ} (hlast : l.getLast? = some last)
    (hi : i ∈ l) : i ≤ last := by
  obtain ⟨rest, rfl⟩ := getLast?_eq_some_iff.mp hlast
  obtain hi | hi := mem_append.mp hi
  · exact Nat.le_of_lt ((pairwise_append.mp h).2.2 i hi last (by simp))
  · rw [mem_singleton.mp hi]

theorem lineAt_of_le (h : lines.length ≤ i) : lineAt lines i = [] := by
  rw [lineAt, getElem?_eq_none h]
  rfl

theorem changedRange_spec (hnew : NoBlank newLines) {firstChanged lastChanged : ℕ}
    (h : changedRange previousLines newLines = some (firstChanged, lastChanged)) :
    ChangedRange previousLines newLines firstChanged lastChanged := by
  have hsorted := changedRows_sorted previousLines newLines
  rw [changedRange] at h
  by_cases hlonger : previousLines.length < newLines.length
  · rw [if_pos hlonger] at h
    obtain ⟨rfl, rfl⟩ := Prod.mk.inj (some.inj h)
    have hmem : previousLines.length ∈ changedRows previousLines newLines := by
      refine mem_changedRows.mpr ⟨by omega, ?_⟩
      rw [lineAt_of_le (Nat.le_refl _), lineAt, getElem?_eq_getElem hlonger]
      exact (hnew _ (getElem_mem hlonger)).symm
    obtain ⟨first, hfirst⟩ : ∃ first, (changedRows previousLines newLines).head? = some first := by
      cases hrows : changedRows previousLines newLines with
      | nil =>
        rw [hrows] at hmem
        simp at hmem
      | cons first rest => exact ⟨first, rfl⟩
    have hle := head_le_of_sorted hsorted hfirst hmem
    rw [hfirst, getD_some]
    refine ⟨?_, ?_, by omega, hle, by omega, fun _ => rfl⟩
    · intro i hi
      apply lineAt_eq_of_not_changed
      intro hmem'
      have hle' := head_le_of_sorted hsorted hfirst hmem'
      omega
    · intro i hi
      rw [lineAt_of_le (by omega), lineAt_of_le (by omega)]
  · rw [if_neg hlonger] at h
    obtain ⟨first, hfirst, hrest⟩ := bind_eq_some_iff.mp h
    obtain ⟨last, hlast, hpair⟩ := map_eq_some_iff.mp hrest
    obtain ⟨rfl, rfl⟩ := Prod.mk.inj hpair
    have hmem := mem_of_head? hfirst
    have hlt := (mem_changedRows.mp hmem).1
    refine ⟨?_, ?_, le_last_of_sorted hsorted hlast hmem, by omega, by omega, by omega⟩
    · intro i hi
      apply lineAt_eq_of_not_changed
      intro hmem'
      have hle := head_le_of_sorted hsorted hfirst hmem'
      omega
    · intro i hi
      apply lineAt_eq_of_not_changed
      intro hmem'
      have hle := le_last_of_sorted hsorted hlast hmem'
      omega

theorem changedRange_none (hold : NoBlank previousLines) (hnew : NoBlank newLines)
    (h : changedRange previousLines newLines = none) : previousLines = newLines := by
  have hrows : changedRows previousLines newLines = [] := by
    rw [changedRange] at h
    by_cases hlonger : previousLines.length < newLines.length
    · rw [if_pos hlonger] at h
      cases h
    · rw [if_neg hlonger] at h
      cases hrows : changedRows previousLines newLines with
      | nil => rfl
      | cons first rest =>
        rw [hrows] at h
        simp at h
  apply ext_getElem?
  intro i
  apply getElem?_eq_of_lineAt hold hnew
  apply lineAt_eq_of_not_changed
  rw [hrows]
  exact not_mem_nil

theorem run_hideCursor {display : Display env α} {s : Screen α env.columns env.rows}
    {top cursorRow : ℕ} {grid : ℕ → ℕ → Option α} (h : s.Shows top cursorRow grid) :
    (s.run display.cells [.hideCursor]).Shows top cursorRow grid :=
  ⟨h.top_eq, h.cursor_eq, h.grid_eq⟩

structure Drawable (display : Display env α) (newLines : List JsText) : Prop where
  ne_nil : newLines ≠ []
  noBlank : NoBlank newLines
  fits : ∀ line ∈ newLines, (display.cells line).length ≤ env.columns

theorem drawable_of_plain (display : Display env α) (hplain : PlainFrame env frame) :
    Drawable display (applyLineResets frame) where
  ne_nil := by
    rw [applyLineResets]
    simpa using hplain.ne_nil
  noBlank := noBlank_applyLineResets frame
  fits := fits_applyLineResets display hplain

variable {display : Display env α} {s : Screen α env.columns env.rows}

def Kept (tui tui' : State) : Prop :=
  tui'.stopped = tui.stopped ∧ tui'.overlayStackLength = tui.overlayStackLength

theorem synced_fullRender (hrows : 0 < env.rows) (hdraw : Drawable display newLines) (clear : Bool)
    (hclean : clear = false → s.Shows 0 0 (fun _ _ => none) ∧ s.cursorCol = 0) :
    Synced display (fullRender env tui newLines none clear).1
        (s.run display.cells (fullRender env tui newLines none clear).2) ∧
      (fullRender env tui newLines none clear).1.previousLines = newLines ∧
        Kept tui (fullRender env tui newLines none clear).1 := by
  have hpos : 0 < newLines.length := length_pos_of_ne_nil hdraw.ne_nil
  refine ⟨?_, rfl, rfl, rfl⟩
  obtain ⟨s', hrun, hshows, hcol⟩ : ∃ s' : Screen α env.columns env.rows,
      s.run display.cells (.beginSync ::
        (if clear then [.eraseScreen, .cursorHome, .eraseScrollback] else [])) = s' ∧
          s'.Shows 0 0 (fun _ _ => none) ∧ s'.cursorCol = 0 := by
    refine ⟨_, rfl, ?_⟩
    cases clear with
    | true => exact ⟨shows_erased s, rfl⟩
    | false => exact hclean rfl
  have hwrite := shows_writeLines display.cells hshows hcol (.inr ⟨rfl, fun _ _ _ => rfl⟩)
    hdraw.ne_nil
    hdraw.fits
  have hops : (fullRender env tui newLines none clear).2 = (.beginSync ::
      (if clear then [.eraseScreen, .cursorHome, .eraseScrollback] else [])) ++
        (writeLines [] newLines ++ [.endSync, .hideCursor]) := by
    simp [fullRender, positionHardwareCursor]
  rw [hops, run_append, hrun, run_append]
  refine ⟨run_hideCursor (shows_congr hwrite ?_ ?_ ?_), ?_, ?_, hdraw.noBlank, rfl, rfl⟩
  · change _ = max env.rows newLines.length - env.rows
    omega
  · change _ = newLines.length - 1
    omega
  · intro i j
    change _ = cellsOf display.cells newLines i j
    by_cases hi : i < newLines.length
    · rw [if_pos (by omega), Nat.sub_zero]
    · rw [if_neg (by omega), cellsOf_of_le _ (by omega)]
  · change max env.rows newLines.length - env.rows < newLines.length
    omega
  · change newLines.length ≤ max env.rows newLines.length - env.rows + env.rows
    omega

variable {firstChanged lastChanged : ℕ}

theorem cellsOf_eq_of_lineAt (hold : NoBlank previousLines) (hnew : NoBlank newLines)
    (h : lineAt previousLines i = lineAt newLines i) (j : ℕ) :
    cellsOf display.cells previousLines i j = cellsOf display.cells newLines i j := by
  rw [cellsOf, cellsOf, getElem?_eq_of_lineAt hold hnew h]

theorem synced_renderDeletedLines (hrows : 0 < env.rows) (hsynced : Synced display tui s)
    (hdraw : Drawable display newLines)
    (hrange : ChangedRange tui.previousLines newLines firstChanged lastChanged)
    (hdeleted : newLines.length ≤ firstChanged) :
    Synced display (renderDeletedLines env tui newLines none tui.previousViewportTop).1
        (s.run display.cells
          (renderDeletedLines env tui newLines none tui.previousViewportTop).2) ∧
      (renderDeletedLines env tui newLines none tui.previousViewportTop).1.previousLines =
        newLines ∧
      Kept tui (renderDeletedLines env tui newLines none tui.previousViewportTop).1 := by
  obtain ⟨hshows, hviewport, hinside, hold, _, _⟩ := hsynced
  have hpos : 0 < newLines.length := length_pos_of_ne_nil hdraw.ne_nil
  have hshorter : newLines.length < tui.previousLines.length := by
    by_contra hnot
    by_cases heq : newLines.length = tui.previousLines.length
    · have hlt := hrange.shorter (by omega)
      omega
    · have hfirst := hrange.first_le
      omega
  rw [renderDeletedLines, if_pos hshorter]
  by_cases htop : newLines.length - 1 < tui.previousViewportTop
  · rw [if_pos htop]
    exact synced_fullRender hrows hdraw true (by simp)
  · rw [if_neg htop]
    by_cases hextra : env.rows < tui.previousLines.length - newLines.length
    · rw [if_pos hextra]
      exact synced_fullRender hrows hdraw true (by simp)
    · rw [if_neg hextra]
      refine ⟨?_, rfl, rfl, rfl⟩
      have hdiff : computeLineDiff tui.hardwareCursorRow tui.previousViewportTop
          tui.previousViewportTop (newLines.length - 1) =
            ((newLines.length - 1 : ℕ) : ℤ) - tui.hardwareCursorRow := by
        rw [computeLineDiff]
        omega
      have hmove := shows_moveBy display.cells hshows (newLines.length - 1) hdiff (by omega)
        (by omega)
      have hclear := shows_clearExtraLines display.cells hmove.carriageReturn
        (n := tui.previousLines.length - newLines.length) (by omega) (by omega)
      simp only [positionHardwareCursor, remember, run_append, run_cons]
      refine ⟨run_hideCursor (shows_congr hclear rfl rfl ?_), ?_, ?_, hdraw.noBlank, rfl, rfl⟩
      · intro i j
        by_cases hnew : i < newLines.length
        · rw [if_neg (by omega)]
          exact cellsOf_eq_of_lineAt hold hdraw.noBlank (hrange.before i (by omega)) j
        · rw [cellsOf_of_le _ (by omega : newLines.length ≤ i)]
          by_cases hin : newLines.length - 1 < i ∧
              i ≤ newLines.length - 1 + (tui.previousLines.length - newLines.length)
          · rw [if_pos hin]
          · rw [if_neg hin, cellsOf_of_le _ (by omega)]
      · change tui.previousViewportTop < newLines.length
        omega
      · change newLines.length ≤ tui.previousViewportTop + env.rows
        omega

theorem scrollTo_inside {hardwareCursorRow prevViewportTop moveTargetRow : ℕ}
    (h : moveTargetRow < prevViewportTop + env.rows) :
    scrollTo env hardwareCursorRow prevViewportTop moveTargetRow =
      (hardwareCursorRow, prevViewportTop, []) := by
  exact if_neg (by omega)

theorem cellsOf_drop_take (display : Display env α) {count : ℕ} (hfirst : first ≤ i)
    (hi : i < first + count) (j : ℕ) :
    cellsOf display.cells ((newLines.drop first).take count) (i - first) j =
      cellsOf display.cells newLines i j := by
  rw [cellsOf, cellsOf, getElem?_take_of_lt (by omega), getElem?_drop, Nat.add_sub_of_le hfirst]

theorem synced_renderChangedLines (hrows : 0 < env.rows) (hsynced : Synced display tui s)
    (hdraw : Drawable display newLines)
    (hrange : ChangedRange tui.previousLines newLines firstChanged lastChanged)
    (hfirst : firstChanged < newLines.length)
    (hvisible : tui.previousViewportTop ≤ firstChanged) :
    ∃ tui' ops, renderChangedLines env tui newLines none tui.previousViewportTop firstChanged
        lastChanged = .ok (tui', ops) ∧
      Synced display tui' (s.run display.cells ops) ∧ tui'.previousLines = newLines ∧
        Kept tui tui' := by
  obtain ⟨hshows, hviewport, hinside, hold, _, _⟩ := hsynced
  have hle := hrange.le
  have hfirstle := hrange.first_le
  rw [renderChangedLines]
  generalize happend : (decide (tui.previousLines.length < newLines.length) &&
    decide (firstChanged = tui.previousLines.length) && decide (0 < firstChanged)) = appendStart
  have happend' : appendStart = true ↔ tui.previousLines.length < newLines.length ∧
      firstChanged = tui.previousLines.length ∧ 0 < firstChanged := by
    rw [← happend]
    simp [and_assoc]
  obtain ⟨moveTargetRow, hmoveTarget⟩ : ∃ row, (if appendStart = true then firstChanged - 1
      else firstChanged) = row := ⟨_, rfl⟩
  have hmove : firstChanged = moveTargetRow + (if appendStart then 1 else 0) ∧
      tui.previousViewportTop ≤ moveTargetRow ∧
        moveTargetRow < tui.previousViewportTop + env.rows := by
    rw [← hmoveTarget]
    by_cases hstart : appendStart = true
    · obtain ⟨hlonger, heq, hpos⟩ := happend'.mp hstart
      rw [if_pos hstart, if_pos hstart]
      omega
    · have hnot := fun h => hstart (happend'.mpr h)
      have hlt : firstChanged < tui.previousLines.length := by
        by_cases hlonger : tui.previousLines.length < newLines.length
        · by_contra hge
          exact hnot ⟨hlonger, by omega, by omega⟩
        · exact hrange.shorter (by omega)
      rw [if_neg hstart, if_neg hstart]
      omega
  obtain ⟨renderEnd, hrenderEnd⟩ : ∃ row, min lastChanged (newLines.length - 1) = row := ⟨_, rfl⟩
  obtain ⟨changedLines, hchanged⟩ : ∃ lines,
      (newLines.drop firstChanged).take (renderEnd + 1 - firstChanged) = lines := ⟨_, rfl⟩
  have hlength : changedLines.length = renderEnd + 1 - firstChanged := by
    rw [← hchanged, length_take, length_drop]
    omega
  have hmem : ∀ line ∈ changedLines, line ∈ newLines := by
    rw [← hchanged]
    exact fun line hline => mem_of_mem_drop (mem_of_mem_take hline)
  have hnocrash : changedLines.findIdx? (fun line =>
      !isImageLine line && decide (env.columns < env.visibleWidth line)) = none := by
    rw [findIdx?_eq_none_iff]
    intro line hline
    have hfit := hdraw.fits line (hmem line hline)
    rw [display.width_eq]
    simp [hfit]
  simp only [hmoveTarget, hrenderEnd, hchanged, scrollTo_inside hmove.2.2, hnocrash]
  refine ⟨_, _, rfl, ?_, rfl, rfl, rfl⟩
  have hdiff : computeLineDiff tui.hardwareCursorRow tui.previousViewportTop
      tui.previousViewportTop moveTargetRow = (moveTargetRow : ℤ) - tui.hardwareCursorRow := by
    rw [computeLineDiff]
    omega
  obtain ⟨hto, hcol⟩ := shows_toFirst display.cells hshows hdiff hmove.1 hmove.2.1 hmove.2.2
  have hne : changedLines ≠ [] := by
    apply ne_nil_of_length_pos
    omega
  have hwrite := shows_writeLines display.cells hto hcol (.inl rfl) hne
    (fun line hline => hdraw.fits line (hmem line hline))
  have hrest := shows_clearRest display.cells
    (shows_congr hwrite (show _ = max tui.previousViewportTop (renderEnd + 1 - env.rows) by omega)
      (show _ = renderEnd by omega) (fun _ _ => rfl))
    (show 0 < newLines.length by omega) (by omega)
    (show newLines.length < tui.previousLines.length → _ by omega) (by omega)
  have hfinal : (clearRest renderEnd tui.previousLines.length newLines.length).1 =
      if newLines.length < tui.previousLines.length then newLines.length - 1 else renderEnd :=
    clearRest_fst (by omega)
  simp only [run_append] at hrest
  simp only [positionHardwareCursor, remember, run_append]
  generalize (clearRest renderEnd tui.previousLines.length newLines.length).1 = final at *
  have hlonger := hrange.longer
  refine ⟨run_hideCursor (shows_congr hrest ?_ rfl ?_), ?_, ?_, hdraw.noBlank, rfl, rfl⟩
  · change _ = max tui.previousViewportTop (final + 1 - env.rows)
    split_ifs at hfinal <;> omega
  · intro i j
    by_cases hdeleted : newLines.length ≤ i ∧ i < tui.previousLines.length
    · rw [if_pos hdeleted, cellsOf_of_le _ hdeleted.1]
    · rw [if_neg hdeleted]
      by_cases hin : firstChanged ≤ i ∧ i < firstChanged + changedLines.length
      · rw [if_pos hin, ← hchanged]
        exact cellsOf_drop_take display hin.1 (by omega) j
      · rw [if_neg hin]
        apply cellsOf_eq_of_lineAt hold hdraw.noBlank
        by_cases hbefore : i < firstChanged
        · exact hrange.before i hbefore
        · by_cases hafter : lastChanged < i
          · exact hrange.after i hafter
          · rw [lineAt_of_le (by omega), lineAt_of_le (by omega)]
  · change max tui.previousViewportTop (final + 1 - env.rows) < newLines.length
    split_ifs at hfinal <;> omega
  · change newLines.length ≤ max tui.previousViewportTop (final + 1 - env.rows) + env.rows
    split_ifs at hfinal <;> omega

/-- The ways to draw lines, given what has changed and where the screen begins. -/
def drawWith (env : RenderEnv) (tui : State) (cursorPos : Option CursorPos)
    (newLines : List JsText) (widthChanged heightChanged : Bool) (prevViewportTop : ℕ) :
    Except RenderCrash (State × Ops) :=
  if tui.previousLines.length = 0 && !widthChanged && !heightChanged then
    .ok (fullRender env tui newLines cursorPos false)
  else if widthChanged then .ok (fullRender env tui newLines cursorPos true)
  else if heightChanged && !env.isTermuxSession then
    .ok (fullRender env tui newLines cursorPos true)
  else if tui.clearOnShrink && newLines.length < tui.maxLinesRendered &&
      tui.overlayStackLength = 0 then
    .ok (fullRender env tui newLines cursorPos true)
  else
    match changedRange tui.previousLines newLines with
    | none =>
      let (tui, cursorOps) := positionHardwareCursor tui cursorPos newLines.length
      .ok ({ tui with previousViewportTop := prevViewportTop, previousHeight := env.rows },
        cursorOps)
    | some (firstChanged, lastChanged) =>
      if newLines.length ≤ firstChanged then
        .ok (renderDeletedLines env tui newLines cursorPos prevViewportTop)
      else if firstChanged < prevViewportTop then
        .ok (fullRender env tui newLines cursorPos true)
      else
        renderChangedLines env tui newLines cursorPos prevViewportTop firstChanged lastChanged

def drawLines (env : RenderEnv) (tui : State) (cursorPos : Option CursorPos)
    (newLines : List JsText) : Except RenderCrash (State × Ops) :=
  let heightChanged : Bool := tui.previousHeight ≠ 0 && tui.previousHeight ≠ env.rows
  let previousBufferLength : ℤ :=
    if 0 < tui.previousHeight then tui.previousViewportTop + tui.previousHeight else env.rows
  drawWith env tui cursorPos newLines
    (tui.previousWidth ≠ 0 && tui.previousWidth ≠ env.columns) heightChanged
    (if heightChanged then (previousBufferLength - env.rows).toNat else tui.previousViewportTop)

theorem doRender_eq (h : tui.stopped = false) (frame : List JsText) :
    doRender env tui frame =
      drawLines env tui (prepareLines env tui frame).1 (prepareLines env tui frame).2 := by
  rw [doRender, if_neg (by simp [h])]
  rfl

/-- The lines in which two frames differ are not on the screen, or there is no room to clear those
that are left of the earlier one. -/
def outOfReach (env : RenderEnv) (tui : State) (newLines : List JsText) : Bool :=
  match changedRange tui.previousLines newLines with
  | none => false
  | some (firstChanged, _) =>
    if newLines.length ≤ firstChanged then
      newLines.length < tui.previousLines.length &&
        (newLines.length - 1 < tui.previousViewportTop ||
          env.rows < tui.previousLines.length - newLines.length)
    else firstChanged < tui.previousViewportTop

def redrawsFully (env : RenderEnv) (tui : State) (newLines : List JsText) : Bool :=
  tui.previousLines.length = 0 || tui.previousWidth ≠ env.columns ||
    (tui.clearOnShrink && newLines.length < tui.maxLinesRendered &&
      tui.overlayStackLength = 0) ||
    outOfReach env tui newLines

/-- Nothing is on the screen, a forced rendering is asked for, or the screen shows a frame. -/
inductive Settled (display : Display env α) (tui : State) (s : Screen α env.columns env.rows) :
    Prop
  | blank (lines : tui.previousLines = [])
      (width : tui.previousWidth = 0 ∨ tui.previousWidth = env.columns)
      (height : tui.previousHeight = 0 ∨ tui.previousHeight = env.rows)
      (clean : s.Shows 0 0 (fun _ _ => none)) (home : s.cursorCol = 0)
  | forced (width : tui.previousWidth = -1)
  | synced (h : Synced display tui s)

theorem unchanged_of_settled (h : previous = 0 ∨ previous = current) :
    (decide (previous ≠ 0) && decide (previous ≠ current)) = false := by
  obtain rfl | rfl := h
  · rfl
  · simp

theorem changed_of_forced (h : previous = -1) :
    (decide (previous ≠ 0) && decide (previous ≠ current)) = true := by
  simp only [Bool.and_eq_true, decide_eq_true_eq]
  omega

variable {cursorPos : Option CursorPos}

theorem drawLines_of_synced (hsynced : Synced display tui s) :
    drawLines env tui cursorPos newLines =
      if tui.clearOnShrink && newLines.length < tui.maxLinesRendered &&
          tui.overlayStackLength = 0 then
        .ok (fullRender env tui newLines cursorPos true)
      else
        match changedRange tui.previousLines newLines with
        | none =>
          let (tui', cursorOps) := positionHardwareCursor tui cursorPos newLines.length
          .ok ({ tui' with
            previousViewportTop := tui.previousViewportTop, previousHeight := env.rows },
            cursorOps)
        | some (firstChanged, lastChanged) =>
          if newLines.length ≤ firstChanged then
            .ok (renderDeletedLines env tui newLines cursorPos tui.previousViewportTop)
          else if firstChanged < tui.previousViewportTop then
            .ok (fullRender env tui newLines cursorPos true)
          else
            renderChangedLines env tui newLines cursorPos tui.previousViewportTop firstChanged
              lastChanged := by
  have hviewport := hsynced.viewport
  have hne : tui.previousLines.length ≠ 0 := by omega
  simp only [drawLines, drawWith, unchanged_of_settled (.inr hsynced.width_eq),
    unchanged_of_settled (.inr hsynced.height_eq), hne, decide_false, Bool.false_and,
    Bool.false_eq_true, if_false]

theorem drawLines_of_redrawsFully (cursorPos : Option CursorPos) (hsettled : Settled display tui s)
    (hfull : redrawsFully env tui newLines = true) :
    ∃ clear, drawLines env tui cursorPos newLines =
        .ok (fullRender env tui newLines cursorPos clear) ∧
      (clear = false → s.Shows 0 0 (fun _ _ => none) ∧ s.cursorCol = 0) := by
  obtain ⟨hlines, hwidth, hheight, hclean, hhome⟩ | hwidth | hsynced := hsettled
  · refine ⟨false, ?_, fun _ => ⟨hclean, hhome⟩⟩
    simp only [drawLines, drawWith, unchanged_of_settled hwidth, unchanged_of_settled hheight,
      hlines, length_nil, decide_true, Bool.not_false, Bool.and_self, if_true]
  · refine ⟨true, ?_, by simp⟩
    simp only [drawLines, drawWith, changed_of_forced hwidth, Bool.not_true, Bool.and_false,
      Bool.false_and, Bool.false_eq_true, if_false, if_true]
  · refine ⟨true, ?_, by simp⟩
    have hviewport := hsynced.viewport
    have hne : tui.previousLines.length ≠ 0 := by omega
    rw [drawLines_of_synced hsynced]
    split_ifs with hshrink
    · rfl
    · have hreach : outOfReach env tui newLines = true := by
        simpa [redrawsFully, hne, hsynced.width_eq, hshrink] using hfull
      rw [outOfReach] at hreach
      cases hrange : changedRange tui.previousLines newLines with
      | none => simp [hrange] at hreach
      | some range =>
        obtain ⟨firstChanged, lastChanged⟩ := range
        rw [hrange] at hreach
        simp only at hreach ⊢
        split_ifs with hdeleted hhidden
        · rw [if_pos hdeleted] at hreach
          simp only [Bool.and_eq_true, decide_eq_true_eq, Bool.or_eq_true] at hreach
          rw [renderDeletedLines, if_pos hreach.1]
          obtain htop | hextra := hreach.2
          · simp only [if_pos htop]
          · simp only [if_pos hextra, ite_self]
        · rfl
        · rw [if_neg hdeleted] at hreach
          exact absurd (of_decide_eq_true hreach) hhidden

theorem synced_drawLines (hrows : 0 < env.rows) (hsettled : Settled display tui s)
    (hdraw : Drawable display newLines) :
    ∃ tui' ops, drawLines env tui none newLines = .ok (tui', ops) ∧
      Synced display tui' (s.run display.cells ops) ∧ tui'.previousLines = newLines ∧
        Kept tui tui' := by
  by_cases hfull : redrawsFully env tui newLines = true
  · obtain ⟨clear, hrender, hclean⟩ :=
      drawLines_of_redrawsFully none hsettled hfull
    exact ⟨_, _, hrender, synced_fullRender hrows hdraw clear hclean⟩
  · have hsynced : Synced display tui s := by
      obtain ⟨hlines, _⟩ | hwidth | hsynced := hsettled
      · simp [redrawsFully, hlines] at hfull
      · simp [redrawsFully, hwidth] at hfull
      · exact hsynced
    rw [drawLines_of_synced hsynced]
    split_ifs with hshrink
    · exact ⟨_, _, rfl, synced_fullRender hrows hdraw true (by simp)⟩
    · cases hrange : changedRange tui.previousLines newLines with
      | none =>
        have hsame := changedRange_none hsynced.noBlank hdraw.noBlank hrange
        refine ⟨_, _, rfl, ?_, hsame, rfl, rfl⟩
        exact ⟨run_hideCursor hsynced.shows, hsynced.viewport, hsynced.inside, hsynced.noBlank,
          hsynced.width_eq, rfl⟩
      | some range =>
        obtain ⟨firstChanged, lastChanged⟩ := range
        have hspec := changedRange_spec hdraw.noBlank hrange
        simp only
        split_ifs with hdeleted hhidden
        · exact ⟨_, _, rfl, synced_renderDeletedLines hrows hsynced hdraw hspec hdeleted⟩
        · exact ⟨_, _, rfl, synced_fullRender hrows hdraw true (by simp)⟩
        · exact synced_renderChangedLines hrows hsynced hdraw hspec (by omega) (by omega)

/-- Before the first rendering, after a forced one is asked for, or after any rendering. -/
inductive Ready (display : Display env α) (tui : State) (s : Screen α env.columns env.rows) : Prop
  | fresh (lines : tui.previousLines = []) (width : tui.previousWidth = 0)
      (height : tui.previousHeight = 0) (clean : s.Shows 0 0 (fun _ _ => none))
      (home : s.cursorCol = 0)
  | forced (width : tui.previousWidth = -1)
  | synced (h : Synced display tui s)

theorem Ready.settled (h : Ready display tui s) : Settled display tui s := by
  obtain ⟨hlines, hwidth, hheight, hclean, hhome⟩ | hwidth | hsynced := h
  · exact .blank hlines (.inl hwidth) (.inl hheight) hclean hhome
  · exact .forced hwidth
  · exact .synced hsynced

theorem synced_doRender (hrows : 0 < env.rows) (hready : Ready display tui s)
    (hstopped : tui.stopped = false) (hoverlay : tui.overlayStackLength = 0)
    (hplain : PlainFrame env frame) :
    ∃ tui' ops, doRender env tui frame = .ok (tui', ops) ∧
      Synced display tui' (s.run display.cells ops) ∧
        tui'.previousLines = applyLineResets frame ∧ Kept tui tui' := by
  rw [doRender_eq hstopped, prepareLines_plain hplain hoverlay]
  exact synced_drawLines hrows hready.settled (drawable_of_plain display hplain)

inductive Action where
  | render (frame : List JsText)
  | requestForcedRender
  | setClearOnShrink (enabled : Bool)

variable (display) in
/-- One action, with the terminal that interprets what is written. -/
def perform (tui : State) (s : Screen α env.columns env.rows) :
    Action → Except RenderCrash (State × Screen α env.columns env.rows)
  | .render frame => (doRender env tui frame).map fun r => (r.1, s.run display.cells r.2)
  | .requestForcedRender => .ok (forceRender tui, s)
  | .setClearOnShrink enabled => .ok (setClearOnShrink tui enabled, s)

variable (display) in
def performAll (tui : State) (s : Screen α env.columns env.rows) :
    List Action → Except RenderCrash (State × Screen α env.columns env.rows)
  | [] => .ok (tui, s)
  | action :: actions => do
      let r ← perform display tui s action
      performAll r.1 r.2 actions

def Action.Plain (env : RenderEnv) : Action → Prop
  | .render frame => PlainFrame env frame
  | _ => True

theorem ready_perform (hrows : 0 < env.rows) (hready : Ready display tui s)
    (hstopped : tui.stopped = false) (hoverlay : tui.overlayStackLength = 0) {action : Action}
    (hplain : action.Plain env) :
    ∃ tui' s', perform display tui s action = .ok (tui', s') ∧ Ready display tui' s' ∧
      Kept tui tui' := by
  cases action with
  | render frame =>
    obtain ⟨tui', ops, hrender, hsynced, _, hkept⟩ :=
      synced_doRender hrows hready hstopped hoverlay hplain
    refine ⟨tui', _, ?_, .synced hsynced, hkept⟩
    rw [perform, hrender]
    rfl
  | requestForcedRender => exact ⟨_, s, rfl, .forced rfl, rfl, rfl⟩
  | setClearOnShrink enabled =>
    refine ⟨_, s, rfl, ?_, rfl, rfl⟩
    obtain ⟨hlines, hwidth, hheight, hclean, hhome⟩ | hwidth | hsynced := hready
    · exact .fresh hlines hwidth hheight hclean hhome
    · exact .forced hwidth
    · exact .synced ⟨hsynced.shows, hsynced.viewport, hsynced.inside, hsynced.noBlank,
        hsynced.width_eq, hsynced.height_eq⟩

theorem ready_performAll (hrows : 0 < env.rows) {actions : List Action}
    (hready : Ready display tui s) (hstopped : tui.stopped = false)
    (hoverlay : tui.overlayStackLength = 0) (hplain : ∀ action ∈ actions, action.Plain env) :
    ∃ tui' s', performAll display tui s actions = .ok (tui', s') ∧ Ready display tui' s' ∧
      Kept tui tui' := by
  induction actions generalizing tui s with
  | nil => exact ⟨tui, s, rfl, hready, rfl, rfl⟩
  | cons action actions ih =>
    obtain ⟨tui₁, s₁, hstep, hready₁, hkept₁⟩ := ready_perform hrows hready hstopped hoverlay
      (hplain action mem_cons_self)
    obtain ⟨tui₂, s₂, hrest, hready₂, hkept₂⟩ := ih hready₁ (hkept₁.1.trans hstopped)
      (hkept₁.2.trans hoverlay) (fun a ha => hplain a (mem_cons_of_mem _ ha))
    refine ⟨tui₂, s₂, ?_, hready₂, hkept₂.1.trans hkept₁.1, hkept₂.2.trans hkept₁.2⟩
    rw [performAll, hstep]
    exact hrest

/-- After each rendering the screen shows the last frame from the viewport on, whatever was drawn
before. -/
theorem doRender_shows_frame (display : Display env α) (hrows : 0 < env.rows)
    (showHardwareCursor clearOnShrink : Bool) (actions : List Action) (frame : List JsText)
    (hplain : ∀ action ∈ actions, action.Plain env) (hframe : PlainFrame env frame) :
    ∃ tui s, performAll display (initial showHardwareCursor clearOnShrink)
        (clean α env.columns hrows) actions = .ok (tui, s) ∧
      ∃ tui' s', perform display tui s (.render frame) = .ok (tui', s') ∧
        ∀ r < env.rows, ∀ j, s'.grid (s'.top + r) j =
          cellsOf display.cells frame (tui'.previousViewportTop + r) j := by
  have hinit : Ready display (initial showHardwareCursor clearOnShrink)
      (clean α env.columns hrows) := .fresh rfl rfl rfl ⟨rfl, rfl, rfl⟩ rfl
  obtain ⟨tui, s, hrun, hready, hkept⟩ := ready_performAll hrows hinit rfl rfl hplain
  obtain ⟨tui', ops, hrender, hsynced, hlines, _⟩ := synced_doRender hrows hready hkept.1 hkept.2
    hframe
  refine ⟨tui, s, hrun, tui', s.run display.cells ops, ?_, ?_⟩
  · rw [perform, hrender]
    rfl
  · intro r _ j
    rw [hsynced.shows.grid_eq, hsynced.shows.top_eq, hlines,
      cellsOf_applyLineResets display hframe.noImage]

/-- The units outside escape sequences, which end at `m` or at the bell. -/
def shownUnits : Bool → JsText → JsText
  | _, [] => []
  | true, c :: rest => shownUnits (c ≠ 109 && c ≠ 7) rest
  | false, c :: rest => if c = 27 then shownUnits true rest else c :: shownUnits false rest

theorem shownUnits_reset (escaped : Bool) (line : JsText) :
    shownUnits escaped (line ++ SEGMENT_RESET) = shownUnits escaped line := by
  induction line generalizing escaped with
  | nil => cases escaped <;> decide
  | cons c line ih =>
    cases escaped with
    | true => exact ih _
    | false =>
      rw [cons_append, shownUnits, shownUnits, ih, ih]

def smallTerminal : RenderEnv where
  columns := 3
  rows := 2
  visibleWidth line := (shownUnits false line).length
  compositeOverlays := id
  isTermuxSession := false
  crashLogPath := ""

def smallDisplay : Display smallTerminal UInt16 where
  cells := shownUnits false
  width_eq _ := rfl
  reset := shownUnits_reset false

theorem plainFrame_small {frame : List JsText} (hne : frame ≠ [])
    (h : ∀ line ∈ frame, (shownUnits false line).length ≤ 3 ∧ isImageLine line = false ∧
      indexOf? CURSOR_MARKER line = none) : PlainFrame smallTerminal frame :=
  ⟨hne, fun line hline => (h line hline).1, fun line hline => (h line hline).2.1,
    fun line hline => (h line hline).2.2⟩

/-- A frame that is longer than the terminal, and then one of its lines is changed. -/
theorem twoFrames_shown :
    ∃ tui s, performAll smallDisplay (initial false false) (clean UInt16 3 (by decide))
        [.render [[97], [98, 98], [99]]] = .ok (tui, s) ∧
      ∃ tui' s', perform smallDisplay tui s (.render [[97], [100], [99]]) = .ok (tui', s') ∧
        ∀ r < smallTerminal.rows, ∀ j, s'.grid (s'.top + r) j =
          cellsOf smallDisplay.cells [[97], [100], [99]] (tui'.previousViewportTop + r) j :=
  doRender_shows_frame smallDisplay (by decide) false false [.render [[97], [98, 98], [99]]]
    [[97], [100], [99]]
    (fun action haction => by
      obtain rfl := mem_singleton.mp haction
      exact plainFrame_small (by decide) (by decide +kernel))
    (plainFrame_small (by decide) (by decide +kernel))

end Tui

end Draht
