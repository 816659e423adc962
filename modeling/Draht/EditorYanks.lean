import Mathlib.Data.List.Rotate
import Draht.EditorKills
import Draht.EditorMarkers

/-!
# Kills that are yanked

What a run of kills has taken out is the newest entry of the ring, in the order it had in the text.
A yank that is popped once for each entry is the first yank again.
-/

namespace Draht
open List Option

namespace Editor

open EditorState

theorem wordLength_pos {segments : List Segment} (hne : segments ≠ [])
    (htexts : ∀ seg ∈ segments, seg.text ≠ []) : 0 < wordLength segments := by
  have hpositive : ∀ {segs : List Segment}, segs ≠ [] → (∀ seg ∈ segs, seg.text ≠ []) →
      0 < totalLength segs := by
    intro segs hsegs hall
    cases segs with
    | nil => exact absurd rfl hsegs
    | cons seg segs =>
      have hseg := length_pos_of_ne_nil (hall seg mem_cons_self)
      exact hseg.trans_le (Nat.le_add_right _ (totalLength segs))
  unfold wordLength
  simp only
  generalize hspace : (fun seg : Segment => !isPasteMarker seg.text && isWhitespaceChar seg.text) =
    space
  cases hrest : segments.dropWhile space with
  | nil =>
    -- everything is white space
    have hwhole : segments.takeWhile space = segments := by
      have hsplit := @takeWhile_append_dropWhile _ space segments
      rwa [hrest, append_nil] at hsplit
    rw [hwhole]
    exact Nat.add_pos_left (hpositive hne htexts) _
  | cons seg rest =>
    have hmem : seg ∈ segments := by
      refine (dropWhile_sublist space).subset ?_
      rw [hrest]
      exact mem_cons_self
    have hseg := length_pos_of_ne_nil (htexts seg hmem)
    have hfirst : space seg = false := by
      have hhead := head?_dropWhile_not space segments
      rw [hrest] at hhead
      simpa using hhead
    refine Nat.add_pos_right _ ?_
    simp only
    rw [← hspace] at hfirst
    simp only [Bool.and_eq_false_iff, Bool.not_eq_false'] at hfirst
    have hrun : ∀ p : Segment → Bool, p seg = true →
        0 < totalLength ((seg :: rest).takeWhile p) := by
      intro p hp
      rw [takeWhile_cons_of_pos hp]
      exact hseg.trans_le (Nat.le_add_right _ (totalLength _))
    split_ifs with hmarker hpunctuation
    · exact hseg
    · exact hrun _ (by simp [hmarker, hpunctuation])
    · exact hrun _ (by simp [hmarker, hpunctuation, hfirst.resolve_left hmarker])

theorem wordLength_segment_pos {U : TextUnits} {e : Editor} (hU : U.Lawful) {text : JsText}
    (hne : text ≠ []) : 0 < wordLength (e.segment U text) ∧
      0 < wordLength (e.segment U text).reverse := by
  have hin := inLine_segmentWithMarkers hU text e.pastes.keys
  have hsegments : e.segment U text ≠ [] := by
    obtain ⟨seg, hseg, -⟩ := head?_segmentWithMarkers hU hne e.pastes.keys
    intro hnil
    have hhead : (e.segment U text).head? = some seg := hseg
    rw [hnil] at hhead
    exact some_ne_none _ hhead.symm
  refine ⟨wordLength_pos hsegments hin.nonempty, wordLength_pos ?_ fun seg hseg => ?_⟩
  · exact reverse_ne_nil_iff.mpr hsegments
  · exact hin.nonempty seg (mem_reverse.mp hseg)

/-- The text that a kill takes out, before or after the cursor, goes into the ring; a kill without
one leaves everything. -/
structure Killed (e e' : Editor) (prepend : Bool) (text : JsText) : Prop where
  sound : e'.state.Sound
  killRing : e'.killRing =
    KillRing.push e.killRing text prepend (decide (e.lastAction = some .kill))
  left : e.state.left = e'.state.left ++ if prepend then text else []
  right : e.state.right = (if prepend then [] else text) ++ e'.state.right
  lastAction : e'.lastAction = if text = [] then e.lastAction else some .kill

variable {U : TextUnits} {e e' : Editor} {prepend : Bool}

variable {n : ℕ} {killed : JsText} {op : EditorOp} {ring : List JsText}

theorem killed_before (hpos : 0 < n) (hsplice : Splices e.state e'.state n 0 [])
    (hkills : Kills e e' true (e.state.left.drop (e.state.left.length - n)))
    (hlast : e'.lastAction = if e.state.left = [] then e.lastAction else some .kill) :
    Killed e e' true (e.state.left.drop (e.state.left.length - n)) where
  sound := hsplice.sound
  killRing := hkills.killRing
  left := by
    rw [hsplice.left, append_nil, if_pos rfl, take_append_drop]
  right := by
    rw [hsplice.right, drop_zero]
    rfl
  lastAction := by
    rw [hlast]
    refine if_congr ?_ rfl rfl
    rw [drop_eq_nil_iff, ← length_eq_zero_iff]
    omega

theorem killed_after (hpos : 0 < n) (hsplice : Splices e.state e'.state 0 n [])
    (hkills : Kills e e' false (e.state.right.take n))
    (hlast : e'.lastAction = if e.state.right = [] then e.lastAction else some .kill) :
    Killed e e' false (e.state.right.take n) where
  sound := hsplice.sound
  killRing := hkills.killRing
  left := by
    rw [hsplice.left, Nat.sub_zero, take_length, append_nil]
    exact (append_nil _).symm
  right := by
    rw [hsplice.right]
    exact (take_append_drop n _).symm
  lastAction := by
    rw [hlast]
    refine if_congr ?_ rfl rfl
    rw [take_eq_nil_iff, or_iff_right hpos.ne']

theorem lastAction_before (h : e.state.Sound)
    (hkilled : e.state.cursorCol ≠ 0 → e'.lastAction = some .kill)
    (hjoined : e.state.cursorCol = 0 → e.state.cursorLine > 0 → e'.lastAction = some .kill)
    (hnothing : e.state.cursorCol = 0 → ¬e.state.cursorLine > 0 →
      e'.lastAction = e.lastAction) :
    e'.lastAction = if e.state.left = [] then e.lastAction else some .kill := by
  by_cases hcol : e.state.cursorCol = 0
  · by_cases hrow : e.state.cursorLine > 0
    · rw [if_neg, hjoined hcol hrow]
      intro hleft
      have hnewline := h.drop_left_newline hcol hrow
      rw [hleft] at hnewline
      exact (cons_ne_nil _ _).symm hnewline
    · rw [if_pos (h.left_eq_nil hcol hrow), hnothing hcol hrow]
  · rw [if_neg, hkilled hcol]
    intro hleft
    exact hcol (h.beforeCursor_eq_nil_iff.mp (append_eq_nil_iff.mp hleft).2)

theorem lastAction_after (h : e.state.Sound)
    (hkilled : e.state.cursorCol < e.state.currentLine.length → e'.lastAction = some .kill)
    (hjoined : e.state.currentLine.length ≤ e.state.cursorCol → ¬e.isLastLine →
      e'.lastAction = some .kill)
    (hnothing : e.state.currentLine.length ≤ e.state.cursorCol → e.isLastLine →
      e'.lastAction = e.lastAction) :
    e'.lastAction = if e.state.right = [] then e.lastAction else some .kill := by
  obtain hcol | hcol := Nat.lt_or_ge e.state.cursorCol e.state.currentLine.length
  · rw [if_neg, hkilled hcol]
    intro hright
    exact hcol.not_ge (h.afterCursor_eq_nil_iff.mp (append_eq_nil_iff.mp hright).1)
  · by_cases hrow : e.isLastLine
    · rw [if_pos (h.right_eq_nil hcol hrow), hnothing hcol hrow]
    · rw [if_neg, hjoined hcol hrow]
      intro hright
      have hnewline := h.take_right_newline hcol (not_not.mp hrow)
      rw [hright] at hnewline
      exact (cons_ne_nil _ _).symm hnewline

theorem lastAction_deleteToStartOfLine (h : e.state.Sound) : e.deleteToStartOfLine.lastAction =
    if e.state.left = [] then e.lastAction else some .kill := by
  have hcases : e.deleteToStartOfLine =
      if e.state.cursorCol > 0 then _ else if e.state.cursorLine > 0 then _ else _ := rfl
  refine lastAction_before h (fun hcol => ?_) (fun hcol hrow => ?_) fun hcol hrow => ?_
  · rw [hcases, if_pos (Nat.pos_of_ne_zero hcol)]
    rfl
  · rw [hcases, if_neg (show ¬e.state.cursorCol > 0 by omega), if_pos hrow]
    rfl
  · rw [hcases, if_neg (show ¬e.state.cursorCol > 0 by omega), if_neg hrow]
    rfl

theorem lastAction_deleteWordBackwards (h : e.state.Sound) : (e.deleteWordBackwards U).lastAction =
    if e.state.left = [] then e.lastAction else some .kill := by
  have hcases : e.deleteWordBackwards U =
      if e.state.cursorCol = 0 then if e.state.cursorLine > 0 then _ else _ else _ := rfl
  refine lastAction_before h (fun hcol => ?_) (fun hcol hrow => ?_) fun hcol hrow => ?_
  · rw [hcases, if_neg hcol]
    rfl
  · rw [hcases, if_pos hcol, if_pos hrow]
    rfl
  · rw [hcases, if_pos hcol, if_neg hrow]
    rfl

theorem lastAction_deleteToEndOfLine (h : e.state.Sound) : e.deleteToEndOfLine.lastAction =
    if e.state.right = [] then e.lastAction else some .kill := by
  have hcases : e.deleteToEndOfLine =
      if e.state.cursorCol < e.state.currentLine.length then _
      else if e.isLastLine then _ else _ := rfl
  refine lastAction_after h (fun hcol => ?_) (fun hcol hrow => ?_) fun hcol hrow => ?_
  · rw [hcases, if_pos hcol]
    rfl
  · rw [hcases, if_neg hcol.not_gt, if_neg hrow]
    rfl
  · rw [hcases, if_neg hcol.not_gt, if_pos hrow]
    rfl

theorem lastAction_deleteWordForward (h : e.state.Sound) : (e.deleteWordForward U).lastAction =
    if e.state.right = [] then e.lastAction else some .kill := by
  have hcases : e.deleteWordForward U =
      if e.state.cursorCol ≥ e.state.currentLine.length then
      if e.isLastLine then _ else _ else _ := rfl
  refine lastAction_after h (fun hcol => ?_) (fun hcol hrow => ?_) fun hcol hrow => ?_
  · rw [hcases, if_neg hcol.not_ge]
    rfl
  · rw [hcases, if_pos hcol, if_neg hrow]
    rfl
  · rw [hcases, if_pos hcol, if_pos hrow]
    rfl

theorem killed_apply (hU : U.Lawful) (h : e.state.Sound) (hop : op.kills? = some prepend) :
    ∃ text, Killed e (e.apply U op) prepend text := by
  have hbefore : e.state.beforeCursor ≠ [] → 0 < e.state.beforeCursor.length :=
    length_pos_of_ne_nil
  have hafter : e.state.afterCursor ≠ [] → 0 < e.state.afterCursor.length :=
    length_pos_of_ne_nil
  cases op with
  | deleteToStartOfLine =>
    cases hop
    refine ⟨_, killed_before ?_ (splices_deleteToStartOfLine h) (kills_deleteToStartOfLine h)
      (lastAction_deleteToStartOfLine h)⟩
    split_ifs with hnil
    · exact Nat.one_pos
    · exact hbefore hnil
  | deleteWordBackwards =>
    cases hop
    refine ⟨_, killed_before ?_ (splices_deleteWordBackwards hU h)
      (kills_deleteWordBackwards hU h) (lastAction_deleteWordBackwards h)⟩
    split_ifs with hnil
    · exact Nat.one_pos
    · exact (wordLength_segment_pos hU hnil).2
  | deleteToEndOfLine =>
    cases hop
    refine ⟨_, killed_after ?_ (splices_deleteToEndOfLine h) (kills_deleteToEndOfLine h)
      (lastAction_deleteToEndOfLine h)⟩
    split_ifs with hnil
    · exact Nat.one_pos
    · exact hafter hnil
  | deleteWordForward =>
    cases hop
    refine ⟨_, killed_after ?_ (splices_deleteWordForward hU h) (kills_deleteWordForward hU h)
      (lastAction_deleteWordForward h)⟩
    split_ifs with hnil
    · exact Nat.one_pos
    · exact (wordLength_segment_pos hU hnil).1
  | _ => cases hop

def run (U : TextUnits) (e : Editor) (ops : List EditorOp) : Editor := ops.foldl (apply U) e

/-- Since `e` the kills have taken `killed` out of the text at the cursor, and it is the newest
entry of the ring. -/
structure Killing (e e' : Editor) (killed : JsText) : Prop where
  sound : e'.state.Sound
  text : e.state.left ++ e.state.right = e'.state.left ++ killed ++ e'.state.right
  killRing : e'.killRing = e.killRing ++ if killed = [] then [] else [killed]
  lastAction : e'.lastAction = if killed = [] then e.lastAction else some .kill

theorem push_first {text : JsText} (htext : text ≠ []) (prepend : Bool) :
    KillRing.push ring text prepend false = ring ++ [text] := by
  unfold KillRing.push
  rw [if_neg htext]

theorem push_onto {last text : JsText} (htext : text ≠ []) (prepend : Bool) :
    KillRing.push (ring ++ [last]) text prepend true =
      ring ++ [if prepend then text ++ last else last ++ text] := by
  unfold KillRing.push
  rw [if_neg htext, getLast?_concat, dropLast_concat]

theorem Killing.push {text : JsText} (hfirst : e.lastAction ≠ some .kill) (h : Killing e e' killed)
    (htext : text ≠ []) (prepend : Bool) :
    KillRing.push e'.killRing text prepend (decide (e'.lastAction = some .kill)) =
      e.killRing ++ [if prepend then text ++ killed else killed ++ text] := by
  rw [h.killRing, h.lastAction]
  by_cases hnone : killed = []
  · subst hnone
    rw [if_pos rfl, if_pos rfl, decide_eq_false hfirst, append_nil, push_first htext,
      append_nil, nil_append, ite_self]
  · rw [if_neg hnone, if_neg hnone, decide_eq_true rfl, push_onto htext]

theorem Killing.step (hU : U.Lawful) (hfirst : e.lastAction ≠ some .kill) (h : Killing e e' killed)
    (hop : op.kills? = some prepend) : ∃ killed', Killing e (e'.apply U op) killed' := by
  obtain ⟨text, hkilled⟩ := killed_apply hU h.sound hop
  have hring := hkilled.killRing
  have hlast := hkilled.lastAction
  have hleft := hkilled.left
  have hright := hkilled.right
  by_cases htext : text = []
  · -- nothing is there to be killed
    subst htext
    rw [ite_self, append_nil] at hleft
    rw [ite_self, nil_append] at hright
    refine ⟨killed, hkilled.sound, by rw [h.text, hleft, hright], ?_, ?_⟩
    · rw [hring, ← h.killRing]
      exact if_pos rfl
    · rw [hlast, if_pos rfl, h.lastAction]
  · rw [if_neg htext] at hlast
    rw [h.push hfirst htext] at hring
    cases prepend with
    | true =>
      have hne : text ++ killed ≠ [] := append_ne_nil_of_left_ne_nil htext _
      refine ⟨text ++ killed, hkilled.sound, ?_, ?_, by rw [hlast, if_neg hne]⟩
      · rw [h.text, hleft, hright]
        simp
      · rw [hring, if_neg hne, if_pos rfl]
    | false =>
      have hne : killed ++ text ≠ [] := append_ne_nil_of_right_ne_nil _ htext
      refine ⟨killed ++ text, hkilled.sound, ?_, ?_, by rw [hlast, if_neg hne]⟩
      · simp only [Bool.false_eq_true, if_false, append_nil] at hleft hright
        rw [h.text, hleft, hright]
        simp
      · rw [hring, if_neg hne]
        rfl

theorem Killing.run (hU : U.Lawful) (hsound : e.state.Sound) (hfirst : e.lastAction ≠ some .kill)
    {ops : List EditorOp} (hops : ∀ op ∈ ops, op.kills?.isSome) :
    ∃ killed, Killing e (e.run U ops) killed := by
  have hstart : Killing e e [] := by
    refine ⟨hsound, ?_, ?_, rfl⟩
    · rw [append_nil]
    · rw [if_pos rfl, append_nil]
  have hrun : ∀ (ops : List EditorOp) (e' : Editor) (killed : JsText), Killing e e' killed →
      (∀ op ∈ ops, op.kills?.isSome) → ∃ killed, Killing e (e'.run U ops) killed := by
    intro ops
    induction ops with
    | nil => exact fun e' killed h _ => ⟨killed, h⟩
    | cons op ops ih =>
      intro e' killed h hops
      obtain ⟨prepend, hop⟩ := isSome_iff_exists.mp (hops op mem_cons_self)
      obtain ⟨killed', h'⟩ := h.step hU hfirst hop
      exact ih _ killed' h' fun op hop => hops op (mem_cons_of_mem _ hop)
  exact hrun ops e [] hstart hops

theorem Killing.yank_reinserts (hsound : e.state.Sound) (h : Killing e e' killed) :
    e'.yank.state.getText = e.state.getText ↔
      e'.state.getText ≠ e.state.getText ∨ (KillRing.peek e.killRing).getD [] = [] := by
  have hyank := splices_yank h.sound
  have hleft := hyank.left
  have hright := hyank.right
  rw [Nat.sub_zero, take_length] at hleft
  rw [drop_zero] at hright
  rw [hyank.sound.getText_eq, hsound.getText_eq, h.sound.getText_eq, hleft, hright, h.text,
    h.killRing]
  by_cases hnone : killed = []
  · -- the yank inserts what has been in the ring before
    subst hnone
    rw [if_pos rfl, append_nil, append_nil, append_cancel_right_eq, append_right_eq_self]
    exact ⟨.inr, fun hor => hor.resolve_left fun hne => hne rfl⟩
  · rw [if_neg hnone, KillRing.peek, getLast?_concat]
    refine iff_of_true rfl (.inl fun heq => hnone ?_)
    rw [append_cancel_right_eq] at heq
    exact append_right_eq_self.mp heq.symm

/-- The newest entry of the ring has just been yanked behind `left`. -/
structure Yanked (left right : JsText) (ring : List JsText) (e : Editor) : Prop where
  sound : e.state.Sound
  left : e.state.left = left ++ (KillRing.peek ring).getD []
  right : e.state.right = right
  killRing : e.killRing = ring
  lastAction : e.lastAction = some .yank

theorem rotate_eq (ring : List JsText) : KillRing.rotate ring = ring.rotate (ring.length - 1) := by
  unfold KillRing.rotate
  split_ifs with hlength
  · rw [rotate_eq_drop_append_take (Nat.sub_le _ _), ← dropLast_eq_take]
    cases ring using reverseRecOn with
    | nil => rfl
    | append_singleton ring last _ =>
      rw [getLast?_concat, length_append, length_singleton, Nat.add_sub_cancel, drop_left]
      rfl
  · rw [Nat.sub_eq_zero_of_le (Nat.le_of_not_lt hlength), rotate_zero]

theorem iterate_rotate (ring : List JsText) : KillRing.rotate^[ring.length] ring = ring := by
  have hiterate : ∀ n, KillRing.rotate^[n] ring = ring.rotate (n * (ring.length - 1)) := by
    intro n
    induction n with
    | zero => rw [Nat.zero_mul, rotate_zero]; rfl
    | succ n ih =>
      rw [Function.iterate_succ_apply', ih, rotate_eq, length_rotate, rotate_rotate, Nat.succ_mul]
  rw [hiterate, rotate_length_mul]

theorem Yanked.yankPop {left right : JsText} (h : Yanked left right ring e)
    (hlength : 1 < ring.length) : Yanked left right (KillRing.rotate ring) e.yankPop := by
  have hpops : e.popsYank := by
    rw [← h.killRing] at hlength
    exact not_or.mpr ⟨not_not.mpr h.lastAction, hlength.not_ge⟩
  have hleft := h.left
  rw [← h.killRing] at hleft
  have hsplice := splices_yankPop h.sound hpops ⟨left, hleft.symm⟩
  have hpopped := hsplice.left
  rw [hleft, length_append, Nat.add_sub_cancel, take_left, h.killRing] at hpopped
  refine ⟨hsplice.sound, hpopped, ?_, ?_, ?_⟩
  · rw [hsplice.right, drop_zero, h.right]
  · rw [killRing_yankPop hpops, h.killRing]
  · rw [yankPop_of_popsYank hpops]
    rfl

theorem textLines_right {before after : List JsText} {line : JsText} {col : ℕ}
    (hno : ∀ l ∈ before ++ line :: after, 10 ∉ l) :
    textLines (line.drop col ++ begunLines after) = line.drop col :: after := by
  rw [← linesText_cons]
  refine textLines_linesText (fun l hl => ?_) (cons_ne_nil _ _)
  obtain rfl | hl := mem_cons.mp hl
  · exact fun hmem => hno line (by simp) (mem_of_mem_drop hmem)
  · exact hno l (mem_append_right _ (mem_cons_of_mem _ hl))

theorem eq_of_sides {s s' : EditorState} (h : s.Sound) (h' : s'.Sound) (hleft : s.left = s'.left)
    (hright : s.right = s'.right) : s = s' := by
  obtain ⟨before, line, after, col, rfl, hcol, hno⟩ := h.exists_focus
  obtain ⟨before', line', after', col', rfl, hcol', hno'⟩ := h'.exists_focus
  rw [left_focus, left_focus] at hleft
  rw [right_focus, right_focus] at hright
  have hlines := congrArg textLines hleft
  rw [textLines_left hno, textLines_left hno'] at hlines
  obtain ⟨rfl, hlast⟩ := append_inj' hlines rfl
  have htake : line.take col = line'.take col' := (cons.inj hlast).1
  have hcolumn : col = col' := by
    have hlength := congrArg List.length htake
    rwa [length_take, length_take, Nat.min_eq_left hcol, Nat.min_eq_left hcol'] at hlength
  have hrest := congrArg textLines hright
  rw [textLines_right hno, textLines_right hno'] at hrest
  obtain ⟨hdrop, rfl⟩ := cons.inj hrest
  have hline : line = line' := by
    rw [← take_append_drop col line, htake, hdrop, take_append_drop]
  rw [hline, hcolumn]

theorem yanked_yank {text : JsText} (hsound : e.state.Sound)
    (hpeek : KillRing.peek e.killRing = some text) :
    Yanked e.state.left e.state.right e.killRing e.yank := by
  have hsplice := splices_yank hsound
  have hleft := hsplice.left
  have hright := hsplice.right
  rw [Nat.sub_zero, take_length] at hleft
  refine ⟨hsplice.sound, hleft, hright, killRing_yank, ?_⟩
  unfold yank
  rw [hpeek]
  rfl

theorem iterate_yankPop (hsound : e.state.Sound) :
    (Editor.yankPop^[e.yank.killRing.length] e.yank).state = e.yank.state := by
  rw [killRing_yank]
  cases hpeek : KillRing.peek e.killRing with
  | none =>
    rw [getLast?_eq_none_iff.mp hpeek]
    rfl
  | some text =>
    have hyanked := yanked_yank hsound hpeek
    obtain hlength | hlength := Nat.lt_or_ge 1 e.killRing.length
    · have hpops : ∀ n, Yanked e.state.left e.state.right (KillRing.rotate^[n] e.killRing)
          (Editor.yankPop^[n] e.yank) ∧
            (KillRing.rotate^[n] e.killRing).length = e.killRing.length := by
        intro n
        induction n with
        | zero => exact ⟨hyanked, rfl⟩
        | succ n ih =>
          rw [Function.iterate_succ_apply', Function.iterate_succ_apply']
          refine ⟨ih.1.yankPop (ih.2.symm ▸ hlength), ?_⟩
          rw [rotate_eq, length_rotate, ih.2]
      have hround := (hpops e.killRing.length).1
      rw [iterate_rotate] at hround
      exact eq_of_sides hround.sound hyanked.sound (hround.left.trans hyanked.left.symm)
        (hround.right.trans hyanked.right.symm)
    · -- the only entry is not popped
      have hstays : ¬e.yank.popsYank := by
        rw [popsYank, killRing_yank]
        exact not_not.mpr (.inr hlength)
      have hone : e.killRing.length = 1 := by
        cases hring : e.killRing with
        | nil =>
          rw [hring] at hpeek
          cases hpeek
        | cons first rest =>
          rw [hring, length_cons] at hlength
          rw [length_cons]
          omega
      rw [hone, Function.iterate_one, yankPop_of_not_popsYank hstays]

/-- A run of kills is taken back by a yank if it has killed something, or if there was nothing to
yank; and a yank by as many pops as the ring has entries. -/
theorem yank_restores (hU : U.Lawful) (hsound : e.state.Sound) :
    (∀ ops, e.lastAction ≠ some .kill → (∀ op ∈ ops, op.kills?.isSome) →
      ((e.run U ops).yank.state.getText = e.state.getText ↔
        (e.run U ops).state.getText ≠ e.state.getText ∨
          (KillRing.peek e.killRing).getD [] = [])) ∧
    (Editor.yankPop^[e.yank.killRing.length] e.yank).state = e.yank.state := by
  refine ⟨fun ops hfirst hops => ?_, iterate_yankPop hsound⟩
  obtain ⟨killed, hkilling⟩ := Killing.run hU hsound hfirst hops
  exact hkilling.yank_reinserts hsound

/-- Two words, the first of which has been killed and yanked behind the other. -/
def twoWords : Editor :=
  (((Editor.initial.insertTextAtCursor (utf16 "one two")).moveToLineStart.deleteWordForward
    unitSegments).moveToLineEnd).yank

theorem twoWords_sound : twoWords.state.Sound := by
  exact ⟨by decide, by decide, by decide⟩

theorem yank_restores_twoWords :
    (∀ ops, twoWords.lastAction ≠ some .kill → (∀ op ∈ ops, op.kills?.isSome) →
      ((twoWords.run unitSegments ops).yank.state.getText = twoWords.state.getText ↔
        (twoWords.run unitSegments ops).state.getText ≠ twoWords.state.getText ∨
          (KillRing.peek twoWords.killRing).getD [] = [])) ∧
    (Editor.yankPop^[twoWords.yank.killRing.length] twoWords.yank).state = twoWords.yank.state :=
  yank_restores unitSegments_lawful twoWords_sound

/-- At the end of the text a kill does nothing, and the yank puts an older text there. A run that
goes on with an earlier one is yanked with it. -/
theorem yank_not_restores :
    (twoWords.run unitSegments [.deleteToEndOfLine]).yank.state.getText ≠
        twoWords.state.getText ∧
      ((twoWords.deleteWordBackwards unitSegments).run unitSegments
          [.deleteWordBackwards]).yank.state.getText ≠
        (twoWords.deleteWordBackwards unitSegments).state.getText := by
  decide

end Editor

end Draht
