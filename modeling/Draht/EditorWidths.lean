import Draht.EditorMarkers

/-!
# The widths of the chunks

The columns of a line are counted at the ends of its graphemes. When the segments of a line count
every grapheme, the wrapping counts every column, and no chunk is wider than asked.
-/

namespace Draht
open List

/-- What the widths of texts have to do with those of their graphemes. -/
structure TextUnits.Measured (U : TextUnits) : Prop where
  ascii : ∀ text, (∀ c ∈ text, IsPrintable c) → U.visibleWidth text = text.length
  run : ∀ text before run after, U.segment text = before ++ run ++ after →
    U.visibleWidth run.flatten ≤ (run.map U.visibleWidth).sum
  single : ∀ text, ∀ g ∈ U.segment text, (g.filter (IsPrintable ·)).length ≤ 1
  wide : ∀ text, ∀ g ∈ U.segment text, (g.filter (IsPrintable ·)).length ≤ U.visibleWidth g

/-- A grapheme begins at `i`, or the last one ends there. -/
def IsBoundary (gs : List JsText) (i : ℕ) : Prop :=
  ∃ before after, gs = before ++ after ∧ before.flatten.length = i

/-- The graphemes from `i` to `j`. -/
def Run (gs : List JsText) (i j : ℕ) (run : List JsText) : Prop :=
  ∃ before after, gs = before ++ run ++ after ∧ before.flatten.length = i ∧
    i + run.flatten.length = j

/-- The widths of the graphemes before `i`. -/
def columns (U : TextUnits) : List JsText → ℕ → ℕ
  | [], _ => 0
  | g :: gs, i => if i = 0 then 0 else U.visibleWidth g + columns U gs (i - g.length)

section Runs

variable {U : TextUnits} {gs run : List JsText} {i j : ℕ}

theorem isBoundary_zero (gs : List JsText) : IsBoundary gs 0 := ⟨[], gs, rfl, rfl⟩

theorem isBoundary_length (gs : List JsText) : IsBoundary gs gs.flatten.length :=
  ⟨gs, [], (append_nil _).symm, rfl⟩

theorem Run.isBoundary_left (h : Run gs i j run) : IsBoundary gs i := by
  obtain ⟨before, after, hgs, hi, -⟩ := h
  exact ⟨before, run ++ after, by rw [hgs, append_assoc], hi⟩

theorem Run.isBoundary_right (h : Run gs i j run) : IsBoundary gs j := by
  obtain ⟨before, after, hgs, hi, hj⟩ := h
  exact ⟨before ++ run, after, hgs, by rw [flatten_append, length_append, hi, hj]⟩

theorem exists_run (hgs : [] ∉ gs) (hi : IsBoundary gs i) (hj : IsBoundary gs j) (hle : i ≤ j) :
    ∃ run, Run gs i j run := by
  obtain ⟨before, after, hbefore, rfl⟩ := hi
  obtain ⟨before', after', hbefore', rfl⟩ := hj
  rcases append_eq_append_iff.mp (hbefore.symm.trans hbefore') with
    ⟨run, rfl, rfl⟩ | ⟨run, rfl, rfl⟩
  · exact ⟨run, before, after', hbefore', rfl, by rw [flatten_append, length_append]⟩
  · -- what lies between is empty, and so has no graphemes
    have hrun : run = [] := by
      rw [flatten_append, length_append] at hle
      have hnil : run.flatten = [] := length_eq_zero_iff.mp (by omega)
      refine eq_nil_iff_forall_not_mem.mpr fun g hg => hgs ?_
      rw [hbefore, append_assoc]
      refine mem_append_right _ (mem_append_left _ ?_)
      exact flatten_eq_nil_iff.mp hnil g hg ▸ hg
    subst hrun
    exact ⟨[], before', after, hbefore, by rw [append_nil], by rw [append_nil]; rfl⟩

theorem columns_flatten {before : List JsText} (hgs : [] ∉ before) (after : List JsText) :
    columns U (before ++ after) before.flatten.length = (before.map U.visibleWidth).sum := by
  induction before with
  | nil =>
    cases after with
    | nil => rfl
    | cons g after => exact if_pos rfl
  | cons g before ih =>
    have hg : g ≠ [] := fun hnil => hgs (hnil ▸ mem_cons_self)
    have hpos := length_pos_of_ne_nil hg
    rw [flatten_cons, length_append, cons_append, columns, if_neg (by omega),
      Nat.add_sub_cancel_left, ih fun hnil => hgs (mem_cons_of_mem _ hnil), map_cons,
      sum_cons]

theorem Run.columns_eq (h : Run gs i j run) (hgs : [] ∉ gs) :
    columns U gs j = columns U gs i + (run.map U.visibleWidth).sum := by
  obtain ⟨before, after, rfl, rfl, rfl⟩ := h
  have hbefore : [] ∉ before ++ run := fun hnil => hgs (mem_append_left _ hnil)
  have hwhole := columns_flatten (U := U) hbefore after
  rw [flatten_append, length_append, map_append, sum_append] at hwhole
  rw [hwhole, append_assoc, columns_flatten fun hnil => hbefore (mem_append_left _ hnil)]

theorem Run.slice_eq (h : Run gs i j run) : sliceOf gs.flatten i j = run.flatten := by
  obtain ⟨before, after, rfl, rfl, rfl⟩ := h
  rw [sliceOf, append_assoc, flatten_append, drop_left, flatten_append,
    Nat.add_sub_cancel_left, take_left]

theorem columns_mono (hgs : [] ∉ gs) (hi : IsBoundary gs i) (hj : IsBoundary gs j) (hle : i ≤ j) :
    columns U gs i ≤ columns U gs j := by
  obtain ⟨run, hrun⟩ := exists_run hgs hi hj hle
  rw [hrun.columns_eq hgs]
  exact Nat.le_add_right _ _

theorem columns_zero (gs : List JsText) : columns U gs 0 = 0 := by
  cases gs with
  | nil => rfl
  | cons g gs => exact if_pos rfl

end Runs

section Line

variable {U : TextUnits} {line : JsText} {i j : ℕ}

theorem visibleWidth_slice_le (hU : U.Lawful) (hM : U.Measured)
    (hi : IsBoundary (U.segment line) i) (hj : IsBoundary (U.segment line) j) (hle : i ≤ j) :
    columns U (U.segment line) i + U.visibleWidth (sliceOf line i j) ≤
      columns U (U.segment line) j := by
  obtain ⟨run, hrun⟩ := exists_run (hU.nonempty line) hi hj hle
  have hslice := hrun.slice_eq
  rw [hU.flatten] at hslice
  rw [hrun.columns_eq (hU.nonempty line), hslice]
  obtain ⟨before, after, hgs, -, -⟩ := hrun
  exact Nat.add_le_add_left (hM.run line before run after hgs) _

theorem run_of_mem_indexed {texts : List JsText} {seg : Segment} (h : seg ∈ indexed 0 texts) :
    Run texts seg.index (seg.index + seg.text.length) [seg.text] := by
  have hindexed : ∀ (later before : List JsText), seg ∈ indexed before.flatten.length later →
      Run (before ++ later) seg.index (seg.index + seg.text.length) [seg.text] := by
    intro later
    induction later with
    | nil => exact nofun
    | cons text later ih =>
      intro before hseg
      obtain rfl | hseg := mem_cons.mp hseg
      · exact ⟨before, later, by rw [append_assoc]; rfl, rfl,
          by rw [flatten_singleton]⟩
      · have hrest := ih (before ++ [text])
        rw [append_assoc, flatten_append, length_append, flatten_singleton] at hrest
        exact hrest hseg
  exact hindexed texts [] h

theorem eq_singleton_of_printable {text g rest : JsText} {n : ℕ} (hM : U.Measured)
    (hg : g ∈ U.segment text) (hne : [] ∉ U.segment text) (hn : 2 ≤ n)
    (hprintable : ∀ c ∈ (g ++ rest).take n, IsPrintable c) : ∃ c, g = [c] := by
  cases g with
  | nil => exact absurd hg hne
  | cons c g =>
    cases g with
    | nil => exact ⟨c, rfl⟩
    | cons d g =>
      obtain ⟨n, rfl⟩ := Nat.exists_eq_add_of_le' hn
      have hc : IsPrintable c := hprintable c (by simp)
      have hd : IsPrintable d := hprintable d (by simp)
      have hsingle := hM.single text _ hg
      simp [hc, hd] at hsingle

theorem run_of_printable {length : ℕ} (hU : U.Lawful) (hM : U.Measured)
    (hi : IsBoundary (U.segment line) i) (hlength : i + length ≤ line.length)
    (hprintable : ∀ c ∈ sliceOf line i (i + length), IsPrintable c) {k : ℕ} (hk : k < length) :
    ∃ run, Run (U.segment line) i (i + k) run ∧ (run.map U.visibleWidth).sum = k := by
  induction k with
  | zero =>
    obtain ⟨before, after, hgs, hbefore⟩ := hi
    exact ⟨[], ⟨before, after, by rw [append_nil, hgs], hbefore, rfl⟩, rfl⟩
  | succ k ih =>
    obtain ⟨run, ⟨before, after, hgs, hbefore, hrun⟩, hsum⟩ := ih (by omega)
    have hflatten : before.flatten ++ (run.flatten ++ after.flatten) = line := by
      rw [← flatten_append, ← flatten_append, ← append_assoc, ← hgs, hU.flatten]
    have hrunLength : run.flatten.length = k := by omega
    -- what is left of the slice begins the graphemes behind the run
    have hslice : sliceOf line i (i + length) =
        run.flatten ++ after.flatten.take (length - k) := by
      rw [sliceOf, ← hflatten, ← hbefore, drop_left, Nat.add_sub_cancel_left,
        take_append, take_of_length_le (by omega), hrunLength]
    have hafter : length - k ≤ after.flatten.length := by
      rw [← hflatten, length_append, length_append, hbefore] at hlength
      omega
    cases after with
    | nil =>
      rw [flatten_nil, length_nil] at hafter
      omega
    | cons g after =>
      have hg : g ∈ U.segment line := by
        rw [hgs]
        exact mem_append_right _ mem_cons_self
      have hfirst : ∀ c ∈ (g ++ after.flatten).take (length - k), IsPrintable c :=
        fun c hc => hprintable c (hslice ▸ mem_append_right _ hc)
      obtain ⟨c, rfl⟩ := eq_singleton_of_printable hM hg (hU.nonempty line) (by omega) hfirst
      have hc : IsPrintable c := hfirst c (by
        rw [singleton_append, take_cons (by omega)]
        exact mem_cons_self)
      refine ⟨run ++ [[c]], ⟨before, after, by simp [hgs], hbefore, ?_⟩, ?_⟩
      · rw [flatten_append, length_append, hrunLength]
        rfl
      · rw [map_append, sum_append, hsum, map_singleton, sum_singleton,
          hM.ascii [c] (fun d hd => mem_singleton.mp hd ▸ hc), length_singleton]

theorem columns_printable {length : ℕ} (hU : U.Lawful) (hM : U.Measured) (hpos : 0 < length)
    (hi : IsBoundary (U.segment line) i) (hlength : i + length ≤ line.length)
    (hprintable : ∀ c ∈ sliceOf line i (i + length), IsPrintable c)
    (hj : IsBoundary (U.segment line) j) (hle : i + length ≤ j) :
    columns U (U.segment line) i + length ≤ columns U (U.segment line) j := by
  have hne := hU.nonempty line
  obtain ⟨k, rfl⟩ := Nat.exists_eq_add_of_le' hpos
  obtain ⟨run, hrun, hsum⟩ := run_of_printable hU hM hi hlength hprintable (Nat.lt_succ_self k)
  obtain ⟨run', hrun'⟩ := exists_run hne hrun.isBoundary_right hj (by omega)
  have hslice := hrun'.slice_eq
  have hcolumns := hrun.columns_eq (U := U) hne
  have hcolumns' := hrun'.columns_eq (U := U) hne
  obtain ⟨before, after, hgs, -, hlength'⟩ := hrun'
  cases run' with
  | nil =>
    rw [flatten_nil, length_nil] at hlength'
    omega
  | cons g run' =>
    have hg : g ∈ U.segment line := by
      rw [hgs]
      exact mem_append_left _ (mem_append_right _ mem_cons_self)
    cases g with
    | nil => exact absurd hg hne
    | cons c g =>
      -- the first character of the next grapheme is the last printable one
      have hlast : c ∈ sliceOf (sliceOf line i (i + (k + 1))) k (k + 1) := by
        rw [sliceOf_sliceOf (by omega), sliceOf]
        rw [hU.flatten, sliceOf, flatten_cons, cons_append] at hslice
        cases hdrop : line.drop (i + k) with
        | nil =>
          rw [hdrop, take_nil] at hslice
          exact absurd hslice (cons_ne_nil _ _).symm
        | cons d rest =>
          rw [hdrop, take_cons (by omega)] at hslice
          rw [take_cons (by omega), (cons.inj hslice).1]
          exact mem_cons_self
      have hc : IsPrintable c :=
        hprintable c (mem_of_mem_drop (mem_of_mem_take hlast))
      have hwide := hM.wide line _ hg
      have hcount : 1 ≤ ((c :: g).filter (IsPrintable ·)).length := by simp [hc]
      rw [map_cons, sum_cons] at hcolumns'
      omega

end Line

/-- The markers of a line are printable and lie one after the other. -/
structure MarkersOf (line : JsText) (markers : List Marker) : Prop where
  bounds : ∀ m ∈ markers, m.start < m.stop ∧ m.stop ≤ line.length
  printable : ∀ m ∈ markers, ∀ c ∈ sliceOf line m.start m.stop, IsPrintable c
  apart : markers.Pairwise fun m m' => m.stop ≤ m'.start

theorem markersOf_validMarkers (line : JsText) (validIds : List ℕ) :
    MarkersOf line (validMarkers line validIds) :=
  ⟨fun _ => validMarkers_bounds, fun _ => validMarkers_printable,
    validMarkers_pairwise line validIds⟩

theorem MarkersOf.eq_of_mem {line : JsText} {markers : List Marker} {m m' : Marker} {i : ℕ}
    (h : MarkersOf line markers) (hm : m ∈ markers) (hm' : m' ∈ markers)
    (hi : m.start ≤ i ∧ i < m.stop) (hi' : m'.start ≤ i ∧ i < m'.stop) : m = m' := by
  obtain ⟨a, ha, rfl⟩ := getElem_of_mem hm
  obtain ⟨b, hb, rfl⟩ := getElem_of_mem hm'
  have hapart := pairwise_iff_getElem.mp h.apart
  obtain hlt | rfl | hlt := Nat.lt_trichotomy a b
  · have hle := hapart a b ha hb hlt
    omega
  · rfl
  · have hle := hapart b a hb ha hlt
    omega

/-- A segment is a grapheme of the line, or a marker that begins where a grapheme does. -/
def Stands (U : TextUnits) (line : JsText) (markers : List Marker) (seg : Segment) : Prop :=
  Run (U.segment line) seg.index (seg.index + seg.text.length) [seg.text] ∨
    IsBoundary (U.segment line) seg.index ∧
      ∃ m ∈ markers, seg = ⟨sliceOf line m.start m.stop, m.start⟩

def nextIndex (stop : ℕ) : List Segment → ℕ
  | [] => stop
  | seg :: _ => seg.index

def Counted (U : TextUnits) (line : JsText) : List Segment → Prop
  | [] => True
  | seg :: segments =>
    columns U (U.segment line) (nextIndex line.length segments) =
        columns U (U.segment line) seg.index + U.visibleWidth seg.text ∧
      Counted U line segments

section Stands

variable {U : TextUnits} {line : JsText} {markers : List Marker} {seg : Segment}
  {segments : List Segment}

theorem Stands.isBoundary (h : Stands U line markers seg) :
    IsBoundary (U.segment line) seg.index :=
  h.elim Run.isBoundary_left And.left

theorem Stands.columns_le (hU : U.Lawful) (hM : U.Measured) (hmarkers : MarkersOf line markers)
    (h : Stands U line markers seg) {n : ℕ} (hn : IsBoundary (U.segment line) n)
    (hle : seg.index + seg.text.length ≤ n) :
    columns U (U.segment line) seg.index + U.visibleWidth seg.text ≤
      columns U (U.segment line) n := by
  obtain hrun | ⟨hstart, m, hm, rfl⟩ := h
  · have hmono := columns_mono (U := U) (hU.nonempty line) hrun.isBoundary_right hn hle
    have hcolumns := hrun.columns_eq (U := U) (hU.nonempty line)
    rw [map_singleton, sum_singleton] at hcolumns
    omega
  · obtain ⟨hlt, hstop⟩ := hmarkers.bounds m hm
    have hprintable := hmarkers.printable m hm
    simp only at hstart hle ⊢
    rw [sliceOf_length m.start hstop] at hle
    rw [hM.ascii _ hprintable, sliceOf_length _ hstop]
    refine columns_printable hU hM (by omega) hstart (by omega) ?_ hn hle
    rwa [Nat.add_sub_cancel' hlt.le]

theorem isBoundary_end (hU : U.Lawful) (line : JsText) :
    IsBoundary (U.segment line) line.length := by
  have hlength := isBoundary_length (U.segment line)
  rwa [hU.flatten] at hlength

theorem isBoundary_nextIndex (hU : U.Lawful) (h : ∀ seg ∈ segments, Stands U line markers seg) :
    IsBoundary (U.segment line) (nextIndex line.length segments) := by
  cases segments with
  | nil => exact isBoundary_end hU line
  | cons seg segments => exact (h seg mem_cons_self).isBoundary

theorem columns_sum_le (hU : U.Lawful) (hM : U.Measured) (hmarkers : MarkersOf line markers)
    {start : ℕ} (hin : InOrder line.length start segments)
    (h : ∀ seg ∈ segments, Stands U line markers seg) :
    columns U (U.segment line) (nextIndex line.length segments) +
        (segments.map fun seg => U.visibleWidth seg.text).sum ≤
          columns U (U.segment line) line.length ∧
      (columns U (U.segment line) line.length ≤
        columns U (U.segment line) (nextIndex line.length segments) +
          (segments.map fun seg => U.visibleWidth seg.text).sum → Counted U line segments) := by
  induction segments generalizing start with
  | nil => exact ⟨le_refl _, fun _ => trivial⟩
  | cons seg segments ih =>
    have hlater : ∀ seg ∈ segments, Stands U line markers seg :=
      fun s hs => h s (mem_cons_of_mem _ hs)
    obtain ⟨hle, hcounted⟩ := ih hin.2 hlater
    have hnext : seg.index + seg.text.length ≤ nextIndex line.length segments := by
      cases segments with
      | nil => exact hin.2
      | cons next segments => exact hin.2.1
    have hextent := (h seg mem_cons_self).columns_le hU hM hmarkers
      (isBoundary_nextIndex hU hlater) hnext
    rw [map_cons, sum_cons]
    simp only [nextIndex]
    exact ⟨by omega, fun htotal => ⟨by omega, hcounted (by omega)⟩⟩

end Stands

end Draht
