import Draht.CutPoints

/-!
# Cuts inside a turn

A preparation summarises the part of a turn before the cut apart from the history. Whether the cut
is inside a turn is read off the entry at the final index, which may lie before the message that
follows the cut.
-/

namespace Draht
open List Option

variable {entries : List SessionEntry} {startIndex : ℕ}

structure LastTurnStart (entries : List SessionEntry) (startIndex stop t : ℕ) : Prop where
  start_le : startIndex ≤ t
  lt_stop : t < stop
  starts : entries[t]?.any isTurnStart = true
  last : ∀ j, t < j → j < stop → entries[j]?.any isTurnStart = false

variable {stop c i t : ℕ} {e : SessionEntry}

theorem LastTurnStart.unique {t' : ℕ} (h : LastTurnStart entries startIndex stop t)
    (h' : LastTurnStart entries startIndex stop t') : t = t' := by
  refine eq_of_forall_not_lt (fun i j hi hj hlt => ?_) h h'
  have hstarts := hj.starts
  rw [hi.last j hlt hj.lt_stop] at hstarts
  cases hstarts

theorem findTurnStartIndex_eq_some_iff :
    findTurnStartIndex entries startIndex i = some t ↔
      LastTurnStart entries startIndex (i + 1) t := by
  induction i with
  | zero =>
    rw [findTurnStartIndex]
    constructor
    · intro h
      split_ifs at h with hstart
      cases h
      exact ⟨by omega, Nat.lt_succ_self _, hstart.2, fun j hj hlt => by omega⟩
    · intro h
      obtain rfl : t = 0 := by have := h.lt_stop; omega
      rw [if_pos ⟨Nat.le_zero.mp h.start_le, h.starts⟩]
  | succ i ih =>
    rw [findTurnStartIndex]
    split_ifs with hbefore hstarts
    · refine iff_of_false (by simp) fun h => ?_
      have hstart := h.start_le
      have hstop := h.lt_stop
      omega
    · constructor
      · intro h
        cases h
        exact ⟨by omega, Nat.lt_succ_self _, hstarts, fun j hj hlt => by omega⟩
      · intro h
        have hself : LastTurnStart entries startIndex (i + 1 + 1) (i + 1) :=
          ⟨by omega, Nat.lt_succ_self _, hstarts, fun j hj hlt => by omega⟩
        rw [h.unique hself]
    · rw [ih]
      have hnot := Bool.eq_false_iff.mpr hstarts
      constructor
      · rintro ⟨hstart, hlt, hturn, hlast⟩
        refine ⟨hstart, Nat.lt_succ_of_lt hlt, hturn, fun j hj hle => ?_⟩
        obtain hlt' | rfl := Nat.lt_succ_iff_lt_or_eq.mp hle
        · exact hlast j hj hlt'
        · exact hnot
      · rintro ⟨hstart, hlt, hturn, hlast⟩
        refine ⟨hstart, ?_, hturn, fun j hj hle => hlast j hj (Nat.lt_succ_of_lt hle)⟩
        obtain hlt' | rfl := Nat.lt_succ_iff_lt_or_eq.mp hlt
        · exact hlt'
        · rw [hnot] at hturn
          cases hturn

theorem isTurnStart_bearsContext (h : isTurnStart e = true) : e.bearsContext = true :=
  isValidCutPoint_bearsContext (isTurnStart_isValidCutPoint h)

theorem any_isTurnStart_bearsContext (h : entries[i]?.any isTurnStart = true) :
    entries[i]?.any SessionEntry.bearsContext = true := by
  obtain ⟨e, he, hstarts⟩ := (any_eq_true _ _).mp h
  rw [he, any_some, isTurnStart_bearsContext hstarts]

theorem messagesBetween_ne_nil (hlt : t < stop) (he : entries[t]? = some e)
    (hbears : e.bearsContext = true) : messagesBetween entries t stop ≠ [] := by
  obtain ⟨m, hm⟩ := isSome_iff_exists.mp hbears
  have hmem : e ∈ (entries.take stop).drop t := by
    rw [mem_iff_getElem?]
    refine ⟨0, ?_⟩
    simpa [hlt] using he
  have hmessage : m ∈ messagesBetween entries t stop :=
    mem_filterMap.mpr ⟨e, hmem, hm⟩
  exact ne_nil_of_mem hmessage

theorem messagesBetween_self (t : ℕ) : messagesBetween entries t t = [] := by
  have hnil : (entries.take t).drop t = [] := drop_eq_nil_of_le (length_take_le _ _)
  rw [messagesBetween, hnil]
  rfl

variable {path : List SessionEntry} {settings : CompactionSettings} {p : CompactionPreparation}

/-- `firstKeptEntryIndex` of a preparation. -/
def firstKeptIndex (path : List SessionEntry) (settings : CompactionSettings) : ℕ :=
  (findCutPoint path (boundaryStart path) path.length
    settings.keepRecentTokens).firstKeptEntryIndex

theorem findCutPoint_split (entries : List SessionEntry) (startIndex endIndex : ℕ)
    (keepRecentTokens : ℤ) (t : ℕ) :
    let r := findCutPoint entries startIndex endIndex keepRecentTokens
    (r.isSplitTurn = true ∧ r.turnStartIndex = some t ∧ t < r.firstKeptEntryIndex) ↔
      entries[r.firstKeptEntryIndex]?.any isTurnStart = false ∧
        LastTurnStart entries startIndex r.firstKeptEntryIndex t := by
  intro r
  have hself : ∀ {f : ℕ}, entries[f]?.any isTurnStart = false →
      (LastTurnStart entries startIndex (f + 1) t ↔ LastTurnStart entries startIndex f t) := by
    intro f hnot
    constructor
    · rintro ⟨hstart, hlt, hturn, hlast⟩
      refine ⟨hstart, ?_, hturn, fun j hj hlt' => hlast j hj (by omega)⟩
      obtain hlt | rfl := Nat.lt_succ_iff_lt_or_eq.mp hlt
      · exact hlt
      · rw [hnot] at hturn
        cases hturn
    · rintro ⟨hstart, hlt, hturn, hlast⟩
      refine ⟨hstart, by omega, hturn, fun j hj hlt' => ?_⟩
      obtain hlt' | rfl := Nat.lt_succ_iff_lt_or_eq.mp hlt'
      · exact hlast j hj hlt'
      · exact hnot
  cases hcuts : findValidCutPoints entries startIndex endIndex with
  | nil =>
    have hr : r = ⟨startIndex, none, false⟩ := by simp only [r, findCutPoint, hcuts]
    rw [hr]
    refine iff_of_false (by simp) ?_
    rintro ⟨_, hstart, hlt, _⟩
    exact absurd hlt (Nat.not_lt.mpr hstart)
  | cons first rest =>
    generalize hf : r.firstKeptEntryIndex = f
    have hturnStart : r.turnStartIndex = if entries[f]?.any isUserMessage then none
        else findTurnStartIndex entries startIndex f := by
      rw [← hf]
      simp [r, findCutPoint, hcuts]
    have hsplit : r.isSplitTurn =
        (!entries[f]?.any isUserMessage && r.turnStartIndex.isSome) := by
      rw [← hf]
      simp [r, findCutPoint, hcuts]
    rw [hsplit, hturnStart]
    cases huser : entries[f]?.any isUserMessage with
    | true =>
      refine iff_of_false (by simp) ?_
      rintro ⟨hnot, _⟩
      obtain ⟨e, he, huser⟩ := (any_eq_true _ _).mp huser
      rw [he, any_some, isUserMessage_isTurnStart huser] at hnot
      cases hnot
    | false =>
      constructor
      · rintro ⟨_, hturn, hlt⟩
        have hlast := findTurnStartIndex_eq_some_iff.mp hturn
        have hnot := hlast.last f hlt (Nat.lt_succ_self _)
        exact ⟨hnot, (hself hnot).mp hlast⟩
      · rintro ⟨hnot, hlast⟩
        have hturn := findTurnStartIndex_eq_some_iff.mpr ((hself hnot).mpr hlast)
        exact ⟨by rw [hturn]; rfl, hturn, hlast.lt_stop⟩

theorem turnPrefix_of_lastTurnStart (hp : prepareCompaction path settings = some (some p)) :
    (p.turnPrefixMessages ≠ [] ↔ path[firstKeptIndex path settings]?.any isTurnStart = false ∧
      ∃ t, LastTurnStart path (boundaryStart path) (firstKeptIndex path settings) t) ∧
    ∀ t, LastTurnStart path (boundaryStart path) (firstKeptIndex path settings) t →
      p.turnPrefixMessages ≠ [] →
      p.turnPrefixMessages = messagesBetween path t (firstKeptIndex path settings) := by
  have hsplit := findCutPoint_split path (boundaryStart path) path.length settings.keepRecentTokens
  have hbounds := (findCutPoint_bounds path (boundaryStart path) path.length
    settings.keepRecentTokens).2
  have hmessages := (prepares_of_prepareCompaction hp).turnPrefixMessages
  rw [firstKeptIndex]
  generalize findCutPoint path (boundaryStart path) path.length settings.keepRecentTokens = r
    at hsplit hbounds hmessages ⊢
  have hgiven : ∀ t, LastTurnStart path (boundaryStart path) r.firstKeptEntryIndex t →
      path[r.firstKeptEntryIndex]?.any isTurnStart = false →
      p.turnPrefixMessages = messagesBetween path t r.firstKeptEntryIndex := by
    intro t hlast hnot
    obtain ⟨hsplitTurn, hturn, _⟩ := (hsplit t).mpr ⟨hnot, hlast⟩
    rw [hmessages, if_pos hsplitTurn, hturn, getD_some]
  have hnonempty : p.turnPrefixMessages ≠ [] ↔
      path[r.firstKeptEntryIndex]?.any isTurnStart = false ∧
        ∃ t, LastTurnStart path (boundaryStart path) r.firstKeptEntryIndex t := by
    constructor
    · intro hne
      have hsplitTurn : r.isSplitTurn = true := by
        by_contra hnot
        exact hne (by rw [hmessages, if_neg hnot])
      obtain ⟨t, hturn, _, hle⟩ := hbounds hsplitTurn
      rw [hmessages, if_pos hsplitTurn, hturn, getD_some] at hne
      have hlt : t < r.firstKeptEntryIndex := by
        obtain hlt | rfl := Nat.lt_or_eq_of_le hle
        · exact hlt
        · exact absurd (messagesBetween_self _) hne
      obtain ⟨hnot, hlast⟩ := (hsplit t).mp ⟨hsplitTurn, hturn, hlt⟩
      exact ⟨hnot, t, hlast⟩
    · rintro ⟨hnot, t, hlast⟩
      obtain ⟨e, he, hstarts⟩ := (any_eq_true _ _).mp hlast.starts
      rw [hgiven t hlast hnot]
      exact messagesBetween_ne_nil hlast.lt_stop he (isTurnStart_bearsContext hstarts)
  exact ⟨hnonempty, fun t hlast hne => hgiven t hlast (hnonempty.mp hne).1⟩

/-- The first entry at or after the cut that bears context decides whether the turn is split. -/
structure SplitsAtTurns (path : List SessionEntry) (settings : CompactionSettings)
    (p : CompactionPreparation) : Prop where
  splits : p.turnPrefixMessages ≠ [] ↔ ∃ c t, FirstBearing path (firstKeptIndex path settings) c ∧
    path[c]?.any isTurnStart = false ∧ LastTurnStart path (boundaryStart path) c t
  starts : ∀ c t, FirstBearing path (firstKeptIndex path settings) c →
    LastTurnStart path (boundaryStart path) c t → p.turnPrefixMessages ≠ [] →
      p.turnPrefixMessages = messagesBetween path t (firstKeptIndex path settings)

/-- The entry at the cut bears context, or no start of a turn follows it directly, or none is
before it. -/
def CutShowsTurn (path : List SessionEntry) (settings : CompactionSettings) : Prop :=
  path[firstKeptIndex path settings]?.any SessionEntry.bearsContext = true ∨
    (∀ c, FirstBearing path (firstKeptIndex path settings) c →
      path[c]?.any isTurnStart = false) ∨
    ∀ t, ¬ LastTurnStart path (boundaryStart path) (firstKeptIndex path settings) t

theorem FirstBearing.lastTurnStart_iff {cut : ℕ} (h : FirstBearing path cut c) :
    LastTurnStart path startIndex c t ↔ LastTurnStart path startIndex cut t := by
  have hquiet : ∀ j, cut ≤ j → j < c → path[j]?.any isTurnStart = false := by
    intro j hle hlt
    have hbears := h.before j hle hlt
    cases hj : path[j]? with
    | none => rfl
    | some e =>
      rw [hj, any_some] at hbears
      refine Bool.eq_false_iff.mpr fun hstarts => ?_
      rw [isTurnStart_bearsContext hstarts] at hbears
      cases hbears
  have hle := h.le
  constructor
  · rintro ⟨hstart, hlt, hturn, hlast⟩
    refine ⟨hstart, ?_, hturn, fun j hj hlt' => hlast j hj (by omega)⟩
    by_contra hnot
    rw [hquiet t (by omega) hlt] at hturn
    cases hturn
  · rintro ⟨hstart, hlt, hturn, hlast⟩
    refine ⟨hstart, by omega, hturn, fun j hj hlt' => ?_⟩
    by_cases hbefore : j < cut
    · exact hlast j hj hbefore
    · exact hquiet j (by omega) hlt'

theorem firstBearing_self (h : path[c]?.any SessionEntry.bearsContext = true) :
    FirstBearing path c c :=
  ⟨Nat.le_refl _, h, fun _ hle hlt => absurd hlt (Nat.not_lt.mpr hle)⟩

theorem exists_firstBearing
    (h : LastTurnStart path (boundaryStart path) (firstKeptIndex path settings) t) :
    ∃ c, FirstBearing path (firstKeptIndex path settings) c := by
  obtain ⟨e, he, hstarts⟩ := (any_eq_true _ _).mp h.starts
  have hmem : t ∈ findValidCutPoints path (boundaryStart path) path.length :=
    mem_findValidCutPoints_iff.mpr ⟨h.start_le, (List.getElem?_eq_some_iff.mp he).1, e, he,
      isTurnStart_isValidCutPoint hstarts⟩
  obtain ⟨cut, _, hle, _, ⟨e', he', hvalid⟩, hcut⟩ :=
    findCutPoint_cases settings.keepRecentTokens (ne_nil_of_mem hmem)
  have hbounds := includeNonMessages_bounds path hle
  rw [firstKeptIndex, hcut]
  have hbears : path[cut]?.any SessionEntry.bearsContext = true := by
    rw [he', any_some, isValidCutPoint_bearsContext hvalid]
  obtain ⟨c, _, hfirst⟩ := FirstBearing.exists_le hbounds.2 hbears
  exact ⟨c, hfirst⟩

theorem splitsAtTurns_iff (hp : prepareCompaction path settings = some (some p)) :
    SplitsAtTurns path settings p ↔ CutShowsTurn path settings := by
  obtain ⟨hsplits, hstarts⟩ := turnPrefix_of_lastTurnStart hp
  constructor
  · intro hclaim
    by_contra hnot
    simp only [CutShowsTurn, not_or, not_forall, not_not] at hnot
    obtain ⟨hquiet, ⟨c, hfirst, hturn⟩, t, hlast⟩ := hnot
    have hnotStart : path[firstKeptIndex path settings]?.any isTurnStart = false :=
      Bool.eq_false_iff.mpr fun h => hquiet (any_isTurnStart_bearsContext h)
    obtain ⟨c', _, hfirst', hturn', _⟩ :=
      hclaim.splits.mp (hsplits.mpr ⟨hnotStart, t, hlast⟩)
    rw [hfirst'.unique hfirst] at hturn'
    exact hturn hturn'
  · intro hshows
    refine ⟨?_, ?_⟩
    · rw [hsplits]
      constructor
      · rintro ⟨hnot, t, hlast⟩
        obtain ⟨c, hfirst⟩ := exists_firstBearing hlast
        refine ⟨c, t, hfirst, ?_, hfirst.lastTurnStart_iff.mpr hlast⟩
        obtain hbears | hquiet | hnone := hshows
        · obtain rfl := hfirst.unique (firstBearing_self hbears)
          exact hnot
        · exact hquiet c hfirst
        · exact absurd hlast (hnone t)
      · rintro ⟨c, t, hfirst, hturn, hlast⟩
        refine ⟨Bool.eq_false_iff.mpr fun hstarts => ?_, t, hfirst.lastTurnStart_iff.mp hlast⟩
        rw [hfirst.unique (firstBearing_self (any_isTurnStart_bearsContext hstarts)), hstarts]
          at hturn
        cases hturn
    · intro c t hfirst hlast hne
      exact hstarts t (hfirst.lastTurnStart_iff.mp hlast) hne

def modelBetweenTurns : List SessionEntry :=
  [promptEntry "a" "go",
    { callingEntry "b" [] with parentId := some "a" },
    { entryOf "c" (.modelChange "p" "m") with parentId := some "b" },
    { promptEntry "d" "next" with parentId := some "c" },
    { callingEntry "e" [] with parentId := some "d" }]

def keepNextTurn : CompactionSettings := { DEFAULT_COMPACTION_SETTINGS with keepRecentTokens := 1 }

/-- The whole first turn is taken for the prefix of a split one. -/
def firstTurnAsPrefix : CompactionPreparation :=
  { firstKeptEntryId := "c"
    messagesToSummarize := []
    turnPrefixMessages := messagesBetween modelBetweenTurns 0 2
    isSplitTurn := true
    tokensBefore := 0
    previousSummary := none
    fileOps := createFileOps
    settings := keepNextTurn }

theorem prepareCompaction_modelBetweenTurns :
    prepareCompaction modelBetweenTurns keepNextTurn = some (some firstTurnAsPrefix) := by
  decide +kernel

theorem modelBetweenTurns_not_splitsAtTurns :
    prepareCompaction modelBetweenTurns keepNextTurn = some (some firstTurnAsPrefix) ∧
      ¬ SplitsAtTurns modelBetweenTurns keepNextTurn firstTurnAsPrefix := by
  refine ⟨prepareCompaction_modelBetweenTurns, fun hclaim => ?_⟩
  obtain ⟨c, t, hfirst, hturn, _⟩ := hclaim.splits.mp (by decide)
  -- the next turn's message is the first one after the cut
  have hnext : FirstBearing modelBetweenTurns 2 3 := by
    refine ⟨by omega, rfl, fun j hle hlt => ?_⟩
    obtain rfl : j = 2 := by omega
    rfl
  rw [hfirst.unique hnext] at hturn
  cases hturn

theorem modelBetweenTurns_splitsAtTurns_iff :
    SplitsAtTurns modelBetweenTurns keepNextTurn firstTurnAsPrefix ↔
      CutShowsTurn modelBetweenTurns keepNextTurn :=
  splitsAtTurns_iff prepareCompaction_modelBetweenTurns

end Draht
