import Draht.Compaction
import Draht.SessionInvariant

/-!
# Compaction loses and duplicates nothing

`prepareCompaction` and `buildSessionContext` walk over the path independently. They agree on
where the kept messages start, so the messages of the context are the previous summary, the
summarised messages, the turn prefix and the kept ones; after the compaction the context is
the new summary and the same kept messages.
-/

namespace Draht

variable {startIndex : ℕ} {e c : SessionEntry} {path before after : List SessionEntry}

variable {p : CompactionPreparation} {cut : ℕ} {entries : List SessionEntry} {data : CompactionData}

theorem mem_findValidCutPoints {endIndex i : ℕ}
    (hi : i ∈ findValidCutPoints entries startIndex endIndex) : startIndex ≤ i ∧ i < endIndex := by
  obtain ⟨hrange, _⟩ := List.mem_filter.mp hi
  rw [List.mem_range'_1] at hrange
  omega

theorem searchCut_mem {keepRecentTokens : ℤ} {cutPoints : List ℕ} {first : ℕ}
    (hfirst : first ∈ cutPoints) (n accumulated : ℕ) :
    searchCut entries startIndex keepRecentTokens cutPoints first n accumulated ∈ cutPoints := by
  induction n generalizing accumulated with
  | zero => exact hfirst
  | succ n ih =>
    rw [searchCut]
    split
    · exact ih _
    · simp only []
      split_ifs
      · cases hfind : cutPoints.find? (fun c => startIndex + n ≤ c) with
        | none => exact hfirst
        | some c => exact List.mem_of_find?_eq_some hfind
      · exact ih _

theorem includeNonMessages_bounds (entries : List SessionEntry) (h : startIndex ≤ cut) :
    startIndex ≤ includeNonMessages entries startIndex cut ∧
      includeNonMessages entries startIndex cut ≤ cut := by
  induction cut with
  | zero => exact ⟨h, le_rfl⟩
  | succ cut ih =>
    rw [includeNonMessages]
    split_ifs with hlt hstop
    · exact ⟨h, le_rfl⟩
    · omega
    · exact ⟨h, le_rfl⟩

theorem findTurnStartIndex_bounds {i t : ℕ} (h : findTurnStartIndex entries startIndex i = some t) :
    startIndex ≤ t ∧ t ≤ i := by
  induction i with
  | zero =>
    rw [findTurnStartIndex] at h
    split_ifs at h with hstart
    cases h
    omega
  | succ i ih =>
    rw [findTurnStartIndex] at h
    split_ifs at h with hlt hturn
    · cases h
      omega
    · have hbounds := ih h
      omega

theorem findCutPoint_bounds (entries : List SessionEntry) (startIndex endIndex : ℕ)
    (keepRecentTokens : ℤ) :
    let r := findCutPoint entries startIndex endIndex keepRecentTokens
    startIndex ≤ r.firstKeptEntryIndex ∧
      (r.isSplitTurn = true →
        ∃ t, r.turnStartIndex = some t ∧ startIndex ≤ t ∧ t ≤ r.firstKeptEntryIndex) := by
  intro r
  cases hcuts : findValidCutPoints entries startIndex endIndex with
  | nil =>
    have hr : r = { firstKeptEntryIndex := startIndex, turnStartIndex := none,
                    isSplitTurn := false } := by
      simp [r, findCutPoint, hcuts]
    rw [hr]
    exact ⟨le_rfl, fun h => Bool.noConfusion h⟩
  | cons first rest =>
    have hfirst : first ∈ first :: rest := List.mem_cons_self
    have hmem : searchCut entries startIndex keepRecentTokens (first :: rest) first
        (endIndex - startIndex) 0 ∈ first :: rest := searchCut_mem hfirst _ 0
    have hge : startIndex ≤ searchCut entries startIndex keepRecentTokens (first :: rest) first
        (endIndex - startIndex) 0 := (mem_findValidCutPoints (by rw [hcuts]; exact hmem)).1
    have hcut := includeNonMessages_bounds entries hge
    simp only [r, findCutPoint, hcuts]
    refine ⟨hcut.1, ?_⟩
    intro hsplit
    rw [Bool.and_eq_true, Bool.not_eq_true', Option.isSome_iff_exists] at hsplit
    obtain ⟨huser, t, ht⟩ := hsplit
    rw [huser] at ht
    exact ⟨t, by rw [huser]; exact ht, findTurnStartIndex_bounds ht⟩

theorem getMessageFromEntryForCompaction_eq
    (h : ∀ d, e.body = .branchSummary d → d.summary ≠ "") :
    getMessageFromEntryForCompaction e = contextMessage? e := by
  unfold getMessageFromEntryForCompaction getMessageFromEntry SessionEntry.isCompaction
    contextMessage?
  cases hb : e.body with
  | branchSummary d => simp [h d hb]
  | _ => simp

theorem messagesBetween_append_drop {a b : ℕ} (hab : a ≤ b) :
    messagesBetween path a b ++ (path.drop b).filterMap getMessageFromEntryForCompaction =
      (path.drop a).filterMap getMessageFromEntryForCompaction := by
  rw [messagesBetween, ← List.filterMap_append]
  congr 1
  calc (path.take b).drop a ++ path.drop b
      = (path.take b).drop a ++ (path.drop b).drop 0 := by rw [List.drop_zero]
    _ = (path.take b ++ path.drop b).drop a := by
        rw [List.drop_append, List.drop_zero]
        by_cases hb : b ≤ path.length
        · rw [List.length_take, Nat.min_eq_left hb, Nat.sub_eq_zero_of_le hab, List.drop_zero]
        · rw [List.drop_eq_nil_of_le (by omega : path.length ≤ b), List.drop_nil]
    _ = path.drop a := by rw [List.take_append_drop]

theorem noteCompaction_of_not (he : e.isCompaction = false) (i : ℕ)
    (found : Option (ℕ × CompactionData)) : noteCompaction found (e, i) = found := by
  unfold SessionEntry.isCompaction at he
  unfold noteCompaction
  cases hb : e.body with
  | compaction data => simp [hb] at he
  | _ => rfl

theorem foldl_noteCompaction
    (h : ∀ e ∈ path, e.isCompaction = false) (k : ℕ) (found : Option (ℕ × CompactionData)) :
    (path.zipIdx k).foldl noteCompaction found = found := by
  induction path generalizing k with
  | nil => rfl
  | cons e path ih =>
    rw [List.zipIdx_cons, List.foldl_cons, noteCompaction_of_not (h e List.mem_cons_self)]
    exact ih (fun e' he' => h e' (List.mem_cons_of_mem _ he')) (k + 1)

theorem lastCompaction_of_no_compaction
    (h : ∀ e ∈ path, e.isCompaction = false) : lastCompaction path = none :=
  foldl_noteCompaction h 0 none

theorem lastCompaction_split (hc : c.body = .compaction data)
    (hafter : ∀ e ∈ after, e.isCompaction = false) :
    lastCompaction (before ++ c :: after) = some (before.length, data) := by
  rw [lastCompaction, List.zipIdx_append, List.zipIdx_cons, List.foldl_append, List.foldl_cons,
    foldl_noteCompaction hafter]
  simp [noteCompaction, hc]

/-- The entries from the boundary on are those the last compaction kept, perhaps the
compaction itself, and the later ones, as long as it does not keep from a later entry. -/
theorem drop_boundaryStart (hc : c.body = .compaction data)
    (hafter : ∀ e ∈ after, e.isCompaction = false)
    (hkept : data.firstKeptEntryId ∉ after.map SessionEntry.id) : let path := before ++ c :: after
    path.drop (boundaryStart path) = keptFrom data.firstKeptEntryId before ++ c :: after ∨
      keptFrom data.firstKeptEntryId before = [] ∧ path.drop (boundaryStart path) = after := by
  intro path
  have hboundary : boundaryStart path =
      (path.findIdx? (fun e => e.id == data.firstKeptEntryId)).getD (before.length + 1) := by
    rw [boundaryStart, lastCompaction_split hc hafter]
  have hdropWhile : keptFrom data.firstKeptEntryId before =
      before.drop (before.findIdx (fun e => e.id == data.firstKeptEntryId)) := by
    rw [keptFrom, List.dropWhile_eq_drop_findIdx_not]
    congr 2
    funext e
    simp [beq_eq_decide]
  have hafterIdx : after.findIdx? (fun e => e.id == data.firstKeptEntryId) = none := by
    rw [List.findIdx?_eq_none_iff]
    intro e he
    have hne : e.id ≠ data.firstKeptEntryId := fun h => hkept (h ▸ List.mem_map_of_mem he)
    simp [hne]
  have hdropC : path.drop before.length = c :: after := List.drop_left
  have hdropAfter : path.drop (before.length + 1) = after := by
    rw [← List.drop_drop, hdropC]; rfl
  cases hbefore : before.findIdx? (fun e => e.id == data.firstKeptEntryId) with
  | some i =>
    obtain ⟨hi, hidx⟩ := List.findIdx?_eq_some_iff_findIdx_eq.mp hbefore
    left
    rw [hboundary, List.findIdx?_append, hbefore, hdropWhile, hidx]
    exact List.drop_append_of_le_length hi.le
  | none =>
    have hnil : keptFrom data.firstKeptEntryId before = [] := by
      rw [hdropWhile, List.findIdx?_eq_none_iff_findIdx_eq.mp hbefore, List.drop_length]
    rw [hboundary, List.findIdx?_append, hbefore, List.findIdx?_cons, hafterIdx, hnil]
    by_cases hc : c.id = data.firstKeptEntryId
    · left
      simpa [hc] using hdropC
    · right
      simpa [hc] using hdropAfter

/-- The summary message of the last compaction of the path, if there is one. -/
def previousSummaryMessage (path : List SessionEntry) : List AgentMessage :=
  ((pathSettings path).compaction.map (fun c => compactionSummaryOf c.1 c.2)).toList

def keptMessages (path : List SessionEntry) : List AgentMessage :=
  (path.drop (boundaryStart path)).filterMap contextMessage?

/-- The last compaction does not keep from an entry that comes after it. -/
def FirstKeptNotLater (path : List SessionEntry) : Prop :=
  ∀ before c after data, path = before ++ c :: after → c.body = .compaction data →
    (∀ e ∈ after, e.isCompaction = false) →
    data.firstKeptEntryId ∉ after.map SessionEntry.id

structure SummarisablePath (path : List SessionEntry) : Prop where
  wellFormed : WellFormedPath path
  summary_ne_empty : ∀ e ∈ path, ∀ d, e.body = .branchSummary d → d.summary ≠ ""
  firstKept : FirstKeptNotLater path

theorem contextMessage?_of_isCompaction (h : e.isCompaction = true) :
    contextMessage? e = none := by
  obtain ⟨data, hdata⟩ := SessionEntry.isCompaction_iff.mp h
  simp [contextMessage?, hdata]

theorem WellFormedPath.id_notMem_before
    (h : WellFormedPath (before ++ c :: after)) : c.id ∉ before.map SessionEntry.id := by
  have hnodup := h.nodup
  rw [List.map_append, List.map_cons, List.nodup_append] at hnodup
  exact fun hmem => hnodup.2.2 c.id hmem c.id List.mem_cons_self rfl

theorem keptMessages_of_no_compaction
    (h : ∀ e ∈ path, e.isCompaction = false) :
    keptMessages path = path.filterMap contextMessage? := by
  rw [keptMessages, boundaryStart, lastCompaction_of_no_compaction h]
  rfl

theorem keptMessages_split (hc : c.body = .compaction data)
    (hafter : ∀ e ∈ after, e.isCompaction = false)
    (hkept : data.firstKeptEntryId ∉ after.map SessionEntry.id) :
    keptMessages (before ++ c :: after) =
      (keptFrom data.firstKeptEntryId before).filterMap contextMessage? ++
        after.filterMap contextMessage? := by
  have hnone := contextMessage?_of_isCompaction (SessionEntry.isCompaction_iff.mpr ⟨data, hc⟩)
  obtain hdrop | ⟨hnil, hdrop⟩ := drop_boundaryStart hc hafter hkept
  · rw [keptMessages, hdrop, List.filterMap_append, List.filterMap_cons_none hnone]
  · rw [keptMessages, hdrop, hnil, List.filterMap_nil, List.nil_append]

theorem SummarisablePath.messages_eq (h : SummarisablePath path) :
    (contextOfPath path).messages = previousSummaryMessage path ++ keptMessages path := by
  rcases split_last SessionEntry.isCompaction path with
    hnone | ⟨before, c, after, rfl, hc, hafter⟩
  · have hcompaction : (pathSettings path).compaction = none := foldl_visit_compaction hnone _
    rw [messages_of_no_compaction hnone, keptMessages_of_no_compaction hnone,
      previousSummaryMessage, hcompaction]
    rfl
  · obtain ⟨data, hdata⟩ := SessionEntry.isCompaction_iff.mp hc
    have hkept := h.firstKept before c after data rfl hdata hafter
    rw [messages_of_split hdata hafter h.wellFormed.id_notMem_before,
      keptMessages_split hdata hafter hkept, previousSummaryMessage,
      pathSettings_compaction_split hdata hafter]
    rfl

theorem SummarisablePath.filterMap_eq {part : List SessionEntry}
    (h : SummarisablePath path) (hsub : part.Sublist path) :
    part.filterMap getMessageFromEntryForCompaction = part.filterMap contextMessage? := by
  apply List.filterMap_congr
  intro e he
  exact getMessageFromEntryForCompaction_eq (h.summary_ne_empty e (hsub.subset he))

theorem Prepares.messages_eq {r : CutPointResult} (h : Prepares path r p)
    (hcut : boundaryStart path ≤ r.firstKeptEntryIndex)
    (hsplit : r.isSplitTurn = true → ∃ t, r.turnStartIndex = some t ∧ boundaryStart path ≤ t ∧
      t ≤ r.firstKeptEntryIndex) :
    p.messagesToSummarize ++ p.turnPrefixMessages ++
        (path.drop r.firstKeptEntryIndex).filterMap getMessageFromEntryForCompaction =
      (path.drop (boundaryStart path)).filterMap getMessageFromEntryForCompaction := by
  rw [h.messagesToSummarize, h.turnPrefixMessages]
  split_ifs with hs
  · obtain ⟨t, ht, hstart, hturn⟩ := hsplit hs
    simp only [ht, Option.getD_some]
    rw [List.append_assoc, messagesBetween_append_drop hturn, messagesBetween_append_drop hstart]
  · rw [List.append_nil]
    exact messagesBetween_append_drop hcut

theorem keptFrom_getElem (h : (path.map SessionEntry.id).Nodup) (he : path[cut]? = some e) :
    keptFrom e.id path = path.drop cut := by
  induction path generalizing cut with
  | nil => simp at he
  | cons a path ih =>
    rw [List.map_cons, List.nodup_cons] at h
    cases cut with
    | zero =>
      obtain rfl : a = e := by simpa using he
      simp [keptFrom]
    | succ cut =>
      have hmem : path[cut]? = some e := by simpa using he
      have hne : a.id ≠ e.id := fun heq =>
        h.1 (heq ▸ List.mem_map_of_mem (List.mem_of_getElem? hmem))
      rw [List.drop_succ_cons, ← ih h.2 hmem, keptFrom, keptFrom]
      simp [hne]

theorem SummarisablePath.prepareCompaction_spec (h : SummarisablePath path)
    {settings : CompactionSettings} (hp : prepareCompaction path settings = some (some p)) :
    keptMessages path = p.messagesToSummarize ++ p.turnPrefixMessages ++
      (keptFrom p.firstKeptEntryId path).filterMap contextMessage? := by
  have hprepares := prepares_of_prepareCompaction hp
  obtain ⟨hcut, hsplit⟩ := findCutPoint_bounds path (boundaryStart path) path.length
    settings.keepRecentTokens
  obtain ⟨e, he, hid⟩ := hprepares.kept
  have hmessages := hprepares.messages_eq hcut hsplit
  rw [h.filterMap_eq (List.drop_sublist _ _), h.filterMap_eq (List.drop_sublist _ _)] at hmessages
  rw [keptMessages, ← hmessages, hid, keptFrom_getElem h.wellFormed.nodup he]

end Draht
