import Draht.SessionInvariant

/-!
# The entries of a branch that is left

On the way from an old leaf to a target the entries of the old branch are collected back to the
deepest entry that both have in common.
-/

namespace Draht
open List Option

open ParentChain

structure CollectEntriesResult where
  entries : List SessionEntry
  commonAncestorId : Option String
deriving DecidableEq

theorem WellFormedPath.of_append {before after : List SessionEntry}
    (h : WellFormedPath (before ++ after)) : WellFormedPath before :=
  ⟨(ParentChain.linked_append.mp h.linked).1,
    h.nodup.sublist ((sublist_append_left before after).map _),
    fun e he => h.id_ne_empty e (mem_append_left _ he)⟩

namespace SessionManager

/-- One test of the loop `while (current && current !== commonAncestorId)`, with the lookup that
follows it; an unknown id ends the loop as well. -/
def entryBelow (s : SessionManager) (commonAncestorId current : Option String) :
    Option SessionEntry :=
  ((truthy current).filter fun id => some id ≠ commonAncestorId).bind s.byId.get

/-- `none` stands for a walk that does not return. -/
def collectEntriesForBranchSummary (s : SessionManager) (oldLeafId : Option String)
    (targetId : String) : Option CollectEntriesResult :=
  match truthy oldLeafId with
  | none => some { entries := [], commonAncestorId := none }
  | some oldLeafId =>
    (s.getBranch (some oldLeafId)).bind fun oldBranch =>
    (s.getBranch (some targetId)).bind fun targetPath =>
      let oldPath := oldBranch.map SessionEntry.id
      let commonAncestorId :=
        (targetPath.reverse.find? fun e => oldPath.contains e.id).map SessionEntry.id
      (climb (fun e => s.entryBelow commonAncestorId e.parentId) (s.byId.size + 1)
        (s.entryBelow commonAncestorId (some oldLeafId)) []).map fun entries =>
          { entries := entries, commonAncestorId := commonAncestorId }

/-- Every entry is stored under its id and ends a path of stored entries. -/
def WellFormedTree (s : SessionManager) : Prop :=
  ∀ id e, s.byId.get id = some e → e.id = id ∧ ∃ path, WellFormedPath path ∧
    (∀ e' ∈ path, s.byId.get e'.id = some e') ∧ path.getLast? = some e

/-- The path from the root to an entry; no path for an id that is null, empty or unknown. -/
structure RootPath (s : SessionManager) (id : Option String) (path : List SessionEntry) : Prop where
  wellFormed : WellFormedPath path
  indexed : ∀ e ∈ path, s.byId.get e.id = some e
  last : path.getLast? = (truthy id).bind s.byId.get

variable {s : SessionManager} {path path' : List SessionEntry}

theorem WellFormedTree.exists_rootPath (h : s.WellFormedTree) (id : Option String) :
    ∃ path, s.RootPath id path := by
  cases hentry : (truthy id).bind s.byId.get with
  | none => exact ⟨[], ⟨trivial, nodup_nil, by simp⟩, by simp, hentry.symm⟩
  | some e =>
    obtain ⟨id', _, hget⟩ := bind_eq_some_iff.mp hentry
    obtain ⟨_, path, hwf, hindexed, hlast⟩ := h id' e hget
    exact ⟨path, hwf, hindexed, hlast.trans hentry.symm⟩

variable {id : String}

theorem RootPath.getBranch (h : s.RootPath (some id) path) : s.getBranch (some id) = some path := by
  have hlength := h.wellFormed.length_le h.indexed
  have hwalk := h.wellFormed.walkToRoot_eq h.indexed (by omega)
  rwa [h.last] at hwalk

theorem rootPath_unique (hwf : WellFormedPath path) (hwf' : WellFormedPath path')
    (hindexed : ∀ e ∈ path, s.byId.get e.id = some e)
    (hindexed' : ∀ e ∈ path', s.byId.get e.id = some e)
    (hlast : path.getLast? = path'.getLast?) : path = path' := by
  have hlength := hwf.length_le hindexed
  have hlength' := hwf'.length_le hindexed'
  have hwalk := hwf.walkToRoot_eq hindexed (by omega)
  rw [hlast, hwf'.walkToRoot_eq hindexed' (by omega)] at hwalk
  exact (some.inj hwalk).symm

variable {oldPath targetPath common entries : List SessionEntry}

theorem shared_prefix {before after before' after' : List SessionEntry} {t : SessionEntry}
    (hwf : WellFormedPath (before ++ t :: after)) (hwf' : WellFormedPath (before' ++ t :: after'))
    (hindexed : ∀ e ∈ before ++ t :: after, s.byId.get e.id = some e)
    (hindexed' : ∀ e ∈ before' ++ t :: after', s.byId.get e.id = some e) : before = before' := by
  rw [← singleton_append, ← append_assoc] at hwf hwf' hindexed hindexed'
  have heq := rootPath_unique hwf.of_append hwf'.of_append
    (fun e he => hindexed e (mem_append_left _ he))
    (fun e he => hindexed' e (mem_append_left _ he)) (by simp)
  exact (append_inj' heq rfl).1

structure PartsAfter (oldPath targetPath common entries : List SessionEntry) : Prop where
  old : oldPath = common ++ entries
  target : ∃ rest, targetPath = common ++ rest ∧
    ∀ e, entries.head? = some e → rest.head? ≠ some e
  disjoint : ∀ e ∈ entries, e.id ∉ targetPath.map SessionEntry.id

theorem PartsAfter.mk' (rest : List SessionEntry) (hold : oldPath = common ++ entries)
    (htarget : targetPath = common ++ rest)
    (hdisjoint : ∀ e ∈ entries, e.id ∉ targetPath.map SessionEntry.id) :
    PartsAfter oldPath targetPath common entries := by
  refine ⟨hold, ⟨rest, htarget, fun e hhead hrest => ?_⟩, hdisjoint⟩
  refine hdisjoint e (mem_of_head? hhead) (mem_map_of_mem ?_)
  rw [htarget]
  exact mem_append_right _ (mem_of_head? hrest)

theorem partsAfter_of_find (hold : WellFormedPath oldPath) (htarget : WellFormedPath targetPath)
    (holdIndexed : ∀ e ∈ oldPath, s.byId.get e.id = some e)
    (htargetIndexed : ∀ e ∈ targetPath, s.byId.get e.id = some e) :
    ∃ common entries, PartsAfter oldPath targetPath common entries ∧
      targetPath.reverse.find? (fun e => (oldPath.map SessionEntry.id).contains e.id) =
        common.getLast? := by
  cases hfind : targetPath.reverse.find? fun e => (oldPath.map SessionEntry.id).contains e.id with
  | none =>
    rw [find?_eq_none] at hfind
    refine ⟨[], oldPath, PartsAfter.mk' _ rfl rfl fun e he hmem => ?_, rfl⟩
    obtain ⟨t, ht, hid⟩ := mem_map.mp hmem
    refine hfind t (mem_reverse.mpr ht) ?_
    rw [hid, contains_iff_mem]
    exact mem_map_of_mem he
  | some t =>
    obtain ⟨hshared, later, earlier, hsplit, hlater⟩ := find?_eq_some_iff_append.mp hfind
    obtain rfl : targetPath = earlier.reverse ++ t :: later.reverse := by
      rw [← reverse_reverse targetPath, hsplit]
      simp
    rw [contains_iff_mem] at hshared
    obtain ⟨o, ho, hid⟩ := mem_map.mp hshared
    obtain rfl : o = t := by
      have hget := htargetIndexed t (by simp)
      rw [← hid, holdIndexed o ho] at hget
      exact some.inj hget
    obtain ⟨before, entries, rfl⟩ := append_of_mem ho
    obtain rfl := shared_prefix hold htarget holdIndexed htargetIndexed
    refine ⟨earlier.reverse ++ [o], entries, PartsAfter.mk' later.reverse (by simp)
      (by simp) fun e he hmem => ?_, by simp⟩
    have hnodup := hold.nodup
    rw [← singleton_append, ← append_assoc, map_append, nodup_append] at hnodup
    rw [← singleton_append, ← append_assoc, map_append, mem_append] at hmem
    obtain hcommon | hlaterMem := hmem
    · exact hnodup.2.2 e.id hcommon e.id (mem_map_of_mem he) rfl
    · obtain ⟨a, ha, haid⟩ := mem_map.mp hlaterMem
      have hnot := hlater a (mem_reverse.mp ha)
      rw [haid, Bool.not_eq_true', ← Bool.not_eq_true, contains_iff_mem] at hnot
      exact hnot (mem_map_of_mem (mem_append_right _ (mem_cons_of_mem _ he)))

/-- What the walk follows: the parent, unless it is the ancestor. -/
def parentBelow (commonAncestorId : Option String) (e : SessionEntry) : Option String :=
  (truthy e.parentId).filter fun id => some id ≠ commonAncestorId

theorem filter_below {commonAncestorId : Option String} (hne : id ≠ "")
    (hbelow : some id ≠ commonAncestorId) :
    ((truthy (some id)).filter fun id => some id ≠ commonAncestorId) = some id := by
  have htruthy : truthy (some id) = some id := by simp [truthy, hne]
  rw [htruthy, filter_some, if_pos (by simpa using hbelow)]

theorem filter_at (id : String) :
    ((truthy (some id)).filter fun id' => some id' ≠ some id) = none := by
  by_cases hid : id = ""
  · simp [truthy, hid]
  · have htruthy : truthy (some id) = some id := by simp [truthy, hid]
    rw [htruthy, filter_some, if_neg (by simp)]

theorem linked_parentBelow {commonAncestorId : Option String} (hne : id ≠ "")
    (hbelow : some id ≠ commonAncestorId)
    (hentries : ∀ e ∈ entries, e.id ≠ "" ∧ some e.id ≠ commonAncestorId)
    (hlinked : Linked SessionEntry.id SessionEntry.parentId (some id) entries) :
    Linked SessionEntry.id (parentBelow commonAncestorId) (some id) entries := by
  induction entries generalizing id with
  | nil => trivial
  | cons e entries ih =>
    obtain ⟨hparent, hlinked⟩ := hlinked
    obtain ⟨hid, hancestor⟩ := hentries e mem_cons_self
    refine ⟨?_, ih hid hancestor (fun e' he' => hentries e' (mem_cons_of_mem _ he')) hlinked⟩
    rw [parentBelow, hparent, filter_below hne hbelow]

theorem PartsAfter.collect (h : PartsAfter oldPath targetPath common entries)
    (hold : WellFormedPath oldPath) (hindexed : ∀ e ∈ oldPath, s.byId.get e.id = some e)
    (hid : id ≠ "") (hlast : oldPath.getLast? = s.byId.get id)
    (hkey : ∀ e, s.byId.get id = some e → e.id = id) :
    climb (fun e => s.entryBelow (common.getLast?.map SessionEntry.id) e.parentId)
      (s.byId.size + 1) (s.entryBelow (common.getLast?.map SessionEntry.id) (some id)) [] =
        some entries := by
  obtain rfl := h.old
  have hlength := hold.length_le hindexed
  rw [length_append] at hlength
  have hbelow : ∀ e ∈ entries, e.id ≠ "" ∧ some e.id ≠ common.getLast?.map SessionEntry.id := by
    intro e he
    refine ⟨hold.id_ne_empty e (mem_append_right _ he), fun heq => ?_⟩
    obtain ⟨t, ht, hsame⟩ := map_eq_some_iff.mp heq.symm
    have hnodup := hold.nodup
    rw [map_append, nodup_append] at hnodup
    exact hnodup.2.2 t.id (mem_map_of_mem (mem_of_getLast? ht)) e.id (mem_map_of_mem he) hsame
  -- the old leaf is the last entry to collect, or the ancestor itself
  have hstart : s.entryBelow (common.getLast?.map SessionEntry.id) (some id) =
      entries.getLast? := by
    rw [entryBelow]
    obtain rfl | ⟨entries, e, rfl⟩ := eq_nil_or_concat entries
    · rw [append_nil] at hlast
      rw [hlast]
      cases hget : s.byId.get id with
      | none =>
        rw [filter_below hid (by simp), bind_some, hget, getLast?_nil]
      | some e =>
        rw [map_some, hkey e hget, filter_at]
        rfl
    · rw [concat_eq_append, ← append_assoc, getLast?_concat] at hlast
      obtain ⟨_, hancestor⟩ := hbelow e (by simp)
      rw [hkey e hlast.symm] at hancestor
      rw [filter_below hid hancestor, bind_some, ← hlast, concat_eq_append, getLast?_concat]
  have hlinked : Linked SessionEntry.id
      (parentBelow (common.getLast?.map SessionEntry.id)) none entries := by
    have hrest := (linked_append.mp hold.linked).2
    cases entries with
    | nil => trivial
    | cons e entries =>
      obtain ⟨hparent, hrest⟩ := hrest
      obtain ⟨hne, hancestor⟩ := hbelow e mem_cons_self
      refine ⟨?_, linked_parentBelow hne hancestor
        (fun e' he' => hbelow e' (mem_cons_of_mem _ he')) hrest⟩
      rw [parentBelow, hparent, or_none]
      cases common.getLast? with
      | none => rfl
      | some t => exact filter_at t.id
  rw [hstart]
  have hclimb := climb_linked hlinked
    (fun e he => hindexed e (mem_append_right _ he)) (s.byId.size + 1) (by omega) []
  rwa [append_nil] at hclimb

def DeepestShared (oldPath targetPath : List SessionEntry) : Option String → Prop
  | none => ∀ e ∈ oldPath, e ∉ targetPath
  | some id => ∃ before e after, oldPath = before ++ e :: after ∧ e.id = id ∧ e ∈ targetPath ∧
      ∀ e' ∈ after, e' ∉ targetPath

theorem PartsAfter.deepestShared (h : PartsAfter oldPath targetPath common entries) :
    DeepestShared oldPath targetPath (common.getLast?.map SessionEntry.id) := by
  have hdisjoint : ∀ e ∈ entries, e ∉ targetPath := fun e he hmem =>
    h.disjoint e he (mem_map_of_mem hmem)
  obtain ⟨rest, htarget, _⟩ := h.target
  obtain rfl | ⟨before, e, rfl⟩ := eq_nil_or_concat common
  · obtain rfl : oldPath = entries := h.old
    exact hdisjoint
  · rw [concat_eq_append] at htarget ⊢
    rw [getLast?_concat]
    refine ⟨before, e, entries, by simp [h.old], rfl, ?_, hdisjoint⟩
    rw [htarget]
    simp

/-- The entries are the part of the old path after its longest common prefix with the target's,
and the common ancestor is the deepest entry of both. -/
structure LeavesBranch (oldPath targetPath : List SessionEntry) (result : CollectEntriesResult) :
    Prop where
  parts : ∃ common, PartsAfter oldPath targetPath common result.entries
  ancestor : DeepestShared oldPath targetPath result.commonAncestorId

theorem collectEntries_leavesBranch (h : s.WellFormedTree) (oldLeafId : Option String)
    (targetId : String) :
    ∃ oldPath targetPath result, s.RootPath oldLeafId oldPath ∧
      s.RootPath (some targetId) targetPath ∧
      s.collectEntriesForBranchSummary oldLeafId targetId = some result ∧
      LeavesBranch oldPath targetPath result := by
  obtain ⟨oldPath, hold⟩ := h.exists_rootPath oldLeafId
  obtain ⟨targetPath, htarget⟩ := h.exists_rootPath (some targetId)
  rw [collectEntriesForBranchSummary]
  cases hid : truthy oldLeafId with
  | none =>
    have hlast := hold.last
    rw [hid, bind_none, getLast?_eq_none_iff] at hlast
    obtain rfl := hlast
    have hparts : PartsAfter [] targetPath [] [] := PartsAfter.mk' _ rfl rfl (by simp)
    exact ⟨[], targetPath, _, hold, htarget, rfl, ⟨[], hparts⟩, hparts.deepestShared⟩
  | some id =>
    obtain ⟨rfl, hne⟩ := filter_eq_some_iff.mp hid
    rw [decide_eq_true_eq] at hne
    obtain ⟨common, entries, hparts, hfind⟩ := partsAfter_of_find hold.wellFormed
      htarget.wellFormed hold.indexed htarget.indexed
    have hcollect := hparts.collect hold.wellFormed hold.indexed hne
      (by rw [hold.last, hid, bind_some]) (fun e he => (h id e he).1)
    refine ⟨oldPath, targetPath, ⟨entries, common.getLast?.map SessionEntry.id⟩, hold, htarget,
      ?_, ⟨common, hparts⟩, hparts.deepestShared⟩
    simp only [hold.getBranch, htarget.getBranch, bind_some, hfind, hcollect, map_some]

theorem LogInvariant.wellFormedTree (h : LogInvariant s) : s.WellFormedTree := by
  intro id e hget
  have hmem : (id, e) ∈ s.byId.entries := (s.byId.mem_entries_iff id e).mpr hget
  rw [h.index, entries_indexById h.nodup, List.mem_map] at hmem
  obtain ⟨e', he, hpair⟩ := hmem
  cases hpair
  obtain ⟨path, _, hwf, hsub, hlast⟩ := h.getBranch he
  exact ⟨rfl, path, hwf, fun e'' he' => h.get_byId (hsub.subset he'), hlast⟩

def twoMessages : SessionManager :=
  (((blank "/work" "/work/sessions" true).newSession ⟨none, none⟩ (uuidOf 0) 0).appendMessage
    (callOf 1) (userText "first")).appendMessage (callOf 2) (userText "second")

def twoReplies : SessionManager :=
  { twoMessages with leafId := some "10000001" }.appendMessage (callOf 3) (userText "third")

theorem twoReplies_reachable : Reachable twoReplies := by
  have h1 : Reachable (((blank "/work" "/work/sessions" true).newSession ⟨none, none⟩ (uuidOf 0)
      0).appendMessage (callOf 1) (userText "first")) :=
    .step (.appendMessage _) _ (.new _ _ _ _ _ _) (by decide) rfl
  have h2 : Reachable twoMessages :=
    .step (.appendMessage (userText "second")) (callOf 2) h1 (by decide) rfl
  have hbranch : twoMessages.branch "10000001" =
      .ok { twoMessages with leafId := some "10000001" } := if_pos (by decide)
  have h3 := Reachable.step (.branch "10000001") (callOf 3) h2 (by decide) hbranch
  exact .step (.appendMessage (userText "third")) (callOf 3) h3 (by decide) rfl

theorem twoReplies_leavesBranch :
    ∃ oldPath targetPath result, twoReplies.RootPath (some "10000003") oldPath ∧
      twoReplies.RootPath (some "10000002") targetPath ∧
      twoReplies.collectEntriesForBranchSummary (some "10000003") "10000002" = some result ∧
      LeavesBranch oldPath targetPath result :=
  collectEntries_leavesBranch twoReplies_reachable.invariant.wellFormedTree _ _

end SessionManager

end Draht
