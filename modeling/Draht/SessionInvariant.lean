import Draht.SessionManager

/-!
# The invariant of the session log

The runs of a session manager in which entries are appended and the leaf is moved, and what
holds in every state they reach: one header in front, distinct ids, parents that come
earlier, an index of exactly the entries, and a leaf that exists.
-/

namespace Draht.SessionManager
open List Option

inductive SessionOp where
  | appendMessage (message : AgentMessage)
  | appendThinkingLevelChange (thinkingLevel : String)
  | appendModelChange (provider modelId : String)
  | appendCompaction (summary firstKeptEntryId : String) (tokensBefore : ℤ)
      (details : Option Json) (fromHook : Option Bool)
  | appendCustomEntry (customType : String) (data : Option Json)
  | appendSessionInfo (name : String)
  | appendCustomMessageEntry (customType : String) (content : UserContent) (display : Bool)
      (details : Option Json)
  | appendLabelChange (targetId : String) (label : Option String)
  | branch (branchFromId : String)
  | resetLeaf
  | branchWithSummary (branchFromId : Option String) (summary : String)
      (details : Option Json) (fromHook : Option Bool)

def apply (s : SessionManager) (en : Entropy) : SessionOp → Except String SessionManager
  | .appendMessage message => .ok (s.appendMessage en message)
  | .appendThinkingLevelChange level => .ok (s.appendThinkingLevelChange en level)
  | .appendModelChange provider modelId => .ok (s.appendModelChange en provider modelId)
  | .appendCompaction summary firstKeptEntryId tokensBefore details fromHook =>
    .ok (s.appendCompaction en summary firstKeptEntryId tokensBefore details fromHook)
  | .appendCustomEntry customType data => .ok (s.appendCustomEntry en customType data)
  | .appendSessionInfo name => .ok (s.appendSessionInfo en name)
  | .appendCustomMessageEntry customType content display details =>
    .ok (s.appendCustomMessageEntry en customType content display details)
  | .appendLabelChange targetId label => s.appendLabelChange en targetId label
  | .branch branchFromId => s.branch branchFromId
  | .resetLeaf => .ok s.resetLeaf
  | .branchWithSummary branchFromId summary details fromHook =>
    s.branchWithSummary en branchFromId summary details fromHook

/-- A full random UUID is not the id of an entry already there. -/
def Entropy.FullUuidUnused (en : Entropy) (s : SessionManager) : Prop :=
  s.byId.has (en.draw 100).text = false

instance (en : Entropy) (s : SessionManager) : Decidable (en.FullUuidUnused s) :=
  inferInstanceAs (Decidable (_ = false))

/-- The states reached from a new session by appends and leaf moves. -/
inductive Reachable : SessionManager → Prop
  | new (cwd sessionDir : String) (persist : Bool) (options : NewSessionOptions) (uuid : Uuid)
      (timestamp : ℕ) :
      Reachable ((blank cwd sessionDir persist).newSession options uuid timestamp)
  | step {s s' : SessionManager} (op : SessionOp) (en : Entropy) (hs : Reachable s)
      (hen : en.FullUuidUnused s) (h : s.apply en op = .ok s') : Reachable s'

def entryIds (s : SessionManager) : List String := s.getEntries.map SessionEntry.id

structure LogInvariant (s : SessionManager) : Prop where
  header : ∃ h, s.fileEntries = .session h :: s.getEntries.map .entry
  nodup : s.entryIds.Nodup
  id_ne_empty : ∀ e ∈ s.getEntries, e.id ≠ ""
  grown : ParentChain.Grown SessionEntry.id SessionEntry.parentId s.getEntries
  index : s.byId = indexById s.getEntries
  leaf : ∀ id, s.leafId = some id → id ∈ s.entryIds

variable {s : SessionManager}

variable {e : SessionEntry} {s' : SessionManager} {op : SessionOp} {en : Entropy}

theorem LogInvariant.congr (h : LogInvariant s) (hfile : s'.fileEntries = s.fileEntries)
    (hbyId : s'.byId = s.byId) (hleaf : ∀ id, s'.leafId = some id → id ∈ s.entryIds) :
    LogInvariant s' := by
  have hentries : s'.getEntries = s.getEntries := by rw [getEntries, hfile, getEntries]
  have hids : s'.entryIds = s.entryIds := by rw [entryIds, hentries, entryIds]
  refine ⟨?_, ?_, ?_, ?_, ?_, ?_⟩
  · rw [hfile, hentries]; exact h.header
  · rw [hids]; exact h.nodup
  · rw [hentries]; exact h.id_ne_empty
  · rw [hentries]; exact h.grown
  · rw [hbyId, hentries]; exact h.index
  · rw [hids]; exact hleaf

theorem persistEntry_log (s : SessionManager) (e : SessionEntry) :
    (s.persistEntry e).fileEntries = s.fileEntries ∧ (s.persistEntry e).byId = s.byId ∧
      (s.persistEntry e).leafId = s.leafId := by
  unfold persistEntry
  repeat' split
  all_goals exact ⟨rfl, rfl, rfl⟩

theorem setLabel_log (s : SessionManager) (targetId : String) (label : Option String)
    (timestamp : ℕ) :
    (s.setLabel targetId label timestamp).fileEntries = s.fileEntries ∧
      (s.setLabel targetId label timestamp).byId = s.byId ∧
      (s.setLabel targetId label timestamp).leafId = s.leafId := by
  unfold setLabel
  split <;> exact ⟨rfl, rfl, rfl⟩

@[simp] theorem getEntries_appendEntry (s : SessionManager) (e : SessionEntry) :
    (s.appendEntry e).getEntries = s.getEntries ++ [e] := by
  rw [getEntries, appendEntry, (persistEntry_log _ e).1, filterMap_append]
  rfl

theorem LogInvariant.appendEntry (h : LogInvariant s) (hnew : e.id ∉ s.entryIds) (hne : e.id ≠ "")
    (hparent : ∀ p, e.parentId = some p → p ∈ s.entryIds) : LogInvariant (s.appendEntry e) := by
  obtain ⟨hfile, hbyId, hleaf⟩ := persistEntry_log
    { s with fileEntries := s.fileEntries ++ [.entry e], byId := s.byId.set e.id e,
             leafId := some e.id } e
  have hids : (s.appendEntry e).entryIds = s.entryIds ++ [e.id] := by
    rw [entryIds, getEntries_appendEntry, map_append]; rfl
  refine ⟨?_, ?_, ?_, ?_, ?_, ?_⟩
  · obtain ⟨header, hh⟩ := h.header
    refine ⟨header, ?_⟩
    rw [getEntries_appendEntry, SessionManager.appendEntry, hfile, map_append]
    simp [hh]
  · rw [hids]
    refine nodup_append.mpr ⟨h.nodup, by simp, ?_⟩
    intro a ha b hb hab
    obtain rfl : b = e.id := by simpa using hb
    exact hnew (hab ▸ ha)
  · intro e' he'
    rw [getEntries_appendEntry, mem_append] at he'
    obtain he' | he' := he'
    · exact h.id_ne_empty e' he'
    · obtain rfl : e' = e := by simpa using he'
      exact hne
  · rw [getEntries_appendEntry]
    apply h.grown.concat
    intro k hk
    obtain ⟨b, hb, hbk⟩ := mem_map.mp (hparent k hk)
    exact ⟨b, hb, hbk⟩
  · rw [getEntries_appendEntry, SessionManager.appendEntry, hbyId, indexById_concat, ← h.index]
  · intro id hid
    rw [SessionManager.appendEntry, hleaf] at hid
    obtain rfl : e.id = id := some.inj hid
    rw [hids]
    simp

theorem LogInvariant.has_iff (h : LogInvariant s) (id : String) :
    s.byId.has id = true ↔ id ∈ s.entryIds := by
  rw [OrderedMap.has_iff, h.index, keys_indexById h.nodup]; rfl

theorem LogInvariant.newEntry_id (h : LogInvariant s) (hen : en.FullUuidUnused s)
    (parentId : Option String) (body : EntryBody) :
    (s.newEntry en parentId body).id ∉ s.entryIds := by
  rw [← h.has_iff, Bool.not_eq_true]
  exact generateId_fresh s.byId.has en.draw hen

theorem LogInvariant.appendBody (h : LogInvariant s) (hen : en.FullUuidUnused s) (body : EntryBody) :
    LogInvariant (s.appendBody en body) :=
  h.appendEntry (h.newEntry_id hen _ body) (generateId_ne_empty _ _) h.leaf

/-- What an operation comes to: an entry at the leaf, perhaps with a label to set, or the leaf moved
to an entry of the session, perhaps with a summary added there. -/
inductive ApplyCases (s : SessionManager) (en : Entropy) : SessionOp → SessionManager → Prop
  | append (op : SessionOp) (body : EntryBody)
      (noLabel : ∀ targetId label, body ≠ .label targetId label)
      (message : ∀ m, body = .message m → op = .appendMessage m) :
      ApplyCases s en op (s.appendBody en body)
  | label (targetId : String) (label : Option String) :
      ApplyCases s en (.appendLabelChange targetId label)
        ((s.appendBody en (.label targetId label)).setLabel targetId label en.now)
  | move (op : SessionOp) (leaf : Option String)
      (known : ∀ id, leaf = some id → s.byId.has id = true) :
      ApplyCases s en op { s with leafId := leaf }
  | summarize (op : SessionOp) (leaf : Option String) (summary : BranchSummaryData)
      (known : ∀ id, leaf = some id → s.byId.has id = true) :
      ApplyCases s en op ({ s with leafId := leaf }.appendBody en (.branchSummary summary))

theorem apply_cases {s : SessionManager} (h : s.apply en op = .ok s') : ApplyCases s en op s' := by
  cases op with
  | appendLabelChange targetId label =>
    simp only [SessionManager.apply, appendLabelChange] at h
    split_ifs at h
    cases h
    exact .label targetId label
  | branch branchFromId =>
    simp only [SessionManager.apply, SessionManager.branch] at h
    split_ifs at h with hfrom
    cases h
    exact .move _ (some branchFromId) (by simpa using hfrom)
  | resetLeaf =>
    cases h
    exact .move _ none (by simp)
  | branchWithSummary branchFromId summary details fromHook =>
    simp only [SessionManager.apply, SessionManager.branchWithSummary] at h
    split_ifs at h with hfrom
    cases h
    exact .summarize _ branchFromId _ (by simpa [Option.all_eq_true] using hfrom)
  | appendMessage _ | appendThinkingLevelChange _ | appendModelChange _ _
  | appendCompaction _ _ _ _ _ | appendCustomEntry _ _ | appendSessionInfo _
  | appendCustomMessageEntry _ _ _ _ =>
    cases h
    exact .append _ _ (by simp) (by simp)

theorem LogInvariant.apply (h : LogInvariant s) (hen : en.FullUuidUnused s)
    (hs : s.apply en op = .ok s') : LogInvariant s' := by
  have hmoved : ∀ leaf, (∀ id, leaf = some id → s.byId.has id = true) →
      LogInvariant { s with leafId := leaf } := fun leaf hknown =>
    h.congr rfl rfl fun id hid => (h.has_iff id).mp (hknown id hid)
  cases apply_cases hs with
  | append _ body => exact h.appendBody hen body
  | label targetId label =>
    obtain ⟨hfile, hbyId, hleaf⟩ := setLabel_log (s.appendBody en (.label targetId label))
      targetId label en.now
    have hb := h.appendBody hen (.label targetId label)
    exact hb.congr hfile hbyId (by rw [hleaf]; exact hb.leaf)
  | move _ leaf hknown => exact hmoved leaf hknown
  | summarize _ leaf _ hknown => exact (hmoved leaf hknown).appendBody hen _

theorem newSession_invariant (s : SessionManager) (options : NewSessionOptions) (uuid : Uuid)
    (timestamp : ℕ) : LogInvariant (s.newSession options uuid timestamp) where
  header := ⟨_, rfl⟩
  nodup := nodup_nil
  id_ne_empty := by simp [newSession, getEntries, FileEntry.entry?]
  grown := ParentChain.grown_nil
  index := rfl
  leaf := by simp [newSession]

theorem Reachable.invariant (h : Reachable s) : LogInvariant s := by
  induction h with
  | new cwd sessionDir persist options uuid timestamp => exact newSession_invariant _ _ _ _
  | step op en hs hen h ih => exact ih.apply hen h

theorem LogInvariant.get_byId (h : LogInvariant s) (he : e ∈ s.getEntries) :
    s.byId.get e.id = some e := by
  rw [h.index]; exact get_indexById h.nodup he

theorem LogInvariant.getBranch (h : LogInvariant s) (he : e ∈ s.getEntries) :
    ∃ path, s.getBranch (some e.id) = some path ∧ WellFormedPath path ∧
      path.Sublist s.getEntries ∧ path.getLast? = some e := by
  obtain ⟨path, hlinked, hlast, hsub⟩ := h.grown.exists_linked he
  have hwf : WellFormedPath path :=
    ⟨hlinked, h.nodup.sublist (hsub.map _), fun e' he' => h.id_ne_empty e' (hsub.subset he')⟩
  have hsize : s.byId.size = s.getEntries.length := by rw [h.index, size_indexById h.nodup]
  have hwalk := hwf.walkToRoot_eq
    (fun e' he' => h.get_byId (hsub.subset he'))
    (by rw [hsize]; exact hsub.length_le.trans (Nat.le_succ _))
  refine ⟨path, ?_, hwf, hsub, hlast⟩
  rw [hlast] at hwalk
  have hid : truthy (some e.id) = some e.id := by
    simp [truthy, h.id_ne_empty e he]
  rw [SessionManager.getBranch, some_or, hid, bind_some, h.get_byId he, hwalk]

def uuidOf (n : ℕ) : Uuid where
  text := String.ofList (Nat.repr (10000000 + n)).toList ++ "-0000-4000-8000-000000000000"
  eight_lt := by simp

/-- The `n`-th call, at time `n`, draws the `n`-th UUID. -/
def callOf (n : ℕ) : Entropy := { now := n, draw := fun _ => uuidOf n }

def userText (text : String) : AgentMessage :=
  .user { content := .string text, timestamp := 0 }

end Draht.SessionManager
