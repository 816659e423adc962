import Mathlib.Data.List.Perm.Subperm
import Draht.SessionEntry

/-!
# The context of a session path

`buildSessionContext` walks from a leaf to the root and turns the path into the messages,
thinking level and model that the next request uses. With a compaction on the path its
summary comes first, then the entries kept from before it, then those after it.
-/

namespace Draht
open List

structure ModelRef where
  provider : String
  modelId : String
deriving DecidableEq

structure SessionContext where
  messages : List AgentMessage
  thinkingLevel : String
  model : Option ModelRef
deriving DecidableEq

/-- `{ messages: [], thinkingLevel: "off", model: null }`. -/
def SessionContext.empty : SessionContext :=
  { messages := [], thinkingLevel := "off", model := none }

/-- The optional argument `leafId?: string | null`. -/
inductive LeafArg where
  | undefined
  | null
  | id (leafId : String)
deriving DecidableEq

def indexById (entries : List SessionEntry) : OrderedMap String SessionEntry :=
  entries.foldl (fun byId e => byId.set e.id e) OrderedMap.empty

def parentEntry (byId : OrderedMap String SessionEntry) (e : SessionEntry) :
    Option SessionEntry :=
  e.truthyParent.bind byId.get

/-- The walk from `start` to the root. A walk longer than the map plus its start has met
an entry twice and never ends, so `none` stands for a loop that does not return. -/
def walkToRoot (byId : OrderedMap String SessionEntry) (start : Option SessionEntry) :
    Option (List SessionEntry) :=
  ParentChain.climb (parentEntry byId) (byId.size + 1) start []

structure PathSettings where
  thinkingLevel : String
  model : Option ModelRef
  compaction : Option (SessionEntry × CompactionData)

def PathSettings.visit (s : PathSettings) (e : SessionEntry) : PathSettings :=
  match e.body with
  | .thinkingLevelChange level => { s with thinkingLevel := level }
  | .modelChange provider modelId => { s with model := some ⟨provider, modelId⟩ }
  | .message (.assistant m) => { s with model := some ⟨m.provider, m.model⟩ }
  | .compaction data => { s with compaction := some (e, data) }
  | _ => s

def pathSettings (path : List SessionEntry) : PathSettings :=
  path.foldl PathSettings.visit { thinkingLevel := "off", model := none, compaction := none }

/-- The message `appendMessage` pushes for an entry, if it pushes one. -/
def contextMessage? (e : SessionEntry) : Option AgentMessage :=
  match e.body with
  | .message m => some m
  | .customMessage d =>
    some (.custom (createCustomMessage d.customType d.content d.display d.details e.timestamp))
  | .branchSummary d =>
    if d.summary ≠ "" then
      some (.branchSummary (createBranchSummaryMessage d.summary d.fromId e.timestamp))
    else none
  | _ => none

/-- The entries before the compaction that are kept: those from the first kept entry on. -/
def keptFrom (firstKeptEntryId : String) (entries : List SessionEntry) : List SessionEntry :=
  entries.dropWhile (fun e => e.id ≠ firstKeptEntryId)

def compactionSummaryOf (e : SessionEntry) (data : CompactionData) : AgentMessage :=
  .compactionSummary (createCompactionSummaryMessage data.summary data.tokensBefore e.timestamp)

def contextMessages (path : List SessionEntry) :
    Option (SessionEntry × CompactionData) → List AgentMessage
  | none => path.filterMap contextMessage?
  | some (c, data) =>
    let compactionIdx := path.findIdx (fun e => e.isCompaction && e.id == c.id)
    compactionSummaryOf c data ::
      ((keptFrom data.firstKeptEntryId (path.take compactionIdx)).filterMap contextMessage? ++
        (path.drop (compactionIdx + 1)).filterMap contextMessage?)

def contextOfPath (path : List SessionEntry) : SessionContext :=
  let s := pathSettings path
  { messages := contextMessages path s.compaction
    thinkingLevel := s.thinkingLevel
    model := s.model }

def buildSessionContext (entries : List SessionEntry) (leafId : LeafArg)
    (byId? : Option (OrderedMap String SessionEntry)) : Option SessionContext :=
  let byId := byId?.getD (indexById entries)
  match leafId with
  | .null => some .empty
  | .undefined => fromLeaf byId entries.getLast?
  | .id leafId =>
    let leaf := if leafId ≠ "" then byId.get leafId else none
    fromLeaf byId (leaf.or entries.getLast?)
where
  fromLeaf (byId : OrderedMap String SessionEntry) : Option SessionEntry → Option SessionContext
    | none => some .empty
    | some leaf => (walkToRoot byId (some leaf)).map contextOfPath

/-- A root-to-leaf path: each entry names the one before it, ids are distinct and not empty. -/
structure WellFormedPath (path : List SessionEntry) : Prop where
  linked : ParentChain.Linked SessionEntry.id SessionEntry.parentId none path
  nodup : (path.map SessionEntry.id).Nodup
  id_ne_empty : ∀ e ∈ path, e.id ≠ ""

variable {path entries : List SessionEntry} {e : SessionEntry}

theorem WellFormedPath.truthyParent_eq (h : WellFormedPath path)
    (he : e ∈ path) : e.truthyParent = e.parentId := by
  unfold SessionEntry.truthyParent
  cases hp : e.parentId with
  | none => rfl
  | some p =>
    obtain ⟨b, hb, rfl⟩ := mem_map.mp (h.linked.parent_mem he hp)
    simp [h.id_ne_empty b hb]

theorem linked_congr {parent parent' : SessionEntry → Option String}
    {prev : Option String} (h : ∀ e ∈ path, parent e = parent' e)
    (hl : ParentChain.Linked SessionEntry.id parent prev path) :
    ParentChain.Linked SessionEntry.id parent' prev path := by
  induction path generalizing prev with
  | nil => trivial
  | cons e path ih =>
    exact ⟨(h e mem_cons_self).symm.trans hl.1,
      ih (fun e' he' => h e' (mem_cons_of_mem _ he')) hl.2⟩

variable {labels after before : List SessionEntry} {c : SessionEntry} {data : CompactionData}
  {byId : OrderedMap String SessionEntry}

/-- The walk from the last entry of a well-formed path returns the path, as long as the
map finds the entries of the path under their ids. -/
theorem WellFormedPath.walkToRoot_eq (h : WellFormedPath path)
    (hget : ∀ e ∈ path, byId.get e.id = some e) (hsize : path.length ≤ byId.size + 1) :
    walkToRoot byId path.getLast? = some path := by
  have hl := linked_congr (fun e he => (h.truthyParent_eq he).symm) h.linked
  have hc := ParentChain.climb_linked hl hget (byId.size + 1) hsize []
  rwa [append_nil] at hc

theorem WellFormedPath.length_le (h : WellFormedPath path)
    (hget : ∀ e ∈ path, byId.get e.id = some e) : path.length ≤ byId.size := by
  have hsub : path.map SessionEntry.id ⊆ byId.keys := by
    intro id hid
    obtain ⟨e, he, rfl⟩ := mem_map.mp hid
    rw [← OrderedMap.has_iff, OrderedMap.has, hget e he]
    rfl
  have hle := (subperm_of_subset h.nodup hsub).length_le
  rwa [length_map, OrderedMap.keys, length_map] at hle

theorem indexById_concat (entries : List SessionEntry) (e : SessionEntry) :
    indexById (entries ++ [e]) = (indexById entries).set e.id e := by
  simp [indexById]

section

variable (h : (entries.map SessionEntry.id).Nodup)
include h

theorem entries_indexById :
    (indexById entries).entries = entries.map (fun e => (e.id, e)) := by
  induction entries using reverseRecOn with
  | nil => rfl
  | append_singleton entries e ih =>
    rw [map_append, nodup_append] at h
    have hkeys : e.id ∉ (indexById entries).keys := by
      rw [OrderedMap.keys, ih h.1, map_map]
      exact fun hmem => h.2.2 e.id hmem e.id (by simp) rfl
    rw [indexById_concat, OrderedMap.entries_set_of_not_mem _ _ hkeys, ih h.1]
    simp

theorem get_indexById
    (he : e ∈ entries) : (indexById entries).get e.id = some e := by
  rw [← OrderedMap.mem_entries_iff, entries_indexById h]
  exact mem_map_of_mem (f := fun e => (e.id, e)) he

theorem keys_indexById :
    (indexById entries).keys = entries.map SessionEntry.id := by
  rw [OrderedMap.keys, entries_indexById h, map_map]
  rfl

theorem size_indexById :
    (indexById entries).size = entries.length := by
  rw [OrderedMap.size, entries_indexById h, length_map]

end

theorem WellFormedPath.buildSessionContext_eq
    (h : WellFormedPath path) (hne : path ≠ []) :
    buildSessionContext path .undefined none = some (contextOfPath path) := by
  have hw := h.walkToRoot_eq (fun e he => get_indexById h.nodup he)
    (by rw [size_indexById h.nodup]; omega)
  obtain ⟨leaf, hleaf⟩ : ∃ leaf, path.getLast? = some leaf :=
    ⟨path.getLast hne, getLast?_eq_some_getLast hne⟩
  rw [hleaf] at hw
  simp [buildSessionContext, hleaf, buildSessionContext.fromLeaf, hw]

theorem split_last {α : Type*} (p : α → Bool) (l : List α) :
    (∀ x ∈ l, p x = false) ∨
      ∃ before x after, l = before ++ x :: after ∧ p x = true ∧ ∀ y ∈ after, p y = false := by
  induction l with
  | nil => exact .inl (by simp)
  | cons a l ih =>
    obtain hnone | ⟨before, x, after, rfl, hx, hafter⟩ := ih
    · cases ha : p a with
      | false => exact .inl (forall_mem_cons.mpr ⟨ha, hnone⟩)
      | true => exact .inr ⟨[], a, l, rfl, ha, hnone⟩
    · exact .inr ⟨a :: before, x, after, rfl, hx, hafter⟩

theorem SessionEntry.isCompaction_iff :
    e.isCompaction = true ↔ ∃ data, e.body = .compaction data := by
  unfold SessionEntry.isCompaction
  split <;> simp_all

theorem visit_compaction_of_not (he : e.isCompaction = false)
    (s : PathSettings) : (s.visit e).compaction = s.compaction := by
  unfold SessionEntry.isCompaction at he
  unfold PathSettings.visit
  split <;> simp_all

theorem foldl_visit_compaction
    (h : ∀ e ∈ path, e.isCompaction = false) (s : PathSettings) :
    (path.foldl PathSettings.visit s).compaction = s.compaction := by
  induction path generalizing s with
  | nil => rfl
  | cons e path ih =>
    rw [foldl_cons, ih (fun e' he' => h e' (mem_cons_of_mem _ he'))]
    exact visit_compaction_of_not (h e mem_cons_self) s

theorem pathSettings_compaction_split (hc : c.body = .compaction data)
    (hafter : ∀ e ∈ after, e.isCompaction = false) :
    (pathSettings (before ++ c :: after)).compaction = some (c, data) := by
  rw [pathSettings, foldl_append, foldl_cons, foldl_visit_compaction hafter]
  simp [PathSettings.visit, hc]

theorem messages_of_no_compaction
    (h : ∀ e ∈ path, e.isCompaction = false) :
    (contextOfPath path).messages = path.filterMap contextMessage? := by
  have hnone : (pathSettings path).compaction = none := foldl_visit_compaction h _
  simp [contextOfPath, hnone, contextMessages]

/-- With the last compaction `c` in the middle of the path, the messages are its summary,
those kept from the entries before it, and those of the entries after it. -/
theorem messages_of_split (hc : c.body = .compaction data)
    (hafter : ∀ e ∈ after, e.isCompaction = false) (hid : c.id ∉ before.map SessionEntry.id) :
    (contextOfPath (before ++ c :: after)).messages =
      compactionSummaryOf c data ::
        ((keptFrom data.firstKeptEntryId before).filterMap contextMessage? ++
          after.filterMap contextMessage?) := by
  have hidx : (before ++ c :: after).findIdx (fun e => e.isCompaction && e.id == c.id) =
      before.length := by
    have hnot : ∀ e ∈ before, (e.isCompaction && e.id == c.id) = false := by
      intro e he
      have hne : e.id ≠ c.id := fun heq => hid (heq ▸ mem_map_of_mem he)
      simp [hne]
    have hcomp : c.isCompaction = true := SessionEntry.isCompaction_iff.mpr ⟨data, hc⟩
    rw [findIdx_append, findIdx_eq_length_of_false hnot, findIdx_cons]
    simp [hcomp]
  have hdrop : (before ++ c :: after).drop (before.length + 1) = after := by
    rw [append_cons]
    exact drop_left' (by simp)
  simp [contextOfPath, pathSettings_compaction_split hc hafter, contextMessages, hidx]

theorem SessionEntry.isCompaction_of_isLabel (h : e.isLabel = true) :
    e.isCompaction = false := by
  unfold SessionEntry.isLabel at h
  unfold SessionEntry.isCompaction
  split at h <;> simp_all

theorem contextMessage?_of_isLabel (h : e.isLabel = true) :
    contextMessage? e = none := by
  unfold SessionEntry.isLabel at h
  unfold contextMessage?
  split at h <;> simp_all

theorem visit_of_isLabel (h : e.isLabel = true) (s : PathSettings) :
    s.visit e = s := by
  unfold SessionEntry.isLabel at h
  unfold PathSettings.visit
  split at h <;> simp_all

theorem filterMap_contextMessage?_labels (h : ∀ e ∈ labels, e.isLabel = true) :
    labels.filterMap contextMessage? = [] :=
  filterMap_eq_nil_iff.mpr (fun e he => contextMessage?_of_isLabel (h e he))

theorem pathSettings_append_labels (path : List SessionEntry) (h : ∀ e ∈ labels, e.isLabel = true) :
    pathSettings (path ++ labels) = pathSettings path := by
  rw [pathSettings, foldl_append]
  induction labels with
  | nil => rfl
  | cons e labels ih =>
    rw [foldl_cons, visit_of_isLabel (h e mem_cons_self)]
    exact ih (fun e' he' => h e' (mem_cons_of_mem _ he'))

theorem contextOfPath_append_labels (hpath : (path.map SessionEntry.id).Nodup)
    (h : ∀ e ∈ labels, e.isLabel = true) : contextOfPath (path ++ labels) = contextOfPath path := by
  have hmessages : (contextOfPath (path ++ labels)).messages = (contextOfPath path).messages := by
    have hnot : ∀ e ∈ labels, e.isCompaction = false := fun e he =>
      SessionEntry.isCompaction_of_isLabel (h e he)
    rcases split_last SessionEntry.isCompaction path with
      hnone | ⟨before, c, after, rfl, hc, hafter⟩
    · have hall : ∀ e ∈ path ++ labels, e.isCompaction = false := fun e he =>
        (mem_append.mp he).elim (hnone e) (hnot e)
      rw [messages_of_no_compaction hall, messages_of_no_compaction hnone,
        filterMap_append, filterMap_contextMessage?_labels h, append_nil]
    · obtain ⟨data, hdata⟩ := SessionEntry.isCompaction_iff.mp hc
      have hid : c.id ∉ before.map SessionEntry.id := by
        rw [map_append, map_cons, nodup_append] at hpath
        exact fun hmem => hpath.2.2 c.id hmem c.id mem_cons_self rfl
      have hall : ∀ e ∈ after ++ labels, e.isCompaction = false := fun e he =>
        (mem_append.mp he).elim (hafter e) (hnot e)
      rw [append_assoc, cons_append, messages_of_split hdata hall hid,
        messages_of_split hdata hafter hid, filterMap_append,
        filterMap_contextMessage?_labels h, append_nil]
  have hsettings := pathSettings_append_labels path h
  simp only [contextOfPath, hsettings, SessionContext.mk.injEq, and_true] at hmessages ⊢
  exact hmessages

end Draht
