import Draht.ParentForest
import Draht.SessionInvariant

/-!
# The tree of a session

`getTree` builds a node for every entry, hangs each below its parent, and sorts the children by
their time. In every state of a session the result is a forest of all entries, each once.
-/

namespace Draht
open List Option

structure NodeInfo where
  entry : SessionEntry
  label : Option String
  labelTimestamp : Option ℕ

abbrev SessionTreeNode := Tree NodeInfo

/-- A node object; its children are references, which the ids of their entries stand for. -/
structure StoredNode where
  info : NodeInfo
  children : List String

structure TreeDraft where
  nodeMap : OrderedMap String StoredNode
  roots : List String

namespace SessionManager

def createNode (s : SessionManager) (e : SessionEntry) : StoredNode where
  info :=
    { entry := e
      label := s.labelsById.get e.id
      labelTimestamp := s.labelTimestampsById.get e.id }
  children := []

def createNodes (s : SessionManager) (entries : List SessionEntry) :
    OrderedMap String StoredNode :=
  entries.foldl (fun nodeMap e => nodeMap.set e.id (s.createNode e)) .empty

/-- An entry without a parent in the map is a root, and so is one that names itself. -/
def linkNode (d : TreeDraft) (e : SessionEntry) : TreeDraft :=
  let asRoot := { d with roots := d.roots ++ [e.id] }
  match e.parentId with
  | none => asRoot
  | some parentId =>
    if parentId = e.id then asRoot
    else
      match d.nodeMap.get parentId with
      | none => asRoot
      | some parent =>
        { d with
          nodeMap :=
            d.nodeMap.set parentId { parent with children := parent.children ++ [e.id] } }

def timestampOf (nodeMap : OrderedMap String StoredNode) (id : String) : ℕ :=
  ((nodeMap.get id).map fun node => node.info.entry.timestamp).getD 0

def sortByTimestamp (nodeMap : OrderedMap String StoredNode) (ids : List String) : List String :=
  ids.mergeSort fun a b => timestampOf nodeMap a ≤ timestampOf nodeMap b

/-- The sorting loop with its stack, the top in front; `none` stands for a loop that does not
return. -/
def sortNodes :
    ℕ → OrderedMap String StoredNode → List String → Option (OrderedMap String StoredNode)
  | _, nodeMap, [] => some nodeMap
  | 0, _, _ :: _ => none
  | fuel + 1, nodeMap, id :: stack =>
    match nodeMap.get id with
    | none => sortNodes fuel nodeMap stack
    | some node =>
      let children := sortByTimestamp nodeMap node.children
      sortNodes fuel (nodeMap.set id { node with children }) (children.reverse ++ stack)

def storedNode (nodeMap : OrderedMap String StoredNode) (id : String) :
    Option (NodeInfo × List String) :=
  (nodeMap.get id).map fun node => (node.info, node.children)

/-- `getTree`; `none` stands for a loop that does not return or a result with a cycle. -/
def getTree (s : SessionManager) : Option (List SessionTreeNode) :=
  let entries := s.getEntries
  let d := entries.foldl linkNode { nodeMap := s.createNodes entries, roots := [] }
  (sortNodes entries.length d.nodeMap d.roots.reverse).bind fun nodeMap =>
    ParentForest.unfoldForest (storedNode nodeMap) entries.length d.roots

open ParentForest

abbrev EntriesEarlier := ParentsEarlier SessionEntry.id SessionEntry.parentId

abbrev childEntries := children SessionEntry.parentId

abbrev StoresEntries (entries : List SessionEntry) (nodeMap : OrderedMap String StoredNode) :
    Prop :=
  Stores SessionEntry.id SessionEntry.parentId NodeInfo.entry entries (storedNode nodeMap)

variable {entries : List SessionEntry} {e : SessionEntry} {s : SessionManager}

theorem get_createNodes (s : SessionManager)
    (hnodup : (entries.map SessionEntry.id).Nodup) (he : e ∈ entries) :
    (s.createNodes entries).get e.id = some (s.createNode e) := by
  induction entries using reverseRecOn with
  | nil => simp at he
  | append_singleton entries last ih =>
    rw [map_append, nodup_append] at hnodup
    rw [createNodes, foldl_concat, OrderedMap.get_set]
    by_cases hid : last.id = e.id
    · obtain rfl : e = last := by
        obtain hmem | hmem := mem_append.mp he
        · exact absurd hid.symm (hnodup.2.2 e.id (mem_map_of_mem hmem) last.id (by simp))
        · exact mem_singleton.mp hmem
      rw [if_pos rfl]
    · rw [if_neg hid]
      refine ih hnodup.1 ?_
      obtain hmem | hmem := mem_append.mp he
      · exact hmem
      · exact absurd (congrArg SessionEntry.id (mem_singleton.mp hmem)).symm hid

structure LinkedNodes (entries done : List SessionEntry) (d : TreeDraft) : Prop where
  nodes : ∀ e ∈ entries, ∃ info, d.nodeMap.get e.id =
    some { info, children := (childEntries done e.id).map SessionEntry.id } ∧ info.entry = e
  roots : d.roots = (done.filter fun e => e.parentId = none).map SessionEntry.id

variable {done : List SessionEntry} {d : TreeDraft}

theorem LinkedNodes.linkNode (h : LinkedNodes entries done d)
    (hnodup : (entries.map SessionEntry.id).Nodup) (hself : e.parentId ≠ some e.id)
    (hparent : ∀ p, e.parentId = some p → ∃ e' ∈ entries, e'.id = p) :
    LinkedNodes entries (done ++ [e]) (linkNode d e) := by
  cases hp : e.parentId with
  | none =>
    have hlink : SessionManager.linkNode d e = { d with roots := d.roots ++ [e.id] } := by
      rw [SessionManager.linkNode, hp]
    rw [hlink]
    refine ⟨?_, ?_⟩
    · intro e' he'
      have hsame : childEntries (done ++ [e]) e'.id = childEntries done e'.id := by
        simp [childEntries, children, filter_append, hp]
      rw [hsame]
      exact h.nodes e' he'
    · simp [h.roots, filter_append, hp]
  | some p =>
    obtain ⟨parent, hmem, rfl⟩ := hparent p hp
    obtain ⟨info, hget, hinfo⟩ := h.nodes parent hmem
    have hne : parent.id ≠ e.id := fun he => hself (hp.trans (congrArg some he))
    let grown : StoredNode :=
      { info, children := (childEntries done parent.id).map SessionEntry.id ++ [e.id] }
    have hlink : SessionManager.linkNode d e =
        { d with nodeMap := d.nodeMap.set parent.id grown } := by
      rw [SessionManager.linkNode, hp]
      simp only [if_neg hne, hget]
      rfl
    rw [hlink]
    refine ⟨?_, ?_⟩
    · intro e' he'
      rw [OrderedMap.get_set]
      by_cases hid : parent.id = e'.id
      · refine ⟨info, ?_, ?_⟩
        · rw [if_pos hid, ← hid]
          simp [grown, childEntries, children, filter_append, hp]
        · rw [hinfo]
          exact inj_on_of_nodup_map hnodup hmem he' hid
      · rw [if_neg hid]
        have hsame : childEntries (done ++ [e]) e'.id = childEntries done e'.id := by
          simp [childEntries, children, filter_append, hp, hid]
        rw [hsame]
        exact h.nodes e' he'
    · simp [h.roots, filter_append, hp]

theorem linkedNodes_all (s : SessionManager) (h : EntriesEarlier entries)
    (hparent : ∀ e ∈ entries, ∀ p, e.parentId = some p → ∃ e' ∈ entries, e'.id = p)
    (hdone : ∀ e ∈ done, e ∈ entries) :
    LinkedNodes entries done
      (done.foldl SessionManager.linkNode { nodeMap := s.createNodes entries, roots := [] }) := by
  induction done using reverseRecOn with
  | nil => exact ⟨fun e he => ⟨_, get_createNodes s h.nodup he, rfl⟩, rfl⟩
  | append_singleton done e ih =>
    rw [foldl_concat]
    have he := hdone e (by simp)
    exact (ih (fun e' he' => hdone e' (mem_append_left _ he'))).linkNode h.nodup
      (h.notSelf e he) (hparent e he)

theorem LinkedNodes.stores (h : LinkedNodes entries entries d) :
    StoresEntries entries d.nodeMap := by
  intro e he
  obtain ⟨info, hget, hinfo⟩ := h.nodes e he
  exact ⟨info, _, by rw [storedNode, hget]; rfl, hinfo, .refl _⟩

theorem sortByTimestamp_perm (nodeMap : OrderedMap String StoredNode) (ids : List String) :
    (sortByTimestamp nodeMap ids).Perm ids :=
  mergeSort_perm _ _

theorem StoresEntries.reorder
    {nodeMap : OrderedMap String StoredNode} (h : StoresEntries entries nodeMap)
    (hnodup : (entries.map SessionEntry.id).Nodup) (he : e ∈ entries)
    {node : StoredNode} (hnode : nodeMap.get e.id = some node) {ids : List String}
    (hids : ids.Perm node.children) :
    StoresEntries entries (nodeMap.set e.id { node with children := ids }) := by
  intro e' he'
  obtain ⟨info, kids, hget, hinfo, hkids⟩ := h e' he'
  by_cases hid : e.id = e'.id
  · obtain rfl := inj_on_of_nodup_map hnodup he he' hid
    rw [storedNode, hnode] at hget
    obtain ⟨rfl, rfl⟩ := Prod.mk.inj (some.inj hget)
    refine ⟨node.info, ids, ?_, hinfo, hids.trans hkids⟩
    rw [storedNode, OrderedMap.get_set, if_pos rfl]
    rfl
  · refine ⟨info, kids, ?_, hinfo, hkids⟩
    rw [storedNode, OrderedMap.get_set, if_neg hid]
    exact hget

abbrev entriesBelow (entries : List SessionEntry) (id : String) : List SessionEntry :=
  descend SessionEntry.id SessionEntry.parentId entries id

theorem exists_sortNodes (h : EntriesEarlier entries) {fuel : ℕ}
    {nodeMap : OrderedMap String StoredNode} (hstore : StoresEntries entries nodeMap)
    {stack : List SessionEntry} (hstack : ∀ e ∈ stack, e ∈ entries)
    (hfuel : (stack.flatMap fun e => entriesBelow entries e.id).length ≤ fuel) :
    ∃ sorted, sortNodes fuel nodeMap (stack.map SessionEntry.id) = some sorted ∧
      StoresEntries entries sorted := by
  induction fuel generalizing nodeMap stack with
  | zero =>
    cases stack with
    | nil => exact ⟨nodeMap, rfl, hstore⟩
    | cons e stack =>
      rw [flatMap_cons, entriesBelow, h.descend_eq (hstack e mem_cons_self)] at hfuel
      simp at hfuel
  | succ fuel ih =>
    cases stack with
    | nil => exact ⟨nodeMap, rfl, hstore⟩
    | cons e stack =>
      have he := hstack e mem_cons_self
      obtain ⟨info, kids, hget, hinfo, hkids⟩ := hstore e he
      obtain ⟨node, hnode, hpair⟩ := map_eq_some_iff.mp hget
      cases hpair
      have hsorted := sortByTimestamp_perm nodeMap node.children
      obtain ⟨bs, hbs, hperm⟩ : ∃ bs : List SessionEntry,
          (sortByTimestamp nodeMap node.children).reverse = bs.map SessionEntry.id ∧
            bs.Perm (childEntries entries e.id) :=
        cast (congrFun (congrFun (eq_map_comp_perm SessionEntry.id) _) _).symm
          ((reverse_perm _).trans (hsorted.trans hkids))
      obtain ⟨sorted, hrun, hsortedStore⟩ : ∃ sorted, sortNodes fuel
          (nodeMap.set e.id { node with children := sortByTimestamp nodeMap node.children })
            ((bs ++ stack).map SessionEntry.id) = some sorted ∧
              StoresEntries entries sorted := by
        refine ih (hstore.reorder h.nodup he hnode hsorted) ?_ ?_
        · intro e' he'
          obtain hmem | hmem := mem_append.mp he'
          · exact (mem_children.mp (hperm.mem_iff.mp hmem)).1
          · exact hstack e' (mem_cons_of_mem _ hmem)
        · rw [flatMap_cons, entriesBelow, h.descend_eq he, cons_append,
            length_cons, length_append] at hfuel
          have hbelow : (bs.flatMap fun e => entriesBelow entries e.id).length =
              ((children SessionEntry.parentId entries e.id).flatMap fun b =>
                descend SessionEntry.id SessionEntry.parentId entries b.id).length :=
            (hperm.flatMap_right _).length_eq
          rw [flatMap_append, length_append, hbelow]
          omega
      refine ⟨sorted, ?_, hsortedStore⟩
      rw [map_cons, sortNodes, hnode]
      simp only
      rw [hbs, ← map_append]
      exact hrun

/-- The forest that `getTree` returns has every entry once, each below its parent. -/
def IsForestOf (entries : List SessionEntry) (forest : List SessionTreeNode) : Prop :=
  ((Tree.forestNodes forest).map fun node => node.1.entry).Perm entries ∧
    (forest.map fun t => t.value.entry).Perm (entries.filter fun e => e.parentId = none) ∧
      ∀ node ∈ Tree.forestNodes forest,
        (node.2.map NodeInfo.entry).Perm
          (entries.filter fun e => e.parentId = some node.1.entry.id)

theorem LogInvariant.earlier (h : LogInvariant s) :
    EntriesEarlier s.getEntries :=
  parentsEarlier_of_grown h.grown h.nodup

theorem LogInvariant.parent_mem (h : LogInvariant s)
    (he : e ∈ s.getEntries) {p : String} (hp : e.parentId = some p) :
    ∃ e' ∈ s.getEntries, e'.id = p := by
  obtain ⟨xs, ys, hlog⟩ := append_of_mem he
  obtain ⟨e', he', hid⟩ := h.grown xs e ys hlog p hp
  exact ⟨e', by rw [hlog]; exact mem_append_left _ he', hid⟩

theorem LogInvariant.getTree (h : LogInvariant s) :
    ∃ forest, s.getTree = some forest ∧ IsForestOf s.getEntries forest := by
  have hearlier := h.earlier
  have hlinked := linkedNodes_all s hearlier (fun e he p hp => h.parent_mem he hp)
    (fun e (he : e ∈ s.getEntries) => he)
  have hroots : s.getEntries.filter (fun e => e.parentId = none) = s.getEntries.filter
      (fun e => IsRoot SessionEntry.id SessionEntry.parentId s.getEntries e) := by
    apply filter_congr
    intro e he
    rw [decide_eq_decide]
    constructor
    · intro hnone b _ hb
      rw [hnone] at hb
      cases hb
    · intro hroot
      by_contra hsome
      obtain ⟨p, hp⟩ := ne_none_iff_exists'.mp hsome
      obtain ⟨e', he', hid⟩ := h.parent_mem he hp
      exact hroot e' he' (hid ▸ hp)
  have hall := hearlier.roots_perm
  rw [← hroots] at hall
  have hmem : ∀ e ∈ s.getEntries.filter (fun e => e.parentId = none), e ∈ s.getEntries :=
    fun e he => (mem_filter.mp he).1
  obtain ⟨sorted, hsort, hstore⟩ : ∃ sorted, sortNodes s.getEntries.length
      (s.getEntries.foldl linkNode { nodeMap := s.createNodes s.getEntries, roots := [] }).nodeMap
      ((s.getEntries.filter fun e => e.parentId = none).reverse.map SessionEntry.id) =
        some sorted ∧ StoresEntries s.getEntries sorted := by
    refine exists_sortNodes hearlier hlinked.stores (fun e he => hmem e (mem_reverse.mp he)) ?_
    rw [((reverse_perm _).flatMap_right _).length_eq, hall.length_eq]
  obtain ⟨forest, hunfold, hvalues, hchildren, hnodes⟩ :=
    hearlier.exists_unfold hstore s.getEntries.length
      (s.getEntries.filter fun e => e.parentId = none) (by
        intro e he
        obtain ⟨xs, ys, hlog⟩ := append_of_mem (hmem e he)
        refine ⟨hmem e he, xs, ys, hlog, ?_⟩
        rw [hlog, length_append, length_cons]
        omega)
  refine ⟨forest, ?_, hnodes.trans hall, ?_, hchildren⟩
  · rw [SessionManager.getTree, hlinked.roots, ← map_reverse, hsort, bind_some]
    exact hunfold
  · rw [hvalues]

theorem getEntries_prefix {s' : SessionManager} {en : Entropy} {op : SessionOp}
    (h : s.apply en op = .ok s') : s.getEntries <+: s'.getEntries := by
  have happend : ∀ (s : SessionManager) (e : SessionEntry),
      s.getEntries <+: (s.appendEntry e).getEntries := by
    intro s e
    rw [getEntries_appendEntry]
    exact prefix_append _ _
  cases apply_cases h with
  | append _ body => exact happend s _
  | label targetId label =>
    rw [getEntries, getEntries, (setLabel_log _ _ _ _).1]
    exact happend s _
  | move => exact prefix_rfl
  | summarize _ leaf => exact happend { s with leafId := leaf } _

structure TreeWellFormed (s : SessionManager) : Prop where
  distinct : s.entryIds.Nodup
  parent : ∀ xs e ys, s.getEntries = xs ++ e :: ys → ∀ p, e.parentId = some p →
    ∃ e' ∈ xs, e'.id = p
  leaf : ∀ id, s.leafId = some id → id ∈ s.entryIds
  index : ∀ id e, s.byId.get id = some e ↔ e ∈ s.getEntries ∧ e.id = id
  branch : ∀ e ∈ s.getEntries, ∃ path, s.getBranch (some e.id) = some path ∧
    ParentChain.Linked SessionEntry.id SessionEntry.parentId none path ∧
      path.getLast? = some e ∧ path.Sublist s.getEntries
  tree : ∃ forest, s.getTree = some forest ∧ IsForestOf s.getEntries forest

/-- The states reached from a new session, whatever the manager held before it. -/
inductive FromNewSession : SessionManager → Prop
  | new (s : SessionManager) (options : NewSessionOptions) (uuid : Uuid) (timestamp : ℕ) :
      FromNewSession (s.newSession options uuid timestamp)
  | step {s s' : SessionManager} (op : SessionOp) (en : Entropy) (hs : FromNewSession s)
      (hen : en.FullUuidUnused s) (h : s.apply en op = .ok s') : FromNewSession s'

theorem FromNewSession.invariant (h : FromNewSession s) : LogInvariant s := by
  induction h with
  | new s options uuid timestamp => exact newSession_invariant s options uuid timestamp
  | step op en hs hen h ih => exact ih.apply hen h

end SessionManager

end Draht
