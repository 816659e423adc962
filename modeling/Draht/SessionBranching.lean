import Draht.SessionInvariant
import Mathlib.Data.List.Chain

/-!
# Extracting a branch into a session of its own

`createBranchedSession` copies the path to an entry without its label entries and appends
the labels again at the end. The copy is faithful exactly when no label entry on the path is
the parent of an entry of another kind and no compaction on it starts its kept entries at an
entry that is not copied: the copied entries keep their parent and first-kept ids.
-/

namespace Draht
open List Option

/-- No label entry of the path is followed by an entry of another kind. -/
def LabelsLast (path : List SessionEntry) : Prop :=
  path.IsChain (fun a b => a.isLabel = true → b.isLabel = true)

variable {path : List SessionEntry} {s : SessionManager} {e : SessionEntry}

theorem LabelsLast.filter_append (h : LabelsLast path) :
    path.filter (fun e => !e.isLabel) ++ path.filter SessionEntry.isLabel = path := by
  let R := fun a b : SessionEntry => a.isLabel = true → b.isLabel = true
  have htrans : Trans R R R := ⟨fun hab hbc ha => hbc (hab ha)⟩
  have hp : path.Pairwise R := h.pairwise
  clear h
  induction path with
  | nil => rfl
  | cons e path ih =>
    obtain ⟨he, hpath⟩ := pairwise_cons.mp hp
    cases hlabel : e.isLabel with
    | false => simp [hlabel, ih hpath]
    | true =>
      have hall : ∀ e' ∈ path, e'.isLabel = true := fun e' he' => he e' he' hlabel
      have hnone : path.filter (fun e => !e.isLabel) = [] := by
        simpa [filter_eq_nil_iff] using hall
      simp [hlabel, hnone, filter_eq_self.mpr hall]

theorem exists_label_parent (h : ¬ LabelsLast path) :
    ∃ xs a b ys, path = xs ++ a :: b :: ys ∧ a.isLabel = true ∧ b.isLabel = false := by
  rw [LabelsLast, isChain_iff_forall_rel_of_append_cons_cons] at h
  push Not at h
  obtain ⟨a, b, xs, ys, hpath, ha, hb⟩ := h
  exact ⟨xs, a, b, ys, hpath, ha, by simpa using hb⟩

/-- The ids an entry refers to: its parent, and the first entry a compaction keeps. -/
def SessionEntry.references (e : SessionEntry) : List String :=
  e.parentId.toList ++
    match e.body with
    | .compaction data => [data.firstKeptEntryId]
    | _ => []

namespace SessionManager

/-- The full UUIDs of the fallback are all different and not ids of the session. -/
def BranchEntropy.FullUuidsUnused (r : BranchEntropy) (s : SessionManager) : Prop :=
  (∀ i, (r.labelDraw i 100).text ∉ s.entryIds) ∧
    ∀ i j, (r.labelDraw i 100).text = (r.labelDraw j 100).text → i = j

/-- The branched session stands for the old path: the context is that of the old path, its
branch is the old path without labels and then the re-created labels, and no entry refers
to an entry that was left behind. -/
def BranchPreserved (s : SessionManager) (id : String) (r : BranchEntropy) : Prop :=
  ∃ s' file path,
    s.createBranchedSession r id = some (.ok (s', file)) ∧ s.getBranch (some id) = some path ∧
    (∃ context, buildSessionContext s.getEntries (.id id) none = some context ∧
      s'.context = some context) ∧
    (∃ labels, s'.getBranch none = some (path.filter (fun e => !e.isLabel) ++ labels) ∧
      labels.map SessionEntry.body =
        (s.labelsToWrite ((path.filter (fun e => !e.isLabel)).map SessionEntry.id)).map
          (fun l => .label l.targetId (some l.label))) ∧
    ∀ e ∈ s'.getEntries, ∀ ref ∈ e.references, ref ∈ s.entryIds → ref ∈ s'.entryIds

/-- On the path to `id` label entries come last, and the first kept entry of a compaction,
if the session has it, is copied. -/
def BranchSafe (s : SessionManager) (id : String) : Prop :=
  ∃ path, s.getBranch (some id) = some path ∧ LabelsLast path ∧
    ∀ e ∈ path, ∀ data, e.body = .compaction data → data.firstKeptEntryId ∈ s.entryIds →
      data.firstKeptEntryId ∈ (path.filter (fun e => !e.isLabel)).map SessionEntry.id

variable (taken : List String) (parentId : Option String) (c : Char) (n i : ℕ)

theorem labelEntries_isLabel (draw : ℕ → ℕ → Uuid) (i : ℕ) (ls : List LabelToWrite) :
    ∀ e ∈ labelEntries taken parentId draw i ls, e.isLabel = true := by
  induction ls generalizing taken parentId i with
  | nil => simp [labelEntries]
  | cons l ls ih =>
    simp only [labelEntries, forall_mem_cons]
    exact ⟨rfl, ih _ _ _⟩

theorem labelEntries_body (draw : ℕ → ℕ → Uuid) (i : ℕ) (ls : List LabelToWrite) :
    (labelEntries taken parentId draw i ls).map SessionEntry.body =
      ls.map (fun l => .label l.targetId (some l.label)) := by
  induction ls generalizing taken parentId i with
  | nil => rfl
  | cons l ls ih => rw [labelEntries, map_cons, ih, map_cons]

theorem labelEntries_linked (draw : ℕ → ℕ → Uuid) (i : ℕ) (ls : List LabelToWrite) :
    ParentChain.Linked SessionEntry.id SessionEntry.parentId parentId
      (labelEntries taken parentId draw i ls) := by
  induction ls generalizing taken parentId i with
  | nil => trivial
  | cons l ls ih => exact ⟨rfl, ih _ _ _⟩

theorem labelEntries_id_cases (draw : ℕ → ℕ → Uuid) (i : ℕ) (ls : List LabelToWrite) :
    ∀ e ∈ labelEntries taken parentId draw i ls, e.id ≠ "" ∧
      ((∃ j k, e.id = (draw j k).short) ∨ ∃ j, i ≤ j ∧ e.id = (draw j 100).text) := by
  induction ls generalizing taken parentId i with
  | nil => simp [labelEntries]
  | cons l ls ih =>
    simp only [labelEntries, forall_mem_cons]
    refine ⟨⟨generateId_ne_empty _ _, ?_⟩, ?_⟩
    · obtain ⟨k, hk⟩ | h := generateIdFrom_cases (fun x => decide (x ∈ taken)) (draw i) 100 0
      · exact .inl ⟨i, k, hk⟩
      · exact .inr ⟨i, le_rfl, h⟩
    · intro e he
      obtain ⟨hne, hid⟩ := ih _ _ _ e he
      exact ⟨hne, hid.imp_right (fun ⟨j, hj, h⟩ => ⟨j, (Nat.le_succ i).trans hj, h⟩)⟩

theorem labelEntries_nodup (draw : ℕ → ℕ → Uuid) (i : ℕ) (ls : List LabelToWrite)
    (htaken : taken.Nodup) (hnew : ∀ j, i ≤ j → (draw j 100).text ∉ taken)
    (hinj : ∀ j k, (draw j 100).text = (draw k 100).text → j = k) :
    (taken ++ (labelEntries taken parentId draw i ls).map SessionEntry.id).Nodup := by
  induction ls generalizing taken parentId i with
  | nil => simpa [labelEntries] using htaken
  | cons l ls ih =>
    have hfresh : generateId (fun x => decide (x ∈ taken)) (draw i) ∉ taken := by
      have h := generateId_fresh (fun x => decide (x ∈ taken)) (draw i)
        (by simpa using hnew i le_rfl)
      simpa using h
    have htaken' : (taken ++ [generateId (fun x => decide (x ∈ taken)) (draw i)]).Nodup :=
      nodup_append.mpr ⟨htaken, by simp, fun a ha b hb hab =>
        hfresh (by rw [mem_singleton.mp hb] at hab; exact hab ▸ ha)⟩
    have hnew' : ∀ j, i + 1 ≤ j →
        (draw j 100).text ∉ taken ++ [generateId (fun x => decide (x ∈ taken)) (draw i)] := by
      intro j hj hmem
      obtain hmem | hmem := mem_append.mp hmem
      · exact hnew j ((Nat.le_succ i).trans hj) hmem
      · rw [mem_singleton] at hmem
        obtain ⟨k, hk⟩ | h := generateIdFrom_cases (fun x => decide (x ∈ taken)) (draw i) 100 0
        · exact (draw i k).short_ne_text (draw j 100) (hk.symm.trans hmem.symm)
        · have := hinj j i (hmem.trans h)
          omega
    have h := ih _ (some (generateId (fun x => decide (x ∈ taken)) (draw i))) (i + 1) htaken' hnew'
    simpa [labelEntries] using h

theorem indexEntry_log (s : SessionManager) (e : SessionEntry) :
    (s.indexEntry e).fileEntries = s.fileEntries ∧ (s.indexEntry e).byId = s.byId.set e.id e ∧
      (s.indexEntry e).leafId = some e.id := by
  unfold indexEntry
  repeat' split
  all_goals exact ⟨rfl, rfl, rfl⟩

theorem foldl_indexEntry_log (s : SessionManager) (es : List SessionEntry) :
    (es.foldl indexEntry s).fileEntries = s.fileEntries ∧
      (es.foldl indexEntry s).byId = es.foldl (fun byId e => byId.set e.id e) s.byId ∧
      (es.foldl indexEntry s).leafId = (es.getLast?.map SessionEntry.id).or s.leafId := by
  induction es using reverseRecOn with
  | nil => exact ⟨rfl, rfl, rfl⟩
  | append_singleton es e ih =>
    obtain ⟨hfile, hbyId, hleaf⟩ := indexEntry_log (es.foldl indexEntry s) e
    simp only [foldl_append, foldl_cons, foldl_nil, getLast?_concat]
    exact ⟨hfile.trans ih.1, by rw [hbyId, ih.2.1], hleaf⟩

theorem buildIndex_log (s : SessionManager) :
    s.buildIndex.fileEntries = s.fileEntries ∧ s.buildIndex.byId = indexById s.getEntries ∧
      s.buildIndex.leafId = s.getEntries.getLast?.map SessionEntry.id := by
  obtain ⟨hfile, hbyId, hleaf⟩ := foldl_indexEntry_log
    { s with byId := .empty, labelsById := .empty, labelTimestampsById := .empty, leafId := none }
    s.getEntries
  exact ⟨hfile, hbyId, by rw [buildIndex, hleaf, or_none]⟩

theorem rewriteFile_log (s : SessionManager) :
    s.rewriteFile.fileEntries = s.fileEntries ∧ s.rewriteFile.byId = s.byId ∧
      s.rewriteFile.leafId = s.leafId := by
  unfold rewriteFile
  repeat' split
  all_goals exact ⟨rfl, rfl, rfl⟩

theorem entries_of_file (header : SessionHeader) (es : List SessionEntry) :
    (.session header :: es.map .entry : List FileEntry).filterMap FileEntry.entry? = es := by
  rw [filterMap_cons, filterMap_map]
  exact filterMap_some

theorem branchedFrom_log (s : SessionManager) (r : BranchEntropy) (path : List SessionEntry) :
    (s.branchedFrom r path).1.fileEntries = (s.branchedLog r path).fileEntries ∧
      (s.branchedFrom r path).1.byId = (s.branchedLog r path).byId ∧
      (s.branchedFrom r path).1.leafId = (s.branchedLog r path).leafId := by
  unfold branchedFrom
  dsimp only
  split_ifs
  · exact rewriteFile_log (s.branchedLog r path)
  · exact ⟨rfl, rfl, rfl⟩
  · exact ⟨rfl, rfl, rfl⟩

def branchedEntries (s : SessionManager) (r : BranchEntropy) (path : List SessionEntry) :
    List SessionEntry :=
  path.filter (fun e => !e.isLabel) ++ s.branchLabels r (path.filter (fun e => !e.isLabel))

theorem branchedFrom_entries (s : SessionManager) (r : BranchEntropy) (path : List SessionEntry) :
    (s.branchedFrom r path).1.getEntries = s.branchedEntries r path ∧
      (s.branchedFrom r path).1.byId = indexById (s.branchedEntries r path) ∧
      (s.branchedFrom r path).1.leafId =
        (s.branchedEntries r path).getLast?.map SessionEntry.id := by
  obtain ⟨hfile, hbyId, hleaf⟩ := branchedFrom_log s r path
  refine ⟨?_, ?_, ?_⟩
  · rw [getEntries, hfile, branchedLog, (buildIndex_log _).1]
    exact entries_of_file _ _
  · rw [hbyId, branchedLog, (buildIndex_log _).2.1]
    exact congrArg indexById (entries_of_file _ _)
  · rw [hleaf, branchedLog, (buildIndex_log _).2.2]
    exact congrArg (fun es => es.getLast?.map SessionEntry.id) (entries_of_file _ _)

theorem branchLabels_isLabel (s : SessionManager) (r : BranchEntropy) (kept : List SessionEntry) :
    ∀ e ∈ s.branchLabels r kept, e.isLabel = true :=
  labelEntries_isLabel _ _ _ _ _

theorem context_of_path {es : List SessionEntry} (hes : WellFormedPath es)
    (hbyId : s.byId = indexById es) (hleaf : s.leafId = es.getLast?.map SessionEntry.id) :
    s.getBranch none = some es ∧ s.context = some (contextOfPath es) := by
  have hwalk := hes.walkToRoot_eq (fun e he => get_indexById hes.nodup he)
    (by rw [size_indexById hes.nodup]; exact Nat.le_succ _)
  cases hlast : es.getLast? with
  | none =>
    obtain rfl : es = [] := getLast?_eq_none_iff.mp hlast
    refine ⟨?_, ?_⟩
    · rw [SessionManager.getBranch, hleaf]; rfl
    · rw [context, hleaf]; rfl
  | some e =>
    have he : e ∈ es := mem_of_getLast? hlast
    have hget : (indexById es).get e.id = some e := get_indexById hes.nodup he
    have hne : e.id ≠ "" := hes.id_ne_empty e he
    rw [hlast, map_some] at hleaf
    rw [hlast] at hwalk
    refine ⟨?_, ?_⟩
    · have hid : truthy (some e.id) = some e.id := by simp [truthy, hne]
      rw [SessionManager.getBranch, hleaf, none_or, hid, hbyId, bind_some, hget, hwalk]
    · simp [context, hleaf, buildSessionContext, hbyId, hne, hget, buildSessionContext.fromLeaf,
        hwalk]

variable {id ref : String} {r : BranchEntropy}

/-- The entries of the branched session form a path: the copied prefix of the old path, if
its labels come last, and the re-created labels chained to it. -/
theorem branchedEntries_path (hr : r.FullUuidsUnused s) (hpath : WellFormedPath path)
    (hsub : path.Sublist s.getEntries) (hlast : LabelsLast path) :
    WellFormedPath (s.branchedEntries r path) := by
  let kept := path.filter (fun e => !e.isLabel)
  let labels := s.branchLabels r kept
  have hkept : WellFormedPath kept := by
    have hlinked := hpath.linked
    rw [← hlast.filter_append, ParentChain.linked_append] at hlinked
    exact ⟨hlinked.1, hpath.nodup.sublist (filter_sublist.map _),
      fun e he => hpath.id_ne_empty e (mem_of_mem_filter he)⟩
  have hids : ∀ i, (r.labelDraw i 100).text ∉ kept.map SessionEntry.id := fun i hmem =>
    hr.1 i (((filter_sublist.trans hsub).map _).subset hmem)
  refine ⟨?_, ?_, ?_⟩
  · refine ParentChain.linked_append.mpr ⟨hkept.linked, ?_⟩
    rw [or_none]
    have htruthy :
        truthy (kept.getLast?.map SessionEntry.id) = kept.getLast?.map SessionEntry.id := by
      cases hl : kept.getLast? with
      | none => rfl
      | some e => simp [truthy, hkept.id_ne_empty e (mem_of_getLast? hl)]
    rw [← htruthy]
    exact labelEntries_linked _ _ _ _ _
  · rw [branchedEntries, map_append]
    exact labelEntries_nodup _ _ _ _ _ hkept.nodup (fun j _ => hids j) hr.2
  · intro e he
    obtain he | he := mem_append.mp he
    · exact hkept.id_ne_empty e he
    · exact (labelEntries_id_cases _ _ _ _ _ e he).1

theorem buildSessionContext_of_branch (hs : LogInvariant s)
    (he : e ∈ s.getEntries)
    (hpath : s.getBranch (some e.id) = some path) :
    buildSessionContext s.getEntries (.id e.id) none = some (contextOfPath path) := by
  have hne : e.id ≠ "" := hs.id_ne_empty e he
  have hid : truthy (some e.id) = some e.id := by simp [truthy, hne]
  rw [SessionManager.getBranch, some_or, hid, bind_some, hs.get_byId he] at hpath
  simp [buildSessionContext, hne, ← hs.index, hs.get_byId he, buildSessionContext.fromLeaf, hpath]

theorem mem_references_iff :
    ref ∈ e.references ↔ e.parentId = some ref ∨
      ∃ data, e.body = .compaction data ∧ ref = data.firstKeptEntryId := by
  unfold SessionEntry.references
  cases e.body <;> simp

theorem branchPreserved_of_safe (hs : LogInvariant s) (he : e ∈ s.getEntries)
    (hr : r.FullUuidsUnused s) (hsafe : BranchSafe s e.id) : BranchPreserved s e.id r := by
  obtain ⟨path, hbranch, hlast, hkept⟩ := hsafe
  obtain ⟨path', hbranch', hpath, hsub, hend⟩ := hs.getBranch he
  obtain rfl : path' = path := some.inj (hbranch'.symm.trans hbranch)
  obtain ⟨hentries, hbyId, hleaf⟩ := branchedFrom_entries s r path'
  have hwf := branchedEntries_path hr hpath hsub hlast
  obtain ⟨hnewBranch, hnewContext⟩ := context_of_path hwf hbyId hleaf
  have hne : path' ≠ [] := by rintro rfl; simp at hend
  refine ⟨(s.branchedFrom r path').1, (s.branchedFrom r path').2, path', ?_, hbranch,
    ⟨_, buildSessionContext_of_branch hs he hbranch, ?_⟩, ⟨_, hnewBranch, ?_⟩, ?_⟩
  · rw [createBranchedSession, hbranch, map_some, if_neg hne]
  · -- both contexts are that of the path without its labels
    have hnodup : ((path'.filter (fun e => !e.isLabel)).map SessionEntry.id).Nodup :=
      hpath.nodup.sublist (filter_sublist.map _)
    have hold : contextOfPath path' = contextOfPath (path'.filter (fun e => !e.isLabel)) := by
      conv_lhs => rw [← hlast.filter_append]
      exact contextOfPath_append_labels hnodup (fun e he => (mem_filter.mp he).2)
    rw [hnewContext, hold, branchedEntries,
      contextOfPath_append_labels hnodup (branchLabels_isLabel _ _ _)]
  · exact labelEntries_body _ _ _ _ _
  · intro e' he' ref href hmem
    rw [entryIds, hentries]
    rw [hentries] at he'
    obtain hparent | ⟨data, hdata, rfl⟩ := mem_references_iff.mp href
    · exact hwf.linked.parent_mem he' hparent
    · obtain hmem' | hlabel := mem_append.mp he'
      · rw [branchedEntries, map_append]
        exact mem_append_left _
          (hkept e' (mem_of_mem_filter hmem') data hdata hmem)
      · have hcomp : e'.isCompaction = true := SessionEntry.isCompaction_iff.mpr ⟨data, hdata⟩
        rw [SessionEntry.isCompaction_of_isLabel (branchLabels_isLabel _ _ _ e' hlabel)] at hcomp
        cases hcomp

/-- A length no id of the session and no given id has. -/
def longLength (s : SessionManager) (x : String) : ℕ :=
  ((x :: s.entryIds).map String.toList).flatten.length

theorem length_le_longLength (s : SessionManager) (x : String) (h : id ∈ x :: s.entryIds) :
    id.toList.length ≤ s.longLength x :=
  (sublist_flatten_of_mem (mem_map_of_mem h)).length_le

/-- Draws whose `i`-th UUID repeats one character `9 + n + i` times. -/
def repeatDraw (c : Char) (n i : ℕ) : Uuid where
  text := String.ofList (List.replicate (9 + n + i) c)
  eight_lt := by rw [String.toList_ofList, List.length_replicate]; omega

theorem repeatDraw_length : (repeatDraw c n i).text.toList.length = 9 + n + i := by
  rw [repeatDraw, String.toList_ofList, length_replicate]

theorem repeatDraw_short : (repeatDraw c n i).short = String.ofList (List.replicate 8 c) := by
  rw [Uuid.short, repeatDraw, String.toList_ofList, take_replicate]
  congr 2
  omega

theorem exists_avoiding (s : SessionManager) (x : String) :
    ∃ r : BranchEntropy, r.FullUuidsUnused s ∧
      ∀ kept, x ∉ (s.branchLabels r kept).map SessionEntry.id := by
  obtain ⟨c, hc⟩ : ∃ c, String.ofList (List.replicate 8 c) ≠ x := by
    by_cases hx : String.ofList (List.replicate 8 '0') = x
    · exact ⟨'1', fun h => absurd (hx.trans h.symm) (by decide)⟩
    · exact ⟨'0', hx⟩
  let r : BranchEntropy :=
    { now := 0, sessionUuid := repeatDraw c 0 0
      labelDraw := fun i _ => repeatDraw c (s.longLength x) i }
  have hlong : ∀ i, ∀ id ∈ x :: s.entryIds, (r.labelDraw i 100).text ≠ id := by
    rintro i id hid rfl
    have hle := length_le_longLength s x hid
    rw [repeatDraw_length] at hle
    omega
  refine ⟨r, ⟨fun i hmem => hlong i _ (mem_cons_of_mem _ hmem) rfl, ?_⟩, ?_⟩
  · intro i j hij
    have hlen := congrArg (fun t => t.toList.length) hij
    simp only [r, repeatDraw_length] at hlen
    omega
  · intro kept hmem
    obtain ⟨e, he, rfl⟩ := mem_map.mp hmem
    obtain ⟨j, k, hjk⟩ | ⟨j, -, hj⟩ := (labelEntries_id_cases _ _ _ _ _ e he).2
    · exact hc (by rw [hjk]; exact (repeatDraw_short c _ j).symm)
    · exact hlong j e.id mem_cons_self hj.symm

theorem reference_copied (hbranch : s.getBranch (some id) = some path)
    (h : ∀ r : BranchEntropy, r.FullUuidsUnused s → BranchPreserved s id r) (he : e ∈ path)
    (hlabel : e.isLabel = false) (href : ref ∈ e.references) (hmem : ref ∈ s.entryIds) :
    ref ∈ (path.filter (fun e => !e.isLabel)).map SessionEntry.id := by
  obtain ⟨r, hr, havoid⟩ := exists_avoiding s ref
  obtain ⟨s', file, path', hcreate, hbranch', -, -, hrefs⟩ := h r hr
  obtain rfl : path = path' := some.inj (hbranch.symm.trans hbranch')
  have hne : path ≠ [] := ne_nil_of_mem he
  rw [createBranchedSession, hbranch, map_some, if_neg hne, some.injEq, Except.ok.injEq] at hcreate
  obtain ⟨hentries, -, -⟩ := branchedFrom_entries s r path
  rw [hcreate] at hentries
  have hcopied : e ∈ s'.getEntries := by
    rw [hentries]
    exact mem_append_left _ (mem_filter.mpr ⟨he, by simp [hlabel]⟩)
  have hin := hrefs e hcopied ref href hmem
  rw [entryIds, hentries, branchedEntries, map_append] at hin
  exact (mem_append.mp hin).resolve_right (havoid _)

/-- For every reachable state and every entry: the branched session preserves the branch,
whichever ids are drawn, exactly when labels come last on the path and the first kept
entries of its compactions are copied. -/
theorem createBranchedSession_preserves_iff {s : SessionManager} (hs : Reachable s) {id : String}
    (hid : id ∈ s.entryIds) :
    (∀ r : BranchEntropy, r.FullUuidsUnused s → BranchPreserved s id r) ↔ BranchSafe s id := by
  obtain ⟨leaf, hleaf, rfl⟩ := mem_map.mp hid
  refine ⟨fun h => ?_, fun h r hr => branchPreserved_of_safe hs.invariant hleaf hr h⟩
  obtain ⟨path, hbranch, hpath, hsub, -⟩ := hs.invariant.getBranch hleaf
  have hcopied : ∀ {e}, e ∈ path → e.isLabel = false → ∀ {ref}, ref ∈ e.references →
      ref ∈ s.entryIds → ref ∈ (path.filter (fun e => !e.isLabel)).map SessionEntry.id :=
    fun he hlabel _ href hmem => reference_copied hbranch h he hlabel href hmem
  refine ⟨path, hbranch, ?_, ?_⟩
  · by_contra hnot
    obtain ⟨xs, a, b, ys, rfl, ha, hb⟩ := exists_label_parent hnot
    have hparent : b.parentId = some a.id := hpath.linked.parent_eq
    have hmemA : a ∈ xs ++ a :: b :: ys := mem_append_right _ mem_cons_self
    have hin := hcopied (e := b) (by simp) hb (mem_references_iff.mpr (.inl hparent))
      (mem_map_of_mem (hsub.subset hmemA))
    obtain ⟨c, hc, hca⟩ := mem_map.mp hin
    -- ids are distinct, so the copied entry with the label's id would be the label
    obtain rfl : c = a :=
      inj_on_of_nodup_map hpath.nodup (mem_of_mem_filter hc) hmemA hca
    simp [ha] at hc
  · intro e he data hdata hmem
    have hlabel : e.isLabel = false := by simp [SessionEntry.isLabel, hdata]
    exact hcopied he hlabel (mem_references_iff.mpr (.inr ⟨data, hdata, rfl⟩)) hmem

def firstSession : SessionManager :=
  ((blank "/work" "/work/sessions" true).newSession ⟨none, none⟩ (uuidOf 0) 0).appendMessage
    (callOf 1) (userText "first")

/-- A message, a label on it, and a second message below the label. -/
def labelledSession : SessionManager :=
  ((firstSession.appendBody (callOf 2) (.label "10000001" (some "start"))).setLabel "10000001"
    (some "start") 2).appendMessage (callOf 3) (userText "second")

theorem firstSession_reachable : Reachable firstSession :=
  .step (.appendMessage (userText "first")) (callOf 1) (.new _ _ _ _ _ _) (by decide) rfl

theorem labelledSession_reachable : Reachable labelledSession :=
  .step (.appendMessage (userText "second")) (callOf 3)
    (.step (.appendLabelChange "10000001" (some "start")) (callOf 2) firstSession_reachable
      (by decide) rfl) (by decide) rfl

def labelledBranch : BranchEntropy :=
  { now := 4, sessionUuid := uuidOf 4, labelDraw := fun i _ => repeatDraw 'f' 27 i }

theorem labelledBranch_unused : labelledBranch.FullUuidsUnused labelledSession := by
  have hids : ∀ id ∈ labelledSession.entryIds, id.toList.length = 8 := by decide
  refine ⟨fun i hmem => ?_, fun i j hij => ?_⟩
  · have hlen := hids _ hmem
    rw [labelledBranch, repeatDraw_length] at hlen
    omega
  · have hlen := congrArg (fun t => t.toList.length) hij
    simp only [labelledBranch, repeatDraw_length] at hlen
    omega

/-- The second message's parent is the label, which is not copied: the first message is lost. -/
theorem labelledSession_not_preserved :
    Reachable labelledSession ∧ "10000003" ∈ labelledSession.entryIds ∧
      labelledBranch.FullUuidsUnused labelledSession ∧
      ¬ BranchPreserved labelledSession "10000003" labelledBranch := by
  refine ⟨labelledSession_reachable, by decide, labelledBranch_unused, ?_⟩
  rintro ⟨s', file, path, hcreate, -, ⟨context, hold, hnew⟩, -⟩
  have hbefore : (buildSessionContext labelledSession.getEntries (.id "10000003") none).map
      (fun c => c.messages.length) = some 2 := by decide
  have hafter : (labelledSession.createBranchedSession labelledBranch "10000003").map
      (fun result => result.toOption.bind (fun p => p.1.context.map (fun c => c.messages.length))) =
        some (some 1) := by decide
  rw [hcreate] at hafter
  simp only [map_some, Except.toOption, bind_some, hnew, some.injEq] at hafter
  rw [hold, map_some, some.injEq, hafter] at hbefore
  cases hbefore

/-- On a session of one message the branch is faithful. -/
theorem firstSession_preserves_iff :
    Reachable firstSession ∧ "10000001" ∈ firstSession.entryIds ∧
      ((∀ r : BranchEntropy, r.FullUuidsUnused firstSession →
        BranchPreserved firstSession "10000001" r) ↔ BranchSafe firstSession "10000001") :=
  ⟨firstSession_reachable, by decide,
    createBranchedSession_preserves_iff firstSession_reachable (by decide)⟩

end SessionManager

end Draht
