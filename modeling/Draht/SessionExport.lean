import Draht.SessionRefinement

/-!
# Exporting a branch

`exportToJsonl` writes the current branch as a file of its own. The entries are chained anew, and
what else they name is kept: the first entry that a compaction keeps, the entry that a label is on,
the entry that a summary was made at.
-/

namespace Draht
open List Option

/-- The loop that re-chains the parents to form a linear sequence. -/
def rechain : Option String → List SessionEntry → List SessionEntry
  | _, [] => []
  | prevId, entry :: branchEntries =>
    { entry with parentId := prevId } :: rechain (some entry.id) branchEntries

namespace SessionManager

def exportHeader (s : SessionManager) (timestamp : ℕ) : SessionHeader :=
  { version := some CURRENT_SESSION_VERSION, id := s.sessionId, timestamp := timestamp
    cwd := s.cwd, parentSession := none }

def exportEntries (s : SessionManager) (timestamp : ℕ) : Option (List FileEntry) :=
  (s.getBranch none).map fun branchEntries =>
    .session (s.exportHeader timestamp) :: (rechain none branchEntries).map .entry

/-- The text that `exportToJsonl` writes; `none` stands for a walk that does not return. -/
def exportToJsonl (F : EntryFormat) (s : SessionManager) (timestamp : ℕ) : Option JsText :=
  (s.exportEntries timestamp).map fun entries =>
    List.intercalate [10] (entries.map F.stringify) ++ [10]

end SessionManager

def SessionEntry.named (e : SessionEntry) : List String :=
  match e.body with
  | .compaction data => [data.firstKeptEntryId]
  | .label targetId _ => [targetId]
  | .branchSummary data => if data.fromId = "root" then [] else [data.fromId]
  | _ => []

/-- Each entry is the parent of the next, the ids are distinct, and what is named is there. -/
structure LinearChain (es : List SessionEntry) : Prop where
  linked : ParentChain.Linked SessionEntry.id SessionEntry.parentId none es
  nodup : (es.map SessionEntry.id).Nodup
  closed : ∀ e ∈ es, ∀ id ∈ e.parentId.toList ++ e.named, id ∈ es.map SessionEntry.id

def SessionEntry.orphan (e : SessionEntry) : SessionEntry := { e with parentId := none }

/-- The exported file loads as a linear chain of the entries of the branch, with the context that
they have in the session. -/
def ExportRoundTrips (F : EntryFormat) (s : SessionManager) (timestamp : ℕ) : Prop :=
  ∃ branch text header es, s.getBranch none = some branch ∧
    s.exportToJsonl F timestamp = some text ∧
    F.loadEntriesFromFile text = .session header :: es.map .entry ∧
    es.map SessionEntry.orphan = branch.map SessionEntry.orphan ∧ LinearChain es ∧
    buildSessionContext es .undefined none = some (contextOfPath branch) ∧
    (s.leafId ≠ some "" → s.context = some (contextOfPath branch))

variable (prevId : Option String) (path : List SessionEntry)

theorem ids_rechain (es : List SessionEntry) :
    (rechain prevId es).map SessionEntry.id = es.map SessionEntry.id := by
  induction es generalizing prevId with
  | nil => rfl
  | cons e es ih => rw [rechain, map_cons, map_cons, ih]

theorem orphan_rechain (es : List SessionEntry) :
    (rechain prevId es).map SessionEntry.orphan = es.map SessionEntry.orphan := by
  induction es generalizing prevId with
  | nil => rfl
  | cons e es ih =>
    rw [rechain, map_cons, map_cons, ih]
    rfl

theorem linked_rechain (es : List SessionEntry) :
    ParentChain.Linked SessionEntry.id SessionEntry.parentId prevId (rechain prevId es) := by
  induction es generalizing prevId with
  | nil => trivial
  | cons e es ih => exact ⟨rfl, ih (some e.id)⟩

theorem forall_named_rechain {P : String → Prop} (es : List SessionEntry) :
    (∀ e ∈ rechain prevId es, ∀ id ∈ e.named, P id) ↔ ∀ e ∈ es, ∀ id ∈ e.named, P id := by
  induction es generalizing prevId with
  | nil => exact Iff.rfl
  | cons e es ih =>
    rw [rechain, forall_mem_cons, forall_mem_cons, ih]
    rfl

variable {es : List SessionEntry}

theorem linearChain_rechain_iff
    (hnodup : (es.map SessionEntry.id).Nodup) :
    LinearChain (rechain none es) ↔
      ∀ e ∈ es, ∀ id ∈ e.named, id ∈ es.map SessionEntry.id := by
  have hlinked := linked_rechain none es
  constructor
  · intro h
    refine (forall_named_rechain none es).mp fun e he id hid => ?_
    rw [← ids_rechain none es]
    exact h.closed e he id (mem_append_right _ hid)
  · intro h
    refine ⟨hlinked, by rwa [ids_rechain], fun e he id hid => ?_⟩
    obtain hid | hid := mem_append.mp hid
    · exact hlinked.parent_mem he (mem_toList.mp hid)
    · rw [ids_rechain]
      exact (forall_named_rechain none es).mpr h e he id hid

def PathSettings.orphan (s : PathSettings) : PathSettings :=
  { s with compaction := s.compaction.map fun c => (c.1.orphan, c.2) }

theorem visit_orphan (s : PathSettings) (e : SessionEntry) :
    s.orphan.visit e.orphan = (s.visit e).orphan := by
  obtain ⟨id, parentId, timestamp, body⟩ := e
  cases body with
  | message m => cases m <;> rfl
  | _ => rfl

theorem pathSettings_orphan :
    pathSettings (path.map SessionEntry.orphan) = (pathSettings path).orphan := by
  have hfold (s : PathSettings) : (path.map SessionEntry.orphan).foldl PathSettings.visit s.orphan =
      (path.foldl PathSettings.visit s).orphan := by
    induction path generalizing s with
    | nil => rfl
    | cons e path ih => rw [map_cons, foldl_cons, visit_orphan, ih, foldl_cons]
  exact hfold { thinkingLevel := "off", model := none, compaction := none }

theorem contextMessages_orphan (c : Option (SessionEntry × CompactionData)) :
    contextMessages (path.map SessionEntry.orphan) (c.map fun c => (c.1.orphan, c.2)) =
      contextMessages path c := by
  have hmessages (es : List SessionEntry) :
      (es.map SessionEntry.orphan).filterMap contextMessage? = es.filterMap contextMessage? := by
    rw [filterMap_map]
    rfl
  cases c with
  | none => exact hmessages path
  | some c =>
    have hidx : (path.map SessionEntry.orphan).findIdx
        (fun e => e.isCompaction && e.id == c.1.orphan.id) =
          path.findIdx fun e => e.isCompaction && e.id == c.1.id := by
      rw [findIdx_map]
      rfl
    have hkept (es : List SessionEntry) : keptFrom c.2.firstKeptEntryId
        (es.map SessionEntry.orphan) =
          (keptFrom c.2.firstKeptEntryId es).map SessionEntry.orphan := by
      rw [keptFrom, dropWhile_map]
      rfl
    simp only [map_some, contextMessages, hidx, ← map_take, ← map_drop, hkept, hmessages]
    rfl

theorem contextOfPath_orphan :
    contextOfPath (path.map SessionEntry.orphan) = contextOfPath path := by
  simp [contextOfPath, pathSettings_orphan, PathSettings.orphan, contextMessages_orphan]

theorem contextOfPath_rechain (es : List SessionEntry) :
    contextOfPath (rechain none es) = contextOfPath es := by
  rw [← contextOfPath_orphan, orphan_rechain, contextOfPath_orphan]

theorem buildSessionContext_rechain
    (hnodup : (es.map SessionEntry.id).Nodup) (hne : ∀ e ∈ es, e.id ≠ "") :
    buildSessionContext (rechain none es) .undefined none = some (contextOfPath es) := by
  have hpath : WellFormedPath (rechain none es) := by
    refine ⟨linked_rechain none es, by rwa [ids_rechain], fun e he hid => ?_⟩
    have hmem : e.id ∈ es.map SessionEntry.id :=
      ids_rechain none es ▸ mem_map_of_mem he
    obtain ⟨e', he', hid'⟩ := mem_map.mp hmem
    exact hne e' he' (hid'.trans hid)
  cases es with
  | nil => rfl
  | cons e es =>
    rw [hpath.buildSessionContext_eq (cons_ne_nil _ _), contextOfPath_rechain]

theorem intercalate_lines {F : EntryFormat} {entries : List FileEntry} (h : entries ≠ []) :
    List.intercalate [10] (entries.map F.stringify) ++ [10] = entries.flatMap F.line := by
  induction entries with
  | nil => exact absurd rfl h
  | cons e entries ih =>
    cases entries with
    | nil => simp [EntryFormat.line]
    | cons e' entries =>
      have hrest := ih (cons_ne_nil _ _)
      rw [map_cons] at hrest
      rw [map_cons, map_cons, intercalate_cons_cons, append_assoc, hrest]
      rfl

variable {timestamp : ℕ} {header : SessionHeader}

theorem exportToJsonl_loads {F : EntryFormat} {s : SessionManager}
    (hentries : s.exportEntries timestamp = some (.session header :: es.map .entry))
    (hread : ∀ e ∈ .session header :: es.map .entry, F.ReadsBack e) :
    ∃ text, s.exportToJsonl F timestamp = some text ∧
      F.loadEntriesFromFile text = .session header :: es.map .entry := by
  refine ⟨_, by rw [SessionManager.exportToJsonl, hentries, map_some], ?_⟩
  rw [intercalate_lines (cons_ne_nil _ _), EntryFormat.loadEntriesFromFile,
    (EntryFormat.settled_lines hread).parsed]
  rfl

theorem ExportRoundTrips.linearChain {F : EntryFormat} {s : SessionManager}
    (h : ExportRoundTrips F s timestamp)
    (hentries : s.exportEntries timestamp = some (.session header :: es.map .entry))
    (hread : ∀ e ∈ .session header :: es.map .entry, F.ReadsBack e) : LinearChain es := by
  obtain ⟨_, text, header', es', -, htext, hload, -, hchain, -⟩ := h
  obtain ⟨text', htext', hload'⟩ := exportToJsonl_loads hentries hread
  obtain rfl := some.inj (htext.symm.trans htext')
  have hlists := (cons.inj (hload.symm.trans hload')).2
  obtain rfl : es' = es :=
    map_injective_iff.mpr (fun _ _ => FileEntry.entry.inj) hlists
  exact hchain

namespace SessionManager

/-- Entries are found under their own ids, and the leaf is found. -/
structure Indexed (s : SessionManager) : Prop where
  keyed : ∀ id e, s.byId.get id = some e → e.id = id
  leaf : ∀ id, s.leafId = some id → ∃ e, s.byId.get id = some e

theorem Indexed.congr {s s' : SessionManager} (h : s.Indexed) (hbyId : s'.byId = s.byId)
    (hleaf : s'.leafId = s.leafId) : s'.Indexed :=
  ⟨by rw [hbyId]; exact h.keyed, by rw [hbyId, hleaf]; exact h.leaf⟩

theorem indexed_of_empty {s : SessionManager} (hbyId : s.byId = .empty)
    (hleaf : s.leafId = none) : s.Indexed := by
  refine ⟨fun id e hget => ?_, fun id hid => ?_⟩
  · rw [hbyId] at hget
    cases hget
  · rw [hleaf] at hid
    cases hid

theorem Indexed.appendEntry {s : SessionManager}
    (h : ∀ id e, s.byId.get id = some e → e.id = id) (e : SessionEntry) :
    (s.appendEntry e).Indexed := by
  obtain ⟨-, hbyId, hleaf⟩ := persistEntry_log
    { s with fileEntries := s.fileEntries ++ [.entry e], byId := s.byId.set e.id e,
             leafId := some e.id } e
  refine Indexed.congr (s := { s with byId := s.byId.set e.id e, leafId := some e.id })
    ⟨fun id e' hget => ?_, fun id hid => ?_⟩ hbyId hleaf
  · rw [OrderedMap.get_set] at hget
    split_ifs at hget with hid
    · cases hget
      exact hid
    · exact h id e' hget
  · cases hid
    exact ⟨e, by rw [OrderedMap.get_set, if_pos rfl]⟩

theorem buildIndex_indexed (s : SessionManager) : s.buildIndex.Indexed := by
  obtain ⟨-, hbyId, hleaf⟩ := buildIndex_log s
  have hindex (es : List SessionEntry) :
      (∀ id e, (indexById es).get id = some e → e.id = id) ∧
        ∀ id, es.getLast?.map SessionEntry.id = some id → ∃ e, (indexById es).get id = some e := by
    induction es using reverseRecOn with
    | nil => exact ⟨fun _ _ h => (nomatch h), fun _ h => (nomatch h)⟩
    | append_singleton es e ih =>
      rw [indexById_concat, getLast?_concat]
      refine ⟨fun id e' hget => ?_, fun id hid => ?_⟩
      · rw [OrderedMap.get_set] at hget
        split_ifs at hget with hid
        · cases hget
          exact hid
        · exact ih.1 id e' hget
      · cases hid
        exact ⟨e, by rw [OrderedMap.get_set, if_pos rfl]⟩
  exact ⟨by rw [hbyId]; exact (hindex _).1, by rw [hbyId, hleaf]; exact (hindex _).2⟩

theorem Indexed.apply {s s' : SessionManager} (h : s.Indexed) {en : Entropy} {op : SessionOp}
    (hs : s.apply en op = .ok s') : s'.Indexed := by
  cases apply_cases hs with
  | append _ body => exact Indexed.appendEntry h.keyed _
  | label targetId label =>
    obtain ⟨-, hbyId, hleaf⟩ := setLabel_log (s.appendBody en (.label targetId label)) targetId
      label en.now
    exact (Indexed.appendEntry h.keyed _).congr hbyId hleaf
  | move _ leaf hknown =>
    exact ⟨h.keyed, fun id hid => isSome_iff_exists.mp (hknown id hid)⟩
  | summarize _ leaf => exact Indexed.appendEntry h.keyed _

theorem branchedFrom_indexed (s : SessionManager) (r : BranchEntropy) (path : List SessionEntry) :
    (s.branchedFrom r path).1.Indexed := by
  obtain ⟨-, hbyId, hleaf⟩ := branchedFrom_log s r path
  exact Indexed.congr (buildIndex_indexed _) hbyId hleaf

theorem setSessionFile_indexed (F : EntryFormat) (migrate : Migration) (s : SessionManager)
    (path : String) (content : Option JsText) (uuid : Uuid) (timestamp : ℕ) :
    (s.setSessionFile F migrate path content uuid timestamp).Indexed := by
  unfold setSessionFile
  cases content with
  | none => exact indexed_of_empty rfl rfl
  | some content =>
    dsimp only
    split_ifs
    · obtain ⟨-, hbyId, hleaf⟩ := rewriteFile_log
        { s.newSession ⟨none, none⟩ uuid timestamp with sessionFile := some path }
      exact indexed_of_empty hbyId hleaf
    · exact Indexed.congr (buildIndex_indexed _) rfl rfl

variable {branch : List SessionEntry}

theorem Indexed.getBranch {s : SessionManager} (h : s.Indexed)
    (hbranch : s.getBranch none = some branch) :
    (branch.map SessionEntry.id).Nodup ∧ ∀ e ∈ branch, e.id ≠ "" := by
  have hfound : ∀ e ∈ branch, s.byId.get e.id = some e ∧ e.id ≠ "" := by
    have hget (o : Option String) (e : SessionEntry)
        (he : (o.filter fun x => x ≠ "").bind s.byId.get = some e) :
        s.byId.get e.id = some e ∧ e.id ≠ "" := by
      obtain ⟨id, hid, hget⟩ := bind_eq_some_iff.mp he
      obtain ⟨-, hne⟩ := filter_eq_some_iff.mp hid
      rw [h.keyed id e hget]
      exact ⟨hget, of_decide_eq_true hne⟩
    exact ParentChain.climb_forall (fun a b hb => hget a.parentId b hb)
      (fun a ha => hget (Option.none.or s.leafId) a ha) hbranch
  refine ⟨(ParentChain.climb_nodup hbranch).map_on fun e he e' he' hid => ?_,
    fun e he => (hfound e he).2⟩
  have hsame := (hfound e he).1
  rw [hid, (hfound e' he').1] at hsame
  exact (some.inj hsame).symm

theorem Indexed.context {s : SessionManager} (h : s.Indexed)
    (hbranch : s.getBranch none = some branch) (hleaf : s.leafId ≠ some "") :
    s.context = some (contextOfPath branch) := by
  rw [SessionManager.getBranch, none_or] at hbranch
  unfold SessionManager.context
  cases hid : s.leafId with
  | none =>
    rw [hid] at hbranch
    cases hbranch
    rfl
  | some id =>
    have hne : id ≠ "" := fun heq => hleaf (by rw [hid, heq])
    obtain ⟨e, he⟩ := h.leaf id hid
    have htruthy : truthy (some id) = some id := by simp [truthy, hne]
    rw [hid, htruthy, bind_some, he] at hbranch
    simp [buildSessionContext, hne, he, buildSessionContext.fromLeaf, hbranch]

end SessionManager

namespace FileSession

variable {F : EntryFormat} {migrate : Migration} {s s' : FileSession}

theorem step_indexed {op : FileSessionOp} (h : s.manager.Indexed)
    (hs : step F migrate s op = some s') : s'.manager.Indexed := by
  have hsave {m : SessionManager} (hm : m.Indexed) : (save F s.files m).manager.Indexed :=
    hm.congr rfl rfl
  cases step_cases hs with
  | newSession => exact SessionManager.indexed_of_empty rfl rfl
  | setSessionFile path uuid timestamp =>
    exact hsave (SessionManager.setSessionFile_indexed F migrate s.manager path _ uuid timestamp)
  | call _ happly => exact hsave (h.apply happly)
  | createBranchedSession entropy path =>
    exact hsave (SessionManager.branchedFrom_indexed s.manager entropy path)
  | throws => exact h

/-- In every session that is reached, the exported file of a branch makes the round trip exactly
when the walk to its root ends and what its entries name is on the branch. -/
theorem exportRoundTrips_iff (F : EntryFormat) (migrate : Migration) (cwd sessionDir : String)
    (persist : Bool) (files : SessionFiles) {steps : List (Transition FileSession FileSessionOp)}
    {s : FileSession}
    (h : GuardedRun (step F migrate) (fun _ _ => True) (start cwd sessionDir persist files) steps s)
    (timestamp : ℕ)
    (hread : ∀ entries, s.manager.exportEntries timestamp = some entries →
      ∀ e ∈ entries, F.ReadsBack e) :
    ExportRoundTrips F s.manager timestamp ↔
      ∃ branch, s.manager.getBranch none = some branch ∧
        ∀ e ∈ branch, ∀ id ∈ e.named, id ∈ branch.map SessionEntry.id := by
  have hindexed : s.manager.Indexed :=
    h.invariant (I := fun s => s.manager.Indexed) (SessionManager.indexed_of_empty rfl rfl)
      fun _ _ _ hI _ hs => step_indexed hI hs
  have hexported {branch : List SessionEntry} (hbranch : s.manager.getBranch none = some branch) :
      s.manager.exportEntries timestamp =
        some (.session (s.manager.exportHeader timestamp) :: (rechain none branch).map .entry) := by
    rw [SessionManager.exportEntries, hbranch, map_some]
  constructor
  · intro hround
    have ⟨branch, _, _, _, hbranch, _⟩ := hround
    have hentries := hexported hbranch
    exact ⟨branch, hbranch, (linearChain_rechain_iff (hindexed.getBranch hbranch).1).mp
      (hround.linearChain hentries (hread _ hentries))⟩
  · rintro ⟨branch, hbranch, hnamed⟩
    obtain ⟨hnodup, hne⟩ := hindexed.getBranch hbranch
    have hentries := hexported hbranch
    obtain ⟨text, htext, hload⟩ := exportToJsonl_loads hentries (hread _ hentries)
    exact ⟨branch, text, _, rechain none branch, hbranch, htext, hload, orphan_rechain none branch,
      (linearChain_rechain_iff hnodup).mpr hnamed, buildSessionContext_rechain hnodup hne,
      hindexed.context hbranch⟩

def firstQuestion : SessionEntry :=
  { id := "10000001", parentId := none, timestamp := 1
    body := .message (SessionManager.userText "first") }

def labelOn (targetId : String) : SessionEntry :=
  { id := "10000003", parentId := some "10000001", timestamp := 3
    body := .label targetId (some "start") }

def firstQuestionText : JsText :=
  utf16 "\x7b\"type\":\"message\",\"id\":\"10000001\",\"parentId\":null,\"timestamp\":" ++
    utf16 "\"1970-01-01T00:00:00.001Z\",\"message\":\x7b\"role\":\"user\"," ++
    utf16 "\"content\":\"first\",\"timestamp\":0\x7d\x7d"

def labelText (targetId : String) : JsText :=
  utf16 "\x7b\"type\":\"label\",\"id\":\"10000003\",\"parentId\":\"10000001\"," ++
    utf16 "\"timestamp\":\"1970-01-01T00:00:00.003Z\",\"targetId\":\"" ++ utf16 targetId ++
    utf16 "\",\"label\":\"start\"\x7d"

def exportFormat : EntryFormat := tableFormat
  [(savedHeader, savedHeaderText), (.entry firstQuestion, firstQuestionText),
    (.entry (labelOn "10000001"), labelText "10000001"),
    (.entry (labelOn "10000002"), labelText "10000002")]

theorem exportFormat_readsBack {e : FileEntry}
    (he : e ∈ [savedHeader, .entry firstQuestion, .entry (labelOn "10000001"),
      .entry (labelOn "10000002")]) : exportFormat.ReadsBack e := by
  have hall : ∀ e ∈ [savedHeader, .entry firstQuestion, .entry (labelOn "10000001"),
      .entry (labelOn "10000002")],
      exportFormat.stringify e = 0x7B :: ((exportFormat.stringify e).tail.dropLast ++ [0x7D]) ∧
        10 ∉ exportFormat.stringify e ∧
        exportFormat.parse (exportFormat.stringify e) = some e := by
    repeat rw [utf16_ofList]
    decide +kernel
  obtain ⟨htext, hline, hparse⟩ := hall e he
  exact tableFormat_readsBack htext hline hparse

/-- Two questions are asked; the label is set while the session is at the first. -/
def labelFromFirst (targetId : String) : List FileSessionOp :=
  [.newSession ⟨some "s1", none⟩ (SessionManager.uuidOf 0) 0,
   .call (SessionManager.callOf 1) (.appendMessage (SessionManager.userText "first")),
   .call (SessionManager.callOf 2) (.appendMessage (SessionManager.userText "second")),
   .call (SessionManager.callOf 3) (.branch "10000001"),
   .call (SessionManager.callOf 3) (.appendLabelChange targetId (some "start"))]

theorem labelFromFirst_run (targetId : String) (h : targetId ∈ ["10000001", "10000002"]) :
    ∃ steps s, GuardedRun (step exportFormat fun _ => none) (fun _ _ => True)
        (start "/w" "" false fun _ => none) steps s ∧
      s.manager.exportEntries 0 =
        some [savedHeader, .entry firstQuestion, .entry (labelOn targetId)] ∧
      ∀ e ∈ [savedHeader, .entry firstQuestion, .entry (labelOn targetId)],
        exportFormat.ReadsBack e := by
  have hplay : ∀ targetId ∈ ["10000001", "10000002"],
      (GuardedRun.play (step exportFormat fun _ => none) (fun _ _ => True) []
        (start "/w" "" false fun _ => none) (labelFromFirst targetId)).any
        (fun out => out.2.manager.exportEntries 0 =
          some [savedHeader, .entry firstQuestion, .entry (labelOn targetId)]) = true := by
    decide +kernel
  obtain ⟨steps, s, hrun, hentries⟩ := GuardedRun.exists_of_play (step exportFormat fun _ => none)
    (fun _ _ => True) (start "/w" "" false fun _ => none) (labelFromFirst targetId)
    (fun _ s => s.manager.exportEntries 0 =
      some [savedHeader, .entry firstQuestion, .entry (labelOn targetId)]) (hplay targetId h)
  have hall : ∀ targetId ∈ ["10000001", "10000002"], ∀ e ∈ [savedHeader, .entry firstQuestion,
      .entry (labelOn targetId)], e ∈ [savedHeader, .entry firstQuestion,
        .entry (labelOn "10000001"), .entry (labelOn "10000002")] := by decide
  exact ⟨steps, s, hrun, hentries, fun e he => exportFormat_readsBack (hall targetId h e he)⟩

/-- A label on an entry of another branch names an entry that the exported file does not have. -/
theorem otherBranch_not_exported :
    ∃ steps s, GuardedRun (step exportFormat fun _ => none) (fun _ _ => True)
        (start "/w" "" false fun _ => none) steps s ∧
      (∀ entries, s.manager.exportEntries 0 = some entries →
        ∀ e ∈ entries, exportFormat.ReadsBack e) ∧
      ¬ExportRoundTrips exportFormat s.manager 0 := by
  obtain ⟨steps, s, hrun, hentries, hread⟩ := labelFromFirst_run "10000002" (by decide)
  refine ⟨steps, s, hrun, fun entries h => ?_, fun hround => ?_⟩
  · obtain rfl := some.inj (hentries.symm.trans h)
    exact hread
  · have hchain : LinearChain [firstQuestion, labelOn "10000002"] :=
      hround.linearChain hentries hread
    exact absurd (hchain.closed (labelOn "10000002") (by decide) "10000002" (by decide)) (by decide)

theorem sameBranch_exported_iff :
    ∃ steps s, GuardedRun (step exportFormat fun _ => none) (fun _ _ => True)
        (start "/w" "" false fun _ => none) steps s ∧
      s.manager.exportEntries 0 =
        some [savedHeader, .entry firstQuestion, .entry (labelOn "10000001")] ∧
      (ExportRoundTrips exportFormat s.manager 0 ↔
        ∃ branch, s.manager.getBranch none = some branch ∧
          ∀ e ∈ branch, ∀ id ∈ e.named, id ∈ branch.map SessionEntry.id) := by
  obtain ⟨steps, s, hrun, hentries, hread⟩ := labelFromFirst_run "10000001" (by decide)
  refine ⟨steps, s, hrun, hentries, exportRoundTrips_iff exportFormat (fun _ => none) "/w" "" false
    (fun _ => none) hrun 0 fun entries h => ?_⟩
  obtain rfl := some.inj (hentries.symm.trans h)
  exact hread

end FileSession

end Draht
