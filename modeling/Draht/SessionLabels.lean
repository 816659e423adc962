import Draht.GuardedRun
import Draht.SessionBranching
import Draht.SessionFile

/-!
# The label index

The two label maps of a session manager against the replay of the label entries of its log. Every
operation that replaces the log has to restore both maps; `newSession` restores one of them.
-/

namespace Draht

/-- The resolved labels and the times at which they were given. -/
structure LabelIndex where
  labels : OrderedMap String String
  timestamps : OrderedMap String ℕ

namespace LabelIndex

def empty : LabelIndex := ⟨.empty, .empty⟩

def write (l : LabelIndex) (targetId : String) (label : Option String) (timestamp : ℕ) :
    LabelIndex :=
  match truthy label with
  | some label => ⟨l.labels.set targetId label, l.timestamps.set targetId timestamp⟩
  | none => ⟨l.labels.delete targetId, l.timestamps.delete targetId⟩

def replayEntry (l : LabelIndex) (e : SessionEntry) : LabelIndex :=
  match e.body with
  | .label targetId label => l.write targetId label e.timestamp
  | _ => l

/-- The last label that an entry was given, unless that one is empty. -/
def replay (es : List SessionEntry) : LabelIndex := es.foldl replayEntry .empty

theorem replay_concat (es : List SessionEntry) (e : SessionEntry) :
    replay (es ++ [e]) = (replay es).replayEntry e := by
  rw [replay, List.foldl_append]
  rfl

theorem replayEntry_of_not_label (l : LabelIndex) {e : SessionEntry} (h : e.isLabel = false) :
    l.replayEntry e = l := by
  unfold replayEntry
  unfold SessionEntry.isLabel at h
  split
  · rename_i hbody
    simp [hbody] at h
  · rfl

def Paired (l : LabelIndex) : Prop := ∀ id, l.timestamps.has id = l.labels.has id

theorem Paired.write {l : LabelIndex} (h : l.Paired) (targetId : String) (label : Option String)
    (timestamp : ℕ) : (l.write targetId label timestamp).Paired := by
  intro id
  have hid := h id
  unfold OrderedMap.has at hid
  unfold LabelIndex.write
  split <;> by_cases htarget : targetId = id <;> simp [OrderedMap.has, htarget, hid]

theorem Paired.replayEntry {l : LabelIndex} (h : l.Paired) (e : SessionEntry) :
    (l.replayEntry e).Paired := by
  unfold LabelIndex.replayEntry
  split
  · exact h.write _ _ _
  · exact h

theorem replay_paired (es : List SessionEntry) : (replay es).Paired := by
  induction es using List.reverseRecOn with
  | nil => exact fun id => rfl
  | append_singleton es e ih =>
    rw [replay_concat]
    exact ih.replayEntry e

end LabelIndex

theorem OrderedMap.eq_empty_of_size {κ α : Type*} {m : OrderedMap κ α} (h : m.size = 0) :
    m = .empty := by
  obtain ⟨entries, nodup⟩ := m
  obtain rfl : entries = [] := List.length_eq_zero_iff.mp h
  rfl

namespace SessionManager

def labelIndex (s : SessionManager) : LabelIndex := ⟨s.labelsById, s.labelTimestampsById⟩

/-- The label maps are those that the label entries of the log give. -/
def LabelsReplayed (s : SessionManager) : Prop := s.labelIndex = .replay s.getEntries

variable {s s' : SessionManager} {en : Entropy}

theorem LabelsReplayed.congr (h : s.LabelsReplayed) (hlabels : s'.labelIndex = s.labelIndex)
    (hentries : s'.getEntries = s.getEntries) : s'.LabelsReplayed := by
  rw [LabelsReplayed, hlabels, hentries]
  exact h

theorem rewriteFile_labels (s : SessionManager) :
    s.rewriteFile.labelIndex = s.labelIndex ∧ s.rewriteFile.getEntries = s.getEntries := by
  unfold rewriteFile
  repeat' split
  all_goals exact ⟨rfl, rfl⟩

theorem persistEntry_labelIndex (s : SessionManager) (e : SessionEntry) :
    (s.persistEntry e).labelIndex = s.labelIndex := by
  unfold persistEntry
  repeat' split
  all_goals rfl

@[simp] theorem appendEntry_labelIndex (s : SessionManager) (e : SessionEntry) :
    (s.appendEntry e).labelIndex = s.labelIndex := persistEntry_labelIndex _ e

theorem setLabel_labels (s : SessionManager) (targetId : String) (label : Option String)
    (timestamp : ℕ) :
    (s.setLabel targetId label timestamp).labelIndex =
        s.labelIndex.write targetId label timestamp ∧
      (s.setLabel targetId label timestamp).getEntries = s.getEntries := by
  unfold setLabel LabelIndex.write
  cases truthy label <;> exact ⟨rfl, rfl⟩

theorem indexEntry_labelIndex (s : SessionManager) (e : SessionEntry) :
    (s.indexEntry e).labelIndex = s.labelIndex.replayEntry e := by
  unfold indexEntry LabelIndex.replayEntry LabelIndex.write
  cases e.body with
  | label targetId label =>
    dsimp only
    cases truthy label <;> rfl
  | _ => rfl

theorem foldl_indexEntry_labelIndex (s : SessionManager) (es : List SessionEntry) :
    (es.foldl indexEntry s).labelIndex = es.foldl LabelIndex.replayEntry s.labelIndex := by
  induction es generalizing s with
  | nil => rfl
  | cons e es ih => rw [List.foldl_cons, ih, indexEntry_labelIndex, List.foldl_cons]

theorem buildIndex_labels (s : SessionManager) : s.buildIndex.LabelsReplayed := by
  have hentries : s.buildIndex.getEntries = s.getEntries := by
    rw [getEntries, (buildIndex_log s).1, getEntries]
  rw [LabelsReplayed, hentries]
  exact foldl_indexEntry_labelIndex _ _

theorem newSession_labels_iff (s : SessionManager) (options : NewSessionOptions) (uuid : Uuid)
    (timestamp : ℕ) :
    (s.newSession options uuid timestamp).LabelsReplayed ↔ s.labelTimestampsById.size = 0 := by
  constructor
  · intro h
    have htimes : s.labelTimestampsById = .empty := congrArg LabelIndex.timestamps h
    rw [htimes]
    rfl
  · intro h
    rw [LabelsReplayed, labelIndex, newSession, OrderedMap.eq_empty_of_size h]
    rfl

theorem LabelsReplayed.appendEntry (h : s.LabelsReplayed) {e : SessionEntry}
    (he : e.isLabel = false) : (s.appendEntry e).LabelsReplayed := by
  rw [LabelsReplayed, appendEntry_labelIndex, getEntries_appendEntry, LabelIndex.replay_concat,
    LabelIndex.replayEntry_of_not_label _ he]
  exact h

theorem LabelsReplayed.appendLabelChange (h : s.LabelsReplayed) {targetId : String}
    {label : Option String} (hs : s.appendLabelChange en targetId label = .ok s') :
    s'.LabelsReplayed := by
  unfold SessionManager.appendLabelChange at hs
  split_ifs at hs
  cases hs
  obtain ⟨hlabels, hentries⟩ :=
    setLabel_labels (s.appendBody en (.label targetId label)) targetId label en.now
  rw [LabelsReplayed, hlabels, hentries, appendBody, appendEntry_labelIndex,
    getEntries_appendEntry, LabelIndex.replay_concat, h]
  rfl

theorem LabelsReplayed.apply (h : s.LabelsReplayed) {op : SessionOp} (hs : s.apply en op = .ok s') :
    s'.LabelsReplayed := by
  cases apply_cases hs with
  | append _ body hlabel =>
    refine h.appendEntry ?_
    cases body with
    | label targetId label => exact (hlabel targetId label rfl).elim
    | _ => rfl
  | label targetId label => exact h.appendLabelChange hs
  | move => exact h
  | summarize _ leaf =>
    have hmoved : { s with leafId := leaf }.LabelsReplayed := h
    exact hmoved.appendEntry rfl

theorem branchedFrom_labels (s : SessionManager) (r : BranchEntropy) (path : List SessionEntry) :
    (s.branchedFrom r path).1.LabelsReplayed := by
  have h : (s.branchedLog r path).LabelsReplayed := buildIndex_labels _
  unfold branchedFrom
  dsimp only
  split_ifs
  · obtain ⟨hlabels, hentries⟩ := rewriteFile_labels (s.branchedLog r path)
    exact h.congr hlabels hentries
  · exact h
  · exact h

theorem setSessionFile_labels (F : EntryFormat) (migrate : Migration) (s : SessionManager)
    (path : String) (content : Option JsText) (uuid : Uuid) (timestamp : ℕ)
    (h : content.all (fun content => F.loadEntriesFromFile content = []) = true →
      s.labelTimestampsById.size = 0) :
    (s.setSessionFile F migrate path content uuid timestamp).LabelsReplayed := by
  have hfresh : content.all (fun content => F.loadEntriesFromFile content = []) = true →
      { s.newSession ⟨none, none⟩ uuid timestamp with
        sessionFile := some path }.LabelsReplayed :=
    fun hcontent => (newSession_labels_iff s ⟨none, none⟩ uuid timestamp).mpr (h hcontent)
  unfold setSessionFile
  cases content with
  | none => exact hfresh rfl
  | some content =>
    by_cases hentries : F.loadEntriesFromFile content = []
    · simp only [hentries, if_true]
      obtain ⟨hlabels, hlog⟩ := rewriteFile_labels
        { s.newSession ⟨none, none⟩ uuid timestamp with sessionFile := some path }
      exact (hfresh (by simp [hentries])).congr hlabels hlog
    · simp only [hentries, if_false]
      exact buildIndex_labels _

end SessionManager

namespace FileSession

/-- A new session is started while no entry has a label. Opening a file starts one if there is no
such file, or nothing is loaded from it. -/
def StartsUnlabelled (F : EntryFormat) (s : FileSession) : FileSessionOp → Prop
  | .newSession _ _ _ => s.manager.labelTimestampsById.size = 0
  | .setSessionFile path _ _ =>
    (s.files path).all (fun content => F.loadEntriesFromFile content = []) = true →
      s.manager.labelTimestampsById.size = 0
  | .call _ _ => True
  | .createBranchedSession _ _ => True

instance (F : EntryFormat) (s : FileSession) : (op : FileSessionOp) →
    Decidable (StartsUnlabelled F s op)
  | .newSession _ _ _ => inferInstanceAs (Decidable (_ = _))
  | .setSessionFile _ _ _ => inferInstanceAs (Decidable (_ = true → _ = _))
  | .call _ _ => inferInstanceAs (Decidable True)
  | .createBranchedSession _ _ => inferInstanceAs (Decidable True)

theorem save_labels {F : EntryFormat} {files : SessionFiles} {m : SessionManager}
    (h : m.LabelsReplayed) : (save F files m).manager.LabelsReplayed := h

theorem step_labels {F : EntryFormat} {migrate : Migration} {s s' : FileSession}
    {op : FileSessionOp} (h : s.manager.LabelsReplayed) (hop : StartsUnlabelled F s op)
    (hs : step F migrate s op = some s') : s'.manager.LabelsReplayed := by
  cases step_cases hs with
  | newSession options uuid timestamp =>
    exact (SessionManager.newSession_labels_iff s.manager options uuid timestamp).mpr hop
  | setSessionFile path uuid timestamp =>
    exact SessionManager.setSessionFile_labels F migrate s.manager path _ uuid timestamp hop
  | call _ happly => exact save_labels (h.apply happly)
  | createBranchedSession entropy path =>
    exact save_labels (SessionManager.branchedFrom_labels s.manager entropy path)
  | throws => exact h

/-- In every run that starts new sessions only while no entry has a label, both label maps are the
replay of the log, and exactly the labelled entries have a time. -/
theorem labels_replayed (F : EntryFormat) (migrate : Migration) (cwd sessionDir : String)
    (persist : Bool) (files : SessionFiles) {steps : List (Transition FileSession FileSessionOp)}
    {s : FileSession}
    (h : GuardedRun (step F migrate) (StartsUnlabelled F) (start cwd sessionDir persist files)
      steps s) :
    s.manager.labelIndex = .replay s.manager.getEntries ∧
      ∀ id, s.manager.labelTimestampsById.has id = s.manager.labelsById.has id := by
  have hreplayed : s.manager.LabelsReplayed :=
    h.invariant (I := fun s => s.manager.LabelsReplayed) rfl fun _ _ _ hI hop hs =>
      step_labels hI hop hs
  have hpaired := LabelIndex.replay_paired s.manager.getEntries
  rw [← hreplayed] at hpaired
  exact ⟨hreplayed, hpaired⟩

def unwritten : EntryFormat := ⟨fun _ => [], fun _ => none⟩

def labelledMessage : List FileSessionOp :=
  [.newSession ⟨none, none⟩ (SessionManager.uuidOf 0) 0,
   .call (SessionManager.callOf 1) (.appendMessage (SessionManager.userText "hello")),
   .call (SessionManager.callOf 2) (.appendLabelChange "10000001" (some "greeting"))]

theorem labels_replayed_branched :
    ∃ steps s,
      GuardedRun (step unwritten fun _ => none) (StartsUnlabelled unwritten)
        (start "/w" "/sessions" false fun _ => none) steps s ∧
      s.manager.labelsById.get "10000001" = some "greeting" ∧
      s.manager.labelIndex = .replay s.manager.getEntries ∧
      ∀ id, s.manager.labelTimestampsById.has id = s.manager.labelsById.has id := by
  obtain ⟨steps, s, hrun, hlabel⟩ :=
    GuardedRun.exists_of_play (step unwritten fun _ => none) (StartsUnlabelled unwritten)
      (start "/w" "/sessions" false fun _ => none)
      (labelledMessage ++
        [.createBranchedSession
          ⟨3, SessionManager.uuidOf 3, fun i _ => SessionManager.uuidOf (4 + i)⟩ "10000001"])
      (fun _ s => s.manager.labelsById.get "10000001" = some "greeting") (by decide +kernel)
  exact ⟨steps, s, hrun, hlabel,
    labels_replayed unwritten (fun _ => none) "/w" "/sessions" false (fun _ => none) hrun⟩

/-- After the message is labelled, a new session has a time for an entry that it does not have. -/
theorem newSession_keeps_labelTime :
    ∃ steps s,
      GuardedRun (step unwritten fun _ => none) (fun _ _ => True)
        (start "/w" "/sessions" false fun _ => none) steps s ∧
      s.manager.getEntries = [] ∧ s.manager.labelTimestampsById.has "10000001" = true ∧
      s.manager.labelIndex ≠ .replay s.manager.getEntries := by
  obtain ⟨steps, s, hrun, hentries, htime⟩ :=
    GuardedRun.exists_of_play (step unwritten fun _ => none) (fun _ _ => True)
      (start "/w" "/sessions" false fun _ => none)
      (labelledMessage ++ [.newSession ⟨none, none⟩ (SessionManager.uuidOf 3) 3])
      (fun _ s => s.manager.getEntries = [] ∧
        s.manager.labelTimestampsById.has "10000001" = true) (by decide +kernel)
  refine ⟨steps, s, hrun, hentries, htime, fun h => ?_⟩
  have hempty : s.manager.labelTimestampsById = .empty := by
    rw [hentries] at h
    exact congrArg LabelIndex.timestamps h
  rw [hempty] at htime
  exact absurd htime (by decide)

end FileSession

end Draht
