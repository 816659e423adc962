import Draht.CompactionHandover
import Draht.FileTracking

/-!
# File lists over successive compactions

A compaction stores two lists with its entry, and the next one on the path starts from them. Over
any sequence of compactions the lists are those of all messages summarised so far.
-/

namespace Draht
open List

def JsonArray.ofStrings : List String → JsonArray
  | [] => .nil
  | s :: strings => .cons (.string s) (.ofStrings strings)

@[simp] theorem JsonArray.strings_ofStrings (strings : List String) :
    (JsonArray.ofStrings strings).strings = strings := by
  induction strings with
  | nil => rfl
  | cons s strings ih => rw [ofStrings, JsonArray.strings, ih]

def CompactionDetails.toJson (details : CompactionDetails) : Json :=
  .object (.cons "readFiles" (.array (.ofStrings details.readFiles))
    (.cons "modifiedFiles" (.array (.ofStrings details.modifiedFiles)) .nil))

@[simp] theorem detailPaths_readFiles (details : CompactionDetails) :
    detailPaths details.toJson "readFiles" = details.readFiles :=
  JsonArray.strings_ofStrings details.readFiles

@[simp] theorem detailPaths_modifiedFiles (details : CompactionDetails) :
    detailPaths details.toJson "modifiedFiles" = details.modifiedFiles :=
  JsonArray.strings_ofStrings details.modifiedFiles

theorem mem_files_extractFileOperations_none (messages : List AgentMessage) (tool : FileTool)
    (f : String) :
    f ∈ (extractFileOperations messages none).files tool ↔ ∃ m ∈ messages, m.Touches tool f := by
  have hops : extractFileOperations messages none =
      messages.foldl extractFileOpsFromMessage createFileOps := rfl
  rw [hops, mem_files_foldl_message]
  exact or_iff_right mem_files_createFileOps

theorem mem_files_extractFileOperations_details {data : CompactionData}
    {details : CompactionDetails} (hdetails : data.details = some details.toJson)
    (hhook : data.fromHook ≠ some true) (messages : List AgentMessage) (f : String) :
    (f ∈ (extractFileOperations messages (some data)).files .read ↔
      f ∈ details.readFiles ∨ ∃ m ∈ messages, m.Touches .read f) ∧
    (f ∈ (extractFileOperations messages (some data)).files .write ↔
      ∃ m ∈ messages, m.Touches .write f) ∧
    (f ∈ (extractFileOperations messages (some data)).files .edit ↔
      f ∈ details.modifiedFiles ∨ ∃ m ∈ messages, m.Touches .edit f) := by
  obtain ⟨summary, firstKeptEntryId, tokensBefore, stored, fromHook, firstKeptEntryIndex⟩ := data
  obtain rfl : stored = some details.toJson := hdetails
  have hops : extractFileOperations messages (some ⟨summary, firstKeptEntryId, tokensBefore,
      some details.toJson, fromHook, firstKeptEntryIndex⟩) =
      messages.foldl extractFileOpsFromMessage
        { createFileOps with
          read := (detailPaths details.toJson "readFiles").foldl (fun paths f => addPath f paths) []
          edited := (detailPaths details.toJson "modifiedFiles").foldl
            (fun paths f => addPath f paths) [] } := by
    match fromHook, hhook with
    | none, _ => rfl
    | some false, _ => rfl
    | some true, hhook => exact absurd rfl hhook
  rw [hops]
  simp only [mem_files_foldl_message]
  simp [FileOperations.files, createFileOps]

variable {p : CompactionPreparation}

theorem compact_details {completeSimple : CompleteSimple} {customInstructions : Option String}
    {result : CompactionResult} (h : compact completeSimple p customInstructions = .ok result) :
    result.details = computeFileLists p.fileOps := by
  rw [compact] at h
  cases hsummary : compactSummary completeSimple p customInstructions with
  | error errors =>
    rw [hsummary] at h
    cases h
  | ok summary =>
    rw [hsummary] at h
    by_cases hid : p.firstKeptEntryId = ""
    · simp only [bind, Except.bind, if_pos hid] at h
      cases h
    · simp only [bind, Except.bind, if_neg hid] at h
      cases h
      rfl

/-- What a compaction summarised, and the lists that it stored. -/
structure CompactionStep where
  summarised : List AgentMessage
  details : CompactionDetails

/-- A path that grows by entries and by the compactions that `compact` generates on it. -/
inductive CompactedPath : List SessionEntry → List CompactionStep → Prop
  | nil : CompactedPath [] []
  | append {path : List SessionEntry} {steps : List CompactionStep} {e : SessionEntry}
      (h : CompactedPath path steps) (he : e.isCompaction = false) :
      CompactedPath (path ++ [e]) steps
  | compact {path : List SessionEntry} {steps : List CompactionStep}
      {settings : CompactionSettings} {p : CompactionPreparation} {completeSimple : CompleteSimple}
      {customInstructions : Option String} {result : CompactionResult} {c : SessionEntry}
      {data : CompactionData} (h : CompactedPath path steps)
      (hp : prepareCompaction path settings = some (some p))
      (hresult : compact completeSimple p customInstructions = .ok result)
      (hc : c.body = .compaction data) (hkept : data.firstKeptEntryId = result.firstKeptEntryId)
      (hdetails : data.details = some result.details.toJson) (hhook : data.fromHook ≠ some true) :
      CompactedPath (path ++ [c])
        (steps ++ [⟨p.messagesToSummarize ++ p.turnPrefixMessages, result.details⟩])

/-- A call in a message that one of the compactions summarised. -/
def TouchedIn (steps : List CompactionStep) (tool : FileTool) (f : String) : Prop :=
  ∃ step ∈ steps, ∃ m ∈ step.summarised, m.Touches tool f

def ModifiedIn (steps : List CompactionStep) (f : String) : Prop :=
  TouchedIn steps .write f ∨ TouchedIn steps .edit f

structure ListsFiles (steps : List CompactionStep) (details : CompactionDetails) : Prop where
  modified : ∀ f, f ∈ details.modifiedFiles ↔ ModifiedIn steps f
  read : ∀ f, f ∈ details.readFiles ↔ TouchedIn steps .read f ∧ ¬ ModifiedIn steps f

theorem touchedIn_concat {steps : List CompactionStep} {step : CompactionStep} {tool : FileTool}
    {f : String} :
    TouchedIn (steps ++ [step]) tool f ↔
      TouchedIn steps tool f ∨ ∃ m ∈ step.summarised, m.Touches tool f := by
  simp [TouchedIn]

/-- The last compaction of the path stored the last lists. -/
def StoresLast (path : List SessionEntry) (steps : List CompactionStep) : Prop :=
  match steps.getLast? with
  | none => lastCompaction path = none
  | some step => ∃ i data, lastCompaction path = some (i, data) ∧
      data.details = some step.details.toJson ∧ data.fromHook ≠ some true

theorem lastCompaction_append {path : List SessionEntry} {e : SessionEntry}
    (he : e.isCompaction = false) : lastCompaction (path ++ [e]) = lastCompaction path := by
  rw [lastCompaction, zipIdx_append, foldl_append, zipIdx_singleton,
    foldl_cons, noteCompaction_of_not he]
  rfl

theorem CompactedPath.storesLast {path : List SessionEntry} {steps : List CompactionStep}
    (h : CompactedPath path steps) : StoresLast path steps := by
  induction h with
  | nil => rfl
  | append h he ih =>
    rw [StoresLast, lastCompaction_append he]
    exact ih
  | @compact path _ _ _ _ _ _ c data h _ _ hc _ hdetails hhook ih =>
    rw [StoresLast, getLast?_concat]
    exact ⟨path.length, data, lastCompaction_split hc (by simp), hdetails, hhook⟩

theorem mem_files_of_storesLast {path : List SessionEntry} {steps : List CompactionStep}
    (hlast : StoresLast path steps)
    (hlists : ∀ step, steps.getLast? = some step → ListsFiles steps step.details)
    (messages : List AgentMessage) (f : String) :
    let fileOps := extractFileOperations messages ((lastCompaction path).map Prod.snd)
    (f ∈ fileOps.files .write ∨ f ∈ fileOps.files .edit ↔
      ModifiedIn steps f ∨ ∃ m ∈ messages, m.Touches .write f ∨ m.Touches .edit f) ∧
    (f ∈ fileOps.files .read ↔
      (TouchedIn steps .read f ∧ ¬ ModifiedIn steps f) ∨ ∃ m ∈ messages, m.Touches .read f) := by
  simp only [and_or_left, exists_or]
  rw [StoresLast] at hlast
  cases hstep : steps.getLast? with
  | none =>
    rw [hstep] at hlast
    obtain rfl := getLast?_eq_none_iff.mp hstep
    simp only [hlast, Option.map_none, mem_files_extractFileOperations_none]
    simp [ModifiedIn, TouchedIn]
  | some step =>
    rw [hstep] at hlast
    obtain ⟨i, data, hcompaction, hdetails, hhook⟩ := hlast
    obtain ⟨hread, hwrite, hedit⟩ :=
      mem_files_extractFileOperations_details hdetails hhook messages f
    have hsteps := hlists step hstep
    simp only [hcompaction, Option.map_some]
    rw [hread, hwrite, hedit, hsteps.modified, hsteps.read]
    exact ⟨or_left_comm, Iff.rfl⟩

theorem ListsFiles.concat {path : List SessionEntry} {steps : List CompactionStep}
    {settings : CompactionSettings} (hlast : StoresLast path steps)
    (hlists : ∀ step, steps.getLast? = some step → ListsFiles steps step.details)
    (hp : prepareCompaction path settings = some (some p)) (details : CompactionDetails) :
    ListsFiles (steps ++ [⟨p.messagesToSummarize ++ p.turnPrefixMessages, details⟩])
      (computeFileLists p.fileOps) := by
  have hfiles : ∀ tool f, f ∈ p.fileOps.files tool ↔
      f ∈ (extractFileOperations p.messagesToSummarize
        ((lastCompaction path).map Prod.snd)).files tool ∨
        ∃ m ∈ p.turnPrefixMessages, m.Touches tool f := by
    intro tool f
    rw [(prepares_of_prepareCompaction hp).fileOps, mem_files_foldl_message]
  have hbatch : ∀ tool f,
      TouchedIn (steps ++ [⟨p.messagesToSummarize ++ p.turnPrefixMessages, details⟩]) tool f ↔
        TouchedIn steps tool f ∨ (∃ m ∈ p.messagesToSummarize, m.Touches tool f) ∨
          ∃ m ∈ p.turnPrefixMessages, m.Touches tool f := by
    intro tool f
    rw [touchedIn_concat]
    simp [or_and_right, exists_or]
  have hstart := mem_files_of_storesLast hlast hlists p.messagesToSummarize
  simp only [and_or_left, exists_or] at hstart
  have hmodified : ∀ f, f ∈ (computeFileLists p.fileOps).modifiedFiles ↔
      ModifiedIn (steps ++ [⟨p.messagesToSummarize ++ p.turnPrefixMessages, details⟩]) f := by
    intro f
    have hprior := (hstart f).1
    rw [ModifiedIn] at hprior
    rw [mem_modifiedFiles, hfiles, hfiles, ModifiedIn, hbatch, hbatch, or_or_or_comm, hprior]
    simp [or_left_comm, or_assoc]
  refine ⟨hmodified, fun f => ?_⟩
  have hprior := (hstart f).2
  -- what was modified before is modified still
  have hkept : ModifiedIn steps f →
      ModifiedIn (steps ++ [⟨p.messagesToSummarize ++ p.turnPrefixMessages, details⟩]) f := by
    rintro (h | h)
    · exact .inl ((hbatch .write f).mpr (.inl h))
    · exact .inr ((hbatch .edit f).mpr (.inl h))
  rw [mem_readFiles, hmodified, hfiles, hprior, hbatch]
  constructor
  · rintro ⟨(⟨hread, _⟩ | hread) | hread, hnot⟩
    · exact ⟨.inl hread, hnot⟩
    · exact ⟨.inr (.inl hread), hnot⟩
    · exact ⟨.inr (.inr hread), hnot⟩
  · rintro ⟨hread | hread | hread, hnot⟩
    · exact ⟨.inl (.inl ⟨hread, fun h => hnot (hkept h)⟩), hnot⟩
    · exact ⟨.inl (.inr hread), hnot⟩
    · exact ⟨.inr hread, hnot⟩

theorem compaction_fileLists {path : List SessionEntry} {steps earlier later : List CompactionStep}
    {step : CompactionStep} (h : CompactedPath path steps)
    (hsteps : steps = earlier ++ step :: later) : ListsFiles (earlier ++ [step]) step.details := by
  induction h generalizing earlier step later with
  | nil => simp at hsteps
  | append h he ih => exact ih hsteps
  | compact h hp hresult hc hkept hdetails hhook ih =>
    obtain rfl | ⟨later, last, rfl⟩ := eq_nil_or_concat later
    · obtain ⟨rfl, hstep⟩ := append_inj' hsteps rfl
      obtain rfl := (singleton_inj.mp hstep).symm
      rw [compact_details hresult]
      refine ListsFiles.concat h.storesLast (fun step hstep => ?_) hp _
      obtain ⟨earlier, rfl⟩ := getLast?_eq_some_iff.mp hstep
      exact ih rfl
    · rw [concat_eq_append, ← cons_append, ← append_assoc] at hsteps
      exact ih (append_inj' hsteps rfl).1

namespace ReadThenEdited

open SecondCompaction (entry request)

def call (name path : String) : EntryBody :=
  .message (.assistant
    { content := [.toolCall ⟨"c", name, .cons "path" (.string path) .nil, none⟩], api := "a"
      provider := "p", model := "m", usage := ⟨0, 0, 0, 0, 0⟩, stopReason := .toolUse
      errorMessage := none, timestamp := 0 })

def path : List SessionEntry :=
  [entry "a" none (request "task"), entry "b" (some "a") (call "read" "x.ts"),
    entry "c" (some "b") (call "edit" "x.ts"), entry "d" (some "c") (call "read" "y.ts"),
    entry "e" (some "d") (request "next")]

def settings : CompactionSettings := { DEFAULT_COMPACTION_SETTINGS with keepRecentTokens := 1 }

def step : CompactionStep :=
  { summarised := messagesBetween path 0 4
    details := { readFiles := ["y.ts"], modifiedFiles := ["x.ts"] } }

def preparation : CompactionPreparation :=
  { firstKeptEntryId := "e"
    messagesToSummarize := messagesBetween path 0 4
    turnPrefixMessages := []
    isSplitTurn := false
    tokensBefore := 1
    previousSummary := none
    fileOps := { read := ["x.ts", "y.ts"], written := [], edited := ["x.ts"] }
    settings := settings }

def result : CompactionResult :=
  { summary := utf16 "Goal: task" ++ formatFileOperations ["y.ts"] ["x.ts"]
    firstKeptEntryId := "e", tokensBefore := 1, details := step.details }

def compaction : CompactionData :=
  { summary := "Goal: task", firstKeptEntryId := "e", tokensBefore := 1
    details := some step.details.toJson, fromHook := none }

theorem compactedPath :
    CompactedPath (path ++ [entry "f" (some "e") (.compaction compaction)]) [step] := by
  have hpath : CompactedPath path [] :=
    CompactedPath.nil.append (e := path[0]) rfl |>.append (e := path[1]) rfl
      |>.append (e := path[2]) rfl |>.append (e := path[3]) rfl |>.append (e := path[4]) rfl
  have hprepared : prepareCompaction path settings = some (some preparation) := by decide +kernel
  have hresult : compact (answerWith "Goal: task") preparation none = .ok result := by
    decide +kernel
  exact hpath.compact hprepared hresult rfl rfl rfl (by decide)

theorem fileLists : ListsFiles [step] step.details :=
  @compaction_fileLists _ _ [] [] _ compactedPath rfl

end ReadThenEdited

end Draht
