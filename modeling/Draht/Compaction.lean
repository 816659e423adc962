import Draht.SessionContext

/-!
# Preparing a compaction

Where a session path is cut and which messages are summarised: token estimates, valid cut
points, the start of a split turn, and the preparation handed to the summariser.
-/

namespace Draht

structure FileOperations where
  read : List String
  written : List String
  edited : List String
deriving DecidableEq

def createFileOps : FileOperations := { read := [], written := [], edited := [] }

/-- `set.add(x)`. -/
def addPath (path : String) (paths : List String) : List String :=
  if path ∈ paths then paths else paths ++ [path]

def extractFileOpsFromToolCall (fileOps : FileOperations) (block : ToolCall) : FileOperations :=
  match block.arguments.get "path" with
  | some (.string path) =>
    if path = "" then fileOps
    else if block.name = "read" then { fileOps with read := addPath path fileOps.read }
    else if block.name = "write" then { fileOps with written := addPath path fileOps.written }
    else if block.name = "edit" then { fileOps with edited := addPath path fileOps.edited }
    else fileOps
  | _ => fileOps

def extractFileOpsFromMessage (fileOps : FileOperations) : AgentMessage → FileOperations
  | .assistant m => m.toolCalls.foldl extractFileOpsFromToolCall fileOps
  | _ => fileOps

/-- The strings of `details[key]`, if that is an array. -/
def detailPaths (details : Json) (key : String) : List String :=
  match details with
  | .object fields =>
    match fields.get key with
    | some (.array xs) => xs.strings
    | _ => []
  | _ => []

def extractFileOperations (messages : List AgentMessage) (prevCompaction : Option CompactionData) :
    FileOperations :=
  let fileOps :=
    match prevCompaction with
    | some { fromHook := some true, .. } => createFileOps
    | some { details := some details, .. } =>
      { createFileOps with
        read := (detailPaths details "readFiles").foldl (fun paths f => addPath f paths) []
        edited := (detailPaths details "modifiedFiles").foldl
          (fun paths f => addPath f paths) [] }
    | _ => createFileOps
  messages.foldl extractFileOpsFromMessage fileOps

def getMessageFromEntry (e : SessionEntry) : Option AgentMessage :=
  match e.body with
  | .message m => some m
  | .customMessage d =>
    some (.custom (createCustomMessage d.customType d.content d.display d.details e.timestamp))
  | .branchSummary d =>
    some (.branchSummary (createBranchSummaryMessage d.summary d.fromId e.timestamp))
  | .compaction d => some (compactionSummaryOf e d)
  | _ => none

def getMessageFromEntryForCompaction (e : SessionEntry) : Option AgentMessage :=
  if e.isCompaction then none else getMessageFromEntry e

structure CompactionSettings where
  enabled : Bool
  reserveTokens : ℤ
  keepRecentTokens : ℤ
deriving DecidableEq

def DEFAULT_COMPACTION_SETTINGS : CompactionSettings :=
  { enabled := true, reserveTokens := 16384, keepRecentTokens := 20000 }

/-- `usage.totalTokens || usage.input + usage.output + usage.cacheRead + usage.cacheWrite`. -/
def calculateContextTokens (usage : Usage) : ℕ :=
  if usage.totalTokens ≠ 0 then usage.totalTokens
  else usage.input + usage.output + usage.cacheRead + usage.cacheWrite

def getAssistantUsage : AgentMessage → Option Usage
  | .assistant m => if m.failed then none else some m.usage
  | _ => none

def textChars : ContentBlock → ℕ
  | .text block => jsLength block.text
  | .image _ => 0

def textAndImageChars : ContentBlock → ℕ
  | .text block => jsLength block.text
  | .image _ => 4800

def assistantChars : AssistantContent → ℕ
  | .text block => jsLength block.text
  | .thinking block => jsLength block.thinking
  | .toolCall block =>
    jsLength block.name + jsLength (String.ofList (Json.object block.arguments).stringify)

def messageChars : AgentMessage → ℕ
  | .user m =>
    match m.content with
    | .string s => jsLength s
    | .blocks bs => totalOf textChars bs
  | .assistant m => totalOf assistantChars m.content
  | .custom m =>
    match m.content with
    | .string s => jsLength s
    | .blocks bs => totalOf textAndImageChars bs
  | .toolResult m => totalOf textAndImageChars m.content
  | .bashExecution m => jsLength m.command + jsLength m.output
  | .branchSummary m => jsLength m.summary
  | .compactionSummary m => jsLength m.summary
  | .hookMessage _ => 0

/-- `Math.ceil(chars / 4)`. -/
def estimateTokens (m : AgentMessage) : ℕ := (messageChars m + 3) / 4

structure ContextUsageEstimate where
  tokens : ℕ
  usageTokens : ℕ
  trailingTokens : ℕ
  lastUsageIndex : Option ℕ
deriving DecidableEq

def getLastAssistantUsageInfo (messages : List AgentMessage) : Option (Usage × ℕ) :=
  messages.zipIdx.foldl
    (fun found (m, i) => ((getAssistantUsage m).map (fun usage => (usage, i))).or found) none

def estimateContextTokens (messages : List AgentMessage) : ContextUsageEstimate :=
  match getLastAssistantUsageInfo messages with
  | none =>
    let estimated := totalOf estimateTokens messages
    { tokens := estimated, usageTokens := 0, trailingTokens := estimated, lastUsageIndex := none }
  | some (usage, index) =>
    let usageTokens := calculateContextTokens usage
    let trailingTokens := totalOf estimateTokens (messages.drop (index + 1))
    { tokens := usageTokens + trailingTokens, usageTokens := usageTokens
      trailingTokens := trailingTokens, lastUsageIndex := some index }

/-- User, assistant, custom, bash and summary messages; never tool results. -/
def isValidCutPoint (e : SessionEntry) : Bool :=
  match e.body with
  | .message (.toolResult _) => false
  | .message (.hookMessage _) => false
  | .message _ => true
  | .branchSummary _ => true
  | .customMessage _ => true
  | _ => false

def findValidCutPoints (entries : List SessionEntry) (startIndex endIndex : ℕ) : List ℕ :=
  (List.range' startIndex (endIndex - startIndex)).filter
    (fun i => entries[i]?.any isValidCutPoint)

/-- Entries that start a turn: branch summaries, custom messages, user messages, bash runs. -/
def isTurnStart (e : SessionEntry) : Bool :=
  match e.body with
  | .branchSummary _ => true
  | .customMessage _ => true
  | .message (.user _) => true
  | .message (.bashExecution _) => true
  | _ => false

/-- The loop from `entryIndex` down to `startIndex`; `none` is `-1`. -/
def findTurnStartIndex (entries : List SessionEntry) (startIndex : ℕ) : ℕ → Option ℕ
  | 0 => if startIndex = 0 ∧ entries[0]?.any isTurnStart then some 0 else none
  | i + 1 =>
    if i + 1 < startIndex then none
    else if entries[i + 1]?.any isTurnStart then some (i + 1)
    else findTurnStartIndex entries startIndex i

def SessionEntry.message? (e : SessionEntry) : Option AgentMessage :=
  match e.body with
  | .message m => some m
  | _ => none

/-- The walk back from the newest entry that adds up token estimates. With `n` entries from
`startIndex` on left to visit, `accumulated` is the estimate of those already visited. -/
def searchCut (entries : List SessionEntry) (startIndex : ℕ) (keepRecentTokens : ℤ)
    (cutPoints : List ℕ) (first : ℕ) : ℕ → ℕ → ℕ
  | 0, _ => first
  | n + 1, accumulated =>
    match entries[startIndex + n]?.bind SessionEntry.message? with
    | none => searchCut entries startIndex keepRecentTokens cutPoints first n accumulated
    | some m =>
      let accumulated := accumulated + estimateTokens m
      if keepRecentTokens ≤ accumulated then
        (cutPoints.find? (fun c => startIndex + n ≤ c)).getD first
      else searchCut entries startIndex keepRecentTokens cutPoints first n accumulated

/-- The scan back from the cut over entries that are neither compactions nor messages. -/
def includeNonMessages (entries : List SessionEntry) (startIndex : ℕ) : ℕ → ℕ
  | 0 => 0
  | cut + 1 =>
    if startIndex < cut + 1 then
      if entries[cut]?.any (fun e => e.isCompaction || e.message?.isSome) then cut + 1
      else includeNonMessages entries startIndex cut
    else cut + 1

structure CutPointResult where
  firstKeptEntryIndex : ℕ
  turnStartIndex : Option ℕ
  isSplitTurn : Bool
deriving DecidableEq

def isUserMessage (e : SessionEntry) : Bool :=
  match e.body with
  | .message (.user _) => true
  | _ => false

def findCutPoint (entries : List SessionEntry) (startIndex endIndex : ℕ)
    (keepRecentTokens : ℤ) : CutPointResult :=
  match findValidCutPoints entries startIndex endIndex with
  | [] => { firstKeptEntryIndex := startIndex, turnStartIndex := none, isSplitTurn := false }
  | first :: rest =>
    let cutIndex := includeNonMessages entries startIndex
      (searchCut entries startIndex keepRecentTokens (first :: rest) first
        (endIndex - startIndex) 0)
    let isUser := entries[cutIndex]?.any isUserMessage
    let turnStartIndex := if isUser then none else findTurnStartIndex entries startIndex cutIndex
    { firstKeptEntryIndex := cutIndex, turnStartIndex := turnStartIndex
      isSplitTurn := !isUser && turnStartIndex.isSome }

structure CompactionPreparation where
  firstKeptEntryId : String
  messagesToSummarize : List AgentMessage
  turnPrefixMessages : List AgentMessage
  isSplitTurn : Bool
  tokensBefore : ℕ
  previousSummary : Option String
  fileOps : FileOperations
  settings : CompactionSettings
deriving DecidableEq

def noteCompaction (found : Option (ℕ × CompactionData)) (visited : SessionEntry × ℕ) :
    Option (ℕ × CompactionData) :=
  match visited.1.body with
  | .compaction data => some (visited.2, data)
  | _ => found

def lastCompaction (path : List SessionEntry) : Option (ℕ × CompactionData) :=
  path.zipIdx.foldl noteCompaction none

/-- `boundaryStart`: the first entry that the last compaction kept, searched in the whole path;
if it is not there, the entry after the compaction. -/
def boundaryStart (path : List SessionEntry) : ℕ :=
  match lastCompaction path with
  | none => 0
  | some (prevCompactionIndex, data) =>
    (path.findIdx? (fun e => e.id == data.firstKeptEntryId)).getD (prevCompactionIndex + 1)

/-- The messages of `entries[from], ..., entries[to - 1]`. -/
def messagesBetween (path : List SessionEntry) (start stop : ℕ) : List AgentMessage :=
  ((path.take stop).drop start).filterMap getMessageFromEntryForCompaction

/-- The part of `prepareCompaction` after the token count. -/
def prepareAt (path : List SessionEntry) (settings : CompactionSettings) (tokensBefore : ℕ) :
    Option CompactionPreparation :=
  let cutPoint := findCutPoint path (boundaryStart path) path.length settings.keepRecentTokens
  match path[cutPoint.firstKeptEntryIndex]? with
  | none => none
  | some firstKeptEntry =>
    if firstKeptEntry.id = "" then none
    else
      let historyEnd :=
        if cutPoint.isSplitTurn then cutPoint.turnStartIndex.getD 0
        else cutPoint.firstKeptEntryIndex
      let messagesToSummarize := messagesBetween path (boundaryStart path) historyEnd
      let turnPrefixMessages :=
        if cutPoint.isSplitTurn then
          messagesBetween path (cutPoint.turnStartIndex.getD 0) cutPoint.firstKeptEntryIndex
        else []
      some
        { firstKeptEntryId := firstKeptEntry.id
          messagesToSummarize := messagesToSummarize
          turnPrefixMessages := turnPrefixMessages
          isSplitTurn := cutPoint.isSplitTurn
          tokensBefore := tokensBefore
          previousSummary := (lastCompaction path).map (fun c => c.2.summary)
          fileOps := turnPrefixMessages.foldl extractFileOpsFromMessage
            (extractFileOperations messagesToSummarize ((lastCompaction path).map Prod.snd))
          settings := settings }

/-- `prepareCompaction`: the outer `none` stands for a walk that does not return, the inner
one for `undefined`. -/
def prepareCompaction (path : List SessionEntry) (settings : CompactionSettings) :
    Option (Option CompactionPreparation) :=
  if path.getLast?.any SessionEntry.isCompaction then some none
  else
    (buildSessionContext path .undefined none).map fun context =>
      prepareAt path settings (estimateContextTokens context.messages).tokens

structure Prepares (path : List SessionEntry) (cutPoint : CutPointResult)
    (p : CompactionPreparation) : Prop where
  kept : ∃ e, path[cutPoint.firstKeptEntryIndex]? = some e ∧ p.firstKeptEntryId = e.id
  kept_ne : p.firstKeptEntryId ≠ ""
  messagesToSummarize : p.messagesToSummarize = messagesBetween path (boundaryStart path)
    (if cutPoint.isSplitTurn then cutPoint.turnStartIndex.getD 0
      else cutPoint.firstKeptEntryIndex)
  turnPrefixMessages : p.turnPrefixMessages =
    if cutPoint.isSplitTurn then
      messagesBetween path (cutPoint.turnStartIndex.getD 0) cutPoint.firstKeptEntryIndex
    else []
  isSplitTurn : p.isSplitTurn = cutPoint.isSplitTurn
  fileOps : p.fileOps = p.turnPrefixMessages.foldl extractFileOpsFromMessage
    (extractFileOperations p.messagesToSummarize ((lastCompaction path).map Prod.snd))

theorem prepares_of_prepareCompaction {path : List SessionEntry} {settings : CompactionSettings}
    {p : CompactionPreparation} (h : prepareCompaction path settings = some (some p)) :
    Prepares path (findCutPoint path (boundaryStart path) path.length settings.keepRecentTokens)
      p := by
  rw [prepareCompaction] at h
  split_ifs at h with hlast
  · simp at h
  obtain ⟨context, -, hprep⟩ := Option.map_eq_some_iff.mp h
  unfold prepareAt at hprep
  generalize findCutPoint path (boundaryStart path) path.length settings.keepRecentTokens = r
    at hprep ⊢
  cases hentry : path[r.firstKeptEntryIndex]? with
  | none => simp [hentry] at hprep
  | some e =>
    simp only [hentry] at hprep
    by_cases hid : e.id = ""
    · simp [hid] at hprep
    · rw [if_neg hid] at hprep
      cases hprep
      exact ⟨⟨e, hentry, rfl⟩, hid, rfl, rfl, rfl, rfl⟩

end Draht
