import Draht.SessionContext
import Draht.Text

/-!
# The session manager

An append-only log of entries with a leaf pointer. Appending makes a child of the leaf and
moves the leaf to it; branching moves the leaf only. The file operations a method performs
are recorded in `io`, in order.
-/

namespace Draht

inductive FileOp where
  /-- `writeFileSync` of all the lines -/
  | writeFile (path : String) (entries : List FileEntry)
  /-- `appendFileSync` of one line -/
  | appendFile (path : String) (entry : FileEntry)
deriving DecidableEq

structure SessionManager where
  sessionId : String
  sessionFile : Option String
  sessionDir : String
  cwd : String
  persist : Bool
  flushed : Bool
  fileEntries : List FileEntry
  byId : OrderedMap String SessionEntry
  labelsById : OrderedMap String String
  labelTimestampsById : OrderedMap String ℕ
  leafId : Option String
  io : List FileOp

def CURRENT_SESSION_VERSION : ℕ := 3

/-- A string in a condition: `undefined`, `null` and the empty string count as false. -/
def truthy (s : Option String) : Option String := s.filter (fun x => x ≠ "")

def padded (width n : ℕ) : String :=
  String.ofList (List.replicate (width - (Nat.repr n).length) '0') ++ Nat.repr n

/-- `new Date(ms).toISOString().replace(/[:.]/g, "-")`. -/
def isoFileTimestamp (ms : ℕ) : String :=
  let z := ms / 86400000 + 719468
  let era := z / 146097
  let doe := z % 146097
  let yoe := (doe - doe / 1460 + doe / 36524 - doe / 146096) / 365
  let doy := doe - (365 * yoe + yoe / 4 - yoe / 100)
  let mp := (5 * doy + 2) / 153
  let day := doy - (153 * mp + 2) / 5 + 1
  let month := if mp < 10 then mp + 3 else mp - 9
  let year := yoe + era * 400 + (if month ≤ 2 then 1 else 0)
  let sec := ms / 1000
  padded 4 year ++ "-" ++ padded 2 month ++ "-" ++ padded 2 day ++ "T" ++
    padded 2 (sec / 3600 % 24) ++ "-" ++ padded 2 (sec / 60 % 60) ++ "-" ++ padded 2 (sec % 60) ++
    "-" ++ padded 3 (ms % 1000) ++ "Z"

example : isoFileTimestamp 1719830645123 = "2024-07-01T10-44-05-123Z" := by decide +kernel

namespace SessionManager

/-- `join(this.getSessionDir(), ...)` for a new session. -/
def newSessionPath (s : SessionManager) (timestamp : ℕ) (sessionId : String) : String :=
  s.sessionDir ++ "/" ++ isoFileTimestamp timestamp ++ "_" ++ sessionId ++ ".jsonl"

def blank (cwd sessionDir : String) (persist : Bool) : SessionManager where
  sessionId := ""
  sessionFile := none
  sessionDir := sessionDir
  cwd := cwd
  persist := persist
  flushed := false
  fileEntries := []
  byId := .empty
  labelsById := .empty
  labelTimestampsById := .empty
  leafId := none
  io := []

structure NewSessionOptions where
  id : Option String
  parentSession : Option String

/-- `newSession`: the label timestamps are not cleared. -/
def newSession (s : SessionManager) (options : NewSessionOptions) (uuid : Uuid)
    (timestamp : ℕ) : SessionManager :=
  let sessionId := options.id.getD uuid.text
  let header : SessionHeader :=
    { version := some CURRENT_SESSION_VERSION, id := sessionId, timestamp := timestamp
      cwd := s.cwd, parentSession := options.parentSession }
  { s with
    sessionId := sessionId
    fileEntries := [.session header]
    byId := .empty
    labelsById := .empty
    leafId := none
    flushed := false
    sessionFile :=
      if s.persist then some (s.newSessionPath timestamp sessionId) else s.sessionFile }

def getEntries (s : SessionManager) : List SessionEntry := s.fileEntries.filterMap FileEntry.entry?

def hasAssistant (s : SessionManager) : Bool := s.fileEntries.any FileEntry.isAssistantMessage

/-- One turn of the loop of `_buildIndex`. -/
def indexEntry (s : SessionManager) (e : SessionEntry) : SessionManager :=
  let s := { s with byId := s.byId.set e.id e, leafId := some e.id }
  match e.body with
  | .label targetId label =>
    match truthy label with
    | some label =>
      { s with
        labelsById := s.labelsById.set targetId label
        labelTimestampsById := s.labelTimestampsById.set targetId e.timestamp }
    | none =>
      { s with
        labelsById := s.labelsById.delete targetId
        labelTimestampsById := s.labelTimestampsById.delete targetId }
  | _ => s

/-- `_buildIndex`. -/
def buildIndex (s : SessionManager) : SessionManager :=
  s.getEntries.foldl indexEntry
    { s with
      byId := .empty, labelsById := .empty, labelTimestampsById := .empty, leafId := none }

/-- `_rewriteFile`. -/
def rewriteFile (s : SessionManager) : SessionManager :=
  if s.persist then
    match s.sessionFile with
    | none => s
    | some path => { s with io := s.io ++ [.writeFile path s.fileEntries] }
  else s

/-- `_persist`. Without an assistant message nothing is written and the flag is reset, so
that all entries are written once one arrives. -/
def persistEntry (s : SessionManager) (e : SessionEntry) : SessionManager :=
  if s.persist then
    match s.sessionFile with
    | none => s
    | some path =>
      if s.hasAssistant = false then { s with flushed := false }
      else if s.flushed = false then
        { s with io := s.io ++ s.fileEntries.map (FileOp.appendFile path), flushed := true }
      else { s with io := s.io ++ [.appendFile path (.entry e)] }
  else s

/-- `_appendEntry`. -/
def appendEntry (s : SessionManager) (e : SessionEntry) : SessionManager :=
  persistEntry
    { s with
      fileEntries := s.fileEntries ++ [.entry e]
      byId := s.byId.set e.id e
      leafId := some e.id } e

/-- What a method takes from outside: the time, and the random UUIDs for one id. -/
structure Entropy where
  now : ℕ
  draw : ℕ → Uuid

/-- The entry an append method builds: a new id, a child of `parentId`. -/
def newEntry (s : SessionManager) (en : Entropy) (parentId : Option String) (body : EntryBody) :
    SessionEntry :=
  { id := generateId s.byId.has en.draw, parentId := parentId, timestamp := en.now, body := body }

def appendBody (s : SessionManager) (en : Entropy) (body : EntryBody) : SessionManager :=
  s.appendEntry (s.newEntry en s.leafId body)

def appendMessage (s : SessionManager) (en : Entropy) (message : AgentMessage) : SessionManager :=
  s.appendBody en (.message message)

def appendThinkingLevelChange (s : SessionManager) (en : Entropy) (thinkingLevel : String) :
    SessionManager :=
  s.appendBody en (.thinkingLevelChange thinkingLevel)

def appendModelChange (s : SessionManager) (en : Entropy) (provider modelId : String) :
    SessionManager :=
  s.appendBody en (.modelChange provider modelId)

def appendCompaction (s : SessionManager) (en : Entropy) (summary firstKeptEntryId : String)
    (tokensBefore : ℤ) (details : Option Json) (fromHook : Option Bool) : SessionManager :=
  s.appendBody en (.compaction { summary, firstKeptEntryId, tokensBefore, details, fromHook })

def appendCustomEntry (s : SessionManager) (en : Entropy) (customType : String)
    (data : Option Json) : SessionManager :=
  s.appendBody en (.custom customType data)

def appendSessionInfo (s : SessionManager) (en : Entropy) (name : String) : SessionManager :=
  s.appendBody en (.sessionInfo (some (jsTrim name)))

def appendCustomMessageEntry (s : SessionManager) (en : Entropy) (customType : String)
    (content : UserContent) (display : Bool) (details : Option Json) : SessionManager :=
  s.appendBody en (.customMessage { customType, content, display, details })

def setLabel (s : SessionManager) (targetId : String) (label : Option String) (timestamp : ℕ) :
    SessionManager :=
  match truthy label with
  | some label =>
    { s with
      labelsById := s.labelsById.set targetId label
      labelTimestampsById := s.labelTimestampsById.set targetId timestamp }
  | none =>
    { s with
      labelsById := s.labelsById.delete targetId
      labelTimestampsById := s.labelTimestampsById.delete targetId }

def notFound (id : String) : String := "Entry " ++ id ++ " not found"

def appendLabelChange (s : SessionManager) (en : Entropy) (targetId : String)
    (label : Option String) : Except String SessionManager :=
  if s.byId.has targetId then
    .ok ((s.appendBody en (.label targetId label)).setLabel targetId label en.now)
  else .error (notFound targetId)

def branch (s : SessionManager) (branchFromId : String) : Except String SessionManager :=
  if s.byId.has branchFromId then .ok { s with leafId := some branchFromId }
  else .error (notFound branchFromId)

def resetLeaf (s : SessionManager) : SessionManager := { s with leafId := none }

def branchWithSummary (s : SessionManager) (en : Entropy) (branchFromId : Option String)
    (summary : String) (details : Option Json) (fromHook : Option Bool) :
    Except String SessionManager :=
  if branchFromId.all s.byId.has then
    let s := { s with leafId := branchFromId }
    .ok (s.appendEntry (s.newEntry en branchFromId
      (.branchSummary { fromId := branchFromId.getD "root", summary, details, fromHook })))
  else .error (notFound (branchFromId.getD ""))

/-- `getBranch`; `none` stands for a walk that does not return. -/
def getBranch (s : SessionManager) (fromId : Option String) : Option (List SessionEntry) :=
  walkToRoot s.byId ((truthy (fromId.or s.leafId)).bind s.byId.get)

/-- The method `buildSessionContext()`. -/
def context (s : SessionManager) : Option SessionContext :=
  buildSessionContext s.getEntries (s.leafId.elim .null .id) (some s.byId)

structure LabelToWrite where
  targetId : String
  label : String
  timestamp : ℕ

/-- The resolved labels of the entries on the path, in the order of the label map. -/
def labelsToWrite (s : SessionManager) (pathEntryIds : List String) : List LabelToWrite :=
  s.labelsById.entries.filterMap fun (targetId, label) =>
    if targetId ∈ pathEntryIds then
      some ⟨targetId, label, (s.labelTimestampsById.get targetId).getD 0⟩
    else none

/-- The loop that re-creates label entries: each is a child of the one before it, and gets
an id that is not taken. `draw i` are the UUIDs drawn for the `i`-th label. -/
def labelEntries (taken : List String) (parentId : Option String) (draw : ℕ → ℕ → Uuid) :
    ℕ → List LabelToWrite → List SessionEntry
  | _, [] => []
  | i, l :: ls =>
    let id := generateId (fun x => decide (x ∈ taken)) (draw i)
    { id := id, parentId := parentId, timestamp := l.timestamp
      body := .label l.targetId (some l.label) } ::
      labelEntries (taken ++ [id]) (some id) draw (i + 1) ls

/-- What `createBranchedSession` takes from outside. -/
structure BranchEntropy where
  now : ℕ
  sessionUuid : Uuid
  labelDraw : ℕ → ℕ → Uuid

/-- The labels of the path's entries, re-created after the copied entries. The two loops that
build them, for a persisted session and for one in memory, are the same. -/
def branchLabels (s : SessionManager) (r : BranchEntropy) (pathWithoutLabels : List SessionEntry) :
    List SessionEntry :=
  let pathEntryIds := pathWithoutLabels.map SessionEntry.id
  labelEntries pathEntryIds (truthy (pathWithoutLabels.getLast?.map SessionEntry.id)) r.labelDraw 0
    (s.labelsToWrite pathEntryIds)

/-- The session that replaces the current one, before its file is written. -/
def branchedLog (s : SessionManager) (r : BranchEntropy) (path : List SessionEntry) :
    SessionManager :=
  let pathWithoutLabels := path.filter (fun e => !e.isLabel)
  let header : SessionHeader :=
    { version := some CURRENT_SESSION_VERSION, id := r.sessionUuid.text, timestamp := r.now
      cwd := s.cwd, parentSession := if s.persist then s.sessionFile else none }
  buildIndex
    { s with
      fileEntries :=
        .session header :: (pathWithoutLabels ++ s.branchLabels r pathWithoutLabels).map .entry
      sessionId := r.sessionUuid.text
      sessionFile :=
        if s.persist then some (s.newSessionPath r.now r.sessionUuid.text) else s.sessionFile }

/-- The part of `createBranchedSession` after the path is known. The file is written now only
if there is an assistant message; otherwise `_persist` creates it later. -/
def branchedFrom (s : SessionManager) (r : BranchEntropy) (path : List SessionEntry) :
    SessionManager × Option String :=
  let s' := s.branchedLog r path
  let newSessionFile := s.newSessionPath r.now r.sessionUuid.text
  if s.persist then
    if s'.hasAssistant then ({ s'.rewriteFile with flushed := true }, some newSessionFile)
    else ({ s' with flushed := false }, some newSessionFile)
  else (s', none)

/-- `createBranchedSession`; `none` stands for a walk that does not return. -/
def createBranchedSession (s : SessionManager) (r : BranchEntropy) (leafId : String) :
    Option (Except String (SessionManager × Option String)) :=
  (s.getBranch (some leafId)).map fun path =>
    if path = [] then .error (notFound leafId) else .ok (s.branchedFrom r path)

end SessionManager

end Draht
