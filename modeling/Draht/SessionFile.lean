import Draht.SessionInvariant
import Draht.SplitOn

/-!
# The session file

The file of a session as a text of lines, how it is read and opened, and the steps of a session
manager with the files that it writes. How an entry is written as JSON is a parameter, and so is
what the migration makes of the entries of an old file.
-/

namespace Draht
open Option

/-- `JSON.stringify` of an entry, and `JSON.parse` of a line where it does not throw. -/
structure EntryFormat where
  stringify : FileEntry → JsText
  parse : JsText → Option FileEntry

namespace EntryFormat

variable (F : EntryFormat)

def isSpace (c : UInt16) : Bool := isWhiteSpaceCode c.toNat

/-- A blank line and a line that is no JSON are skipped. -/
def parseLine (line : JsText) : Option FileEntry :=
  if trim isSpace line = [] then none else F.parse line

def parseSessionEntries (content : JsText) : List FileEntry :=
  ((trim isSpace content).splitOn 10).filterMap F.parseLine

/-- `loadEntriesFromFile` on a file that exists: without a header in front nothing is loaded. -/
def loadEntriesFromFile (content : JsText) : List FileEntry :=
  let entries := F.parseSessionEntries content
  match entries.head? with
  | some (.session _) => entries
  | _ => []

/-- What `appendFileSync` adds for an entry. -/
def line (e : FileEntry) : JsText := F.stringify e ++ [10]

end EntryFormat

/-- `migrateToCurrentVersion`: the new entries, if the file is of an older version. -/
abbrev Migration := List FileEntry → Option (List FileEntry)

namespace SessionManager

/-- `setSessionFile` with the text of the file, if there is one. A file without entries is
replaced by that of a new session. -/
def setSessionFile (F : EntryFormat) (migrate : Migration) (s : SessionManager) (path : String)
    (content : Option JsText) (uuid : Uuid) (timestamp : ℕ) : SessionManager :=
  let fresh := { s.newSession ⟨none, none⟩ uuid timestamp with sessionFile := some path }
  match content with
  | none => fresh
  | some content =>
    let entries := F.loadEntriesFromFile content
    if entries = [] then { fresh.rewriteFile with flushed := true }
    else
      let opened :=
        { s with
          sessionFile := some path
          sessionId := (entries.findSome? FileEntry.header?).elim uuid.text SessionHeader.id }
      let loaded :=
        match migrate entries with
        | some migrated => { opened with fileEntries := migrated }.rewriteFile
        | none => { opened with fileEntries := entries }
      { loaded.buildIndex with flushed := true }

end SessionManager

abbrev SessionFiles := String → Option JsText

def writeSession (F : EntryFormat) (files : SessionFiles) : FileOp → SessionFiles
  | .writeFile path entries => Function.update files path (some (entries.flatMap F.line))
  | .appendFile path e =>
    Function.update files path (some ((files path).getD [] ++ F.line e))

structure FileSession where
  manager : SessionManager
  files : SessionFiles

inductive FileSessionOp where
  | newSession (options : SessionManager.NewSessionOptions) (uuid : Uuid) (timestamp : ℕ)
  | setSessionFile (path : String) (uuid : Uuid) (timestamp : ℕ)
  | call (entropy : SessionManager.Entropy) (op : SessionManager.SessionOp)
  | createBranchedSession (entropy : SessionManager.BranchEntropy) (leafId : String)

namespace FileSession

/-- The constructor before it has created or opened a session. -/
def start (cwd sessionDir : String) (persist : Bool) (files : SessionFiles) : FileSession :=
  ⟨.blank cwd sessionDir persist, files⟩

/-- The files after the operations that the manager has recorded. -/
def save (F : EntryFormat) (files : SessionFiles) (m : SessionManager) : FileSession :=
  ⟨{ m with io := [] }, m.io.foldl (writeSession F) files⟩

/-- A call that throws changes nothing. A manager has a session before anything else is called,
and a call that does not return has no next state. -/
def step (F : EntryFormat) (migrate : Migration) (s : FileSession) :
    FileSessionOp → Option FileSession
  | .newSession options uuid timestamp =>
    some (save F s.files (s.manager.newSession options uuid timestamp))
  | .setSessionFile path uuid timestamp =>
    some (save F s.files
      (s.manager.setSessionFile F migrate path (s.files path) uuid timestamp))
  | .call entropy op =>
    if s.manager.fileEntries = [] then none
    else
      match s.manager.apply entropy op with
      | .ok m => some (save F s.files m)
      | .error _ => some s
  | .createBranchedSession entropy leafId =>
    if s.manager.fileEntries = [] then none
    else
      (s.manager.createBranchedSession entropy leafId).map fun result =>
        match result with
        | .ok (m, _) => save F s.files m
        | .error _ => s

/-- What a step comes to: what the manager does is saved, or the call throws. -/
inductive StepCases (F : EntryFormat) (migrate : Migration) (s : FileSession) :
    FileSessionOp → FileSession → Prop
  | newSession (options : SessionManager.NewSessionOptions) (uuid : Uuid) (timestamp : ℕ) :
      StepCases F migrate s (.newSession options uuid timestamp)
        (save F s.files (s.manager.newSession options uuid timestamp))
  | setSessionFile (path : String) (uuid : Uuid) (timestamp : ℕ) :
      StepCases F migrate s (.setSessionFile path uuid timestamp)
        (save F s.files (s.manager.setSessionFile F migrate path (s.files path) uuid timestamp))
  | call {entropy : SessionManager.Entropy} {op : SessionManager.SessionOp} {m : SessionManager}
      (opened : s.manager.fileEntries ≠ []) (applied : s.manager.apply entropy op = .ok m) :
      StepCases F migrate s (.call entropy op) (save F s.files m)
  | createBranchedSession {leafId : String} (entropy : SessionManager.BranchEntropy)
      (path : List SessionEntry) (opened : s.manager.fileEntries ≠ []) :
      StepCases F migrate s (.createBranchedSession entropy leafId)
        (save F s.files (s.manager.branchedFrom entropy path).1)
  | throws (op : FileSessionOp) : StepCases F migrate s op s

variable {F : EntryFormat} {migrate : Migration} {s s' : FileSession}

theorem step_cases {op : FileSessionOp} (h : step F migrate s op = some s') :
    StepCases F migrate s op s' := by
  cases op with
  | newSession options uuid timestamp =>
    cases h
    exact .newSession options uuid timestamp
  | setSessionFile path uuid timestamp =>
    cases h
    exact .setSessionFile path uuid timestamp
  | call entropy op =>
    simp only [step] at h
    split_ifs at h with hopened
    cases happly : s.manager.apply entropy op with
    | error message =>
      rw [happly] at h
      cases h
      exact .throws _
    | ok m =>
      rw [happly] at h
      cases h
      exact .call hopened happly
  | createBranchedSession entropy leafId =>
    simp only [step] at h
    split_ifs at h with hopened
    obtain ⟨result, hresult, rfl⟩ := map_eq_some_iff.mp h
    obtain ⟨path, -, rfl⟩ := map_eq_some_iff.mp hresult
    split_ifs
    · exact .throws _
    · exact .createBranchedSession entropy path hopened

end FileSession

end Draht
