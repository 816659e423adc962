import Draht.GuardedRun
import Draht.Json
import Draht.OrderedMap
import Mathlib.Data.Int.Notation

/-!
# The watcher of event files

Event files are read when they appear or change, and their events are executed at once, at a time
or periodically. Reading a file takes time, and so does the wait before it is read again; whatever
else happens, happens in between.
-/

namespace Draht.EventsWatcher

inductive MomEvent where
  | immediate (channelId text : Json)
  | oneShot (channelId text at' : Json)
  | periodic (channelId text schedule timezone : Json)
deriving DecidableEq

/-- An event whose file is deleted when it is executed. -/
def MomEvent.deleteAfter : MomEvent → Bool
  | .periodic _ _ _ _ => false
  | _ => true

/-- `!!value`. -/
def truthy : Json → Bool
  | .null => false
  | .bool b => b
  | .number text => text ≠ "0"
  | .string s => s ≠ ""
  | _ => true

/-- `data[key]`, if that is truthy. -/
def field (key : String) (data : Json) : Option Json :=
  match data with
  | .object fields => (fields.get key).filter truthy
  | _ => none

/-- The parsed text as an event; `none` is an exception. -/
def parseEvent (data : Json) : Option MomEvent := do
  let type ← field "type" data
  let channelId ← field "channelId" data
  let text ← field "text" data
  if type = .string "immediate" then return .immediate channelId text
  else if type = .string "one-shot" then
    let at' ← field "at" data
    return .oneShot channelId text at'
  else if type = .string "periodic" then
    let schedule ← field "schedule" data
    let timezone ← field "timezone" data
    return .periodic channelId text schedule timezone
  else none

/-- What the watcher uses of the platform: `new Date(x).getTime()`, which may be no number, and
whether `new Cron(schedule, { timezone })` throws. -/
structure Platform where
  getTime : Json → Option ℤ
  validCron : Json → Json → Bool

/-- A file of the events directory. A text that is no JSON has no content. -/
structure EventFile where
  content : Option Json
  mtimeMs : ℤ
deriving DecidableEq

/-- What a read returned: nothing if there is no such file, else the content and which of the
file's changes it comes from. -/
abbrev ReadResult := Option (Option Json × ℕ)

inductive Phase where
  | reading
  | resolved (result : ReadResult)
  | sleeping
deriving DecidableEq

/-- A call of `handleFile`; `attempt` is the index of its loop. -/
structure Call where
  id : ℕ
  filename : String
  attempt : ℕ
  phase : Phase
deriving DecidableEq

/-- A timer that was neither cleared nor fired, or a cron job that was not stopped. `version` is
the change of the file that its event comes from. -/
structure Schedule where
  id : ℕ
  filename : String
  event : MomEvent
  version : ℕ
  due : ℤ
deriving DecidableEq

structure Execution where
  filename : String
  event : MomEvent
  version : ℕ
deriving DecidableEq

/-- `versions` counts the changes of each file, and `handled` is that count when
`handleFileChange` last ran for the file. -/
structure Watcher where
  now : ℤ
  startTime : ℤ
  started : Bool
  files : OrderedMap String EventFile
  versions : String → ℕ
  handled : String → ℕ
  knownFiles : List String
  timers : String → Option ℕ
  crons : String → Option ℕ
  debounceTimers : String → Bool
  calls : List Call
  live : List Schedule
  nextId : ℕ
  executed : List Execution

def MAX_RETRIES : ℕ := 3

/-- A watcher that was just constructed, over a directory with files. -/
def initial (now : ℤ) (files : OrderedMap String EventFile) : Watcher :=
  { now := now, startTime := now, started := false, files := files, versions := fun _ => 0
    handled := fun _ => 0, knownFiles := [], timers := fun _ => none, crons := fun _ => none
    debounceTimers := fun _ => false, calls := [], live := [], nextId := 0, executed := [] }

variable (s : Watcher)

def bump (filename : String) : Watcher :=
  { s with versions := Function.update s.versions filename (s.versions filename + 1) }

def writeFile (filename : String) (file : EventFile) : Watcher :=
  { bump s filename with files := s.files.set filename file }

def unlink (filename : String) : Watcher :=
  if s.files.has filename then { bump s filename with files := s.files.delete filename } else s

def forget (filename : String) : Watcher :=
  { s with knownFiles := s.knownFiles.filter (· ≠ filename) }

def deleteFile (filename : String) : Watcher := forget (unlink s filename) filename

/-- `clearTimeout` or `stop`. -/
def clear (id : Option ℕ) : Watcher := { s with live := s.live.filter fun sch => some sch.id ≠ id }

def cancelScheduled (filename : String) : Watcher :=
  let cleared := clear (clear s (s.timers filename)) (s.crons filename)
  { cleared with
    timers := Function.update s.timers filename none
    crons := Function.update s.crons filename none }

/-- Timers that would wait for more than 2³¹ - 1 milliseconds, or for no number of them, wait for
one. -/
def dueTime (now : ℤ) (atTime : Option ℤ) : ℤ :=
  match atTime with
  | none => now + 1
  | some atTime => if 2147483647 < atTime - now then now + 1 else atTime

def handleImmediate (filename : String) (event : MomEvent) (version : ℕ) : Watcher :=
  match s.files.get filename with
  | none => s
  | some file =>
    if file.mtimeMs < s.startTime then deleteFile s filename
    else deleteFile { s with executed := s.executed ++ [⟨filename, event, version⟩] } filename

def handleOneShot (P : Platform) (filename : String) (event : MomEvent) (at' : Json)
    (version : ℕ) : Watcher :=
  let atTime := P.getTime at'
  if atTime.any (· ≤ s.now) then deleteFile s filename
  else
    { s with
      live := s.live ++ [⟨s.nextId, filename, event, version, dueTime s.now atTime⟩]
      timers := Function.update s.timers filename (some s.nextId)
      nextId := s.nextId + 1 }

def handlePeriodic (P : Platform) (filename : String) (event : MomEvent)
    (schedule timezone : Json) (version : ℕ) : Watcher :=
  if P.validCron schedule timezone then
    { s with
      live := s.live ++ [⟨s.nextId, filename, event, version, s.now⟩]
      crons := Function.update s.crons filename (some s.nextId)
      nextId := s.nextId + 1 }
  else deleteFile s filename

/-- The end of `handleFile` once the file is parsed. -/
def schedule (P : Platform) (filename : String) (event : MomEvent) (version : ℕ) : Watcher :=
  let known :=
    { s with
      knownFiles := if filename ∈ s.knownFiles then s.knownFiles else s.knownFiles ++ [filename] }
  match event with
  | .immediate _ _ => handleImmediate known filename event version
  | .oneShot _ _ at' => handleOneShot known P filename event at' version
  | .periodic _ _ schedule timezone =>
    handlePeriodic known P filename event schedule timezone version

/-- A call of `handleFile`, up to the read of the file. -/
def handleFile (filename : String) : Watcher :=
  { s with calls := s.calls ++ [⟨s.nextId, filename, 0, .reading⟩], nextId := s.nextId + 1 }

def scanExisting : Watcher :=
  (s.files.keys.filter fun filename => ".json".toList.isSuffixOf filename.toList).foldl
    handleFile s

def handleDelete (filename : String) : Watcher :=
  if filename ∈ s.knownFiles then forget (cancelScheduled s filename) filename else s

def handleFileChange (filename : String) : Watcher :=
  let s := { s with handled := Function.update s.handled filename (s.versions filename) }
  if s.files.has filename then
    if filename ∈ s.knownFiles then handleFile (cancelScheduled s filename) filename
    else handleFile s filename
  else handleDelete s filename

def setPhase (c : Call) (attempt : ℕ) (phase : Phase) : Watcher :=
  { s with
    calls := s.calls.map fun c' =>
      if c' = c then { c with attempt := attempt, phase := phase } else c' }

def finish (c : Call) : Watcher := { s with calls := s.calls.filter (· ≠ c) }

def ReadResult.event? (result : ReadResult) : Option (MomEvent × ℕ) :=
  result.bind fun (content, version) => (content.bind parseEvent).map fun event => (event, version)

/-- The event that a call has read and not yet handled, with the change that it comes from. -/
def Call.event? (c : Call) : Option (MomEvent × ℕ) :=
  match c.phase with
  | .resolved result => result.event?
  | _ => none

/-- A read that has returned: the event is scheduled, or the file is read again later, or given
up. -/
def resume (P : Platform) (c : Call) (result : ReadResult) : Watcher :=
  match result.event? with
  | some (event, version) => schedule (finish s c) P c.filename event version
  | none =>
    if c.attempt + 1 < MAX_RETRIES then setPhase s c c.attempt .sleeping
    else deleteFile (finish s c) c.filename

def fire (sch : Schedule) : Watcher :=
  let ran := { s with executed := s.executed ++ [⟨sch.filename, sch.event, sch.version⟩] }
  if sch.event.deleteAfter then
    deleteFile
      { ran with
        live := s.live.filter (·.id ≠ sch.id)
        timers := Function.update s.timers sch.filename none } sch.filename
  else ran

/-- What happens, in any order: time passes, files are written and removed, the watcher starts and
is told of changes, and what it has started goes on. -/
inductive Action where
  | advance (ms : ℕ)
  | writeFile (filename : String) (file : EventFile)
  | removeFile (filename : String)
  | start
  | watchEvent (filename : String)
  | debounced (filename : String)
  | read (id : ℕ)
  | resume (id : ℕ)
  | wake (id : ℕ)
  | fire (id : ℕ)
deriving DecidableEq

def callOf (id : ℕ) : Option Call := s.calls.find? (·.id = id)

def step (P : Platform) (s : Watcher) : Action → Option Watcher
  | .advance ms => some { s with now := s.now + ms }
  | .writeFile filename file => some (writeFile s filename file)
  | .removeFile filename => some (unlink s filename)
  | .start => if s.started then none else some (scanExisting { s with started := true })
  | .watchEvent filename =>
    if s.started ∧ ".json".toList.isSuffixOf filename.toList then
      some { s with debounceTimers := Function.update s.debounceTimers filename true }
    else none
  | .debounced filename =>
    if s.debounceTimers filename then
      some (handleFileChange
        { s with debounceTimers := Function.update s.debounceTimers filename false } filename)
    else none
  | .read id =>
    (callOf s id).bind fun c =>
      if c.phase = .reading then
        some (setPhase s c c.attempt (.resolved ((s.files.get c.filename).map fun file =>
          (file.content, s.versions c.filename))))
      else none
  | .resume id =>
    (callOf s id).bind fun c =>
      match c.phase with
      | .resolved result => some (resume s P c result)
      | _ => none
  | .wake id =>
    (callOf s id).bind fun c =>
      if c.phase = .sleeping then some (setPhase s c (c.attempt + 1) .reading) else none
  | .fire id =>
    (s.live.find? (·.id = id)).bind fun sch => if sch.due ≤ s.now then some (fire s sch) else none

end Draht.EventsWatcher
