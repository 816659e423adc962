import Draht.EditDiff
import Draht.FileMutationQueue

/-!
# The edit and write tools

Tool calls take turns in the file mutation queue. Once it has its turn a call runs one file
operation after another; the signal may fire at any time, and then the call is rejected at once,
while an operation that is under way goes on.
-/

namespace Draht.FileTools

open EditDiff
open FileMutationQueue (FileSystem)

structure StrippedText where
  bom : JsText
  text : JsText

def stripBom : JsText → StrippedText
  | 0xFEFF :: text => { bom := [0xFEFF], text }
  | text => { bom := [], text }

def detectLineEnding (content : JsText) : JsText :=
  match indexOf? [13, 10] content, indexOf? [10] content with
  | some crlfIdx, some lfIdx => if crlfIdx < lfIdx then [13, 10] else [10]
  | _, _ => [10]

def restoreLineEndings (text ending : JsText) : JsText :=
  if ending = [13, 10] then text.flatMap fun c => if c = 10 then [13, 10] else [c] else text

/-- The new content of a file, between reading and writing it. -/
def editedContent (nfkc : JsText → JsText) (path : String) (edits : List Edit)
    (rawContent : JsText) : Except String JsText :=
  let stripped := stripBom rawContent
  let originalEnding := detectLineEnding stripped.text
  match applyEditsToNormalizedContent nfkc (normalizeToLF stripped.text) edits path with
  | .error message => .error message
  | .ok applied => .ok (stripped.bom ++ restoreLineEndings applied.newContent originalEnding)

inductive Tool where
  | edit (edits : List Edit)
  | write (content : JsText)

inductive FileOperation where
  | access | readFile | mkdir
  | writeFile (content : JsText)
deriving DecidableEq

inductive Outcome where
  | resolved (text : String)
  | aborted
  | rejected (message : String)
deriving DecidableEq

/-- Where the inner function of a call is: before it, at an operation that is under way, at one
that is done but whose result has not been taken, and after its last operation. -/
inductive Progress where
  | queued
  | inFlight (op : FileOperation)
  | performed (op : FileOperation) (result : Except String JsText)
  | finished

/-- `aborted` says that the signal has fired. -/
structure ToolCall where
  tool : Tool
  path : String
  resolvedPath : String
  aborted : Bool
  progress : Progress
  outcome : Option Outcome

def ToolCall.firstOperation (c : ToolCall) : FileOperation :=
  match c.tool with
  | .edit _ => .access
  | .write _ => .mkdir

/-- The beginning of the function that is passed to `withFileMutationQueue`. -/
def ToolCall.start (c : ToolCall) : ToolCall :=
  if c.aborted then { c with progress := .finished, outcome := some .aborted }
  else { c with progress := .inFlight c.firstOperation }

def ToolCall.settle (c : ToolCall) (outcome : Outcome) : ToolCall :=
  { c with progress := .finished, outcome := c.outcome.or (some outcome) }

/-- The signal fires; its listener is there while the inner function runs. -/
def ToolCall.onAbort (c : ToolCall) : ToolCall :=
  { c with
    aborted := true
    outcome := match c.progress with
      | .queued | .finished => c.outcome
      | .inFlight _ | .performed .. => c.outcome.or (some .aborted) }

/-- The inner function returns, and leaves the promise as it is. -/
def ToolCall.stop (c : ToolCall) : ToolCall := { c with progress := .finished }

/-- On to the next operation, unless the signal has fired. -/
def ToolCall.next (c : ToolCall) (op : FileOperation) : ToolCall :=
  if c.aborted then c.stop else { c with progress := .inFlight op }

/-- The `catch` block. -/
def ToolCall.caught (c : ToolCall) (message : String) : ToolCall :=
  if c.aborted then c.stop else c.settle (.rejected message)

def ToolCall.successText (c : ToolCall) (content : JsText) : String :=
  match c.tool with
  | .edit edits =>
    "Successfully replaced " ++ toString edits.length ++ " block(s) in " ++ c.path ++ "."
  | .write _ => "Successfully wrote " ++ toString content.length ++ " bytes to " ++ c.path

def ToolCall.resume (nfkc : JsText → JsText) (c : ToolCall) :
    FileOperation → Except String JsText → ToolCall
  | .access, .error _ => c.settle (.rejected ("File not found: " ++ c.path))
  | _, .error message => c.caught message
  | .access, .ok _ => c.next .readFile
  | .readFile, .ok rawContent =>
    match c.tool with
    | .edit edits =>
      if c.aborted then c.stop
      else
        match editedContent nfkc c.path edits rawContent with
        | .error message => c.caught message
        | .ok finalContent => c.next (.writeFile finalContent)
    | .write _ => c
  | .mkdir, .ok _ =>
    match c.tool with
    | .write content => c.next (.writeFile content)
    | .edit _ => c
  | .writeFile content, .ok _ =>
    if c.aborted then c.stop
    else c.settle (.resolved (c.successText content))

/-- `files` are the contents of the files by their real paths. -/
structure State where
  queue : FileMutationQueue.State
  tools : List ToolCall
  files : String → Option JsText

def initial (fs : FileSystem) (files : String → Option JsText) : State :=
  { queue := FileMutationQueue.initial fs, tools := [], files }

/-- A tool call, or what happens to one: its turn comes, its operation is performed (`message` is
the error of the file system, if it fails), it takes the result, its signal fires, or its promise
settles and the queue is released. Another program may change files and paths. -/
inductive Event where
  | execute (tool : Tool) (path absolutePath : String)
  | start (id : ℕ)
  | perform (id : ℕ) (message : Option String)
  | resume (id : ℕ)
  | abort (id : ℕ)
  | settle (id : ℕ)
  | resolveChained (id : ℕ)
  | changeFiles (fs : FileSystem) (files : String → Option JsText)

def realFile (fs : FileSystem) (path : String) : String := (fs.realpath path).getD path

/-- What the file system does, and what it answers; there is no text of a file that does not
exist. -/
def performed (s : State) (resolvedPath : String) (op : FileOperation) :
    Option String → Option ((String → Option JsText) × Except String JsText)
  | some message => some (s.files, .error message)
  | none =>
    match op with
    | .access | .mkdir => some (s.files, .ok [])
    | .readFile => (s.files (realFile s.queue.fs resolvedPath)).map fun raw => (s.files, .ok raw)
    | .writeFile content =>
      some (Function.update s.files (realFile s.queue.fs resolvedPath) (some content), .ok [])

def State.update (s : State) (id : ℕ) (f : ToolCall → ToolCall) : State :=
  { s with tools := s.tools.modify id f }

def performStep (s : State) (id : ℕ) (c : ToolCall) (message : Option String) : Option State :=
  match c.progress with
  | .inFlight op => (performed s c.resolvedPath op message).map fun (files, result) =>
    { s with files }.update id fun c => { c with progress := .performed op result }
  | _ => none

def resumeStep (nfkc : JsText → JsText) (s : State) (id : ℕ) (c : ToolCall) : Option State :=
  match c.progress with
  | .performed op result => some (s.update id fun c => c.resume nfkc op result)
  | _ => none

def startStep (s : State) (id : ℕ) (c : ToolCall) : Option State :=
  match c.progress with
  | .queued => (FileMutationQueue.step s.queue (.start id)).map fun queue =>
    { s with queue }.update id ToolCall.start
  | _ => none

def step (nfkc : JsText → JsText) (s : State) : Event → Option State
  | .execute tool path absolutePath =>
    (FileMutationQueue.step s.queue (.call absolutePath)).map fun queue =>
      { s with
        queue
        tools := s.tools ++
          [{ tool, path, resolvedPath := s.queue.fs.resolve absolutePath, aborted := false
             progress := .queued, outcome := none }] }
  | .start id => s.tools[id]?.bind fun c => startStep s id c
  | .perform id message => s.tools[id]?.bind fun c => performStep s id c message
  | .resume id => s.tools[id]?.bind fun c => resumeStep nfkc s id c
  | .abort id => s.tools[id]?.map fun _ => s.update id ToolCall.onAbort
  | .settle id =>
    if s.tools[id]?.any (fun c => c.outcome.isSome) then
      (FileMutationQueue.step s.queue (.settle id)).map fun queue => { s with queue }
    else none
  | .resolveChained id =>
    (FileMutationQueue.step s.queue (.resolveChained id)).map fun queue => { s with queue }
  | .changeFiles fs files =>
    (FileMutationQueue.step s.queue (.changeFiles fs)).map fun queue => { s with queue, files }

end Draht.FileTools
