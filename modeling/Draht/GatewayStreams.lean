import Draht.Subscriptions

/-!
# The output of a session's process

A session has at most one process, which may be spawned by the first input. Its output is replayed
to a subscriber and then sent to it. Web sockets subscribe when they open or, if there is no process
yet, when they are notified of it, some time after it was spawned; event streams subscribe when
they are opened.
-/

namespace Draht.GatewayStreams

inductive ClientKind where
  | webSocket | sse
deriving DecidableEq

/-- The connection of a client. `unsub` is kept by the handlers of the client, and `processUnsub`
(`__processUnsub`) by the context that a web socket was opened with. -/
structure Client (χ : Type*) where
  kind : ClientKind
  isOpen : Bool
  received : List χ
  unsub : Option ℕ
  processUnsub : Option ℕ
  closesOnExit : Bool
deriving DecidableEq

structure SessionProcess (ι χ : Type*) where
  subscribers : Subscriptions ι
  outputBuffer : List χ
  pumping : Bool
  exited : Bool

/-- `attaching` while an input request waits for the process that it has spawned; `sockets` is
`sessionWebSockets.get(id)`. -/
structure State (ι χ : Type*) where
  process : Option (SessionProcess ι χ)
  attaching : Bool
  sockets : List ι
  clients : ι → Option (Client χ)

/-- What happens, in any order. A connection is dropped by either side; its handlers run later. -/
inductive Action (ι χ : Type*) where
  | openSocket (c : ι)
  | openStream (c : ι)
  | input
  | ready
  | output (chunk : χ)
  | pumpStops (failed : Bool)
  | exit
  | closeOnExit (c : ι)
  | drop (c : ι)
  | cleanUp (c : ι)

def maxBufferLines : ℕ := 10000

variable {ι χ : Type*}

/-- What is sent to a connection that is closed goes nowhere. -/
def Client.send (data : χ) (client : Client χ) : Client χ :=
  if client.isOpen then { client with received := client.received ++ [data] } else client

def SessionProcess.spawned : SessionProcess ι χ := ⟨.empty, [], true, false⟩

/-- The buffer with a chunk more; it is trimmed at its start. -/
def bufferOutput (outputBuffer : List χ) (text : χ) : List χ :=
  let outputBuffer := outputBuffer ++ [text]
  if maxBufferLines < outputBuffer.length then outputBuffer.tail else outputBuffer

def unsubscribe (process : SessionProcess ι χ) (handle : Option ℕ) : SessionProcess ι χ :=
  match handle with
  | none => process
  | some number => { process with subscribers := process.subscribers.unsubscribe number }

variable [DecidableEq ι]

def modify {β : Type*} (clients : ι → Option β) (c : ι) (f : β → β) : ι → Option β :=
  Function.update clients c ((clients c).map f)

/-- The buffer is replayed to a client, which is then subscribed; its number is `next`. -/
def onOutput (process : SessionProcess ι χ) (clients : ι → Option (Client χ)) (c : ι) :
    SessionProcess ι χ × (ι → Option (Client χ)) :=
  ({ process with subscribers := process.subscribers.subscribe c },
    modify clients c fun client => process.outputBuffer.foldl (fun client chunk =>
      client.send chunk) client)

def fanOut (subscribers : List (ℕ × ι)) (clients : ι → Option (Client χ)) (text : χ) :
    ι → Option (Client χ) :=
  subscribers.foldl (fun clients entry => modify clients entry.2 (Client.send text)) clients

variable (state : State ι χ)

/-- `onOpen` of a web socket. -/
def openSocket (c : ι) : State ι χ :=
  let sockets := state.sockets ++ [c]
  let opened : Client χ := ⟨.webSocket, true, [], none, none, false⟩
  let clients := Function.update state.clients c (some opened)
  match state.process with
  | none => { state with sockets, clients }
  | some process =>
    let number := process.subscribers.next
    let (process, clients) := onOutput process clients c
    { state with
      process := some process
      sockets
      clients := modify clients c fun client =>
        { client with unsub := some number, processUnsub := some number, closesOnExit := true } }

/-- The start of an event stream. Without a process it only says that it is ready. -/
def openStream (c : ι) : State ι χ :=
  let opened : Client χ := ⟨.sse, true, [], none, none, false⟩
  let clients := Function.update state.clients c (some opened)
  match state.process with
  | none => { state with clients }
  | some process =>
    let number := process.subscribers.next
    let (process, clients) := onOutput process clients c
    { state with
      process := some process
      clients := modify clients c fun client =>
        { client with unsub := some number, closesOnExit := true } }

/-- `POST /:id/input`, up to the wait for the process. -/
def postInput : State ι χ :=
  match state.process with
  | none => { state with process := some .spawned, attaching := true }
  | some _ => state

def attachSocket (attached : SessionProcess ι χ × (ι → Option (Client χ))) (c : ι) :
    SessionProcess ι χ × (ι → Option (Client χ)) :=
  let number := attached.1.subscribers.next
  let (process, clients) := onOutput attached.1 attached.2 c
  (process, modify clients c fun client =>
    { client with processUnsub := some number, closesOnExit := true })

def notifyWebSocketsProcessAttached : State ι χ :=
  match state.process with
  | none => state
  | some process =>
    let (process, clients) := state.sockets.foldl attachSocket (process, state.clients)
    { state with process := some process, clients }

/-- `onClose` and `onError` of a web socket, and the cleanup of an event stream. The contexts that
the handlers of a web socket are given may be one object or several. -/
def cleanUp (sameContext : Bool) (c : ι) (client : Client χ) : State ι χ :=
  match client.kind with
  | .webSocket =>
    let forgets := fun client : Client χ =>
      { client with
        unsub := none
        processUnsub := if sameContext then none else client.processUnsub }
    { state with
      process := state.process.map fun process =>
        unsubscribe (if sameContext then unsubscribe process client.processUnsub else process)
          client.unsub
      sockets := if sameContext then state.sockets.erase c else state.sockets
      clients := modify state.clients c forgets }
  | .sse => { state with process := state.process.map (unsubscribe · client.unsub) }

def step (sameContext : Bool) : Action ι χ → Option (State ι χ)
  | .openSocket c => if (state.clients c).isNone then some (openSocket state c) else none
  | .openStream c => if (state.clients c).isNone then some (openStream state c) else none
  | .input => some (postInput state)
  | .ready =>
    if state.attaching then
      some (notifyWebSocketsProcessAttached { state with attaching := false })
    else none
  | .output chunk =>
    match state.process with
    | none => none
    | some process =>
      if process.pumping then
        some { state with
          process := some { process with
            outputBuffer := bufferOutput process.outputBuffer chunk }
          clients := fanOut process.subscribers.entries state.clients chunk }
      else none
  | .pumpStops failed =>
    match state.process with
    | none => none
    | some process =>
      if process.pumping then
        some { state with
          process := some { process with
            pumping := false
            subscribers := if failed then process.subscribers.clear else process.subscribers } }
      else none
  | .exit =>
    state.process.map fun process =>
      { state with process := some { process with exited := true } }
  | .closeOnExit c =>
    match state.process, state.clients c with
    | some process, some client =>
      if process.exited && client.closesOnExit then
        some { state with clients := modify state.clients c fun client =>
          { client with isOpen := false } }
      else none
    | _, _ => none
  | .drop c =>
    if (state.clients c).isSome then
      some { state with clients := modify state.clients c fun client =>
        { client with isOpen := false } }
    else none
  | .cleanUp c =>
    match state.clients c with
    | none => none
    | some client => if client.isOpen then none else some (cleanUp state sameContext c client)

def initial (hasCommand : Bool) : State ι χ where
  process := if hasCommand then some .spawned else none
  attaching := false
  sockets := []
  clients _ := none

/-- What a client should receive: the buffer at the time it is attached to the process, and every
chunk from then on. -/
structure Delivery (χ : Type*) where
  isOpen : Bool
  replayed : Option (List χ)
  live : List χ
deriving DecidableEq

def Delivery.received (d : Delivery χ) : List χ := d.replayed.getD [] ++ d.live

inductive Phase where
  | unspawned | spawned | attached
deriving DecidableEq

structure Ideal (ι χ : Type*) where
  phase : Phase
  outputBuffer : List χ
  deliveries : ι → Option (Delivery χ)

namespace Ideal

variable (ideal : Ideal ι χ)

/-- A client that connects to a process, spawned or attached, is attached to it. -/
def opened (c : ι) : Ideal ι χ :=
  let replayed := if ideal.phase = .unspawned then none else some ideal.outputBuffer
  { ideal with deliveries := Function.update ideal.deliveries c (some ⟨true, replayed, []⟩) }

def attachAll : Ideal ι χ :=
  { ideal with
    phase := .attached
    deliveries := fun c => (ideal.deliveries c).map fun d =>
      if d.isOpen && d.replayed.isNone then { d with replayed := some ideal.outputBuffer } else d }

def send (chunk : χ) : Ideal ι χ :=
  { ideal with
    outputBuffer := bufferOutput ideal.outputBuffer chunk
    deliveries := fun c => (ideal.deliveries c).map fun d =>
      if d.isOpen && d.replayed.isSome then { d with live := d.live ++ [chunk] } else d }

def closed (c : ι) : Ideal ι χ :=
  { ideal with deliveries := modify ideal.deliveries c fun d => { d with isOpen := false } }

def next : Action ι χ → Ideal ι χ
  | .openSocket c => ideal.opened c
  | .openStream c => ideal.opened c
  | .input =>
    if ideal.phase = .unspawned then { ideal with phase := .spawned } else ideal
  | .ready => ideal.attachAll
  | .output chunk => ideal.send chunk
  | .closeOnExit c => ideal.closed c
  | .drop c => ideal.closed c
  | .pumpStops _ => ideal
  | .exit => ideal
  | .cleanUp _ => ideal

end Ideal

def idealInitial (hasCommand : Bool) : Ideal ι χ where
  phase := if hasCommand then .attached else .unspawned
  outputBuffer := []
  deliveries _ := none

end Draht.GatewayStreams
