import Draht.GuardedRun
import Draht.OrderedMap
import Draht.Text

/-!
# The socket server

Clients attach to a session over sockets. A message is a line of JSON and carries the id of the
client that it is from; clients are registered under these ids in one map for all sockets. The
server is a state with a log of what it receives and sends; it takes one step for each event of
a socket, and one for each line of a chunk.
-/

namespace Draht

/-- A field of a parsed message, as far as `===` and the keys of a map tell values apart: an array
or an object is the same as itself only. -/
inductive JsonAtom where
  | undefined
  | null
  | bool (b : Bool)
  | number (text : String)
  | string (s : String)
  | reference (id : ℕ)
deriving DecidableEq

def JsonAtom.isTruthy : JsonAtom → Bool
  | .undefined | .null => false
  | .bool b => b
  | .number text => text ≠ "0"
  | .string s => s ≠ ""
  | .reference _ => true

/-- The fields that the server reads; they are not validated, and a missing one is undefined. -/
structure ClientMessage where
  type : JsonAtom
  clientId : JsonAtom
  mode : JsonAtom
  data : JsonAtom
deriving DecidableEq

inductive ServerMessage where
  | output (data stream : String)
  | inputEcho (data clientId : JsonAtom)
  | clientJoined (clientId mode : JsonAtom)
  | clientLeft (clientId : JsonAtom)
  | sessionMetadata (sessionId cwd createdAt : String)
  | error (message : String) (code : Option String)
deriving DecidableEq

structure ConnectedClient where
  id : JsonAtom
  mode : JsonAtom
  socket : ℕ
deriving DecidableEq

/-- What the closures of one connection hold. A socket is open until it fails or closes. -/
structure SocketConnection where
  clientId : JsonAtom := .null
  mode : JsonAtom := .string "read-write"
  buffer : List Char := []
  isOpen : Bool := true

/-- What is written to sockets and passed to the input handler, and what comes before it. -/
inductive SocketRecord where
  | received (socket : ℕ) (message : ClientMessage)
  | disconnected (socket : ℕ)
  | write (socket : ℕ) (message : ServerMessage)
  | endSocket (socket : ℕ)
  | input (data clientId : JsonAtom)
deriving DecidableEq

def SocketRecord.isInput : SocketRecord → Bool
  | .input .. => true
  | _ => false

/-- The options of the server, and what `JSON.parse` answers to its n-th call: it throws (`none`),
also for the value `null`, of which no field can be read. -/
structure SocketServerOptions where
  sessionId : String
  cwd : String
  createdAt : String
  maxClients : ℕ
  broadcastInputEcho : Bool
  parse : ℕ → List Char → Option ClientMessage

/-- `onInput` says of the callback whether its n-th call throws; `reading` holds the lines of a
chunk that are still to be handled. -/
structure SocketServer where
  clients : OrderedMap JsonAtom ConnectedClient
  connections : List SocketConnection
  onInput : Option (ℕ → Bool)
  parsed : ℕ
  reading : Option (ℕ × List (List Char))
  log : List SocketRecord

namespace SocketServer

def started : SocketServer :=
  { clients := .empty, connections := [], onInput := none, parsed := 0, reading := none, log := [] }

variable (opts : SocketServerOptions) (s : SocketServer)

def record (r : SocketRecord) : SocketServer := { s with log := s.log ++ [r] }

def send (socket : ℕ) (message : ServerMessage) : SocketServer := s.record (.write socket message)

def sendError (socket : ℕ) (message : String) : SocketServer := s.send socket (.error message none)

def endSocket (socket : ℕ) : SocketServer := s.record (.endSocket socket)

def broadcast (message : ServerMessage) (excludeClientId : JsonAtom) : SocketServer :=
  let receivers := (s.clients.entries.map Prod.snd).filter fun c => c.id ≠ excludeClientId
  { s with log := s.log ++ receivers.map (fun c => .write c.socket message) }

def handleClientDisconnect (clientId : JsonAtom) : SocketServer :=
  match s.clients.get clientId with
  | none => s
  | some _ =>
    { s with clients := s.clients.delete clientId }.broadcast (.clientLeft clientId) .undefined

/-- The callback of `handleConnection` that remembers the client. -/
def onAttach (socket : ℕ) (id mode : JsonAtom) : SocketServer :=
  { s with connections := s.connections.modify socket (fun c => { c with clientId := id, mode }) }

def handleAttach (m : ClientMessage) (socket : ℕ) : SocketServer :=
  if opts.maxClients ≤ s.clients.size then
    (s.sendError socket "Maximum clients reached").endSocket socket
  else if s.clients.has m.clientId then
    (s.sendError socket "Client ID already connected").endSocket socket
  else
    let client := { id := m.clientId, mode := m.mode, socket }
    let registered :=
      { s with clients := s.clients.set m.clientId client }.onAttach socket m.clientId m.mode
    (registered.send socket (.sessionMetadata opts.sessionId opts.cwd opts.createdAt)).broadcast
      (.clientJoined m.clientId m.mode) m.clientId

/-- An error is thrown by the callback only; it carries the state in which it is thrown. -/
def forwardInput (m : ClientMessage) : Except SocketServer SocketServer :=
  let echoed (s : SocketServer) :=
    if opts.broadcastInputEcho then s.broadcast (.inputEcho m.data m.clientId) m.clientId else s
  match s.onInput with
  | none => .ok (echoed s)
  | some throws =>
    let passed := s.record (.input m.data m.clientId)
    if throws (s.log.countP SocketRecord.isInput) then .error passed else .ok (echoed passed)

def handleInput (m : ClientMessage) (socket : ℕ) : Except SocketServer SocketServer :=
  match s.clients.get m.clientId with
  | none => .ok (s.sendError socket "Read-only clients cannot send input")
  | some client =>
    if client.mode = .string "read-only" then
      .ok (s.sendError socket "Read-only clients cannot send input")
    else s.forwardInput opts m

def handleDetach (m : ClientMessage) (socket : ℕ) : SocketServer :=
  (s.handleClientDisconnect m.clientId).endSocket socket

def handleClientMessage (m : ClientMessage) (socket : ℕ) : Except SocketServer SocketServer :=
  if m.type = .string "attach" then .ok (s.handleAttach opts m socket)
  else if m.type = .string "input" then s.handleInput opts m socket
  else if m.type = .string "detach" then .ok (s.handleDetach m socket)
  else .ok s

def handleLine (socket : ℕ) (line : List Char) : SocketServer :=
  if trim isWhiteSpace line = [] then s
  else
    let parsed := { s with parsed := s.parsed + 1 }
    match opts.parse s.parsed line with
    | none => parsed.sendError socket "Invalid JSON message"
    | some m =>
      match (parsed.record (.received socket m)).handleClientMessage opts m socket with
      | .ok s' => s'
      | .error s' => s'.sendError socket "Invalid JSON message"

/-- The handlers of `close` and `error`. -/
def handleGone (socket : ℕ) (c : SocketConnection) : SocketServer :=
  let closed := s.connections.modify socket (fun c => { c with isOpen := false })
  let gone := { s with connections := closed }.record (.disconnected socket)
  if c.clientId.isTruthy then gone.handleClientDisconnect c.clientId else gone

def stop : SocketServer :=
  { s with
    clients := .empty
    log := s.log ++ s.clients.entries.map (fun p => .endSocket p.2.socket) }

end SocketServer

/-- A chunk is received, the next of its lines is handled, a socket fails or closes (a failed one
closes too, which finds it gone); and what the session does with the server. -/
inductive SocketEvent where
  | connection
  | data (socket : ℕ) (chunk : List Char)
  | line
  | error (socket : ℕ)
  | close (socket : ℕ)
  | onInput (throws : ℕ → Bool)
  | broadcastOutput (data stream : String)
  | stop

namespace SocketServer

/-- While a chunk is read, its lines are handled before anything else. -/
def whenIdle (s : SocketServer) (next : Option SocketServer) : Option SocketServer :=
  if s.reading.isSome then none else next

/-- The connection of a socket to which the event can still come. -/
def openConnection (s : SocketServer) (socket : ℕ) : Option SocketConnection :=
  s.connections[socket]?.filter SocketConnection.isOpen

def receive (s : SocketServer) (socket : ℕ) (chunk : List Char) (c : SocketConnection) :
    SocketServer :=
  let lines := (c.buffer ++ chunk).splitOn '\n'
  { s with
    connections := s.connections.modify socket (fun c => { c with buffer := lines.getLastD [] })
    reading := some (socket, lines.dropLast) }

def step (opts : SocketServerOptions) (s : SocketServer) : SocketEvent → Option SocketServer
  | .line =>
    match s.reading with
    | some (socket, line :: lines) =>
      some ({ s with reading := some (socket, lines) }.handleLine opts socket line)
    | some (_, []) => some { s with reading := none }
    | none => none
  | .connection => s.whenIdle (some { s with connections := s.connections ++ [{}] })
  | .data socket chunk => s.whenIdle ((s.openConnection socket).map (s.receive socket chunk))
  | .error socket => s.whenIdle ((s.openConnection socket).map (s.handleGone socket))
  | .close socket => s.whenIdle (s.connections[socket]?.map (s.handleGone socket))
  | .onInput throws => s.whenIdle (some { s with onInput := some throws })
  | .broadcastOutput data stream =>
    s.whenIdle (some (s.broadcast (.output data stream) .undefined))
  | .stop => s.whenIdle (some s.stop)

end SocketServer

end Draht
