import Draht.DeliveredLines
import Draht.JsonLines
import Draht.SocketAuthority

/-!
# Framing on the sockets

A message on a socket is a line of JSON. The server and the client each decode the chunks of the
socket one by one, add the text to what is left of the last line and handle the lines that are
complete. A character whose bytes come in two chunks is not put together again: the messages are
delivered if and only if no chunk begins inside a character.
-/

namespace Draht
open List

open Utf8

/-- An object that is sent, and what `JSON.parse` makes of its text: the message. A text with the
same ASCII characters that differs elsewhere has other strings in it, so it is no text of the
message. -/
structure SentMessage {M : Type*} (parse : LineParser M) where
  members : JsonMembers
  message : M
  parses : ∀ n, parse n (JsonValue.object members).stringify = some message
  verbatim : ∀ n text, parse n text = some message →
    text.filter isAscii = (JsonValue.object members).stringify.filter isAscii →
      text = (JsonValue.object members).stringify

section Sent

variable {M : Type*} {parse : LineParser M}

def SentMessage.line (m : SentMessage parse) : List Char := (JsonValue.object m.members).stringify

def sentBytes (sent : List (SentMessage parse)) : List UInt8 :=
  encode (sent.flatMap fun m => serializeJsonLine (.object m.members))

theorem SentMessage.legible (m : SentMessage parse) : Legible parse m.line m.message :=
  ⟨trim_ne_nil mem_cons_self (by decide), m.parses, m.verbatim⟩

theorem SentMessage.newline_not_mem (m : SentMessage parse) : '\n' ∉ m.line := by
  intro hmem
  exact absurd (visible_stringify _ _ hmem) (by decide)

theorem delivered_eq_iff {sent : List (SentMessage parse)} {chunks : List (List UInt8)}
    {out : List M} (hchunks : chunks.flatten = sentBytes sent)
    (h : Delivers parse (wholeLines '\n' (chunks.flatMap decode)) out) :
    out = sent.map (·.message) ↔ Aligned chunks := by
  have hlegible : List.Forall₂ (Legible parse) (sent.map SentMessage.line)
      (sent.map (·.message)) := by
    rw [forall₂_map_left_iff, forall₂_map_right_iff, forall₂_same]
    exact fun m _ => m.legible
  have hframed : chunks.flatten = encode (framed '\n' (sent.map SentMessage.line)) := by
    rw [hchunks, sentBytes, framed, flatMap_map]
    rfl
  refine Delivers.eq_iff_aligned hlegible ?_ hframed h
  intro line hline
  obtain ⟨m, -, rfl⟩ := mem_map.mp hline
  exact m.newline_not_mem

end Sent

structure SocketClientCallbacks where
  onOutput : Bool
  onInputEcho : Bool
  onClientJoined : Bool
  onClientLeft : Bool
  onMetadata : Bool
  onError : Bool

def SocketClientCallbacks.isSet (callbacks : SocketClientCallbacks) : ServerMessage → Bool
  | .output .. => callbacks.onOutput
  | .inputEcho .. => callbacks.onInputEcho
  | .clientJoined .. => callbacks.onClientJoined
  | .clientLeft .. => callbacks.onClientLeft
  | .sessionMetadata .. => callbacks.onMetadata
  | .error .. => callbacks.onError

/-- The messages that were received, and those that a callback was called with; `JSON.parse` answers
`none` to its n-th call when it throws, or gives no message of a known type. -/
structure SocketClient where
  buffer : List Char
  parsed : ℕ
  received : List ServerMessage
  calls : List ServerMessage

namespace SocketClient

def connected : SocketClient := { buffer := [], parsed := 0, received := [], calls := [] }

variable (parse : LineParser ServerMessage) (callbacks : SocketClientCallbacks) (c : SocketClient)

def handleServerMessage (message : ServerMessage) : SocketClient :=
  { c with
    received := c.received ++ [message]
    calls := if callbacks.isSet message then c.calls ++ [message] else c.calls }

/-- The body of the loop over the lines; what a callback throws is ignored. -/
def handleLine (line : List Char) : SocketClient :=
  if trim isWhiteSpace line = [] then c
  else
    let parsed := { c with parsed := c.parsed + 1 }
    match parse c.parsed line with
    | none => parsed
    | some message => parsed.handleServerMessage callbacks message

def handleData (data : List UInt8) : SocketClient :=
  let lines := (c.buffer ++ decode data).splitOn '\n'
  lines.dropLast.foldl (handleLine parse callbacks) { c with buffer := lines.getLastD [] }

variable {parse callbacks c}

/-- The callbacks have been called with what was received, in its order. -/
def CallsBack (callbacks : SocketClientCallbacks) (c : SocketClient) : Prop :=
  c.calls = c.received.filter callbacks.isSet

theorem CallsBack.handleLine (h : c.CallsBack callbacks) (line : List Char) :
    (c.handleLine parse callbacks line).CallsBack callbacks := by
  unfold SocketClient.handleLine
  split_ifs
  · exact h
  · cases parse c.parsed line with
    | none => exact h
    | some message =>
      rw [CallsBack] at h
      simp only [CallsBack, handleServerMessage, filter_append, h]
      split_ifs with hset
      · rw [filter_cons_of_pos hset]
        rfl
      · rw [filter_cons_of_neg hset]
        exact (append_nil _).symm

theorem CallsBack.handleData (h : c.CallsBack callbacks) (data : List UInt8) :
    (c.handleData parse callbacks data).CallsBack callbacks := by
  have hrun (lines : List (List Char)) (c : SocketClient) (h : c.CallsBack callbacks) :
      (lines.foldl (SocketClient.handleLine parse callbacks) c).CallsBack callbacks := by
    induction lines generalizing c with
    | nil => exact h
    | cons line lines ih => exact ih _ (h.handleLine line)
  exact hrun _ _ h

variable (parse callbacks c) in
theorem foldl_handleLine (lines : List (List Char)) :
    ∃ out, Delivers parse lines out ∧
      (lines.foldl (handleLine parse callbacks) c).buffer = c.buffer ∧
      (lines.foldl (handleLine parse callbacks) c).received = c.received ++ out := by
  induction lines generalizing c with
  | nil => exact ⟨[], .nil, rfl, (append_nil _).symm⟩
  | cons line lines ih =>
    obtain ⟨out, hout, hbuffer, hreceived⟩ := ih (c.handleLine parse callbacks line)
    rw [foldl_cons, hbuffer, hreceived]
    unfold handleLine
    by_cases hblank : trim isWhiteSpace line = []
    · rw [if_pos hblank]
      exact ⟨out, .blank hblank hout, rfl, rfl⟩
    rw [if_neg hblank]
    cases hparse : parse c.parsed line with
    | none => exact ⟨out, .unparsed hparse hout, rfl, rfl⟩
    | some message =>
      exact ⟨message :: out, .message hblank hparse hout, rfl, append_assoc _ _ _⟩

theorem delivers_foldl_handleData (chunks : List (List UInt8)) :
    Delivers parse (wholeLines '\n' (chunks.flatMap decode))
      (chunks.foldl (handleData parse callbacks) connected).received := by
  have hrun (c : SocketClient) (text : List Char)
      (hdelivers : Delivers parse (wholeLines '\n' text) c.received)
      (hbuffer : c.buffer = openLine '\n' text) :
      Delivers parse (wholeLines '\n' (text ++ chunks.flatMap decode))
        (chunks.foldl (handleData parse callbacks) c).received := by
    induction chunks generalizing c text with
    | nil =>
      rw [flatMap_nil, append_nil]
      exact hdelivers
    | cons chunk chunks ih =>
      obtain ⟨hwhole, hopen⟩ := lines_append '\n' text (decode chunk)
      rw [← hbuffer] at hwhole hopen
      obtain ⟨out, hout, hbuffer', hreceived⟩ := foldl_handleLine parse callbacks
        { c with buffer := openLine '\n' (c.buffer ++ decode chunk) }
        (wholeLines '\n' (c.buffer ++ decode chunk))
      rw [flatMap_cons, ← append_assoc, foldl_cons]
      refine ih _ (text ++ decode chunk) ?_ (hbuffer'.trans hopen.symm)
      rw [hwhole]
      exact hreceived ▸ hdelivers.append hout
  exact hrun connected [] .nil rfl

/-- Every line that is complete is parsed once and in order, each message is handed to its callback,
if that is set, and what is left is the text after the last line. -/
theorem handleData_conserves (parse : LineParser ServerMessage)
    (callbacks : SocketClientCallbacks) (chunks : List (List UInt8)) :
    let c := chunks.foldl (handleData parse callbacks) connected
    Delivers parse (wholeLines '\n' (chunks.flatMap decode)) c.received ∧
      c.calls = c.received.filter callbacks.isSet := by
  refine ⟨delivers_foldl_handleData chunks, ?_⟩
  have hrun (c : SocketClient) (h : c.CallsBack callbacks) :
      (chunks.foldl (handleData parse callbacks) c).CallsBack callbacks := by
    induction chunks generalizing c with
    | nil => exact h
    | cons chunk chunks ih => exact ih _ (h.handleData chunk)
  exact hrun connected rfl

end SocketClient

def SocketEvent.dataFor (socket : ℕ) : SocketEvent → Option (List Char)
  | .data k chunk => if k = socket then some chunk else none
  | _ => none

def SocketRecord.receivedOn (socket : ℕ) : SocketRecord → Option ClientMessage
  | .received k m => if k = socket then some m else none
  | _ => none

theorem SocketRecord.receivedOn_of_isPlain {r : SocketRecord} (h : r.isPlain = true)
    (socket : ℕ) : r.receivedOn socket = none := by
  cases r with
  | received k m => cases h
  | _ => rfl

theorem SocketRecord.receivedOn_of_speaksFor {r : SocketRecord} {id : JsonAtom}
    (h : r.speaksFor id = true) (socket : ℕ) : r.receivedOn socket = none := by
  cases r with
  | received k m => cases h
  | _ => rfl

structure SocketLines where
  buffer : List Char
  pending : List (List Char)
  messages : List ClientMessage

/-- The text that has come is the lines that were handled, the lines of the last chunk that are
still pending, and the line in the buffer. -/
structure SocketLines.Reads (parse : LineParser ClientMessage) (text : List Char)
    (lines : SocketLines) : Prop where
  buffer : lines.buffer = openLine '\n' text
  handled : ∃ done, wholeLines '\n' text = done ++ lines.pending ∧
    Delivers parse done lines.messages

namespace SocketServer

variable {opts : SocketServerOptions} {s s' : SocketServer} {socket : ℕ}

def dataOf (socket : ℕ) (steps : List (Transition SocketServer SocketEvent)) :
    List (List Char) :=
  steps.filterMap fun t => t.action.dataFor socket

def messagesOf (socket : ℕ) (log : List SocketRecord) : List ClientMessage :=
  log.filterMap (SocketRecord.receivedOn socket)

def pendingOf (socket : ℕ) : Option (ℕ × List (List Char)) → List (List Char)
  | some (k, lines) => if k = socket then lines else []
  | none => []

def bufferOf (socket : ℕ) (connections : List SocketConnection) : List Char :=
  (connections[socket]?.map SocketConnection.buffer).getD []

def linesOf (socket : ℕ) (s : SocketServer) : SocketLines :=
  { buffer := bufferOf socket s.connections
    pending := pendingOf socket s.reading
    messages := messagesOf socket s.log }

theorem messagesOf_append {log new : List SocketRecord}
    (h : ∀ r ∈ new, r.receivedOn socket = none) :
    messagesOf socket (log ++ new) = messagesOf socket log := by
  rw [messagesOf, filterMap_append, filterMap_eq_nil_iff.mpr h, append_nil]
  rfl

theorem linesOf_eq {new : List SocketRecord}
    (hbuffer : bufferOf socket s'.connections = bufferOf socket s.connections)
    (hreading : s'.reading = s.reading) (hlog : s'.log = s.log ++ new)
    (hnew : ∀ r ∈ new, r.receivedOn socket = none) : s'.linesOf socket = s.linesOf socket := by
  rw [linesOf, linesOf, hbuffer, hreading, hlog, messagesOf_append hnew]

theorem linesOf_sends {P : SocketRecord → Prop} (hP : ∀ r, P r → r.receivedOn socket = none)
    (h : Sends P s s') : s'.linesOf socket = s.linesOf socket := by
  obtain ⟨new, hnew, hr⟩ := h.log
  exact linesOf_eq (congrArg (bufferOf socket) h.connections) h.reading hnew
    fun r hmem => hP r (hr r hmem)

theorem linesOf_sendsPlain (h : SendsPlain s s') : s'.linesOf socket = s.linesOf socket :=
  linesOf_sends (fun _ hplain => SocketRecord.receivedOn_of_isPlain hplain socket) h

theorem bufferOf_modify {f : SocketConnection → SocketConnection}
    (hf : ∀ c, (f c).buffer = c.buffer) (k : ℕ) (connections : List SocketConnection) :
    bufferOf socket (connections.modify k f) = bufferOf socket connections := by
  rw [bufferOf, bufferOf, getElem?_modify]
  cases connections[socket]? with
  | none => rfl
  | some c =>
    by_cases hk : k = socket
    · simp [hk, hf]
    · simp [hk]

theorem linesOf_handled {m : ClientMessage} {k : ℕ} (h : Handled opts s m k s') :
    s'.linesOf socket = s.linesOf socket := by
  cases h with
  | nothing hs hnot => exact linesOf_sendsPlain hs
  | attached htype hsize hnone hs₁ hs =>
    subst hs₁
    rw [linesOf_sendsPlain hs]
    refine linesOf_eq (bufferOf_modify ?_ k s.connections) rfl rfl (forall_mem_singleton.mpr rfl)
    exact fun _ => rfl
  | passed c htype hget hmode hs =>
    refine linesOf_sends (fun r hr => ?_) hs
    exact hr.elim (fun hplain => SocketRecord.receivedOn_of_isPlain hplain socket)
      fun hspeaks => SocketRecord.receivedOn_of_speaksFor hspeaks socket
  | detached c htype hget hs =>
    rw [linesOf_sendsPlain hs]
    rfl

variable (opts s socket) in
theorem linesOf_handleLine (k : ℕ) (line : List Char) :
    ∃ out, Delivers opts.parse [line] out ∧ (s.handleLine opts k line).linesOf socket =
      { s.linesOf socket with
        messages := messagesOf socket s.log ++ if k = socket then out else [] } := by
  obtain ⟨parsed, hplain | ⟨m, hm, hhandled⟩⟩ := handleLine_cases opts s k line
  · obtain ⟨hsends, hnone⟩ := hplain
    refine ⟨[], ?_, ?_⟩
    · unfold messageOf at hnone
      split_ifs at hnone with hblank
      · exact .blank hblank .nil
      · exact .unparsed hnone .nil
    · rw [linesOf_sendsPlain hsends, ite_self, append_nil]
      rfl
  · unfold messageOf at hm
    split_ifs at hm with hblank
    refine ⟨[m], .message hblank hm .nil, ?_⟩
    have hone : messagesOf socket [.received k m] = if k = socket then [m] else [] := by
      by_cases hk : k = socket
      · rw [if_pos hk, messagesOf, filterMap_cons, SocketRecord.receivedOn, if_pos hk]
        rfl
      · rw [if_neg hk, messagesOf, filterMap_cons, SocketRecord.receivedOn, if_neg hk]
        rfl
    rw [linesOf_handled hhandled, ← hone, messagesOf, messagesOf, ← filterMap_append]
    rfl

theorem linesOf_broadcast (message : ServerMessage) (excludeClientId : JsonAtom) :
    (s.broadcast message excludeClientId).linesOf socket = s.linesOf socket :=
  linesOf_sends (P := fun r => r.receivedOn socket = none) (fun _ => id)
    (sends_broadcast (fun _ => rfl) excludeClientId)

theorem linesOf_handleGone (k : ℕ) (c : SocketConnection) :
    (s.handleGone k c).linesOf socket = s.linesOf socket := by
  have hgone : ({ s with
      connections := s.connections.modify k (fun c => { c with isOpen := false }) }.record
        (.disconnected k)).linesOf socket = s.linesOf socket := by
    refine linesOf_eq (bufferOf_modify ?_ k s.connections) rfl rfl (forall_mem_singleton.mpr rfl)
    exact fun _ => rfl
  unfold handleGone
  simp only
  split_ifs
  · unfold handleClientDisconnect
    split
    · exact hgone
    · exact (linesOf_broadcast _ _).trans hgone
  · exact hgone

theorem Reads.step {text : List Char} {e : SocketEvent}
    (h : (s.linesOf socket).Reads opts.parse text) (hs : Stepped opts s e s') :
    (s'.linesOf socket).Reads opts.parse (text ++ (e.dataFor socket).getD []) := by
  have hsame (hdata : e.dataFor socket = none) (hlines : s'.linesOf socket = s.linesOf socket) :
      (s'.linesOf socket).Reads opts.parse (text ++ (e.dataFor socket).getD []) := by
    rw [hdata, hlines, Option.getD_none, append_nil]
    exact h
  cases hs with
  | @line k line lines hreading =>
    obtain ⟨out, hout, hlines⟩ := linesOf_handleLine opts
      { s with reading := some (k, lines) } socket k line
    obtain ⟨done, hdone, hdelivers⟩ := h.handled
    have hdata : SocketEvent.line.dataFor socket = none := rfl
    rw [hdata, Option.getD_none, append_nil, hlines]
    refine ⟨h.buffer, ?_⟩
    simp only [linesOf, hreading, pendingOf] at hdone hdelivers ⊢
    by_cases hk : k = socket
    · rw [if_pos hk] at hdone ⊢
      rw [if_pos hk]
      exact ⟨done ++ [line], hdone.trans (append_cons ..), hdelivers.append hout⟩
    · rw [if_neg hk] at hdone ⊢
      rw [if_neg hk, append_nil]
      exact ⟨done, hdone, hdelivers⟩
  | @endOfChunk k hreading =>
    refine hsame rfl ?_
    simp [linesOf, hreading, pendingOf]
  | connection hidle =>
    refine hsame rfl (linesOf_eq ?_ rfl (append_nil _).symm (by simp))
    have hbuffer (c : SocketConnection) (hc : c.buffer = []) :
        bufferOf socket (s.connections ++ [c]) = bufferOf socket s.connections := by
      rw [bufferOf, bufferOf, getElem?_append]
      split_ifs with hlt
      · rfl
      · rw [getElem?_eq_none (Nat.le_of_not_lt hlt)]
        cases socket - s.connections.length with
        | zero => exact hc
        | succ n => rfl
    exact hbuffer _ rfl
  | @data k chunk c hidle hc hopen =>
    obtain ⟨done, hdone, hdelivers⟩ := h.handled
    by_cases hk : k = socket
    · subst hk
      have hbuffer : c.buffer = openLine '\n' text := by
        rw [← h.buffer, linesOf, bufferOf, hc]
        rfl
      have hnone : pendingOf k s.reading = [] := by
        rw [hidle]
        rfl
      have hdataFor : ((SocketEvent.data k chunk).dataFor k).getD [] = chunk := by
        rw [SocketEvent.dataFor, if_pos rfl]
        rfl
      obtain ⟨hwhole, hopenLine⟩ := lines_append '\n' text chunk
      have hpending : ((s.receive k chunk c).linesOf k).pending =
          wholeLines '\n' (c.buffer ++ chunk) := if_pos rfl
      have hreceived : ((s.receive k chunk c).linesOf k).buffer =
          openLine '\n' (c.buffer ++ chunk) := by
        simp only [receive, linesOf, bufferOf, getElem?_modify_eq, hc]
        rfl
      rw [hdataFor]
      refine ⟨by rw [hreceived, hopenLine, hbuffer], done, ?_, hdelivers⟩
      rw [hpending, hwhole, hdone, ← hbuffer]
      simp [linesOf, hnone, append_nil]
    · refine hsame (if_neg hk) ?_
      have hbuffer : bufferOf socket (s.receive k chunk c).connections =
          bufferOf socket s.connections := by
        simp [receive, bufferOf, getElem?_modify_ne _ _ hk]
      rw [linesOf, linesOf, hbuffer, hidle]
      simp [receive, pendingOf, if_neg hk]
  | error hidle hc => exact hsame rfl (linesOf_handleGone _ _)
  | close hidle hc => exact hsame rfl (linesOf_handleGone _ _)
  | onInput throws hidle => exact hsame rfl rfl
  | broadcastOutput data stream hidle => exact hsame rfl (linesOf_broadcast _ _)
  | stop hidle =>
    refine hsame rfl (linesOf_eq rfl rfl rfl fun r hr => ?_)
    obtain ⟨p, -, rfl⟩ := mem_map.mp hr
    rfl

theorem delivers_run (socket : ℕ) {steps : List (Transition SocketServer SocketEvent)}
    (h : GuardedRun (step opts) (fun _ _ => True) started steps s) (hidle : s.reading = none) :
    Delivers opts.parse (wholeLines '\n' (dataOf socket steps).flatten)
      (messagesOf socket s.log) := by
  have hreads : (s.linesOf socket).Reads opts.parse (dataOf socket steps).flatten := by
    refine h.induct (P := fun steps s =>
      (s.linesOf socket).Reads opts.parse (dataOf socket steps).flatten) ⟨rfl, [], rfl, .nil⟩ ?_
    intro steps s a s' hreads _ hs
    have hdata : (dataOf socket (steps ++ [⟨s, a, s'⟩])).flatten =
        (dataOf socket steps).flatten ++ (a.dataFor socket).getD [] := by
      cases hnew : a.dataFor socket with
      | none => simp [dataOf, hnew]
      | some chunk => simp [dataOf, hnew]
    rw [hdata]
    exact Reads.step hreads (stepped hs)
  obtain ⟨done, hdone, hdelivers⟩ := hreads.handled
  have hnone : (s.linesOf socket).pending = [] := by
    rw [linesOf, hidle]
    rfl
  rw [hdone, hnone, append_nil]
  exact hdelivers

end SocketServer

section Framing

open SocketServer SocketClient

variable {opts : SocketServerOptions} {parse : LineParser ServerMessage}
  {steps : List (Transition SocketServer SocketEvent)} {s : SocketServer} {socket : ℕ}
  {requests : List (SentMessage opts.parse)} {answers : List (SentMessage parse)}
  {chunks chunks' : List (List UInt8)}

/-- Whatever happens on other sockets, a server has received on a socket what was sent on it if and
only if no chunk begins inside a character; and so has a client. -/
theorem socketFraming_iff (callbacks : SocketClientCallbacks)
    (hrun : GuardedRun (step opts) (fun _ _ => True) started steps s) (hidle : s.reading = none)
    (hdata : dataOf socket steps = chunks.map decode) (hbytes : chunks.flatten = sentBytes requests)
    (hbytes' : chunks'.flatten = sentBytes answers) :
    (messagesOf socket s.log = requests.map (·.message) ↔ Aligned chunks) ∧
      ((chunks'.foldl (handleData parse callbacks) connected).received =
        answers.map (·.message) ↔ Aligned chunks') := by
  have hserver := delivers_run socket hrun hidle
  rw [hdata, ← flatMap_def] at hserver
  exact ⟨delivered_eq_iff hbytes hserver,
    delivered_eq_iff hbytes' (delivers_foldl_handleData chunks')⟩

end Framing

section Accent

variable {M : Type} (members : String → JsonMembers) (message : String → M)

/-- What `JSON.parse` answers for the text of the message, and for the text in which the two bytes
of the accented character have been decoded one by one. -/
def accentedParse (_ : ℕ) (line : List Char) : Option M :=
  if line = (JsonValue.object (members "é")).stringify then some (message "é")
  else if line = (JsonValue.object (members "\uFFFD\uFFFD")).stringify then
    some (message "\uFFFD\uFFFD")
  else none

def accentedMessage (hne : message "é" ≠ message "\uFFFD\uFFFD") :
    SentMessage (accentedParse members message) where
  members := members "é"
  message := message "é"
  parses _ := if_pos rfl
  verbatim n text hparse _ := by
    unfold accentedParse at hparse
    split_ifs at hparse with htext
    · exact htext
    · exact absurd (Option.some.inj hparse).symm hne

def cutAt (n : ℕ) (bytes : List UInt8) : List (List UInt8) := [bytes.take n, bytes.drop n]

theorem flatten_cutAt (n : ℕ) (bytes : List UInt8) : (cutAt n bytes).flatten = bytes := by
  rw [cutAt, flatten_cons, flatten_singleton, take_append_drop]

end Accent

def attachMembers (id : String) : JsonMembers :=
  .cons (utf16 "type") (.string (utf16 "attach")) (.cons (utf16 "clientId") (.string (utf16 id))
    (.cons (utf16 "mode") (.string (utf16 "read-write")) .nil))

def joinedMembers (id : String) : JsonMembers :=
  .cons (utf16 "type") (.string (utf16 "client_joined")) (.cons (utf16 "clientId")
    (.string (utf16 id)) (.cons (utf16 "mode") (.string (utf16 "read-write")) .nil))

def joinedMessage (id : String) : ServerMessage :=
  .clientJoined (.string id) (.string "read-write")

namespace SocketServer

def attachRequest :
    SentMessage (accentedParse attachMembers fun id => attachMessage id "read-write") :=
  accentedMessage _ _ (by decide)

def joinedAnswer : SentMessage (accentedParse joinedMembers joinedMessage) :=
  accentedMessage _ _ (by decide)

def accentedOptions : SocketServerOptions :=
  { twoClients with parse := accentedParse attachMembers fun id => attachMessage id "read-write" }

def requestChunks (n : ℕ) : List (List UInt8) := cutAt n (sentBytes [attachRequest])

def answerChunks (n : ℕ) : List (List UInt8) := cutAt n (sentBytes [joinedAnswer])

/-- A socket on which the two chunks come; the line ends in the second. -/
def requestEvents (n : ℕ) : List SocketEvent :=
  .connection :: (requestChunks n).flatMap fun chunk =>
    .data 0 (decode chunk) ::
      ((decode chunk).filter fun c => c = '\n').map (fun _ => .line) ++ [.line]

def allCallbacks : SocketClientCallbacks :=
  { onOutput := true, onInputEcho := true, onClientJoined := true, onClientLeft := true
    onMetadata := true, onError := true }

def answersRead (n : ℕ) : List ServerMessage :=
  ((answerChunks n).foldl
    (SocketClient.handleData (accentedParse joinedMembers joinedMessage) allCallbacks)
    .connected).received

/-- The request is cut before the accented character, and the answer inside of it. -/
theorem socketFraming_iff_accent :
    ∃ steps s, (GuardedRun (step accentedOptions) (fun _ _ => True) started steps s ∧
      s.reading = none ∧ dataOf 0 steps = (requestChunks 29).map decode) ∧
        messagesOf 0 s.log = [attachMessage "é" "read-write"] ∧
        answersRead 37 ≠ [joinedMessage "é"] := by
  obtain ⟨steps, s, hruns, hidle, hdata⟩ := GuardedRun.exists_of_play (step accentedOptions)
    (fun _ _ => True) started (requestEvents 29)
    (fun steps s => s.reading = none ∧ dataOf 0 steps = (requestChunks 29).map decode)
    (by decide +kernel)
  have haligned : Aligned (requestChunks 29) :=
    aligned_cons.mpr ⟨by decide +kernel, aligned_cons.mpr ⟨by decide +kernel, aligned_nil⟩⟩
  have hcut : ¬Aligned (answerChunks 37) := fun h =>
    Bool.noConfusion ((aligned_cons.mp (aligned_cons.mp h).2).1.symm.trans (by decide +kernel :
      startsInside ((sentBytes [joinedAnswer]).drop 37) = true))
  have hrequest : (requestChunks 29).flatten = sentBytes [attachRequest] := flatten_cutAt 29 _
  have hanswer : (answerChunks 37).flatten = sentBytes [joinedAnswer] := flatten_cutAt 37 _
  have hframing := socketFraming_iff allCallbacks hruns hidle hdata hrequest hanswer
  exact ⟨steps, s, ⟨hruns, hidle, hdata⟩, hframing.1.mpr haligned, hframing.2.not.mpr hcut⟩

/-- Both are cut inside of the accented character. -/
theorem accentCut_not_delivered :
    (∃ steps s, (GuardedRun (step accentedOptions) (fun _ _ => True) started steps s ∧
      s.reading = none ∧ dataOf 0 steps = (requestChunks 30).map decode) ∧
        messagesOf 0 s.log = [attachMessage "\uFFFD\uFFFD" "read-write"]) ∧
      answersRead 37 = [joinedMessage "\uFFFD\uFFFD"] := by
  refine ⟨?_, by decide +kernel⟩
  obtain ⟨steps, s, hruns, hidle, hdata, hmessages⟩ :=
    GuardedRun.exists_of_play (step accentedOptions) (fun _ _ => True) started (requestEvents 30)
      (fun steps s => s.reading = none ∧ dataOf 0 steps = (requestChunks 30).map decode ∧
        messagesOf 0 s.log = [attachMessage "\uFFFD\uFFFD" "read-write"])
      (by decide +kernel)
  exact ⟨steps, s, ⟨hruns, hidle, hdata⟩, hmessages⟩

end SocketServer

end Draht
