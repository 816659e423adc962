import Draht.SocketServer

/-!
# What handling a message does

Every message leaves the registry alone, adds one client to it or removes one. A client that is
registered for an open socket was attached by a message on that socket, and has not been detached
since.
-/

namespace Draht
open List Option

def SocketRecord.isPlain : SocketRecord → Bool
  | .write _ (.inputEcho ..) => false
  | .write .. | .endSocket _ => true
  | _ => false

def SocketRecord.speaksFor (clientId : JsonAtom) : SocketRecord → Bool
  | .input _ id | .write _ (.inputEcho _ id) => id = clientId
  | _ => false

/-- After the record, what the socket attached under the id is not attached any more. -/
def SocketRecord.endsAttachment (socket : ℕ) (id : JsonAtom) : SocketRecord → Bool
  | .disconnected k => k = socket
  | .received _ m => m.type = .string "detach" && m.clientId = id
  | _ => false

variable {r : SocketRecord}

theorem SocketRecord.endsAttachment_of_isPlain (h : r.isPlain = true) (socket : ℕ) (id : JsonAtom) :
    r.endsAttachment socket id = false := by
  cases r with
  | received k m => cases h
  | disconnected k => cases h
  | _ => rfl

theorem SocketRecord.speaksFor_of_isPlain (h : r.isPlain = true) (id : JsonAtom) :
    r.speaksFor id = false := by
  cases r with
  | input data id => cases h
  | write k m =>
    cases m with
    | inputEcho data id => cases h
    | _ => rfl
  | _ => rfl

theorem SocketRecord.endsAttachment_of_speaksFor {clientId : JsonAtom}
    (h : r.speaksFor clientId = true) (socket : ℕ) (id : JsonAtom) :
    r.endsAttachment socket id = false := by
  cases r with
  | received k m => cases h
  | disconnected k => cases h
  | _ => rfl

namespace SocketServer

variable {opts : SocketServerOptions} {s s' : SocketServer}

/-- The socket attached under the id, the attachment was confirmed, and it has not ended. -/
def Attached (opts : SocketServerOptions) (log : List SocketRecord) (socket : ℕ)
    (id mode : JsonAtom) : Prop :=
  ∃ m before after,
    log = before ++ .received socket m ::
      .write socket (.sessionMetadata opts.sessionId opts.cwd opts.createdAt) :: after ∧
    m.type = .string "attach" ∧ m.clientId = id ∧ m.mode = mode ∧
    ∀ r ∈ after, r.endsAttachment socket id = false

variable {socket : ℕ} {m : ClientMessage}

theorem Attached.append {log new : List SocketRecord} {id mode : JsonAtom}
    (h : Attached opts log socket id mode) (hnew : ∀ r ∈ new, r.endsAttachment socket id = false) :
    Attached opts (log ++ new) socket id mode := by
  obtain ⟨m, before, after, rfl, htype, hid, hmode, hafter⟩ := h
  refine ⟨m, before, after ++ new, by simp, htype, hid, hmode, ?_⟩
  intro r hr
  exact (mem_append.mp hr).elim (hafter r) (hnew r)

/-- Nothing but the log changes, which grows by records with the property. -/
structure Sends (P : SocketRecord → Prop) (s s' : SocketServer) : Prop where
  rest : s' = { s with log := s'.log }
  log : ∃ new, s'.log = s.log ++ new ∧ ∀ r ∈ new, P r

section Sends

variable {P Q : SocketRecord → Prop} {s'' : SocketServer}

theorem Sends.refl (s : SocketServer) : Sends P s s := ⟨rfl, [], by simp, by simp⟩

theorem Sends.trans (h : Sends P s s') (h' : Sends P s' s'') : Sends P s s'' := by
  obtain ⟨new, hnew, hP⟩ := h.log
  obtain ⟨new', hnew', hP'⟩ := h'.log
  refine ⟨?_, new ++ new', by rw [hnew', hnew, append_assoc], ?_⟩
  · rw [h'.rest, h.rest]
  · intro r hr
    exact (mem_append.mp hr).elim (hP r) (hP' r)

theorem Sends.mono (hPQ : ∀ r, P r → Q r) (h : Sends P s s') : Sends Q s s' := by
  obtain ⟨new, hnew, hP⟩ := h.log
  exact ⟨h.rest, new, hnew, fun r hr => hPQ r (hP r hr)⟩

theorem Sends.clients (h : Sends P s s') : s'.clients = s.clients := by rw [h.rest]

theorem Sends.connections (h : Sends P s s') : s'.connections = s.connections := by rw [h.rest]

theorem Sends.reading (h : Sends P s s') : s'.reading = s.reading := by rw [h.rest]

theorem sends_record {r : SocketRecord} (h : P r) : Sends P s (s.record r) :=
  ⟨rfl, [r], rfl, by simpa using h⟩

theorem sends_broadcast {message : ServerMessage} (h : ∀ k, P (.write k message))
    (excludeClientId : JsonAtom) : Sends P s (s.broadcast message excludeClientId) := by
  refine ⟨rfl, _, rfl, ?_⟩
  intro r hr
  obtain ⟨c, -, rfl⟩ := mem_map.mp hr
  exact h c.socket

end Sends

abbrev SendsPlain : SocketServer → SocketServer → Prop := Sends fun r => r.isPlain = true

theorem sendsPlain_refusal (socket : ℕ) (message : String) :
    SendsPlain s ((s.sendError socket message).endSocket socket) := by
  have herror : SendsPlain s (s.sendError socket message) := sends_record rfl
  exact herror.trans (sends_record rfl)

/-- What the message of a socket can do, from the state in which its receipt is recorded. -/
inductive Handled (opts : SocketServerOptions) (s : SocketServer) (m : ClientMessage)
    (socket : ℕ) : SocketServer → Prop
  | nothing {s' : SocketServer} : SendsPlain s s' →
      (m.type = .string "detach" → s.clients.get m.clientId = none) → Handled opts s m socket s'
  | attached {s₁ s' : SocketServer} : m.type = .string "attach" →
      s.clients.size < opts.maxClients → s.clients.get m.clientId = none →
      s₁ = { s with
        clients := s.clients.set m.clientId { id := m.clientId, mode := m.mode, socket }
        connections := s.connections.modify socket fun c =>
          { c with clientId := m.clientId, mode := m.mode }
        log := s.log ++
          [.write socket (.sessionMetadata opts.sessionId opts.cwd opts.createdAt)] } →
      SendsPlain s₁ s' → Handled opts s m socket s'
  | passed {s' : SocketServer} (c : ConnectedClient) : m.type = .string "input" →
      s.clients.get m.clientId = some c → c.mode ≠ .string "read-only" →
      Sends (fun r => r.isPlain = true ∨ r.speaksFor m.clientId = true) s s' →
      Handled opts s m socket s'
  | detached {s' : SocketServer} (c : ConnectedClient) : m.type = .string "detach" →
      s.clients.get m.clientId = some c →
      SendsPlain { s with clients := s.clients.delete m.clientId } s' → Handled opts s m socket s'

theorem handled_attach (htype : m.type = .string "attach") :
    Handled opts s m socket (s.handleAttach opts m socket) := by
  have hnot : m.type = .string "detach" → s.clients.get m.clientId = none := by
    rw [htype]
    exact fun h => absurd h (by decide)
  unfold handleAttach
  split_ifs with hfull hhas
  · exact .nothing (sendsPlain_refusal _ _) hnot
  · exact .nothing (sendsPlain_refusal _ _) hnot
  · have hnone : s.clients.get m.clientId = none := by
      exact not_isSome_iff_eq_none.mp hhas
    exact .attached htype (Nat.not_le.mp hfull) hnone rfl (sends_broadcast (fun _ => rfl) _)

variable (opts s) in
theorem sends_forwardInput (m : ClientMessage) :
    ∃ s', (s.forwardInput opts m = .ok s' ∨ s.forwardInput opts m = .error s') ∧
      Sends (fun r => r.isPlain = true ∨ r.speaksFor m.clientId = true) s s' := by
  have hecho (s : SocketServer) :
      Sends (fun r => r.isPlain = true ∨ r.speaksFor m.clientId = true) s
        (if opts.broadcastInputEcho then s.broadcast (.inputEcho m.data m.clientId) m.clientId
          else s) := by
    split_ifs
    · exact sends_broadcast (fun _ => .inr (decide_eq_true rfl)) _
    · exact .refl s
  have hinput : Sends (fun r => r.isPlain = true ∨ r.speaksFor m.clientId = true) s
      (s.record (.input m.data m.clientId)) := sends_record (.inr (decide_eq_true rfl))
  unfold forwardInput
  cases s.onInput with
  | none => exact ⟨_, .inl rfl, hecho s⟩
  | some throws =>
    by_cases hthrows : throws (s.log.countP SocketRecord.isInput) = true
    · exact ⟨_, .inr (if_pos hthrows), hinput⟩
    · exact ⟨_, .inl (if_neg hthrows), hinput.trans (hecho _)⟩

variable (opts s) in
theorem handled_message (m : ClientMessage) (socket : ℕ) :
    ∃ s', (s.handleClientMessage opts m socket = .ok s' ∨
      s.handleClientMessage opts m socket = .error s') ∧ Handled opts s m socket s' := by
  unfold handleClientMessage
  by_cases hattach : m.type = .string "attach"
  · rw [if_pos hattach]
    exact ⟨_, .inl rfl, handled_attach hattach⟩
  by_cases hinput : m.type = .string "input"
  · have hnot : m.type = .string "detach" → s.clients.get m.clientId = none := by
      rw [hinput]
      exact fun h => absurd h (by decide)
    rw [if_neg hattach, if_pos hinput]
    unfold handleInput
    cases hget : s.clients.get m.clientId with
    | none => exact ⟨_, .inl rfl, .nothing (sends_record rfl) hnot⟩
    | some c =>
      by_cases hmode : c.mode = .string "read-only"
      · exact ⟨_, .inl (if_pos hmode), .nothing (sends_record rfl) hnot⟩
      · obtain ⟨s', hs', hsends⟩ := sends_forwardInput opts s m
        refine ⟨s', ?_, .passed c hinput hget hmode hsends⟩
        simpa only [if_neg hmode] using hs'
  by_cases hdetach : m.type = .string "detach"
  · rw [if_neg hattach, if_neg hinput, if_pos hdetach]
    refine ⟨_, .inl rfl, ?_⟩
    unfold handleDetach handleClientDisconnect
    cases hget : s.clients.get m.clientId with
    | none => exact .nothing (sends_record rfl) fun _ => hget
    | some c =>
      exact .detached c hdetach hget ((sends_broadcast (fun _ => rfl) _).trans (sends_record rfl))
  · rw [if_neg hattach, if_neg hinput, if_neg hdetach]
    exact ⟨_, .inl rfl, .nothing (.refl s) fun h => (hdetach h).elim⟩

theorem Handled.sends {s'' : SocketServer} (h : Handled opts s m socket s')
    (hsends : SendsPlain s' s'') : Handled opts s m socket s'' := by
  cases h with
  | nothing hs hnot => exact .nothing (hs.trans hsends) hnot
  | attached htype hsize hnone hs₁ hs => exact .attached htype hsize hnone hs₁ (hs.trans hsends)
  | passed c htype hget hmode hs =>
    exact .passed c htype hget hmode (hs.trans (hsends.mono fun _ => .inl))
  | detached c htype hget hs => exact .detached c htype hget (hs.trans hsends)

/-- The message on the next line, unless the line is blank or `JSON.parse` throws. -/
def messageOf (opts : SocketServerOptions) (s : SocketServer) (line : List Char) :
    Option ClientMessage :=
  if trim isWhiteSpace line = [] then none else opts.parse s.parsed line

variable (opts s) in
theorem handleLine_cases (socket : ℕ) (line : List Char) :
    ∃ parsed, SendsPlain { s with parsed } (s.handleLine opts socket line) ∧
        messageOf opts s line = none ∨
      ∃ m, messageOf opts s line = some m ∧
        Handled opts ({ s with parsed }.record (.received socket m)) m socket
          (s.handleLine opts socket line) := by
  unfold handleLine messageOf
  by_cases hblank : trim isWhiteSpace line = []
  · rw [if_pos hblank, if_pos hblank]
    exact ⟨s.parsed, .inl ⟨.refl s, rfl⟩⟩
  rw [if_neg hblank, if_neg hblank]
  cases hparse : opts.parse s.parsed line with
  | none => exact ⟨s.parsed + 1, .inl ⟨sends_record rfl, rfl⟩⟩
  | some m =>
    refine ⟨s.parsed + 1, .inr ⟨m, rfl, ?_⟩⟩
    obtain ⟨s', hs', hhandled⟩ := handled_message opts
      ({ s with parsed := s.parsed + 1 }.record (.received socket m)) m socket
    simp only
    rcases hs' with hs' | hs' <;> rw [hs']
    · exact hhandled
    · exact hhandled.sends (sends_record rfl)

inductive Stepped (opts : SocketServerOptions) (s : SocketServer) :
    SocketEvent → SocketServer → Prop
  | line {socket : ℕ} {line : List Char} {lines : List (List Char)} :
      s.reading = some (socket, line :: lines) →
      Stepped opts s .line
        ({ s with reading := some (socket, lines) }.handleLine opts socket line)
  | endOfChunk {socket : ℕ} : s.reading = some (socket, []) →
      Stepped opts s .line { s with reading := none }
  | connection : s.reading = none →
      Stepped opts s .connection { s with connections := s.connections ++ [{}] }
  | data {socket : ℕ} (chunk : List Char) {c : SocketConnection} : s.reading = none →
      s.connections[socket]? = some c → c.isOpen = true →
      Stepped opts s (.data socket chunk) (s.receive socket chunk c)
  | error {socket : ℕ} {c : SocketConnection} : s.reading = none →
      s.connections[socket]? = some c → Stepped opts s (.error socket) (s.handleGone socket c)
  | close {socket : ℕ} {c : SocketConnection} : s.reading = none →
      s.connections[socket]? = some c → Stepped opts s (.close socket) (s.handleGone socket c)
  | onInput (throws : ℕ → Bool) : s.reading = none →
      Stepped opts s (.onInput throws) { s with onInput := some throws }
  | broadcastOutput (data stream : String) : s.reading = none →
      Stepped opts s (.broadcastOutput data stream) (s.broadcast (.output data stream) .undefined)
  | stop : s.reading = none → Stepped opts s .stop s.stop

theorem whenIdle_eq_some {next : Option SocketServer} (h : s.whenIdle next = some s') :
    s.reading = none ∧ next = some s' := by
  unfold whenIdle at h
  split_ifs at h with hbusy
  exact ⟨not_isSome_iff_eq_none.mp hbusy, h⟩

theorem stepped {e : SocketEvent} (hs : step opts s e = some s') : Stepped opts s e s' := by
  cases e with
  | line =>
    simp only [step] at hs
    split at hs
    · cases hs
      exact .line ‹_›
    · cases hs
      exact .endOfChunk ‹_›
    · cases hs
  | connection =>
    obtain ⟨hidle, hs⟩ := whenIdle_eq_some hs
    cases hs
    exact .connection hidle
  | data socket chunk =>
    obtain ⟨hidle, hs⟩ := whenIdle_eq_some hs
    obtain ⟨c, hc, rfl⟩ := map_eq_some_iff.mp hs
    obtain ⟨hc, hopen⟩ := filter_eq_some_iff.mp hc
    exact .data chunk hidle hc hopen
  | error socket =>
    obtain ⟨hidle, hs⟩ := whenIdle_eq_some hs
    obtain ⟨c, hc, rfl⟩ := map_eq_some_iff.mp hs
    exact .error hidle (filter_eq_some_iff.mp hc).1
  | close socket =>
    obtain ⟨hidle, hs⟩ := whenIdle_eq_some hs
    obtain ⟨c, hc, rfl⟩ := map_eq_some_iff.mp hs
    exact .close hidle hc
  | onInput throws =>
    obtain ⟨hidle, hs⟩ := whenIdle_eq_some hs
    cases hs
    exact .onInput throws hidle
  | broadcastOutput data stream =>
    obtain ⟨hidle, hs⟩ := whenIdle_eq_some hs
    cases hs
    exact .broadcastOutput data stream hidle
  | stop =>
    obtain ⟨hidle, hs⟩ := whenIdle_eq_some hs
    cases hs
    exact .stop hidle

end SocketServer

end Draht
