import Draht.SocketHandling

/-!
# Who may send input

The server looks a message's client id up in the map and does not ask which socket it came from.
Where every message uses an id that its own socket attached, input reaches the session only from a
socket that is attached under that id in read-write mode, and the clients of other sockets are left
alone.
-/

namespace Draht.SocketServer
open List Option

variable {opts : SocketServerOptions} {s s' : SocketServer}

/-- A client registered for an open socket is attached on it; the chunk that is read came from
an open socket. -/
structure Registered (opts : SocketServerOptions) (s : SocketServer) : Prop where
  attached : ∀ id c, s.clients.get id = some c → ∃ conn, s.connections[c.socket]? = some conn ∧
    (conn.isOpen = true → Attached opts s.log c.socket id c.mode)
  reading : ∀ socket lines, s.reading = some (socket, lines) →
    ∃ conn, s.connections[socket]? = some conn ∧ conn.isOpen = true

theorem registered_started : Registered opts started :=
  ⟨fun _ _ h => absurd h (by simp [started]), fun _ _ h => absurd h (by simp [started])⟩

theorem Registered.sends {P : SocketRecord → Prop} (h : Registered opts s) (hs : Sends P s s')
    (hP : ∀ r, P r → ∀ socket id, r.endsAttachment socket id = false) : Registered opts s' := by
  obtain ⟨new, hnew, hall⟩ := hs.log
  refine ⟨?_, by rw [hs.reading, hs.connections]; exact h.reading⟩
  intro id c hget
  rw [hs.clients] at hget
  obtain ⟨conn, hconn, hattached⟩ := h.attached id c hget
  refine ⟨conn, by rw [hs.connections]; exact hconn, fun hopen => ?_⟩
  rw [hnew]
  exact (hattached hopen).append fun r hr => hP r (hall r hr) _ _

theorem Registered.sendsPlain (h : Registered opts s) (hs : SendsPlain s s') :
    Registered opts s' :=
  h.sends hs fun _ hr _ _ => SocketRecord.endsAttachment_of_isPlain hr _ _

variable {lines : List (List Char)} {m : ClientMessage} {new : List SocketRecord}
  {conn : SocketConnection} {f : SocketConnection → SocketConnection}

theorem Registered.received (h : Registered opts s) (socket : ℕ)
    (hm : m.type = .string "detach" → s.clients.get m.clientId = none) :
    Registered opts (s.record (.received socket m)) := by
  refine ⟨?_, h.reading⟩
  intro id c hget
  obtain ⟨conn, hconn, hattached⟩ := h.attached id c hget
  refine ⟨conn, hconn, fun hopen => (hattached hopen).append ?_⟩
  intro r hr
  rw [mem_singleton.mp hr]
  by_contra hends
  simp only [SocketRecord.endsAttachment, Bool.not_eq_false, Bool.and_eq_true,
    decide_eq_true_eq] at hends
  change s.clients.get id = some c at hget
  rw [← hends.2, hm hends.1] at hget
  cases hget

theorem getElem?_modify_isOpen {connections : List SocketConnection}
    (hf : ∀ c, (f c).isOpen = c.isOpen) (i k : ℕ) (h : connections[k]? = some conn) :
    ∃ conn', (connections.modify i f)[k]? = some conn' ∧ conn'.isOpen = conn.isOpen := by
  rw [getElem?_modify, h]
  refine ⟨_, rfl, ?_⟩
  split_ifs
  · exact hf conn
  · rfl

theorem Registered.modify (h : Registered opts s) (i : ℕ) (hf : ∀ c, (f c).isOpen = c.isOpen) :
    Registered opts { s with connections := s.connections.modify i f } := by
  refine ⟨?_, ?_⟩
  · intro id c hget
    obtain ⟨conn, hconn, hattached⟩ := h.attached id c hget
    obtain ⟨conn', hconn', hopen⟩ := getElem?_modify_isOpen hf i _ hconn
    exact ⟨conn', hconn', fun ho => hattached (hopen.symm.trans ho)⟩
  · intro socket lines hreading
    obtain ⟨conn, hconn, hopen⟩ := h.reading socket lines hreading
    obtain ⟨conn', hconn', hopen'⟩ := getElem?_modify_isOpen hf i _ hconn
    exact ⟨conn', hconn', hopen'.trans hopen⟩

theorem Registered.delete (h : Registered opts s) (id : JsonAtom) :
    Registered opts { s with clients := s.clients.delete id } := by
  refine ⟨?_, h.reading⟩
  intro id' c hget
  rw [OrderedMap.get_delete] at hget
  split_ifs at hget
  exact h.attached id' c hget

variable {socket : ℕ} {e : SocketEvent}

theorem Registered.attach (h : Registered opts s) (hconn : s.connections[socket]? = some conn)
    (htype : m.type = .string "attach") :
    Registered opts
      { s with
        clients := s.clients.set m.clientId { id := m.clientId, mode := m.mode, socket }
        log := s.log ++ [.received socket m,
          .write socket (.sessionMetadata opts.sessionId opts.cwd opts.createdAt)] } := by
  refine ⟨?_, h.reading⟩
  intro id c hget
  rw [OrderedMap.get_set] at hget
  split_ifs at hget with hid
  · obtain rfl := some.inj hget
    exact ⟨conn, hconn, fun _ => ⟨m, s.log, [], rfl, htype, hid, rfl, by simp⟩⟩
  · obtain ⟨conn', hconn', hattached⟩ := h.attached id c hget
    refine ⟨conn', hconn', fun hopen => (hattached hopen).append ?_⟩
    intro r hr
    obtain rfl | rfl := mem_pair.mp hr
    · simp [SocketRecord.endsAttachment, htype]
    · rfl

theorem Registered.handled (h : Registered opts s) (hconn : s.connections[socket]? = some conn)
    (hs : Handled opts (s.record (.received socket m)) m socket s') : Registered opts s' := by
  cases hs with
  | nothing hs hnot => exact (h.received socket hnot).sendsPlain hs
  | attached htype hsize hnone hs₁ hs =>
    subst hs₁
    have hattach := h.attach hconn htype
    have hmodify := hattach.modify socket
      (f := fun c => { c with clientId := m.clientId, mode := m.mode }) (fun _ => rfl)
    refine Registered.sendsPlain ?_ hs
    rw [append_cons] at hmodify
    exact hmodify
  | passed c htype hget hmode hs =>
    have hnot : m.type = .string "detach" → s.clients.get m.clientId = none := by
      rw [htype]
      exact fun h => absurd h (by decide)
    refine (h.received socket hnot).sends hs fun r hr k id => ?_
    obtain hr | hr := hr
    · exact SocketRecord.endsAttachment_of_isPlain hr k id
    · exact SocketRecord.endsAttachment_of_speaksFor hr k id
  | detached c htype hget hs =>
    have hreceived := (h.delete m.clientId).received socket (m := m)
      (fun _ => by rw [OrderedMap.get_delete, if_pos rfl])
    exact hreceived.sendsPlain hs

theorem Registered.line (h : Registered opts s) {line : List Char}
    (hreading : s.reading = some (socket, line :: lines)) :
    Registered opts
      ({ s with reading := some (socket, lines) }.handleLine opts socket line) := by
  obtain ⟨conn, hconn, hopen⟩ := h.reading socket _ hreading
  have hnext : Registered opts { s with reading := some (socket, lines) } := by
    refine ⟨h.attached, ?_⟩
    intro socket' lines' heq
    obtain ⟨rfl, -⟩ := Prod.mk.inj (some.inj heq)
    exact ⟨conn, hconn, hopen⟩
  have hparsed (parsed : ℕ) :
      Registered opts { s with reading := some (socket, lines), parsed } :=
    ⟨hnext.attached, hnext.reading⟩
  obtain ⟨parsed, ⟨hsends, -⟩ | ⟨m, -, hhandled⟩⟩ := handleLine_cases opts
    { s with reading := some (socket, lines) } socket line
  · exact (hparsed parsed).sendsPlain hsends
  · exact (hparsed parsed).handled hconn hhandled

theorem Registered.gone (h : Registered opts s) (hidle : s.reading = none) (socket : ℕ)
    (c : SocketConnection) : Registered opts (s.handleGone socket c) := by
  have hgone : Registered opts
      ({ s with
        connections := s.connections.modify socket (fun c => { c with isOpen := false }) }.record
          (.disconnected socket)) := by
    refine ⟨?_, fun _ _ hreading => absurd (hidle.symm.trans hreading) (by simp)⟩
    intro id c' hget
    obtain ⟨conn, hconn, hattached⟩ := h.attached id c' hget
    refine ⟨_, (getElem?_modify ..).trans (congrArg _ hconn), ?_⟩
    intro hopen
    split_ifs at hopen with hsocket
    · refine (hattached hopen).append ?_
      intro r hr
      rw [mem_singleton.mp hr]
      exact decide_eq_false hsocket
  simp only [handleGone]
  split_ifs
  · unfold handleClientDisconnect
    split
    · exact hgone
    · exact (hgone.delete _).sendsPlain (sends_broadcast (fun _ => rfl) _)
  · exact hgone

theorem Registered.step (h : Registered opts s)
    (hs : step opts s e = some s') : Registered opts s' := by
  cases stepped hs with
  | line hreading => exact h.line hreading
  | endOfChunk => exact ⟨h.attached, fun _ _ hreading => absurd hreading (by simp)⟩
  | connection hidle =>
    refine ⟨?_, fun _ _ hreading => absurd (hidle.symm.trans hreading) (by simp)⟩
    intro id c hget
    obtain ⟨conn, hconn, hattached⟩ := h.attached id c hget
    exact ⟨conn, List.getElem?_append_left (List.getElem?_eq_some_iff.mp hconn).1 ▸ hconn,
      hattached⟩
  | @data socket chunk c hidle hconn hopen =>
    let rest := ((c.buffer ++ chunk).splitOn '\n').getLastD []
    have hmodify := h.modify socket (f := fun c => { c with buffer := rest }) (fun _ => rfl)
    refine ⟨hmodify.attached, ?_⟩
    intro socket' lines' heq
    obtain ⟨rfl, -⟩ := Prod.mk.inj (some.inj heq)
    obtain ⟨conn', hconn', hopen'⟩ := getElem?_modify_isOpen
      (f := fun c => { c with buffer := rest }) (fun _ => rfl) socket socket hconn
    exact ⟨conn', hconn', hopen'.trans hopen⟩
  | error hidle hconn => exact h.gone hidle _ _
  | close hidle hconn => exact h.gone hidle _ _
  | onInput throws => exact ⟨h.attached, h.reading⟩
  | broadcastOutput data stream => exact h.sendsPlain (sends_broadcast (fun _ => rfl) _)
  | stop => exact ⟨fun _ _ hget => absurd hget (by simp [stop]), h.reading⟩

def sent (t : Transition SocketServer SocketEvent) : List SocketRecord :=
  t.after.log.drop t.before.log.length

theorem sent_eq (h : s'.log = s.log ++ new) : sent ⟨s, e, s'⟩ = new := by
  rw [sent, h, drop_left]

/-- Input is that of a message whose socket is attached in read-write mode under the id that the
message uses; and the message of one socket neither changes a client of another nor speaks for
it. -/
structure Authority (opts : SocketServerOptions) (t : Transition SocketServer SocketEvent) :
    Prop where
  input : ∀ data id, .input data id ∈ sent t → ∃ socket line lines m,
    t.before.reading = some (socket, line :: lines) ∧ messageOf opts t.before line = some m ∧
      m.clientId = id ∧ Attached opts t.before.log socket id (.string "read-write")
  others : ∀ socket line lines, t.action = .line →
    t.before.reading = some (socket, line :: lines) → ∀ id c, t.before.clients.get id = some c →
      c.socket ≠ socket → t.after.clients.get id = some c ∧ ∀ r ∈ sent t, r.speaksFor id = false

/-- The message on the line that is handled next, with its socket. -/
def nextMessage (opts : SocketServerOptions) (s : SocketServer) : Option (ℕ × ClientMessage) :=
  match s.reading with
  | some (socket, line :: _) => (messageOf opts s line).map fun m => (socket, m)
  | _ => none

/-- The condition on a step: input from a registered client that is not read-only, and a request to
detach a registered client, come from the socket that the client is registered for; and such a
client's mode is read-write. -/
def OwnMessage (opts : SocketServerOptions) (s : SocketServer) : SocketEvent → Prop
  | .line => ∀ p ∈ s.nextMessage opts, ∀ c ∈ s.clients.get p.2.clientId,
      (p.2.type = .string "input" → c.mode ≠ .string "read-only" →
        c.socket = p.1 ∧ c.mode = .string "read-write") ∧
      (p.2.type = .string "detach" → c.socket = p.1)
  | _ => True

instance (s : SocketServer) : ∀ e, Decidable (OwnMessage opts s e)
  | .line =>
    inferInstanceAs (Decidable (∀ p ∈ s.nextMessage opts, ∀ c ∈ s.clients.get p.2.clientId,
      (p.2.type = .string "input" → c.mode ≠ .string "read-only" →
        c.socket = p.1 ∧ c.mode = .string "read-write") ∧
      (p.2.type = .string "detach" → c.socket = p.1)))
  | .connection | .data .. | .error _ | .close _ | .onInput _ | .broadcastOutput .. | .stop =>
    instDecidableTrue

theorem authority_of_idle (hlog : s'.log = s.log ++ new) (hnew : ∀ r ∈ new, r.isInput = false)
    (hline : ∀ socket line lines, e = .line → s.reading ≠ some (socket, line :: lines)) :
    Authority opts ⟨s, e, s'⟩ := by
  refine ⟨?_, fun socket line lines he hreading => absurd hreading (hline socket line lines he)⟩
  intro data id hinput
  rw [sent_eq hlog] at hinput
  exact Bool.noConfusion (hnew _ hinput)

theorem SocketRecord.not_speaksFor_of_ne {r : SocketRecord} {id id' : JsonAtom}
    (h : r.speaksFor id = true) (hne : id' ≠ id) : r.speaksFor id' = false := by
  by_contra htrue
  have htrue := Bool.of_not_eq_false htrue
  cases r with
  | input data k => exact hne ((of_decide_eq_true htrue).symm.trans (of_decide_eq_true h))
  | write k m =>
    cases m with
    | inputEcho data k => exact hne ((of_decide_eq_true htrue).symm.trans (of_decide_eq_true h))
    | _ => cases h
  | _ => cases h

theorem authority_of_silent {line : List Char} (new : List SocketRecord)
    (hreading : s.reading = some (socket, line :: lines)) (hlog : s'.log = s.log ++ new)
    (hnew : ∀ r ∈ new, (∃ m, r = .received socket m) ∨ r.isPlain = true)
    (hclients : ∀ id c, s.clients.get id = some c → c.socket ≠ socket →
      s'.clients.get id = some c) : Authority opts ⟨s, .line, s'⟩ := by
  refine ⟨?_, ?_⟩
  · intro data id hinput
    rw [sent_eq hlog] at hinput
    obtain ⟨m, hm⟩ | hplain := hnew _ hinput
    · cases hm
    · cases hplain
  · intro socket' line' lines' _ hreading' id c hget hother
    obtain ⟨rfl, -⟩ := Prod.mk.inj (some.inj (hreading.symm.trans hreading'))
    refine ⟨hclients id c hget hother, ?_⟩
    intro r hr
    rw [sent_eq hlog] at hr
    obtain ⟨m, rfl⟩ | hplain := hnew _ hr
    · rfl
    · exact SocketRecord.speaksFor_of_isPlain hplain id

theorem authority_line (h : Registered opts s) {line : List Char}
    (hreading : s.reading = some (socket, line :: lines)) (hok : OwnMessage opts s .line) :
    Authority opts
      ⟨s, .line, { s with reading := some (socket, lines) }.handleLine opts socket line⟩ := by
  obtain ⟨parsed, ⟨hsends, -⟩ | ⟨m, hm, hhandled⟩⟩ := handleLine_cases opts
    { s with reading := some (socket, lines) } socket line
  · obtain ⟨new, hnew, hplain⟩ := hsends.log
    refine authority_of_silent new hreading hnew (fun r hr => .inr (hplain r hr)) ?_
    intro id c hget _
    rw [hsends.clients]
    exact hget
  have hnext : s.nextMessage opts = some (socket, m) := by
    rw [nextMessage, hreading]
    exact congrArg (Option.map fun m => (socket, m)) hm
  have hown (c : ConnectedClient) (hget : s.clients.get m.clientId = some c) :=
    hok (socket, m) hnext c hget
  cases hhandled with
  | nothing hs hnot =>
    obtain ⟨new, hnew, hplain⟩ := hs.log
    refine authority_of_silent (.received socket m :: new) hreading ?_ ?_ ?_
    · rw [hnew]
      exact append_assoc _ _ _
    · exact forall_mem_cons.mpr ⟨.inl ⟨m, rfl⟩, fun r hr => .inr (hplain r hr)⟩
    · intro id c hget _
      rw [hs.clients]
      exact hget
  | attached htype hsize hnone hs₁ hs =>
    subst hs₁
    obtain ⟨new, hnew, hplain⟩ := hs.log
    refine authority_of_silent (.received socket m ::
      .write socket (.sessionMetadata opts.sessionId opts.cwd opts.createdAt) :: new)
      hreading ?_ ?_ ?_
    · rw [hnew]
      simp [record]
    · exact forall_mem_cons.mpr ⟨.inl ⟨m, rfl⟩,
        forall_mem_cons.mpr ⟨.inr rfl, fun r hr => .inr (hplain r hr)⟩⟩
    · intro id c hget _
      have hne : m.clientId ≠ id := by
        rintro rfl
        exact absurd (hget.symm.trans hnone) (by simp)
      rw [hs.clients]
      exact (OrderedMap.get_set ..).trans ((if_neg hne).trans hget)
  | passed c htype hget hmode hs =>
    obtain ⟨hsocket, hwrite⟩ := (hown c hget).1 htype hmode
    obtain ⟨new, hnew, hspeaks⟩ := hs.log
    have hlog : (handleLine opts { s with reading := some (socket, lines) } socket line).log =
        s.log ++ .received socket m :: new := by
      rw [hnew]
      exact append_assoc _ _ _
    refine ⟨?_, ?_⟩
    · intro data id hinput
      rw [sent_eq hlog] at hinput
      obtain ⟨conn, hconn, hopen⟩ := h.reading socket _ hreading
      obtain ⟨conn', hconn', hattached⟩ := h.attached _ c hget
      rw [hsocket] at hconn' hattached
      obtain rfl := some.inj (hconn.symm.trans hconn')
      have hid : id = m.clientId := by
        obtain hinput | hinput := mem_cons.mp hinput
        · cases hinput
        · obtain hplain | hspeak := hspeaks _ hinput
          · cases hplain
          · exact of_decide_eq_true hspeak
      rw [hid, ← hwrite]
      exact ⟨socket, line, lines, m, hreading, hm, rfl, hattached hopen⟩
    · intro socket' line' lines' _ hreading' id c' hget' hother
      obtain ⟨rfl, -⟩ := Prod.mk.inj (some.inj (hreading.symm.trans hreading'))
      have hne : id ≠ m.clientId := by
        rintro rfl
        obtain rfl := some.inj (hget.symm.trans hget')
        exact hother hsocket
      refine ⟨?_, ?_⟩
      · rw [hs.clients]
        exact hget'
      · intro r hr
        rw [sent_eq hlog] at hr
        obtain rfl | hr := mem_cons.mp hr
        · rfl
        · obtain hplain | hspeak := hspeaks r hr
          · exact SocketRecord.speaksFor_of_isPlain hplain id
          · exact SocketRecord.not_speaksFor_of_ne hspeak hne
  | detached c htype hget hs =>
    have hsocket := (hown c hget).2 htype
    obtain ⟨new, hnew, hplain⟩ := hs.log
    refine authority_of_silent (.received socket m :: new) hreading ?_ ?_ ?_
    · rw [hnew]
      exact append_assoc _ _ _
    · exact forall_mem_cons.mpr ⟨.inl ⟨m, rfl⟩, fun r hr => .inr (hplain r hr)⟩
    · intro id c' hget' hother
      have hne : m.clientId ≠ id := by
        rintro rfl
        obtain rfl := some.inj (hget.symm.trans hget')
        exact hother hsocket
      rw [hs.clients]
      exact (OrderedMap.get_delete ..).trans ((if_neg hne).trans hget')

theorem authority_step (h : Registered opts s) (hok : OwnMessage opts s e)
    (hs : step opts s e = some s') : Authority opts ⟨s, e, s'⟩ := by
  have hidle (hnone : s.reading = none) (socket : ℕ) (line : List Char)
      (lines : List (List Char)) (_ : e = .line) : s.reading ≠ some (socket, line :: lines) := by
    rw [hnone]
    exact some_ne_none _ ∘ Eq.symm
  have hgone (socket : ℕ) (c : SocketConnection) :
      ∃ new, (s.handleGone socket c).log = s.log ++ new ∧ ∀ r ∈ new, r.isInput = false := by
    simp only [handleGone]
    split_ifs
    · unfold handleClientDisconnect
      split
      · exact ⟨_, rfl, by simp [SocketRecord.isInput]⟩
      · refine ⟨_, append_assoc _ _ _, ?_⟩
        intro r hr
        obtain hr | hr := mem_append.mp hr
        · rw [mem_singleton.mp hr]
          rfl
        · obtain ⟨c, -, rfl⟩ := mem_map.mp hr
          rfl
    · exact ⟨_, rfl, by simp [SocketRecord.isInput]⟩
  cases stepped hs with
  | line hreading => exact authority_line h hreading hok
  | endOfChunk hreading =>
    refine authority_of_idle (append_nil _).symm (by simp) ?_
    intro socket line lines _ hcons
    cases hreading.symm.trans hcons
  | connection hnone => exact authority_of_idle (append_nil _).symm (by simp) (hidle hnone)
  | data chunk hnone => exact authority_of_idle (append_nil _).symm (by simp) (hidle hnone)
  | error hnone =>
    obtain ⟨new, hlog, hnew⟩ := hgone _ _
    exact authority_of_idle hlog hnew (hidle hnone)
  | close hnone =>
    obtain ⟨new, hlog, hnew⟩ := hgone _ _
    exact authority_of_idle hlog hnew (hidle hnone)
  | onInput throws hnone =>
    exact authority_of_idle (append_nil _).symm (by simp) (hidle hnone)
  | broadcastOutput data stream hnone =>
    refine authority_of_idle rfl ?_ (hidle hnone)
    intro r hr
    obtain ⟨c, -, rfl⟩ := mem_map.mp hr
    rfl
  | stop hnone =>
    refine authority_of_idle rfl ?_ (hidle hnone)
    intro r hr
    obtain ⟨p, -, rfl⟩ := mem_map.mp hr
    rfl

/-- In a run whose messages use ids of their own sockets, every step respects authority. -/
theorem socketInput_authorised {steps : List (Transition SocketServer SocketEvent)}
    (h : GuardedRun (step opts) (OwnMessage opts) started steps s) :
    ∀ t ∈ steps, Authority opts t :=
  h.forall_step (I := Registered opts) registered_started
    fun _ _ _ hI hok hs => ⟨hI.step hs, authority_step hI hok hs⟩

def attachMessage (id mode : String) : ClientMessage :=
  { type := .string "attach", clientId := .string id, mode := .string mode, data := .undefined }

def inputMessage (data id : String) : ClientMessage :=
  { type := .string "input", clientId := .string id, mode := .undefined, data := .string data }

def jsonLine (fields : List (String × String)) : List Char :=
  ("\x7b" ++ ",".intercalate (fields.map fun p => "\"" ++ p.1 ++ "\":\"" ++ p.2 ++ "\"") ++
    "\x7d").toList

def attachLine (id mode : String) : List Char :=
  jsonLine [("type", "attach"), ("clientId", id), ("mode", mode)]

def inputLine (data id : String) : List Char :=
  jsonLine [("type", "input"), ("data", data), ("clientId", id)]

/-- What `JSON.parse` answers for the lines of the two clients. -/
def parseLines (line : List Char) : Option ClientMessage :=
  if line = attachLine "alice" "read-write" then some (attachMessage "alice" "read-write")
  else if line = attachLine "bob" "read-only" then some (attachMessage "bob" "read-only")
  else if line = inputLine "ls" "alice" then some (inputMessage "ls" "alice")
  else none

def twoClients : SocketServerOptions :=
  { sessionId := "s", cwd := "/", createdAt := "2026-03-09T21:00:00.000Z", maxClients := 10
    broadcastInputEcho := true, parse := fun _ => parseLines }

def sendLine (socket : ℕ) (line : List Char) : List SocketEvent :=
  [.data socket (line ++ ['\n']), .line, .line]

def twoAttached : List SocketEvent :=
  [.onInput fun _ => false, .connection, .connection] ++
    sendLine 0 (attachLine "alice" "read-write") ++ sendLine 1 (attachLine "bob" "read-only")

/-- Alice's input comes from her own socket. -/
theorem socketInput_authorised_alice :
    ∃ steps s, (GuardedRun (step twoClients) (OwnMessage twoClients) started steps s ∧
      .input (.string "ls") (.string "alice") ∈ s.log) ∧ ∀ t ∈ steps, Authority twoClients t := by
  obtain ⟨steps, s, hruns, hinput⟩ := GuardedRun.exists_of_play (step twoClients)
    (OwnMessage twoClients) started (twoAttached ++ sendLine 0 (inputLine "ls" "alice"))
    (fun _ s => .input (.string "ls") (.string "alice") ∈ s.log) (by decide +kernel)
  exact ⟨steps, s, ⟨hruns, hinput⟩, socketInput_authorised hruns⟩

def isLine : SocketEvent → Bool
  | .line => true
  | _ => false

/-- Bob's socket is attached in read-only mode, and sends input under Alice's id. -/
theorem bobAsAlice_unauthorised :
    ¬∀ (opts : SocketServerOptions) (steps : List (Transition SocketServer SocketEvent))
      (s : SocketServer), GuardedRun (step opts) (fun _ _ => True) started steps s →
        ∀ t ∈ steps, Authority opts t := by
  intro h
  obtain ⟨steps, s, hruns, t, ht, hinput, hline, hreading, hget⟩ := GuardedRun.exists_of_play
    (step twoClients) (fun _ _ => True) started (twoAttached ++ sendLine 1 (inputLine "ls" "alice"))
    (fun steps _ => ∃ t ∈ steps, .input (.string "ls") (.string "alice") ∈ sent t ∧
      isLine t.action = true ∧ t.before.reading = some (1, [inputLine "ls" "alice"]) ∧
        t.before.clients.get (.string "alice") =
          some { id := .string "alice", mode := .string "read-write", socket := 0 })
    (by decide +kernel)
  have haction : t.action = .line := by
    cases hact : t.action with
    | line => rfl
    | _ =>
      rw [hact] at hline
      cases hline
  have hothers := (h _ _ _ hruns t ht).others 1 _ _ haction hreading _ _ hget (by decide)
  exact absurd (hothers.2 _ hinput) (by decide)

end Draht.SocketServer
