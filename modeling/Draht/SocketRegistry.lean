import Draht.SocketAuthority

/-!
# The registry of clients

When a socket is gone, the client is removed that its connection attached last. Where a socket
attaches a second client only after its first is removed, and no client under an empty id, the
registry holds the attached clients of open sockets, and no more than it may.
-/

namespace Draht

namespace OrderedMap

variable {κ α : Type*} [DecidableEq κ]

theorem size_set_of_none (m : OrderedMap κ α) {k : κ} (v : α) (h : m.get k = none) :
    (m.set k v).size = m.size + 1 := by
  rw [size, entries_set_of_not_mem m v ((m.get_eq_none_iff k).mp h)]
  exact List.length_append

theorem size_delete_le (m : OrderedMap κ α) (k : κ) : (m.delete k).size ≤ m.size :=
  List.length_filter_le _ _

end OrderedMap

namespace SocketServer

variable {opts : SocketServerOptions} {s s' : SocketServer}

/-- Every client is registered for an open socket on which it is attached, and there are no more
than `maxClients`. -/
structure RegistryHolds (opts : SocketServerOptions) (s : SocketServer) : Prop where
  live : ∀ id c, s.clients.get id = some c → ∃ conn, s.connections[c.socket]? = some conn ∧
    conn.isOpen = true ∧ Attached opts s.log c.socket id c.mode
  bounded : s.clients.size ≤ opts.maxClients

/-- The condition on a step: a client that is going to be registered has an id that is not empty,
and there is no other client of its socket. -/
def AttachesOne (opts : SocketServerOptions) (s : SocketServer) : SocketEvent → Prop
  | .line => ∀ p ∈ s.nextMessage opts, p.2.type = .string "attach" →
      s.clients.size < opts.maxClients → s.clients.get p.2.clientId = none →
        p.2.clientId.isTruthy = true ∧ ∀ q ∈ s.clients.entries, q.2.socket ≠ p.1
  | _ => True

instance (s : SocketServer) : ∀ e, Decidable (AttachesOne opts s e)
  | .line =>
    inferInstanceAs (Decidable (∀ p ∈ s.nextMessage opts, p.2.type = .string "attach" →
      s.clients.size < opts.maxClients → s.clients.get p.2.clientId = none →
        p.2.clientId.isTruthy = true ∧ ∀ q ∈ s.clients.entries, q.2.socket ≠ p.1))
  | .connection | .data .. | .error _ | .close _ | .onInput _ | .broadcastOutput .. | .stop =>
    instDecidableTrue

/-- A client is the one that the connection of its socket remembers. -/
def Remembered (clients : OrderedMap JsonAtom ConnectedClient)
    (connections : List SocketConnection) : Prop :=
  ∀ id c, clients.get id = some c → ∃ conn, connections[c.socket]? = some conn ∧
    conn.isOpen = true ∧ conn.clientId = id ∧ id.isTruthy = true

structure RegistryInvariant (opts : SocketServerOptions) (s : SocketServer) : Prop where
  registered : Registered opts s
  remembered : Remembered s.clients s.connections
  bounded : s.clients.size ≤ opts.maxClients

theorem RegistryInvariant.holds (h : RegistryInvariant opts s) : RegistryHolds opts s := by
  refine ⟨?_, h.bounded⟩
  intro id c hget
  obtain ⟨conn, hconn, hopen, -, -⟩ := h.remembered id c hget
  obtain ⟨conn', hconn', hattached⟩ := h.registered.attached id c hget
  obtain rfl := Option.some.inj (hconn.symm.trans hconn')
  exact ⟨conn, hconn, hopen, hattached hopen⟩

theorem registryInvariant_started : RegistryInvariant opts started :=
  ⟨registered_started, fun _ _ h => absurd h (by simp [started]), Nat.zero_le _⟩

variable {clients : OrderedMap JsonAtom ConnectedClient} {connections : List SocketConnection}
  {socket : ℕ}

theorem Remembered.delete
    (h : Remembered clients connections) (id : JsonAtom) :
    Remembered (clients.delete id) connections := by
  intro id' c hget
  rw [OrderedMap.get_delete] at hget
  split_ifs at hget
  exact h id' c hget

theorem Remembered.set
    (h : Remembered clients connections)
    {conn : SocketConnection} (hconn : connections[socket]? = some conn)
    (hopen : conn.isOpen = true) (hnone : ∀ q ∈ clients.entries, q.2.socket ≠ socket)
    {id : JsonAtom} (hid : id.isTruthy = true) (mode : JsonAtom) :
    Remembered (clients.set id { id, mode, socket })
      (connections.modify socket fun c => { c with clientId := id, mode }) := by
  intro id' c hget
  rw [OrderedMap.get_set] at hget
  split_ifs at hget with heq
  · obtain rfl := Option.some.inj hget
    refine ⟨{ conn with clientId := id, mode }, ?_, hopen, heq, heq ▸ hid⟩
    rw [List.getElem?_modify, hconn]
    simp
  · obtain ⟨conn', hconn', hrest⟩ := h id' c hget
    have hne : socket ≠ c.socket :=
      fun he => hnone _ ((clients.mem_entries_iff id' c).mpr hget) he.symm
    refine ⟨conn', ?_, hrest⟩
    rw [List.getElem?_modify, hconn']
    simp [hne]

theorem Remembered.modify
    (h : Remembered clients connections) (i : ℕ)
    {f : SocketConnection → SocketConnection} (hopen : ∀ c, (f c).isOpen = c.isOpen)
    (hid : ∀ c, (f c).clientId = c.clientId) :
    Remembered clients (connections.modify i f) := by
  intro id c hget
  obtain ⟨conn, hconn, ho, hi, ht⟩ := h id c hget
  refine ⟨_, (List.getElem?_modify ..).trans (congrArg _ hconn), ?_⟩
  split_ifs
  · exact ⟨(hopen conn).trans ho, (hid conn).trans hi, ht⟩
  · exact ⟨ho, hi, ht⟩

variable {c : SocketConnection}

theorem Remembered.gone (h : Remembered clients connections) (hc : connections[socket]? = some c)
    {left : OrderedMap JsonAtom ConnectedClient}
    (hleft : left = clients ∨ left = clients.delete c.clientId)
    (htruthy : c.clientId.isTruthy = true → left.get c.clientId = none) :
    Remembered left (connections.modify socket fun c => { c with isOpen := false }) := by
  intro id c' hget
  have hbefore : clients.get id = some c' := by
    obtain rfl | rfl := hleft
    · exact hget
    · rw [OrderedMap.get_delete] at hget
      split_ifs at hget
      exact hget
  obtain ⟨conn, hconn, hopen, hid, htrue⟩ := h id c' hbefore
  have hne : socket ≠ c'.socket := by
    rintro rfl
    obtain rfl := Option.some.inj (hc.symm.trans hconn)
    rw [← hid, htruthy (hid.symm ▸ htrue)] at hget
    cases hget
  refine ⟨conn, ?_, hopen, hid, htrue⟩
  rw [List.getElem?_modify, hconn]
  simp [hne]

theorem remembered_handleGone (h : Remembered s.clients s.connections)
    (hbounded : s.clients.size ≤ opts.maxClients) (hc : s.connections[socket]? = some c) :
    Remembered (s.handleGone socket c).clients (s.handleGone socket c).connections ∧
      (s.handleGone socket c).clients.size ≤ opts.maxClients := by
  simp only [handleGone]
  split_ifs with htruthy
  · unfold handleClientDisconnect
    cases hget : s.clients.get c.clientId with
    | none =>
      have hgone := h.gone hc (.inl rfl) fun _ => hget
      simpa [record, hget] using ⟨hgone, hbounded⟩
    | some client =>
      have hgone := h.gone hc (.inr rfl) fun _ => by rw [OrderedMap.get_delete, if_pos rfl]
      have hsize := (s.clients.size_delete_le c.clientId).trans hbounded
      simpa [record, hget, broadcast] using ⟨hgone, hsize⟩
  · exact ⟨h.gone hc (.inl rfl) fun htrue => absurd htrue htruthy, hbounded⟩

theorem remembered_line (h : RegistryInvariant opts s) {line : List Char}
    {lines : List (List Char)} (hreading : s.reading = some (socket, line :: lines))
    (hok : AttachesOne opts s .line) :
    let s' := { s with reading := some (socket, lines) }.handleLine opts socket line
    Remembered s'.clients s'.connections ∧ s'.clients.size ≤ opts.maxClients := by
  obtain ⟨parsed, ⟨hsends, -⟩ | ⟨m, hm, hhandled⟩⟩ := handleLine_cases opts
    { s with reading := some (socket, lines) } socket line
  · intro s'
    rw [hsends.clients, hsends.connections]
    exact ⟨h.remembered, h.bounded⟩
  have hnext : s.nextMessage opts = some (socket, m) := by
    rw [nextMessage, hreading]
    exact congrArg (Option.map fun m => (socket, m)) hm
  intro s'
  cases hhandled with
  | nothing hs hnot =>
    rw [hs.clients, hs.connections]
    exact ⟨h.remembered, h.bounded⟩
  | attached htype hsize hnone hs₁ hs =>
    rw [hs.clients, hs.connections, hs₁]
    obtain ⟨conn, hconn, hopen⟩ := h.registered.reading socket _ hreading
    obtain ⟨htruthy, hfirst⟩ := hok (socket, m) hnext htype hsize hnone
    refine ⟨h.remembered.set hconn hopen hfirst htruthy m.mode, ?_⟩
    exact (OrderedMap.size_set_of_none _ _ hnone).le.trans hsize
  | passed c htype hget hmode hs =>
    rw [hs.clients, hs.connections]
    exact ⟨h.remembered, h.bounded⟩
  | detached c htype hget hs =>
    rw [hs.clients, hs.connections]
    exact ⟨h.remembered.delete m.clientId, (OrderedMap.size_delete_le _ _).trans h.bounded⟩

theorem RegistryInvariant.step (h : RegistryInvariant opts s) {e : SocketEvent}
    (hok : AttachesOne opts s e) (hs : step opts s e = some s') : RegistryInvariant opts s' := by
  suffices hkept : Remembered s'.clients s'.connections ∧ s'.clients.size ≤ opts.maxClients from
    ⟨h.registered.step hs, hkept.1, hkept.2⟩
  cases stepped hs with
  | line hreading => exact remembered_line h hreading hok
  | endOfChunk => exact ⟨h.remembered, h.bounded⟩
  | connection =>
    refine ⟨?_, h.bounded⟩
    intro id c hget
    obtain ⟨conn, hconn, hrest⟩ := h.remembered id c hget
    have hlt := (List.getElem?_eq_some_iff.mp hconn).1
    exact ⟨conn, (List.getElem?_append_left hlt).trans hconn, hrest⟩
  | data chunk => exact ⟨h.remembered.modify _ (fun _ => rfl) (fun _ => rfl), h.bounded⟩
  | error hnone hconn => exact remembered_handleGone h.remembered h.bounded hconn
  | close hnone hconn => exact remembered_handleGone h.remembered h.bounded hconn
  | onInput throws => exact ⟨h.remembered, h.bounded⟩
  | broadcastOutput data stream => exact ⟨h.remembered, h.bounded⟩
  | stop => exact ⟨fun _ _ hget => absurd hget (by simp [stop]), Nat.zero_le _⟩

/-- In a run whose sockets attach one client at a time, the registry holds attached clients of
open sockets, and no more than `maxClients`, in every state that is reached. -/
theorem registry_holds {steps : List (Transition SocketServer SocketEvent)}
    (h : GuardedRun (step opts) (AttachesOne opts) started steps s) : RegistryHolds opts s :=
  (h.invariant (I := RegistryInvariant opts) registryInvariant_started
    fun _ _ _ hI hok hs => hI.step hok hs).holds

/-- Alice's socket closes; Bob stays. -/
theorem registry_holds_aliceLeft :
    ∃ steps s, (GuardedRun (step twoClients) (AttachesOne twoClients) started steps s ∧
      s.clients.keys = [.string "bob"]) ∧ RegistryHolds twoClients s := by
  obtain ⟨steps, s, hruns, hkeys⟩ := GuardedRun.exists_of_play (step twoClients)
    (AttachesOne twoClients) started (twoAttached ++ [.close 0])
    (fun _ s => s.clients.keys = [.string "bob"]) (by decide +kernel)
  exact ⟨steps, s, ⟨hruns, hkeys⟩, registry_holds hruns⟩

/-- One socket attaches as Alice and as Bob, and closes; Alice stays. -/
theorem secondAttach_leaks :
    ¬∀ (opts : SocketServerOptions) (steps : List (Transition SocketServer SocketEvent))
      (s : SocketServer), GuardedRun (step opts) (fun _ _ => True) started steps s →
        RegistryHolds opts s := by
  intro h
  obtain ⟨steps, s, hruns, hget, hclosed⟩ := GuardedRun.exists_of_play (step twoClients)
    (fun _ _ => True) started
    ([.connection] ++ sendLine 0 (attachLine "alice" "read-write") ++
      sendLine 0 (attachLine "bob" "read-only") ++ [.close 0])
    (fun _ s => s.clients.get (.string "alice") =
        some { id := .string "alice", mode := .string "read-write", socket := 0 } ∧
      s.connections[0]?.all (fun c => !c.isOpen) = true) (by decide +kernel)
  obtain ⟨conn, hconn, hopen, -⟩ := (h _ _ _ hruns).live _ _ hget
  rw [show s.connections[0]? = some conn from hconn] at hclosed
  exact absurd hopen (by simpa using hclosed)

end SocketServer

end Draht
