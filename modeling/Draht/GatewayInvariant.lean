import Draht.GatewayStreams

/-!
# The clients of a session and what they should receive

The number of subscriptions of an open client is one from the time it is attached. The handles that
its handlers keep are those of its own subscriptions.
-/

namespace Draht.GatewayStreams
open Option

variable {ι χ : Type*}

def Client.Holds (client : Client χ) (number : ℕ) : Prop :=
  client.unsub = some number ∨ client.processUnsub = some number

def Client.sendAll (data : List χ) (client : Client χ) : Client χ :=
  if client.isOpen then { client with received := client.received ++ data } else client

/-- An event stream that was opened before the process, or a web socket that subscribed when it
opened and is, or was, notified as well. -/
def Client.misattached (attaching : Bool) (client : Client χ) : Bool :=
  client.isOpen &&
    match client.kind with
    | .webSocket =>
      client.unsub.isSome && (attaching || client.processUnsub ≠ client.unsub)
    | .sse => client.unsub.isNone

structure Matches (process : Option (SessionProcess ι χ)) (attaching : Bool) (c : ι)
    (client : Client χ) (d : Delivery χ) : Prop where
  isOpen_eq : client.isOpen = d.isOpen
  received_eq : client.received = d.received
  not_live : d.replayed = none → d.live = []
  handles : ∀ number, client.Holds number → ∃ p, process = some p ∧ number < p.subscribers.next ∧
    ∀ owner, p.subscribers.Has number owner → owner = c
  subscribed : client.isOpen = true → ∀ p, process = some p → p.pumping = true →
    ∀ number, p.subscribers.Has number c ↔ client.Holds number
  attached : client.isOpen = true → (d.replayed.isSome = true ↔
    client.unsub.isSome = true ∨ process.isSome = true ∧ attaching = false)
  notified : client.kind = .webSocket → client.isOpen = true → process.isSome = true →
    attaching = false → client.unsub.isSome = true ∨ client.processUnsub.isSome = true
  stored : client.kind = .webSocket → client.isOpen = true →
    (attaching = true ∨ process = none) → client.processUnsub = client.unsub
  stream : client.kind = .sse → client.processUnsub = none

def Delivery.attach (outputBuffer : List χ) (d : Delivery χ) : Delivery χ :=
  if d.isOpen && d.replayed.isNone then { d with replayed := some outputBuffer } else d

namespace Matches

variable {process : Option (SessionProcess ι χ)} {p p' : SessionProcess ι χ} {attaching : Bool}
  {c c' : ι} {client : Client χ} {d : Delivery χ}

theorem frame (h : Matches (some p) attaching c client d)
    (hnext : p.subscribers.next ≤ p'.subscribers.next)
    (hold : ∀ number owner, number < p.subscribers.next → p'.subscribers.Has number owner →
      p.subscribers.Has number owner)
    (hown : client.isOpen = true → p'.pumping = true → p.pumping = true ∧
      ∀ number, p'.subscribers.Has number c ↔ p.subscribers.Has number c) :
    Matches (some p') attaching c client d where
  isOpen_eq := h.isOpen_eq
  received_eq := h.received_eq
  not_live := h.not_live
  handles number hnumber := by
    obtain ⟨q, hq, hlt, howner⟩ := h.handles number hnumber
    obtain rfl := some.inj hq
    exact ⟨p', rfl, Nat.lt_of_lt_of_le hlt hnext,
      fun owner hhas => howner owner (hold number owner hlt hhas)⟩
  subscribed hopen q hq hpumping number := by
    obtain rfl := some.inj hq
    obtain ⟨hbefore, hsame⟩ := hown hopen hpumping
    rw [hsame]
    exact h.subscribed hopen p rfl hbefore number
  attached := h.attached
  notified := h.notified
  stored hkind hopen hat := h.stored hkind hopen (hat.imp_right fun hnone => by cases hnone)
  stream := h.stream

theorem spared (h : Matches (some p) attaching c client d)
    (hspares : Subscriptions.Spares c p.subscribers p'.subscribers)
    (hpumping : p'.pumping = true → p.pumping = true) : Matches (some p') attaching c client d :=
  h.frame hspares.next_le hspares.old fun _ hp => ⟨hpumping hp, hspares.own⟩

theorem opened_waiting (kind : ClientKind) (c : ι) :
    Matches (none : Option (SessionProcess ι χ)) false c ⟨kind, true, [], none, none, false⟩
      ⟨true, none, []⟩ where
  isOpen_eq := rfl
  received_eq := rfl
  not_live _ := rfl
  handles number h := by simp [Client.Holds] at h
  subscribed _ _ h := by cases h
  attached _ := by simp
  notified _ _ h := by simp at h
  stored _ _ _ := rfl
  stream _ := rfl

theorem opened_attached (hnew : ∀ number, ¬ p.subscribers.Has number c) (kind : ClientKind) :
    Matches (some { p with subscribers := p.subscribers.subscribe c }) attaching c
      ⟨kind, true, p.outputBuffer, some p.subscribers.next,
        if kind = .webSocket then some p.subscribers.next else none, true⟩
      ⟨true, some p.outputBuffer, []⟩ where
  isOpen_eq := rfl
  received_eq := (List.append_nil _).symm
  not_live h := by cases h
  handles number h := by
    have hnumber : number = p.subscribers.next := by
      obtain h | h := h
      · exact (some.inj h).symm
      · split_ifs at h
        exact (some.inj h).symm
    refine ⟨_, rfl, ?_, ?_⟩
    · rw [hnumber]
      exact Nat.lt_succ_self _
    · intro owner hhas
      obtain hhas | ⟨_, howner⟩ := Subscriptions.has_subscribe.mp hhas
      · exact absurd hhas.lt (by rw [hnumber]; exact Nat.lt_irrefl _)
      · exact howner
  subscribed _ q hq _ number := by
    obtain rfl := some.inj hq
    have hno := hnew number
    cases kind with
    | webSocket => simp [Client.Holds, hno, eq_comm]
    | sse => simp [Client.Holds, hno, eq_comm]
  attached _ := by simp
  notified _ _ _ _ := .inl rfl
  stored hkind _ _ := by
    simp only at hkind
    simp [hkind]
  stream hkind := by
    simp only at hkind
    simp [hkind]

theorem spawned (h : Matches none false c client d) :
    Matches (some (SessionProcess.spawned : SessionProcess ι χ)) true c client d := by
  have hnone : ∀ number, ¬ client.Holds number := by
    intro number hnumber
    obtain ⟨_, hp, _⟩ := h.handles number hnumber
    cases hp
  refine ⟨h.isOpen_eq, h.received_eq, h.not_live, fun number hnumber => absurd hnumber (hnone _),
    ?_, ?_, ?_, fun hkind hopen _ => h.stored hkind hopen (.inr rfl), h.stream⟩
  · intro _ q hq _ number
    obtain rfl := some.inj hq
    exact iff_of_false (by simp [SessionProcess.spawned, Subscriptions.Has, Subscriptions.empty])
      (hnone number)
  · intro hopen
    simpa using h.attached hopen
  · intro _ _ _ hattaching
    cases hattaching

theorem close (h : Matches process attaching c client d) :
    Matches process attaching c { client with isOpen := false } { d with isOpen := false } where
  isOpen_eq := rfl
  received_eq := h.received_eq
  not_live := h.not_live
  handles := h.handles
  subscribed hopen := by cases hopen
  attached hopen := by cases hopen
  notified _ hopen := by cases hopen
  stored _ hopen := by cases hopen
  stream := h.stream

@[simp] theorem isOpen_attach (outputBuffer : List χ) :
    (d.attach outputBuffer).isOpen = d.isOpen := by
  rw [Delivery.attach]
  split_ifs <;> rfl

theorem replayed_attach (outputBuffer : List χ) (hopen : d.isOpen = true) :
    (d.attach outputBuffer).replayed.isSome = true := by
  rw [Delivery.attach, hopen, Bool.true_and]
  cases hreplayed : d.replayed <;> simp [hreplayed]

theorem not_live_attach (h : Matches (some p) true c client d) (outputBuffer : List χ) :
    (d.attach outputBuffer).replayed = none → (d.attach outputBuffer).live = [] := by
  rw [Delivery.attach]
  split_ifs
  · intro hnone
    cases hnone
  · exact h.not_live

theorem attach (h : Matches (some p) true c client d) (hkind : client.kind = .webSocket)
    (hsafe : p.outputBuffer = [] ∨ client.misattached true = false) :
    Matches (some { p with subscribers := p.subscribers.subscribe c }) false c
      { client.sendAll p.outputBuffer with
        processUnsub := some p.subscribers.next, closesOnExit := true }
      (d.attach p.outputBuffer) := by
  have hopen : (client.sendAll p.outputBuffer).isOpen = client.isOpen := by
    rw [Client.sendAll]
    split_ifs <;> rfl
  have hunsub : (client.sendAll p.outputBuffer).unsub = client.unsub := by
    rw [Client.sendAll]
    split_ifs <;> rfl
  have hkind' : (client.sendAll p.outputBuffer).kind = client.kind := by
    rw [Client.sendAll]
    split_ifs <;> rfl
  refine ⟨?_, ?_, h.not_live_attach _, ?_, ?_, ?_, fun _ _ _ _ => .inr rfl, ?_, ?_⟩
  · rw [isOpen_attach, ← h.isOpen_eq]
    exact hopen
  · by_cases hclient : client.isOpen = true
    · rw [Client.sendAll, if_pos hclient, Delivery.attach, ← h.isOpen_eq, hclient, Bool.true_and]
      cases hreplayed : d.replayed with
      | none =>
        have hreceived := h.received_eq
        rw [Delivery.received, hreplayed, h.not_live hreplayed] at hreceived
        simp [Delivery.received, hreceived, h.not_live hreplayed]
      | some replayed =>
        have hsubscribed : client.unsub.isSome = true := by
          have hattached := (h.attached hclient).mp (by rw [hreplayed]; rfl)
          simpa using hattached
        have hempty : p.outputBuffer = [] := by
          refine hsafe.resolve_right ?_
          simp [Client.misattached, hkind, hclient, hsubscribed]
        rw [hempty, List.append_nil, h.received_eq]
        rfl
    · rw [Client.sendAll, if_neg hclient, Delivery.attach, ← h.isOpen_eq,
        if_neg (by simp [hclient])]
      exact h.received_eq
  · intro number hnumber
    have hcases : client.Holds number ∨ number = p.subscribers.next := by
      obtain hnumber | hnumber := hnumber
      · exact .inl (.inl (hunsub ▸ hnumber))
      · exact .inr (some.inj hnumber).symm
    refine ⟨_, rfl, ?_⟩
    simp only [Subscriptions.next_subscribe, Subscriptions.has_subscribe]
    obtain hheld | rfl := hcases
    · obtain ⟨q, hq, hlt, howner⟩ := h.handles number hheld
      obtain rfl := some.inj hq
      exact ⟨by omega, fun owner hhas => hhas.elim (howner owner) And.right⟩
    · exact ⟨by omega, fun owner hhas =>
        hhas.elim (fun hhas => absurd hhas.lt (Nat.lt_irrefl _)) And.right⟩
  · intro hclient q hq hpumping number
    obtain rfl := some.inj hq
    have hstored := h.stored hkind (hopen.symm.trans hclient) (.inl rfl)
    rw [Subscriptions.has_subscribe,
      h.subscribed (hopen.symm.trans hclient) p rfl hpumping, Client.Holds, Client.Holds, hstored]
    simp [hunsub, eq_comm]
  · intro hclient
    refine iff_of_true (replayed_attach _ ?_) (.inr ⟨rfl, rfl⟩)
    rw [← h.isOpen_eq]
    exact hopen.symm.trans hclient
  · rintro - - (h | h) <;> cases h
  · intro hsse
    rw [show client.kind = .sse from hkind'.symm.trans hsse] at hkind
    cases hkind

theorem notifyOther (h : Matches (some p) true c client d)
    (hother : client.kind = .webSocket → client.isOpen = false)
    (hsafe : p.outputBuffer = [] ∨ client.misattached true = false) :
    Matches (some p) false c client (d.attach p.outputBuffer) := by
  have hsse : client.isOpen = true → client.kind = .sse := by
    intro hopen
    cases hkind : client.kind with
    | sse => rfl
    | webSocket => simp [hother hkind] at hopen
  refine ⟨by rw [isOpen_attach, h.isOpen_eq], ?_, h.not_live_attach _, h.handles, h.subscribed,
    ?_, ?_, ?_, h.stream⟩
  · by_cases hclient : client.isOpen = true
    · rw [Delivery.attach, ← h.isOpen_eq, hclient, Bool.true_and]
      cases hreplayed : d.replayed with
      | none =>
        have hunsub : client.unsub = none := by
          have hnot := (h.attached hclient).not.mp (by simp [hreplayed])
          simpa using hnot
        have hempty : p.outputBuffer = [] := by
          refine hsafe.resolve_right ?_
          simp [Client.misattached, hsse hclient, hclient, hunsub]
        rw [h.received_eq, Delivery.received, Delivery.received, hreplayed, hempty]
        rfl
      | some replayed => exact h.received_eq
    · rw [Delivery.attach, ← h.isOpen_eq, if_neg (by simp [hclient])]
      exact h.received_eq
  · intro hclient
    refine iff_of_true (replayed_attach _ ?_) (.inr ⟨rfl, rfl⟩)
    rw [← h.isOpen_eq]
    exact hclient
  · intro hkind hopen
    simp [hother hkind] at hopen
  · rintro - - (h | h) <;> cases h

end Matches

inductive Paired (process : Option (SessionProcess ι χ)) (attaching : Bool) (c : ι) :
    Option (Client χ) → Option (Delivery χ) → Prop
  | absent : Paired process attaching c none none
  | present {client : Client χ} {d : Delivery χ} :
      Matches process attaching c client d → Paired process attaching c (some client) (some d)

def phaseOf (state : State ι χ) : Phase :=
  match state.process with
  | none => .unspawned
  | some _ => if state.attaching then .spawned else .attached

structure Inv (state : State ι χ) (ideal : Ideal ι χ) : Prop where
  waiting : state.process = none → state.attaching = false
  phase : ideal.phase = phaseOf state
  buffer : ideal.outputBuffer = (state.process.map (·.outputBuffer)).getD []
  known : ∀ p, state.process = some p → ∀ number c, p.subscribers.Has number c →
    state.clients c ≠ none
  clients : ∀ c, Paired state.process state.attaching c (state.clients c) (ideal.deliveries c)
  tracked : ∀ c client, state.clients c = some client → client.kind = .webSocket →
    client.isOpen = true → c ∈ state.sockets
  nodup : state.sockets.Nodup
  sockets : ∀ c ∈ state.sockets, ∃ client, state.clients c = some client ∧
    client.kind = .webSocket

variable {state state' : State ι χ} {ideal : Ideal ι χ} {p : SessionProcess ι χ} {c : ι}

theorem inv_initial (hasCommand : Bool) :
    Inv (initial hasCommand : State ι χ) (idealInitial hasCommand) where
  waiting _ := rfl
  phase := by cases hasCommand <;> rfl
  buffer := by cases hasCommand <;> rfl
  known p hp number c hhas := by
    cases hasCommand with
    | false => cases hp
    | true =>
      obtain rfl := some.inj hp
      simp [SessionProcess.spawned, Subscriptions.Has, Subscriptions.empty] at hhas
  clients _ := .absent
  tracked _ _ h := by cases h
  nodup := List.nodup_nil
  sockets _ h := by cases h

theorem Inv.preserved {ideal' : Ideal ι χ} (h : Inv state ideal)
    (hattaching : state'.attaching = state.attaching) (hphase : ideal'.phase = ideal.phase)
    (hbuffer : ideal'.outputBuffer = (state'.process.map (·.outputBuffer)).getD [])
    (hnone : state'.process = none → state.process = none)
    (hhas : ∀ p', state'.process = some p' → ∃ p, state.process = some p ∧
      ∀ number c, p'.subscribers.Has number c → p.subscribers.Has number c)
    (hkinds : ∀ c, (state'.clients c).map (·.kind) = (state.clients c).map (·.kind))
    (hopen : ∀ c client', state'.clients c = some client' → client'.isOpen = true →
      ∃ client, state.clients c = some client ∧ client.isOpen = true)
    (hsockets : state'.sockets.Sublist state.sockets)
    (htracked : ∀ c ∈ state.sockets, c ∈ state'.sockets ∨
      ∀ client, state.clients c = some client → client.isOpen = false)
    (hclients : ∀ c, Paired state'.process state'.attaching c (state'.clients c)
      (ideal'.deliveries c)) : Inv state' ideal' where
  waiting hno := hattaching.trans (h.waiting (hnone hno))
  phase := by
    rw [hphase, h.phase, phaseOf, phaseOf, hattaching]
    cases hp' : state'.process with
    | none => rw [hnone hp']
    | some p' =>
      obtain ⟨p, hp, _⟩ := hhas p' hp'
      rw [hp]
  buffer := hbuffer
  known p' hp' number c hnumber hno := by
    obtain ⟨p, hp, hold⟩ := hhas p' hp'
    have hc := hkinds c
    rw [hno, map_none] at hc
    exact h.known p hp number c (hold number c hnumber) (map_eq_none_iff.mp hc.symm)
  clients := hclients
  tracked c client' hclient' hkind hisOpen := by
    obtain ⟨client, hclient, hwasOpen⟩ := hopen c client' hclient' hisOpen
    have hc := hkinds c
    rw [hclient', hclient] at hc
    have hmem := h.tracked c client hclient ((some.inj hc).symm.trans hkind) hwasOpen
    refine (htracked c hmem).resolve_right fun hclosed => ?_
    rw [hclosed client hclient] at hwasOpen
    cases hwasOpen
  nodup := h.nodup.sublist hsockets
  sockets c hc := by
    obtain ⟨client, hclient, hkind⟩ := h.sockets c (hsockets.subset hc)
    have hsame := hkinds c
    rw [hclient, map_some] at hsame
    obtain ⟨client', hclient', hkind'⟩ := map_eq_some_iff.mp hsame
    exact ⟨client', hclient', hkind'.trans hkind⟩

theorem Inv.process {p' : SessionProcess ι χ} (h : Inv state ideal) (hp : state.process = some p)
    (hout : p'.outputBuffer = p.outputBuffer)
    (hhas : ∀ number c, p'.subscribers.Has number c → p.subscribers.Has number c)
    (hmatches : ∀ c client d, Matches (some p) state.attaching c client d →
      Matches (some p') state.attaching c client d) :
    Inv { state with process := some p' } ideal := by
  refine h.preserved rfl rfl ?_ ?_ ?_ (fun _ => rfl) (fun _ client hc ho => ⟨client, hc, ho⟩)
    (List.Sublist.refl _) (fun _ hc => .inl hc) ?_
  · rw [h.buffer, hp]
    exact hout.symm
  · intro hno
    cases hno
  · intro q hq
    obtain rfl := some.inj hq
    exact ⟨p, hp, hhas⟩
  · intro c
    have hpaired := h.clients c
    rw [hp] at hpaired
    generalize state.clients c = client at hpaired ⊢
    generalize ideal.deliveries c = d at hpaired ⊢
    cases hpaired with
    | absent => exact .absent
    | present hclient => exact .present (hmatches c _ _ hclient)

theorem inv_pumpStops (h : Inv state ideal) (hp : state.process = some p) (failed : Bool) :
    Inv { state with
        process := some { p with
          pumping := false
          subscribers := if failed then p.subscribers.clear else p.subscribers } } ideal := by
  have hhas : ∀ number c,
      (if failed then p.subscribers.clear else p.subscribers).Has number c →
        p.subscribers.Has number c := by
    intro number c hhas
    cases failed with
    | false => exact hhas
    | true => simp [Subscriptions.Has, Subscriptions.clear] at hhas
  refine h.process hp rfl hhas fun c client d hmatches => hmatches.frame ?_ ?_ ?_
  · cases failed <;> exact Nat.le_refl _
  · exact fun number owner _ hnumber => hhas number owner hnumber
  · intro _ hpumping
    cases hpumping

theorem inv_exit (h : Inv state ideal) (hp : state.process = some p) :
    Inv { state with process := some { p with exited := true } } ideal :=
  h.process hp rfl (fun _ _ hhas => hhas) fun c _ _ hmatches => hmatches.spared (.refl c _) id

structure Releases (c : ι) (p p' : SessionProcess ι χ) : Prop where
  outputBuffer : p'.outputBuffer = p.outputBuffer
  pumping : p'.pumping = p.pumping
  next : p'.subscribers.next = p.subscribers.next
  has : ∀ number owner, p'.subscribers.Has number owner → p.subscribers.Has number owner
  spares : ∀ c', c' ≠ c → Subscriptions.Spares c' p.subscribers p'.subscribers

theorem Releases.refl (c : ι) (p : SessionProcess ι χ) : Releases c p p :=
  ⟨rfl, rfl, rfl, fun _ _ h => h, fun c' _ => .refl c' _⟩

theorem Releases.trans {p' p'' : SessionProcess ι χ} (h : Releases c p p')
    (h' : Releases c p' p'') : Releases c p p'' where
  outputBuffer := h'.outputBuffer.trans h.outputBuffer
  pumping := h'.pumping.trans h.pumping
  next := h'.next.trans h.next
  has number owner hhas := h.has number owner (h'.has number owner hhas)
  spares c' hne := (h.spares c' hne).trans (h'.spares c' hne)

theorem Releases.unsubscribe {handle : Option ℕ}
    (h : ∀ number, handle = some number → ∀ owner, p.subscribers.Has number owner → owner = c) :
    Releases c p (unsubscribe p handle) := by
  cases handle with
  | none => exact .refl c p
  | some number =>
    refine ⟨rfl, rfl, rfl, ?_, ?_⟩
    · exact fun _ _ hhas => (Subscriptions.has_unsubscribe.mp hhas).1
    · exact fun c' hne => .unsubscribe fun hhas => hne (h number rfl c' hhas)

theorem Matches.released {process : Option (SessionProcess ι χ)} {attaching : Bool}
    {client client' : Client χ} {d : Delivery χ} (h : Matches process attaching c client d)
    (hclosed : client.isOpen = false) (hsame : client'.kind = client.kind ∧
      client'.isOpen = client.isOpen ∧ client'.received = client.received)
    (hholds : ∀ number, client'.Holds number → client.Holds number)
    (hstream : client'.processUnsub = none ∨ client'.processUnsub = client.processUnsub)
    {release : SessionProcess ι χ → SessionProcess ι χ}
    (hrelease : ∀ p, process = some p → Releases c p (release p)) :
    Matches (process.map release) attaching c client' d := by
  obtain ⟨hkind, hopen, hreceived⟩ := hsame
  have hnot : client'.isOpen = true → False := by
    rw [hopen, hclosed]
    exact Bool.false_ne_true
  refine ⟨hopen.trans h.isOpen_eq, hreceived.trans h.received_eq, h.not_live, ?_,
    fun ho => (hnot ho).elim, fun ho => (hnot ho).elim, fun _ ho => (hnot ho).elim,
    fun _ ho => (hnot ho).elim, ?_⟩
  · intro number hnumber
    obtain ⟨p, hp, hlt, howner⟩ := h.handles number (hholds number hnumber)
    have hreleases := hrelease p hp
    refine ⟨release p, by rw [hp]; rfl, hreleases.next ▸ hlt, fun owner hhas => ?_⟩
    exact howner owner (hreleases.has number owner hhas)
  · intro hsse
    exact hstream.elim id fun heq => heq.trans (h.stream (hkind.symm.trans hsse))

/-- The clients are open or closed and have received what they should. -/
def Delivered (state : State ι χ) (ideal : Ideal ι χ) : Prop :=
  ∀ c, (state.clients c).map (fun client => (client.isOpen, client.received)) =
    (ideal.deliveries c).map fun d => (d.isOpen, d.received)

theorem Inv.delivered (h : Inv state ideal) : Delivered state ideal := by
  intro c
  have hpaired := h.clients c
  generalize state.clients c = client at hpaired ⊢
  generalize ideal.deliveries c = d at hpaired ⊢
  cases hpaired with
  | absent => rfl
  | present hmatches => simp [hmatches.isOpen_eq, hmatches.received_eq]

end Draht.GatewayStreams
