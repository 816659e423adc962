import Draht.GatewayInvariant
import Draht.GuardedRun

/-!
# Delivery to the clients of a session

Every client receives the output that it should, once and in order, as long as output is only sent
when no event stream was opened before the process and no web socket between the spawning of the
process and the notification.
-/

namespace Draht.GatewayStreams
open List Option

variable {ι χ : Type*} [DecidableEq ι] {state state' : State ι χ} {ideal : Ideal ι χ}
  {p : SessionProcess ι χ} {c : ι}

variable {attaching sameContext : Bool} {client : Client χ} {a : Action ι χ} {d : Delivery χ}
  {c' : ι} {sockets : List ι} {β : Type*}

@[simp] theorem modify_self (clients : ι → Option β) (c : ι) (f : β → β) :
    modify clients c f c = (clients c).map f := Function.update_self _ _ _

theorem modify_of_ne (clients : ι → Option β) {c : ι} (h : c' ≠ c) (f : β → β) :
    modify clients c f c' = clients c' := Function.update_of_ne h _ _

theorem foldl_send (data : List χ) (client : Client χ) :
    data.foldl (fun client chunk => client.send chunk) client = client.sendAll data := by
  induction data generalizing client with
  | nil => simp [Client.sendAll]
  | cons chunk data ih =>
    rw [foldl_cons, ih]
    by_cases hopen : client.isOpen = true
    · simp [Client.sendAll, Client.send, hopen]
    · simp [Client.sendAll, Client.send, hopen]

theorem fanOut_apply (subscribers : List (ℕ × ι)) (clients : ι → Option (Client χ)) (text : χ)
    (c : ι) :
    fanOut subscribers clients text c =
      (clients c).map (Client.sendAll
        (List.replicate (subscribers.countP fun entry => entry.2 = c) text)) := by
  induction subscribers generalizing clients with
  | nil =>
    cases hc : clients c with
    | none => simp [fanOut, hc]
    | some client => simp [fanOut, hc, Client.sendAll]
  | cons entry subscribers ih =>
    have hstep : fanOut (entry :: subscribers) clients text =
        fanOut subscribers (modify clients entry.2 (Client.send text)) text := rfl
    rw [hstep, ih, countP_cons]
    by_cases howner : c = entry.2
    · subst howner
      rw [modify_self, Option.map_map, if_pos (by simp), List.replicate_succ]
      congr 1
      funext client
      by_cases hopen : client.isOpen = true
      · simp [Client.sendAll, Client.send, hopen]
      · simp [Client.sendAll, Client.send, hopen]
    · rw [modify_of_ne _ howner, if_neg (by simpa using Ne.symm howner), Nat.add_zero]

theorem Inv.opened (h : Inv state ideal) (hnew : state.clients c = none) (kind : ClientKind)
    (hclients : ∀ c', state'.clients c' =
      if c' = c then
        some (match state.process with
          | none => ⟨kind, true, [], none, none, false⟩
          | some p => ⟨kind, true, p.outputBuffer, some p.subscribers.next,
              if kind = .webSocket then some p.subscribers.next else none, true⟩)
      else state.clients c')
    (hprocess : state'.process =
      state.process.map fun p => { p with subscribers := p.subscribers.subscribe c })
    (hattaching : state'.attaching = state.attaching)
    (hsockets : state'.sockets =
      if kind = .webSocket then state.sockets ++ [c] else state.sockets) :
    Inv state' (ideal.opened c) where
  waiting hnone := by
    rw [hprocess, map_eq_none_iff] at hnone
    rw [hattaching]
    exact h.waiting hnone
  phase := by
    refine h.phase.trans ?_
    rw [phaseOf, phaseOf, hprocess, hattaching]
    cases state.process <;> rfl
  buffer := by
    refine h.buffer.trans ?_
    rw [hprocess, Option.map_map]
    rfl
  known q hq number c' hhas := by
    rw [hprocess] at hq
    obtain ⟨p, hp, rfl⟩ := map_eq_some_iff.mp hq
    rw [hclients]
    by_cases hc : c' = c
    · rw [if_pos hc]
      exact some_ne_none _
    · rw [if_neg hc]
      obtain hhas | ⟨_, howner⟩ := Subscriptions.has_subscribe.mp hhas
      · exact h.known p hp number c' hhas
      · exact absurd howner hc
  clients c' := by
    have hphase := h.phase
    have hbuffer := h.buffer
    rw [hclients, hprocess, hattaching]
    by_cases hc : c' = c
    · subst hc
      simp only [Ideal.opened, Function.update_self]
      cases hp : state.process with
      | none =>
        rw [phaseOf, hp] at hphase
        rw [hphase, h.waiting hp, if_pos rfl]
        exact .present (Matches.opened_waiting kind c')
      | some p =>
        rw [phaseOf, hp] at hphase
        rw [hp] at hbuffer
        have hne : ideal.phase ≠ .unspawned := by
          rw [hphase]
          split_ifs <;> simp
        rw [if_neg hne, hbuffer]
        exact .present (Matches.opened_attached
          (fun number hhas => h.known p hp number c' hhas hnew) kind)
    · rw [if_neg hc]
      simp only [Ideal.opened, Function.update_of_ne hc]
      have hpaired := h.clients c'
      cases hp : state.process with
      | none =>
        rw [hp] at hpaired
        exact hpaired
      | some p =>
        rw [hp] at hpaired
        generalize state.clients c' = client at hpaired
        generalize ideal.deliveries c' = d at hpaired
        cases hpaired with
        | absent => exact .absent
        | present hmatches =>
          exact .present (hmatches.spared (.subscribe hc) id)
  tracked c' client hclient hkind hopen := by
    rw [hclients] at hclient
    rw [hsockets]
    by_cases hc : c' = c
    · subst hc
      rw [if_pos rfl] at hclient
      have hws : kind = .webSocket := by
        cases hclient
        revert hkind
        cases state.process <;> exact id
      rw [if_pos hws]
      simp
    · rw [if_neg hc] at hclient
      have hmem := h.tracked c' client hclient hkind hopen
      split_ifs
      · exact mem_append_left _ hmem
      · exact hmem
  nodup := by
    rw [hsockets]
    split_ifs
    · refine nodup_append.mpr ⟨h.nodup, by simp, ?_⟩
      intro c' hc' c'' hc'' heq
      obtain ⟨client, hclient, _⟩ := h.sockets c' hc'
      rw [mem_singleton] at hc''
      rw [heq, hc'', hnew] at hclient
      cases hclient
    · exact h.nodup
  sockets c' hc' := by
    rw [hclients]
    by_cases hc : c' = c
    · rw [if_pos hc]
      refine ⟨_, rfl, ?_⟩
      have hws : kind = .webSocket := by
        by_contra hne
        rw [hsockets, if_neg hne] at hc'
        obtain ⟨client, hclient, _⟩ := h.sockets c' hc'
        rw [hc, hnew] at hclient
        cases hclient
      rw [hws]
      cases state.process <;> rfl
    · rw [if_neg hc]
      apply h.sockets
      rw [hsockets] at hc'
      split_ifs at hc'
      · obtain hc' | hc' := mem_append.mp hc'
        · exact hc'
        · exact absurd (mem_singleton.mp hc') hc
      · exact hc'

theorem inv_openSocket (h : Inv state ideal) (hnew : state.clients c = none) :
    Inv (openSocket state c) (ideal.opened c) := by
  refine h.opened hnew .webSocket ?_ ?_ ?_ ?_
  · intro c'
    rw [openSocket]
    cases state.process with
    | none =>
      by_cases hc : c' = c
      · simp [hc]
      · simp [hc]
    | some p =>
      by_cases hc : c' = c
      · simp [hc, onOutput, foldl_send, Client.sendAll]
      · simp [hc, onOutput, modify_of_ne _ hc]
  · rw [openSocket]
    cases state.process <;> rfl
  · rw [openSocket]
    cases state.process <;> rfl
  · rw [openSocket]
    cases state.process <;> rfl

theorem inv_openStream (h : Inv state ideal) (hnew : state.clients c = none) :
    Inv (openStream state c) (ideal.opened c) := by
  refine h.opened hnew .sse ?_ ?_ ?_ ?_
  · intro c'
    rw [openStream]
    cases state.process with
    | none =>
      by_cases hc : c' = c
      · simp [hc]
      · simp [hc]
    | some p =>
      by_cases hc : c' = c
      · simp [hc, onOutput, foldl_send, Client.sendAll]
      · simp [hc, onOutput, modify_of_ne _ hc]
  · rw [openStream]
    cases state.process <;> rfl
  · rw [openStream]
    cases state.process <;> rfl
  · rw [openStream]
    cases state.process <;> rfl

theorem inv_postInput (h : Inv state ideal) : Inv (postInput state) (ideal.next .input) := by
  have hphase := h.phase
  rw [postInput, Ideal.next]
  cases hp : state.process with
  | some p =>
    have hne : ideal.phase ≠ .unspawned := by
      rw [hphase, phaseOf, hp]
      split_ifs <;> simp
    rw [if_neg hne]
    exact h
  | none =>
    rw [phaseOf, hp] at hphase
    rw [if_pos hphase]
    refine ⟨?_, rfl, ?_, ?_, ?_, h.tracked, h.nodup, h.sockets⟩
    · intro hnone
      cases hnone
    · refine h.buffer.trans ?_
      rw [hp]
      rfl
    · intro q hq number c hhas
      cases hq
      simp [SessionProcess.spawned, Subscriptions.Has, Subscriptions.empty] at hhas
    · intro c
      have hpaired := h.clients c
      rw [hp, h.waiting hp] at hpaired
      generalize state.clients c = client at hpaired ⊢
      generalize ideal.deliveries c = d at hpaired ⊢
      cases hpaired with
      | absent => exact .absent
      | present hmatches => exact .present hmatches.spawned

open Subscriptions (Spares)

theorem attachSocket_other (h : c ≠ c') (r : SessionProcess ι χ × (ι → Option (Client χ))) :
    (attachSocket r c').2 c = r.2 c ∧
      Spares c r.1.subscribers (attachSocket r c').1.subscribers := by
  refine ⟨?_, .subscribe h⟩
  simp [attachSocket, onOutput, modify_of_ne _ h]

theorem foldl_attach_process (sockets : List ι)
    (r : SessionProcess ι χ × (ι → Option (Client χ))) :
    (sockets.foldl attachSocket r).1.outputBuffer = r.1.outputBuffer ∧
      (sockets.foldl attachSocket r).1.pumping = r.1.pumping := by
  induction sockets generalizing r with
  | nil => exact ⟨rfl, rfl⟩
  | cons c sockets ih => exact ih (attachSocket r c)

theorem foldl_attach_other (hc : c ∉ sockets) (r : SessionProcess ι χ × (ι → Option (Client χ))) :
    (sockets.foldl attachSocket r).2 c = r.2 c ∧
      Spares c r.1.subscribers (sockets.foldl attachSocket r).1.subscribers := by
  induction sockets generalizing r with
  | nil => exact ⟨rfl, .refl _ _⟩
  | cons c' sockets ih =>
    rw [mem_cons, not_or] at hc
    obtain ⟨hfirst, hrest⟩ := hc
    obtain ⟨hclient, hspares⟩ := attachSocket_other hfirst r
    obtain ⟨hclient', hspares'⟩ := ih hrest (attachSocket r c')
    exact ⟨hclient'.trans hclient, hspares.trans hspares'⟩

theorem foldl_attach_self (hnodup : sockets.Nodup) (hc : c ∈ sockets)
    (r : SessionProcess ι χ × (ι → Option (Client χ))) :
    ∃ q : SessionProcess ι χ, Spares c r.1.subscribers q.subscribers ∧
      q.outputBuffer = r.1.outputBuffer ∧ q.pumping = r.1.pumping ∧
      (sockets.foldl attachSocket r).2 c = (r.2 c).map (fun client =>
        { client.sendAll q.outputBuffer with
          processUnsub := some q.subscribers.next, closesOnExit := true }) ∧
      Spares c (q.subscribers.subscribe c) (sockets.foldl attachSocket r).1.subscribers := by
  obtain ⟨before, after, rfl⟩ := append_of_mem hc
  rw [nodup_append, nodup_cons] at hnodup
  have hbefore : c ∉ before := fun hmem => hnodup.2.2 c hmem c mem_cons_self rfl
  obtain ⟨hclient, hspares⟩ := foldl_attach_other hbefore r
  obtain ⟨hbuffer, hpumping⟩ := foldl_attach_process before r
  rw [foldl_append, foldl_cons]
  generalize before.foldl attachSocket r = reached at *
  obtain ⟨hclient', hspares'⟩ := foldl_attach_other hnodup.2.1.1 (attachSocket reached c)
  refine ⟨reached.1, hspares, hbuffer, hpumping, ?_, hspares'⟩
  rw [hclient', ← hclient]
  simp [attachSocket, onOutput, foldl_send]
  rfl

theorem has_foldl_attach {r : SessionProcess ι χ × (ι → Option (Client χ))} {number : ℕ}
    (h : (sockets.foldl attachSocket r).1.subscribers.Has number c) :
    r.1.subscribers.Has number c ∨ c ∈ sockets := by
  induction sockets generalizing r with
  | nil => exact .inl h
  | cons c' sockets ih =>
    obtain hhas | hmem := ih h
    · obtain hhas | ⟨_, rfl⟩ := Subscriptions.has_subscribe.mp hhas
      · exact .inl hhas
      · exact .inr mem_cons_self
    · exact .inr (mem_cons_of_mem _ hmem)

theorem foldl_attach_isSome (sockets : List ι)
    (r : SessionProcess ι χ × (ι → Option (Client χ))) (c : ι) :
    ((sockets.foldl attachSocket r).2 c).map (fun client => (client.kind, client.isOpen)) =
      (r.2 c).map fun client => (client.kind, client.isOpen) := by
  induction sockets generalizing r with
  | nil => rfl
  | cons c' sockets ih =>
    rw [foldl_cons, ih]
    by_cases hc : c = c'
    · subst hc
      simp only [attachSocket, onOutput, modify_self, Option.map_map]
      congr 1
      funext client
      simp only [Function.comp_apply, foldl_send, Client.sendAll]
      split_ifs <;> rfl
    · rw [(attachSocket_other hc r).1]

/-- Nobody is attached twice, and nobody is left out, if anything has been put out. -/
def AttachesWell (state : State ι χ) : Prop :=
  (∀ p, state.process = some p → p.outputBuffer = []) ∨
    ∀ c client, state.clients c = some client → client.misattached state.attaching = false

theorem inv_ready (h : Inv state ideal) (hattaching : state.attaching = true)
    (hsafe : AttachesWell state) :
    Inv (notifyWebSocketsProcessAttached { state with attaching := false })
      (ideal.next .ready) := by
  cases hp : state.process with
  | none =>
    rw [h.waiting hp] at hattaching
    cases hattaching
  | some p =>
    have hbuffer : ideal.outputBuffer = p.outputBuffer := by
      rw [h.buffer, hp]
      rfl
    obtain ⟨hout, hpumping⟩ := foldl_attach_process state.sockets (p, state.clients)
    have hsame := foldl_attach_isSome state.sockets (p, state.clients)
    have hwell : ∀ c client, state.clients c = some client →
        p.outputBuffer = [] ∨ client.misattached true = false := by
      intro c client hclient
      obtain hempty | hwell := hsafe
      · exact .inl (hempty p hp)
      · have hc := hwell c client hclient
        rw [hattaching] at hc
        exact .inr hc
    have hclients : ∀ c, Paired (some (state.sockets.foldl attachSocket (p, state.clients)).1)
        false c ((state.sockets.foldl attachSocket (p, state.clients)).2 c)
          ((ideal.deliveries c).map (Delivery.attach ideal.outputBuffer)) := by
      intro c
      have hpaired := h.clients c
      rw [hp, hattaching] at hpaired
      rw [hbuffer]
      by_cases hc : c ∈ state.sockets
      · obtain ⟨q, hspares, hbuffer', hpumping', hclient, hspares'⟩ :=
          foldl_attach_self h.nodup hc (p, state.clients)
        rw [hclient]
        obtain ⟨client, hsome, hkind⟩ := h.sockets c hc
        have hsafe' := hwell c client hsome
        simp only [hsome] at hpaired ⊢
        generalize ideal.deliveries c = d at hpaired ⊢
        cases hpaired with
        | @present _ d hmatches =>
          have hreached : Matches (some q) true c client d :=
            hmatches.spared hspares (by rw [hpumping']; exact id)
          rw [← hbuffer'] at hsafe' ⊢
          exact .present ((hreached.attach hkind hsafe').spared hspares'
            (by rw [hpumping, ← hpumping']; exact id))
      · obtain ⟨hclient, hspares⟩ := foldl_attach_other hc (p, state.clients)
        rw [hclient]
        have hsafe' := hwell c
        have htracked := h.tracked c
        simp only
        generalize state.clients c = client at hpaired hsafe' htracked ⊢
        generalize ideal.deliveries c = d at hpaired ⊢
        cases hpaired with
        | absent => exact .absent
        | @present client d hmatches =>
          have hother : client.kind = .webSocket → client.isOpen = false := by
            intro hkind
            by_contra hopen
            exact hc (htracked client rfl hkind (by simpa using hopen))
          exact .present ((hmatches.notifyOther hother (hsafe' client rfl)).spared hspares
            (by rw [hpumping]; exact id))
    have hnotify : notifyWebSocketsProcessAttached
        { state with process := some p, attaching := false } =
        { state with
          process := some (state.sockets.foldl attachSocket (p, state.clients)).1
          attaching := false
          clients := (state.sockets.foldl attachSocket (p, state.clients)).2 } := rfl
    have hknown : ∀ number c,
        (state.sockets.foldl attachSocket (p, state.clients)).1.subscribers.Has number c →
          state.clients c ≠ none := by
      intro number c hhas
      obtain hhas | hmem := has_foldl_attach hhas
      · exact h.known p hp number c hhas
      · obtain ⟨client, hclient, _⟩ := h.sockets c hmem
        rw [hclient]
        exact some_ne_none _
    rw [hnotify]
    generalize state.sockets.foldl attachSocket (p, state.clients) = attached at *
    obtain ⟨q, clients⟩ := attached
    simp only at hout hsame hclients hknown
    refine ⟨fun _ => rfl, rfl, hbuffer.trans hout.symm, ?_, hclients, ?_, h.nodup, ?_⟩
    · intro q' hq number c hhas hnone
      cases hq
      have hc := hsame c
      rw [show clients c = none from hnone, map_none] at hc
      exact hknown number c hhas (map_eq_none_iff.mp hc.symm)
    · intro c client hclient hkind hopen
      have hc := hsame c
      rw [show clients c = some client from hclient, map_some] at hc
      obtain ⟨client', hclient', heq⟩ := map_eq_some_iff.mp hc.symm
      obtain ⟨hkind', hopen'⟩ := Prod.mk.inj heq
      exact h.tracked c client' hclient' (hkind'.trans hkind) (hopen'.trans hopen)
    · intro c hc
      obtain ⟨client, hclient, hkind⟩ := h.sockets c hc
      have hsame' := hsame c
      rw [hclient, map_some] at hsame'
      obtain ⟨client', hclient', heq⟩ := map_eq_some_iff.mp hsame'
      exact ⟨client', hclient', (Prod.mk.inj heq).1.trans hkind⟩

/-- Output is sent while the notification is still to come, or to clients that are attached well. -/
def SendsWell (state : State ι χ) : Prop :=
  state.attaching = true ∨
    ∀ c client, state.clients c = some client → client.misattached state.attaching = false

def Delivery.send (chunk : χ) (d : Delivery χ) : Delivery χ :=
  if d.isOpen && d.replayed.isSome then { d with live := d.live ++ [chunk] } else d

theorem Matches.count (h : Matches (some p) attaching c client d) (hopen : client.isOpen = true)
    (hpumping : p.pumping = true) (hwell : attaching = true ∨ client.misattached attaching = false) :
    p.subscribers.count c = if d.replayed.isSome then 1 else 0 := by
  have hsubscribed := h.subscribed hopen p rfl hpumping
  have hattached := h.attached hopen
  simp only [isSome_some, true_and] at hattached
  have hone : ∀ number, (∀ number', client.Holds number' ↔ number' = number) →
      p.subscribers.count c = 1 := fun number hnumber =>
    Subscriptions.count_eq_one fun number' => (hsubscribed number').trans (hnumber number')
  cases hunsub : client.unsub with
  | some number =>
    rw [if_pos (hattached.mpr (.inl (by rw [hunsub]; rfl)))]
    apply hone number
    intro number'
    cases hkind : client.kind with
    | sse => simp [Client.Holds, h.stream hkind, hunsub, eq_comm]
    | webSocket =>
      have hstored : client.processUnsub = some number := by
        rw [← hunsub]
        obtain hattaching | hwell := hwell
        · exact h.stored hkind hopen (.inl hattaching)
        · simp only [Client.misattached, hkind, hopen, hunsub] at hwell
          rw [hunsub]
          simpa using (by simpa using hwell : attaching = false ∧ _).2
      simp [Client.Holds, hstored, hunsub, eq_comm]
  | none =>
    by_cases hattaching : attaching = true
    · have hnot : ¬ d.replayed.isSome = true := by
        rw [hattached, hunsub, hattaching]
        simp
      rw [if_neg hnot]
      apply Subscriptions.count_eq_zero
      intro number hhas
      have hholds := (hsubscribed number).mp hhas
      cases hkind : client.kind with
      | sse => simp [Client.Holds, h.stream hkind, hunsub] at hholds
      | webSocket =>
        simp [Client.Holds, h.stored hkind hopen (.inl hattaching), hunsub] at hholds
    · have hnot := Bool.eq_false_iff.mpr hattaching
      rw [if_pos (hattached.mpr (.inr hnot))]
      have hmis := hwell.resolve_left hattaching
      cases hkind : client.kind with
      | sse => simp [Client.misattached, hkind, hopen, hunsub] at hmis
      | webSocket =>
        have hnotified := h.notified hkind hopen rfl hnot
        rw [hunsub] at hnotified
        obtain ⟨number, hnumber⟩ :=
          isSome_iff_exists.mp (hnotified.resolve_left (by simp))
        apply hone number
        intro number'
        simp [Client.Holds, hnumber, hunsub, eq_comm]

theorem Matches.send (h : Matches (some p) attaching c client d) (hpumping : p.pumping = true)
    (hwell : attaching = true ∨ client.misattached attaching = false) (chunk : χ) :
    Matches (some { p with outputBuffer := bufferOutput p.outputBuffer chunk }) attaching c
      (client.sendAll (List.replicate (p.subscribers.count c) chunk)) (d.send chunk) := by
  have hframed : Matches (some { p with outputBuffer := bufferOutput p.outputBuffer chunk })
      attaching c client d :=
    h.frame (Nat.le_refl _) (fun _ _ _ hhas => hhas) fun _ hp => ⟨hp, fun _ => Iff.rfl⟩
  by_cases hopen : client.isOpen = true
  · have hcount := h.count hopen hpumping hwell
    have hdopen : d.isOpen = true := h.isOpen_eq.symm.trans hopen
    rw [Client.sendAll, if_pos hopen, hcount]
    by_cases hreplayed : d.replayed.isSome = true
    · rw [if_pos hreplayed, Delivery.send, if_pos (by simp [hdopen, hreplayed])]
      refine ⟨h.isOpen_eq, ?_, ?_, hframed.handles, hframed.subscribed, hframed.attached,
        hframed.notified, hframed.stored, hframed.stream⟩
      · change client.received ++ [chunk] = d.replayed.getD [] ++ (d.live ++ [chunk])
        rw [h.received_eq, Delivery.received, append_assoc]
      · intro hnone
        rw [show d.replayed = none from hnone] at hreplayed
        cases hreplayed
    · rw [if_neg hreplayed, replicate_zero, append_nil, Delivery.send,
        if_neg (by simp [hreplayed])]
      exact hframed
  · rw [Client.sendAll, if_neg hopen, Delivery.send, ← h.isOpen_eq, if_neg (by simp [hopen])]
    exact hframed

theorem inv_output (h : Inv state ideal) (hp : state.process = some p) (hpumping : p.pumping = true)
    (hwell : SendsWell state) (chunk : χ) :
    Inv { state with
        process := some { p with outputBuffer := bufferOutput p.outputBuffer chunk }
        clients := fanOut p.subscribers.entries state.clients chunk }
      (ideal.next (.output chunk)) := by
  have hbuffer : ideal.outputBuffer = p.outputBuffer := by
    rw [h.buffer, hp]
    rfl
  have hsent := fun c => fanOut_apply p.subscribers.entries state.clients chunk c
  have hkeeps : ∀ (data : List χ) (client : Client χ), (client.sendAll data).kind = client.kind ∧
      (client.sendAll data).isOpen = client.isOpen := by
    intro data client
    rw [Client.sendAll]
    split_ifs
    · exact ⟨rfl, rfl⟩
    · exact ⟨rfl, rfl⟩
  refine h.preserved rfl rfl ?_ ?_ ?_ ?_ ?_ (Sublist.refl _) (fun c hc => .inl hc) ?_
  · exact congrArg (bufferOutput · chunk) hbuffer
  · intro hno
    cases hno
  · intro p' hp'
    cases hp'
    exact ⟨p, hp, fun _ _ hhas => hhas⟩
  · intro c
    change (fanOut p.subscribers.entries state.clients chunk c).map _ = _
    rw [hsent, Option.map_map]
    congr 1
    funext client
    exact (hkeeps _ client).1
  · intro c client' hclient' hopen
    obtain ⟨client, hclient, rfl⟩ := map_eq_some_iff.mp ((hsent c).symm.trans hclient')
    exact ⟨client, hclient, (hkeeps _ client).2.symm.trans hopen⟩
  · intro c
    have hpaired := h.clients c
    have hc : state.attaching = true ∨
        ∀ client, state.clients c = some client → client.misattached state.attaching = false :=
      hwell.imp_right fun hall => hall c
    rw [hp] at hpaired
    change Paired _ _ c (fanOut p.subscribers.entries state.clients chunk c)
      ((ideal.deliveries c).map (Delivery.send chunk))
    rw [hsent]
    generalize state.clients c = client at hpaired hc ⊢
    generalize ideal.deliveries c = d at hpaired ⊢
    cases hpaired with
    | absent => exact .absent
    | @present client d hmatches =>
      exact .present (hmatches.send hpumping (hc.imp_right fun hall => hall client rfl) chunk)

theorem inv_closed (h : Inv state ideal) (c : ι) :
    Inv { state with clients := modify state.clients c fun client =>
        { client with isOpen := false } } (ideal.closed c) := by
  refine h.preserved rfl rfl h.buffer id (fun p hp => ⟨p, hp, fun _ _ hhas => hhas⟩) ?_ ?_
    (Sublist.refl _) (fun _ hc => .inl hc) ?_
  · intro c'
    change Option.map _ (modify state.clients c _ c') = _
    by_cases hc : c' = c
    · subst hc
      rw [modify_self, Option.map_map]
      rfl
    · rw [modify_of_ne _ hc]
  · intro c' client hclient hopen
    change modify state.clients c _ c' = _ at hclient
    by_cases hc : c' = c
    · subst hc
      rw [modify_self] at hclient
      obtain ⟨before, _, rfl⟩ := map_eq_some_iff.mp hclient
      cases hopen
    · rw [modify_of_ne _ hc] at hclient
      exact ⟨client, hclient, hopen⟩
  · intro c'
    have hpaired := h.clients c'
    by_cases hc : c' = c
    · subst hc
      simp only [Ideal.closed, modify_self]
      generalize state.clients c' = client at hpaired ⊢
      generalize ideal.deliveries c' = d at hpaired ⊢
      cases hpaired with
      | absent => exact .absent
      | present hmatches => exact .present hmatches.close
    · simp only [Ideal.closed, modify_of_ne _ hc]
      exact hpaired

theorem inv_released {client' : Client χ} (h : Inv state ideal)
    (hclient : state.clients c = some client) (hclosed : client.isOpen = false)
    (hsame : client'.kind = client.kind ∧ client'.isOpen = client.isOpen ∧
      client'.received = client.received)
    (hholds : ∀ number, client'.Holds number → client.Holds number)
    (hstream : client'.processUnsub = none ∨ client'.processUnsub = client.processUnsub)
    {release : SessionProcess ι χ → SessionProcess ι χ}
    (hrelease : ∀ p, state.process = some p → Releases c p (release p))
    (hsockets : sockets = state.sockets ∨ sockets = state.sockets.erase c) :
    Inv { state with
        process := state.process.map release
        sockets
        clients := Function.update state.clients c (some client') } ideal := by
  refine h.preserved rfl rfl ?_ ?_ ?_ ?_ ?_ ?_ ?_ ?_
  · refine h.buffer.trans ?_
    cases hp : state.process with
    | none => rfl
    | some p => exact (hrelease p hp).outputBuffer.symm
  · exact map_eq_none_iff.mp
  · intro p' hp'
    obtain ⟨p, hp, rfl⟩ := map_eq_some_iff.mp hp'
    exact ⟨p, hp, (hrelease p hp).has⟩
  · intro c'
    change Option.map _ (Function.update state.clients c (some client') c') = _
    by_cases hc : c' = c
    · subst hc
      rw [Function.update_self, hclient, map_some, map_some, hsame.1]
    · rw [Function.update_of_ne hc]
  · intro c' after hafter hopen
    by_cases hc : c' = c
    · subst hc
      obtain rfl : client' = after := by simpa using hafter
      rw [hsame.2.1, hclosed] at hopen
      cases hopen
    · refine ⟨after, ?_, hopen⟩
      rw [← hafter]
      exact (Function.update_of_ne hc _ _).symm
  · obtain rfl | rfl := hsockets
    · exact Sublist.refl _
    · exact erase_sublist
  · intro c' hc'
    by_cases hc : c' = c
    · subst hc
      refine .inr fun after hafter => ?_
      rw [hclient] at hafter
      cases hafter
      exact hclosed
    · obtain rfl | rfl := hsockets
      · exact .inl hc'
      · exact .inl ((mem_erase_of_ne hc).mpr hc')
  · intro c'
    have hpaired := h.clients c'
    change Paired (state.process.map release) state.attaching c'
      (Function.update state.clients c (some client') c') _
    by_cases hc : c' = c
    · subst hc
      rw [Function.update_self]
      rw [hclient] at hpaired
      generalize ideal.deliveries c' = d at hpaired ⊢
      cases hpaired with
      | present hmatches =>
        exact .present (hmatches.released hclosed hsame hholds hstream hrelease)
    · rw [Function.update_of_ne hc]
      cases hp : state.process with
      | none =>
        rw [hp] at hpaired
        exact hpaired
      | some p =>
        have hreleases := hrelease p hp
        rw [hp] at hpaired
        generalize state.clients c' = other at hpaired ⊢
        generalize ideal.deliveries c' = d at hpaired ⊢
        cases hpaired with
        | absent => exact .absent
        | present hmatches =>
          exact .present (hmatches.spared (hreleases.spares c' hc)
            (by rw [hreleases.pumping]; exact id))

theorem inv_cleanUp (h : Inv state ideal) (sameContext : Bool)
    (hclient : state.clients c = some client) (hclosed : client.isOpen = false) :
    Inv (cleanUp state sameContext c client) ideal := by
  have howned : ∀ number, client.Holds number → ∀ p, state.process = some p →
      ∀ owner, p.subscribers.Has number owner → owner = c := by
    have hpaired := h.clients c
    rw [hclient] at hpaired
    generalize ideal.deliveries c = d at hpaired
    cases hpaired with
    | present hmatches =>
      intro number hnumber p hp
      obtain ⟨q, hq, _, howner⟩ := hmatches.handles number hnumber
      obtain rfl := some.inj (hq.symm.trans hp)
      exact howner
  cases hkind : client.kind with
  | sse =>
    have hsame : cleanUp state sameContext c client =
        { state with
          process := state.process.map (unsubscribe · client.unsub)
          clients := Function.update state.clients c (some client) } := by
      rw [← hclient, Function.update_eq_self, cleanUp, hkind]
    rw [hsame]
    refine inv_released h hclient hclosed ⟨rfl, rfl, rfl⟩ (fun _ hholds => hholds) (.inr rfl)
      ?_ (.inl rfl)
    exact fun p hp => .unsubscribe fun number hnumber => howned number (.inl hnumber) p hp
  | webSocket =>
    have hsame : cleanUp state sameContext c client =
        { state with
          process := state.process.map fun process =>
            unsubscribe (if sameContext then unsubscribe process client.processUnsub else process)
              client.unsub
          sockets := if sameContext then state.sockets.erase c else state.sockets
          clients := Function.update state.clients c (some { client with
            unsub := none
            processUnsub := if sameContext then none else client.processUnsub }) } := by
      rw [cleanUp, hkind]
      simp only [modify, hclient, map_some]
      rw [hkind]
    rw [hsame]
    refine inv_released h hclient hclosed ?_ ?_ ?_ ?_ ?_
    · exact ⟨rfl, rfl, rfl⟩
    · rintro number (hnumber | hnumber)
      · cases hnumber
      · cases sameContext with
        | true => cases hnumber
        | false => exact .inr hnumber
    · cases sameContext with
      | true => exact .inl rfl
      | false => exact .inr rfl
    · intro p hp
      have hstored : Releases c p
          (if sameContext then unsubscribe p client.processUnsub else p) := by
        cases sameContext with
        | true =>
          exact .unsubscribe fun number hnumber => howned number (.inr hnumber) p hp
        | false => exact .refl c p
      refine hstored.trans (.unsubscribe fun number hnumber owner hhas => ?_)
      exact howned number (.inl hnumber) p hp owner (hstored.has number owner hhas)
    · cases sameContext with
      | true => exact .inr rfl
      | false => exact .inl rfl

def ReachesAll (state : State ι χ) : Action ι χ → Prop
  | .ready => AttachesWell state
  | .output _ => SendsWell state
  | _ => True

theorem inv_step (h : Inv state ideal) (hreaches : ReachesAll state a)
    (hstep : step state sameContext a = some state') : Inv state' (ideal.next a) := by
  cases a with
  | openSocket c =>
    simp only [step, ite_none_right_eq_some, some.injEq] at hstep
    obtain ⟨hnew, rfl⟩ := hstep
    exact inv_openSocket h (isNone_iff_eq_none.mp hnew)
  | openStream c =>
    simp only [step, ite_none_right_eq_some, some.injEq] at hstep
    obtain ⟨hnew, rfl⟩ := hstep
    exact inv_openStream h (isNone_iff_eq_none.mp hnew)
  | input =>
    simp only [step, some.injEq] at hstep
    obtain rfl := hstep
    exact inv_postInput h
  | ready =>
    simp only [step, ite_none_right_eq_some, some.injEq] at hstep
    obtain ⟨hattaching, rfl⟩ := hstep
    exact inv_ready h hattaching hreaches
  | output chunk =>
    cases hp : state.process with
    | none => simp [step, hp] at hstep
    | some p =>
      simp only [step, hp, ite_none_right_eq_some, some.injEq] at hstep
      obtain ⟨hpumping, rfl⟩ := hstep
      exact inv_output h hp hpumping hreaches chunk
  | pumpStops failed =>
    cases hp : state.process with
    | none => simp [step, hp] at hstep
    | some p =>
      simp only [step, hp, ite_none_right_eq_some, some.injEq] at hstep
      obtain ⟨_, rfl⟩ := hstep
      exact inv_pumpStops h hp failed
  | exit =>
    obtain ⟨p, hp, rfl⟩ := map_eq_some_iff.mp hstep
    exact inv_exit h hp
  | closeOnExit c =>
    cases hp : state.process with
    | none => simp [step, hp] at hstep
    | some p =>
      cases hclient : state.clients c with
      | none => simp [step, hp, hclient] at hstep
      | some client =>
        simp only [step, hp, hclient, ite_none_right_eq_some, some.injEq] at hstep
        obtain ⟨_, rfl⟩ := hstep
        have hinv := inv_closed h c
        rw [hp] at hinv
        exact hinv
  | drop c =>
    simp only [step, ite_none_right_eq_some, some.injEq] at hstep
    obtain ⟨_, rfl⟩ := hstep
    exact inv_closed h c
  | cleanUp c =>
    cases hclient : state.clients c with
    | none => simp [step, hclient] at hstep
    | some client =>
      simp only [step, hclient, ite_none_left_eq_some, some.injEq] at hstep
      obtain ⟨hclosed, rfl⟩ := hstep
      exact inv_cleanUp h sameContext hclient (Bool.eq_false_iff.mpr hclosed)

def idealAfter (hasCommand : Bool) (actions : List (Action ι χ)) : Ideal ι χ :=
  actions.foldl Ideal.next (idealInitial hasCommand)

theorem inv_run {hasCommand : Bool} {steps : List (Transition (State ι χ) (Action ι χ))}
    (h : GuardedRun (step · sameContext) ReachesAll (initial hasCommand) steps state) :
    Inv state (idealAfter hasCommand (steps.map (·.action))) := by
  refine h.induct (P := fun steps state => Inv state (idealAfter hasCommand (steps.map (·.action))))
    (inv_initial hasCommand) ?_
  intro steps before a after hinv hreaches hstep
  rw [idealAfter, map_append, foldl_append]
  exact inv_step hinv hreaches hstep

theorem Ideal.next_closed (hd : ideal.deliveries c = some d) (hclosed : d.isOpen = false)
    (hsocket : a ≠ .openSocket c) (hstream : a ≠ .openStream c) :
    (ideal.next a).deliveries c = some d := by
  have hmodify : ∀ c', (ideal.closed c').deliveries c = some d := by
    intro c'
    by_cases hc : c = c'
    · subst hc
      simp [Ideal.closed, modify_self, hd, map_some, ← hclosed]
    · simp [Ideal.closed, modify_of_ne _ hc, hd]
  cases a with
  | openSocket c' =>
    have hc : c ≠ c' := fun hc => hsocket (by rw [hc])
    simp [Ideal.next, Ideal.opened, Function.update_of_ne hc, hd]
  | openStream c' =>
    have hc : c ≠ c' := fun hc => hstream (by rw [hc])
    simp [Ideal.next, Ideal.opened, Function.update_of_ne hc, hd]
  | input =>
    rw [Ideal.next]
    split_ifs <;> exact hd
  | ready => simp [Ideal.next, Ideal.attachAll, hd, hclosed]
  | output chunk => simp [Ideal.next, Ideal.send, hd, hclosed]
  | pumpStops failed => exact hd
  | exit => exact hd
  | closeOnExit c' => exact hmodify c'
  | drop c' => exact hmodify c'
  | cleanUp c' => exact hd

/-- A client whose connection is closed receives nothing and is not opened again. -/
def LeavesClosed (t : Transition (State ι χ) (Action ι χ)) : Prop :=
  ∀ c client, t.before.clients c = some client → client.isOpen = false →
    (t.after.clients c).map (fun client => (client.isOpen, client.received)) =
      some (false, client.received)

theorem leavesClosed_step (h : Inv state ideal) (hreaches : ReachesAll state a)
    (hstep : step state sameContext a = some state') : LeavesClosed ⟨state, a, state'⟩ := by
  intro c client hclient hclosed
  have hbefore := h.delivered c
  simp only at hclient
  rw [hclient, map_some] at hbefore
  obtain ⟨d, hd, heq⟩ := map_eq_some_iff.mp hbefore.symm
  obtain ⟨hopen, hreceived⟩ := Prod.mk.inj heq
  have hafter : (ideal.next a).deliveries c = some d := by
    refine Ideal.next_closed hd (hopen.trans hclosed) ?_ ?_
    · rintro rfl
      simp [step, hclient] at hstep
    · rintro rfl
      simp [step, hclient] at hstep
  rw [(inv_step h hreaches hstep).delivered c, hafter, map_some, hreceived, hopen, hclosed]

/-- In every order of the steps. -/
theorem output_delivered (sameContext hasCommand : Bool)
    (steps : List (Transition (State ι χ) (Action ι χ)))
    (h : GuardedRun (step · sameContext) ReachesAll (initial hasCommand) steps state) :
    Delivered state (idealAfter hasCommand (steps.map (·.action))) ∧
      (∀ p, state.process = some p →
        (idealAfter hasCommand (steps.map (·.action))).outputBuffer = p.outputBuffer) ∧
      ∀ t ∈ steps, LeavesClosed t := by
  have hinv := inv_run h
  refine ⟨hinv.delivered, ?_, ?_⟩
  · intro p hp
    rw [hinv.buffer, hp]
    rfl
  · refine h.forall_step (I := fun state => ∃ ideal, Inv state ideal)
      ⟨_, inv_initial hasCommand⟩ ?_
    rintro before a after ⟨ideal, hbefore⟩ hreaches hstep
    exact ⟨⟨_, inv_step hbefore hreaches hstep⟩, leavesClosed_step hbefore hreaches hstep⟩

/-- A web socket that was there before the process, and an event stream that came after it. -/
theorem output_delivered_socketAndStream :
    ∃ (steps : List (Transition (State Bool ℕ) (Action Bool ℕ))) (state : State Bool ℕ),
      (steps.map (·.action)).length = 6 ∧
        Delivered state (idealAfter false (steps.map (·.action))) ∧
        ∀ c, (state.clients c).map (·.received) = some [1, 2] := by
  have hone : ∀ {state : State Bool ℕ}, (∀ c, ((state.clients c).map
      (Client.misattached state.attaching)).getD false = false) →
      ∀ c client, state.clients c = some client → client.misattached state.attaching = false := by
    intro state hall c client hclient
    simpa [hclient] using hall c
  have hstart : GuardedRun (step · true) ReachesAll (initial false : State Bool ℕ) [] _ := .start
  have hopened := hstart.step (Action.openSocket false) trivial rfl
  have hspawned := hopened.step Action.input trivial rfl
  have hfirst := hspawned.step (Action.output 1) (.inl rfl) rfl
  have hnotified := hfirst.step Action.ready (.inr (hone (by decide))) rfl
  have hstream := hnotified.step (Action.openStream true) trivial rfl
  have hrun := hstream.step (Action.output 2) (.inr (hone (by decide))) rfl
  exact ⟨_, _, rfl, (output_delivered true false _ hrun).1, by decide⟩

/-- A web socket that opens while the notification is to come is subscribed twice, and an event
stream that was opened before the process is not subscribed at all. -/
theorem chunk_twice_and_never :
    (∃ (steps : List (Transition (State Unit ℕ) (Action Unit ℕ))) (state : State Unit ℕ),
      GuardedRun (step · true) (fun _ _ => True) (initial false) steps state ∧
        steps.map (·.action) = [.input, .openSocket (), .ready, .output 7] ∧
        (state.clients ()).map (fun client => (client.isOpen, client.received)) =
          some (true, [7, 7]) ∧
        ¬ Delivered state (idealAfter false (steps.map (·.action)))) ∧
    ∃ (steps : List (Transition (State Unit ℕ) (Action Unit ℕ))) (state : State Unit ℕ),
      GuardedRun (step · true) (fun _ _ => True) (initial false) steps state ∧
        steps.map (·.action) = [.openStream (), .input, .ready, .output 7] ∧
        (state.clients ()).map (fun client => (client.isOpen, client.received)) =
          some (true, []) ∧
        ¬ Delivered state (idealAfter false (steps.map (·.action))) := by
  constructor
  · have hrun : GuardedRun (step · true) (fun _ _ => True) (initial false : State Unit ℕ) _ _ :=
      .step (.output 7) (.step .ready (.step (.openSocket ()) (.step .input .start
        trivial rfl) trivial rfl) trivial rfl) trivial rfl
    exact ⟨_, _, hrun, rfl, by decide, fun hdelivered => absurd (hdelivered ()) (by decide)⟩
  · have hrun : GuardedRun (step · true) (fun _ _ => True) (initial false : State Unit ℕ) _ _ :=
      .step (.output 7) (.step .ready (.step .input (.step (.openStream ()) .start
        trivial rfl) trivial rfl) trivial rfl) trivial rfl
    exact ⟨_, _, hrun, rfl, by decide, fun hdelivered => absurd (hdelivered ()) (by decide)⟩

end Draht.GatewayStreams
