import Draht.SessionControl

/-!
# The retry promise

`prompt` waits for the retry promise. It is created when `agent_end` is emitted, from the messages
of that event, and resolved when the event is handled, if an assistant message was recorded
before. A session in which a run ends without a response may be left with a promise that nobody
resolves; in every other session a pending promise is awaited by a run, a timer, a sleep or an
event that is still to be handled.
-/

namespace Draht

/-- Is an assistant message recorded after the event is handled? -/
def SessionEvent.leavesAssistant (recorded : Bool) : SessionEvent → Bool
  | .messageEnd m => recorded || m.message.isAssistant
  | .agentEnd _ => false
  | _ => recorded

def leavesAssistant (recorded : Bool) (events : List SessionEvent) : Bool :=
  events.foldl SessionEvent.leavesAssistant recorded

/-- One of the events is an `agent_end` that finds an assistant message recorded. -/
def settlesRetry (recorded : Bool) : List SessionEvent → Bool
  | [] => false
  | .agentEnd _ :: events => recorded || settlesRetry false events
  | e :: events => settlesRetry (e.leavesAssistant recorded) events

theorem leavesAssistant_concat (recorded : Bool) (events : List SessionEvent) (e : SessionEvent) :
    leavesAssistant recorded (events ++ [e]) =
      e.leavesAssistant (leavesAssistant recorded events) := by
  simp [leavesAssistant]

variable {events : List SessionEvent}

theorem settlesRetry_append {recorded : Bool} (h : settlesRetry recorded events = true)
    (more : List SessionEvent) : settlesRetry recorded (events ++ more) = true := by
  induction events generalizing recorded with
  | nil => cases h
  | cons e events ih =>
    cases e with
    | agentEnd messages =>
      simp only [settlesRetry, List.cons_append, Bool.or_eq_true] at h ⊢
      exact h.imp_right ih
    | _ => exact ih h

theorem settlesRetry_concat_agentEnd {recorded : Bool} (messages : List AgentMessage)
    (h : leavesAssistant recorded events = true) :
    settlesRetry recorded (events ++ [.agentEnd messages]) = true := by
  induction events generalizing recorded with
  | nil => simpa [leavesAssistant, settlesRetry] using h
  | cons e events ih =>
    cases e with
    | agentEnd messages =>
      simp only [settlesRetry, List.cons_append, Bool.or_eq_true]
      exact .inr (ih h)
    | _ => exact ih h

namespace SessionControl

variable (c : SessionControl)

/-- The events whose recording is still to come, the one in the extension handlers first. -/
def pendingEvents : List SessionEvent := c.handler.event?.toList ++ c.agentEventQueue

def isRunning : Prop := ∃ r ∈ c.run, r.ended = false

/-- A retry is scheduled or sleeping, or an event that settles it is pending. -/
def RetryUnderWay : Prop :=
  c.scheduled ≠ [] ∨ c.handler.isSleeping = true ∨
    settlesRetry c.lastAssistantMessage.isSome c.pendingEvents = true

/-- A pending promise has a run or a retry under way; and when a run has a response, the
response is recorded by the time the run's last event is handled. -/
structure RetryInvariant : Prop where
  awaited : c.retryPromise = true → c.isRunning ∨ c.RetryUnderWay
  recorded : ∀ r, c.run = some r → r.ended = false → r.newMessages.any AgentMessage.isAssistant →
    leavesAssistant c.lastAssistantMessage.isSome c.pendingEvents = true

variable {c}

variable {r : SessionRun} {e : SessionEvent}

theorem RetryInvariant.of_running (hrun : c.run = some r)
    (hended : r.ended = false) (h : r.newMessages.any AgentMessage.isAssistant →
      leavesAssistant c.lastAssistantMessage.isSome c.pendingEvents = true) :
    c.RetryInvariant := by
  refine ⟨fun _ => .inl ⟨r, hrun, hended⟩, ?_⟩
  intro r' hrun' _ hany
  obtain rfl := Option.some.inj (hrun.symm.trans hrun')
  exact h hany

theorem pendingEvents_emit (r : SessionRun) (e : SessionEvent) :
    (c.emit r e).pendingEvents = c.pendingEvents ++ [e] := by
  simp [pendingEvents, emit]

open AgentSession

theorem RetryInvariant.of_resolved {c : SessionControl} (h : c.retryPromise = false)
    (hrecorded : ∀ r, c.run = some r → r.ended = false →
      r.newMessages.any AgentMessage.isAssistant →
      leavesAssistant c.lastAssistantMessage.isSome c.pendingEvents = true) :
    c.RetryInvariant :=
  ⟨fun hp => (Bool.false_ne_true (h.symm.trans hp)).elim, hrecorded⟩

/-- A step that leaves run, promise, recorded message and pending events alone keeps the invariant
if it takes away no timer and no sleep. -/
theorem RetryInvariant.congr {c c' : SessionControl} (h : c.RetryInvariant)
    (hrun : c'.run = c.run) (hpromise : c'.retryPromise = c.retryPromise)
    (hlast : c'.lastAssistantMessage = c.lastAssistantMessage)
    (hevents : c'.pendingEvents = c.pendingEvents)
    (hscheduled : c.scheduled ≠ [] → c'.scheduled ≠ [])
    (hsleeping : c.handler.isSleeping = true → c'.handler.isSleeping = true) :
    c'.RetryInvariant := by
  refine ⟨?_, ?_⟩
  · rw [hpromise]
    intro hp
    refine (h.awaited hp).imp ?_ ?_
    · unfold isRunning
      rw [hrun]
      exact id
    · unfold RetryUnderWay
      rw [hlast, hevents]
      exact Or.imp hscheduled (Or.imp_left hsleeping)
  · rw [hrun, hlast, hevents]
    exact h.recorded

variable {caller : CompactionCaller} {m : SessionMessage} {x : AutoCompaction} {r' : SessionRun}

theorem isAssistant_leaves (recorded : Bool) (h : recorded = true ∨ m.message.isAssistant = true) :
    (SessionEvent.messageEnd m).leavesAssistant recorded = true := by
  simpa [SessionEvent.leavesAssistant] using h

theorem RetryInvariant.emitMessage {c : SessionControl} (h : c.RetryInvariant)
    (hrun : c.run = some r) (hended : r.ended = false) (hended' : r'.ended = false)
    (hmessages : r'.newMessages = r.newMessages ++ [m.message]) :
    (c.emit r' (.messageEnd m)).RetryInvariant := by
  refine .of_running rfl hended' ?_
  intro hany
  rw [pendingEvents_emit, leavesAssistant_concat]
  apply isAssistant_leaves
  rw [hmessages, List.any_append, Bool.or_eq_true] at hany
  exact hany.imp (h.recorded r hrun hended) (by simp)

theorem RetryInvariant.emitOther {c : SessionControl} (h : c.RetryInvariant) (hrun : c.run = some r)
    (hended : r.ended = false) (hended' : r'.ended = false)
    (hmessages : r'.newMessages = r.newMessages) (he : e.isPassedOn = true) :
    (c.emit r' e).RetryInvariant := by
  refine .of_running rfl hended' ?_
  intro hany
  have hrecorded := h.recorded r hrun hended (hmessages ▸ hany)
  rw [pendingEvents_emit, leavesAssistant_concat]
  cases e <;> first | exact hrecorded | cases he

theorem RetryInvariant.emitEnd {c : SessionControl} (h : c.RetryInvariant)
    (hrun : c.run = some r) (hended : r.ended = false) (messages : List AgentMessage)
    {promise : Bool} (hok : r.newMessages.any AgentMessage.isAssistant ∨ promise = false ∨
      c.RetryUnderWay) :
    { c.emit { r with ended := true } (.agentEnd messages) with
      retryPromise := promise }.RetryInvariant := by
  refine ⟨?_, ?_⟩
  · intro hp
    obtain hany | hfalse | hunderWay := hok
    · refine .inr (.inr (.inr ?_))
      have hsettles := settlesRetry_concat_agentEnd messages (h.recorded r hrun hended hany)
      rw [← pendingEvents_emit { r with ended := true }] at hsettles
      exact hsettles
    · exact (Bool.false_ne_true (hfalse.symm.trans hp)).elim
    · refine .inr (hunderWay.imp id (Or.imp id ?_))
      intro hsettles
      have happend := settlesRetry_append hsettles [.agentEnd messages]
      rw [← pendingEvents_emit { r with ended := true }] at happend
      exact happend
  · intro r' hrun' hended'
    cases hrun'
    cases hended'

theorem track_run (c : SessionControl) (m : AgentMessage) : (c.track m).run = c.run := by
  unfold track
  split
  · split_ifs <;> rfl
  · rfl

theorem track_rest (c : SessionControl) (m : AgentMessage) :
    (c.track m).agentEventQueue = c.agentEventQueue ∧
      (c.track m).retryPromise = c.retryPromise ∧ (c.track m).scheduled = c.scheduled ∧
      (c.track m).lastAssistantMessage.isSome =
        (c.lastAssistantMessage.isSome || m.isAssistant) := by
  unfold track
  cases m with
  | assistant m =>
    dsimp only
    split_ifs <;> simp [AgentMessage.isAssistant]
  | _ => simp [AgentMessage.isAssistant]

theorem betweenMessages_not_ended (h : betweenMessages r = true) :
    r.ended = false := by
  simp only [betweenMessages, Bool.and_eq_true, Bool.not_eq_true'] at h
  exact h.1.1

theorem mayGoOn_not_ended (h : mayGoOn r = true) : r.ended = false := by
  simp only [mayGoOn, Bool.and_eq_true] at h
  exact betweenMessages_not_ended h.1

theorem pendingEvents_extensions {c : SessionControl}
    (h : c.handler = .extensions e) : c.pendingEvents = e :: c.agentEventQueue := by
  rw [pendingEvents, h]
  rfl

theorem RetryInvariant.handled {c c' : SessionControl} (h : c.RetryInvariant)
    (he : c.handler = .extensions e) (hrun : c'.run = c.run)
    (hpromise : c'.retryPromise = c.retryPromise) (hscheduled : c'.scheduled = c.scheduled)
    (hevents : c'.pendingEvents = c.agentEventQueue)
    (hlast : c'.lastAssistantMessage.isSome = e.leavesAssistant c.lastAssistantMessage.isSome)
    (hunsettled : settlesRetry c.lastAssistantMessage.isSome (e :: c.agentEventQueue) =
      settlesRetry (e.leavesAssistant c.lastAssistantMessage.isSome) c.agentEventQueue) :
    c'.RetryInvariant := by
  have hpending := pendingEvents_extensions he
  refine ⟨?_, ?_⟩
  · rw [hpromise]
    intro hp
    refine (h.awaited hp).imp ?_ ?_
    · unfold isRunning
      rw [hrun]
      exact id
    · rintro (hs | hs | hs)
      · exact .inl (hscheduled ▸ hs)
      · rw [he] at hs
        cases hs
      · rw [hpending, hunsettled] at hs
        exact .inr (.inr (by rw [hlast, hevents]; exact hs))
  · rw [hrun, hlast, hevents]
    intro r hr hended hany
    have hrecorded := h.recorded r hr hended hany
    rwa [hpending] at hrecorded

theorem settlesRetry_cons (recorded : Bool) (events : List SessionEvent)
    (he : ∀ messages, e = .agentEnd messages → recorded = false) :
    settlesRetry recorded (e :: events) = settlesRetry (e.leavesAssistant recorded) events := by
  cases e with
  | agentEnd messages =>
    rw [settlesRetry, he messages rfl]
    rfl
  | _ => rfl

theorem pendingEvents_setCompaction {c : SessionControl} {s : AgentSession}
    (compaction : Option AutoCompaction) (hc : c.handler = s.handler)
    (h : s.compactionOf caller = some x) :
    (c.setCompaction compaction caller).pendingEvents = c.pendingEvents ∧
      (c.handler.isSleeping = true →
        (c.setCompaction compaction caller).handler.isSleeping = true) := by
  cases caller with
  | prompt i => exact ⟨rfl, id⟩
  | handler =>
    simp only [compactionOf] at h
    split at h
    · rename_i y hy
      rw [hy] at hc
      unfold pendingEvents setCompaction
      rw [hc]
      cases compaction <;> exact ⟨rfl, fun hsleeping => nomatch hsleeping⟩
    · cases h

theorem setCompaction_rest (c : SessionControl) (compaction : Option AutoCompaction)
    (caller : CompactionCaller) :
    (c.setCompaction compaction caller).run = c.run ∧
      (c.setCompaction compaction caller).retryPromise = c.retryPromise ∧
      (c.setCompaction compaction caller).scheduled = c.scheduled ∧
      (c.setCompaction compaction caller).lastAssistantMessage = c.lastAssistantMessage := by
  cases caller <;> exact ⟨rfl, rfl, rfl, rfl⟩

theorem RetryInvariant.setCompaction {c : SessionControl} (h : c.RetryInvariant) {s : AgentSession}
    (hc : c.handler = s.handler) (hx : s.compactionOf caller = some x)
    (compaction : Option AutoCompaction) : (c.setCompaction compaction caller).RetryInvariant := by
  obtain ⟨hrun, hpromise, hscheduled, hlast⟩ := setCompaction_rest c compaction caller
  obtain ⟨hevents, hsleeping⟩ := pendingEvents_setCompaction compaction hc hx
  exact h.congr hrun hpromise hlast hevents (by rw [hscheduled]; exact id) hsleeping

theorem RetryInvariant.schedule {c : SessionControl} (h : c.RetryInvariant)
    (scheduled : List ContinueReason) (hscheduled : c.scheduled ≠ [] → scheduled ≠ []) :
    { c with scheduled }.RetryInvariant :=
  h.congr rfl rfl rfl rfl hscheduled id

theorem RetryInvariant.startRun (c : SessionControl) (messages : List InjectedMessage) :
    (c.startRun messages).RetryInvariant :=
  .of_running rfl rfl (fun hany => (Bool.false_ne_true hany).elim)

end SessionControl

namespace AgentSession

open SessionControl

variable {cfg : SessionConfig} {s : AgentSession}

/-- The condition on a step: a run ends with a response unless its end leaves no promise pending
or a retry is under way; no listener throws on an event that is recorded; and a scheduled
`continue()` that throws leaves no promise pending, or a run or another retry under way. -/
def PairsRetry (cfg : SessionConfig) (s : AgentSession) : SessionAction → Prop
  | .endRun => ∀ r ∈ s.run,
      r.newMessages.any AgentMessage.isAssistant ∨ s.createRetryPromise cfg r.newMessages = false ∨
        s.control.RetryUnderWay
  | .failRun error aborted timestamp => ∀ r ∈ s.run,
      r.newMessages.any AgentMessage.isAssistant ∨
        s.createRetryPromise cfg [.assistant (failureMessage cfg error aborted timestamp)] =
          false ∨ s.control.RetryUnderWay
  | .resumeHandler false =>
    ∀ e ∈ s.handler.event?, ∀ recorded, e.leavesAssistant recorded = recorded
  | .continueAgent reason =>
    let fired := { s with scheduled := s.scheduled.erase reason }
    fired.agentContinue cfg = none → s.retryPromise = false ∨ fired.control.isRunning ∨
      fired.control.RetryUnderWay
  | _ => True

instance (c : SessionControl) : Decidable c.isRunning := by
  unfold isRunning
  infer_instance

instance (c : SessionControl) : Decidable c.RetryUnderWay := by
  unfold RetryUnderWay
  infer_instance

instance (s : AgentSession) (a : SessionAction) : Decidable (PairsRetry cfg s a) := by
  unfold PairsRetry
  split <;> infer_instance

theorem retryInvariant_opened (entries : List SessionEntry) :
    (opened entries).control.RetryInvariant :=
  ⟨fun h => (Bool.false_ne_true h).elim, fun _ h => nomatch h⟩

theorem retryInvariant_step {a : SessionAction} {c' : SessionControl}
    (h : s.control.RetryInvariant) (hok : PairsRetry cfg s a) (hs : ControlStep cfg s a c') :
    c'.RetryInvariant := by
  cases hs with
  | startInjection hrun hended hpending => exact h.emitOther hrun hended hended rfl rfl
  | endInjection hrun hended hopened => exact h.emitMessage hrun hended hended rfl
  | endMessage message hrun hgo =>
    have hended := mayGoOn_not_ended hgo
    exact h.emitMessage hrun hended hended rfl
  | emitOther hrun hended => exact h.emitOther hrun hended hended rfl rfl
  | poll queue messages hrun hgo =>
    have hended := mayGoOn_not_ended hgo
    exact .of_running rfl hended fun hany => h.recorded _ hrun hended hany
  | endRun hrun hbetween =>
    exact h.emitEnd hrun (betweenMessages_not_ended hbetween) _ (hok _ hrun)
  | failRun error aborted timestamp hrun hbetween =>
    exact h.emitEnd hrun (betweenMessages_not_ended hbetween) _ (hok _ hrun)
  | finishRun hrun hended =>
    refine ⟨?_, fun r hr => nomatch hr⟩
    intro hp
    obtain ⟨r, hr, hended'⟩ | hunderWay := h.awaited hp
    · obtain rfl := Option.some.inj (hrun.symm.trans hr)
      cases hended.symm.trans hended'
    · exact .inr hunderWay
  | @startHandler e rest hidle hqueue =>
    refine h.congr rfl rfl rfl ?_ id ?_
    · change e :: rest = s.control.pendingEvents
      rw [pendingEvents, show s.control.handler = .idle from hidle]
      exact hqueue.symm
    · rw [show s.control.handler = .idle from hidle]
      exact fun hsleeping => nomatch hsleeping
  | @dropEvent e he =>
    have hneutral := hok e (by rw [he]; rfl)
    refine h.handled he rfl rfl rfl rfl (hneutral _).symm ?_
    apply settlesRetry_cons
    rintro messages rfl
    exact (Bool.false_ne_true (hneutral true)).elim
  | @passEvent e he hpassed =>
    have hneutral : ∀ recorded, e.leavesAssistant recorded = recorded := by
      intro recorded
      cases e <;> first | rfl | cases hpassed
    refine h.handled he rfl rfl rfl rfl (hneutral _).symm ?_
    apply settlesRetry_cons
    rintro messages rfl
    cases hpassed
  | @messageEnd m he =>
    obtain ⟨hqueue, hpromise, hscheduled, hlast⟩ := track_rest s.control m.message
    refine h.handled he (track_run s.control m.message) hpromise hscheduled ?_ hlast ?_
    · exact hqueue
    · exact settlesRetry_cons _ _ (fun _ heq => nomatch heq)
  | ignoreEnd he hnone =>
    have hlast : s.control.lastAssistantMessage.isSome = false := by
      rw [show s.control.lastAssistantMessage = none from hnone]
      rfl
    exact h.handled he rfl rfl rfl rfl hlast (settlesRetry_cons _ _ fun _ _ => hlast)
  | retry he hlast hretryable hattempt =>
    refine ⟨fun _ => .inr (.inr (.inl rfl)), ?_⟩
    intro r hr hended hany
    have hrecorded := h.recorded r hr hended hany
    rwa [pendingEvents_extensions he] at hrecorded
  | @settle messages m attempt flag compaction he hlast hattempt houtcome =>
    refine .of_resolved rfl ?_
    intro r hr hended hany
    have hrecorded := h.recorded r hr hended hany
    rw [pendingEvents_extensions he] at hrecorded
    cases compaction <;> exact hrecorded
  | wakeUp hsleeping =>
    refine ⟨fun _ => .inr (.inl (by simp)), ?_⟩
    intro r hr hended hany
    have hrecorded := h.recorded r hr hended hany
    rwa [pendingEvents, show s.control.handler = .sleeping _ _ from hsleeping] at hrecorded
  | @wakeAborted m flag compaction hsleeping houtcome =>
    refine .of_resolved rfl ?_
    intro r hr hended hany
    have hrecorded := h.recorded r hr hended hany
    rw [pendingEvents, show s.control.handler = .sleeping _ _ from hsleeping] at hrecorded
    cases compaction <;> exact hrecorded
  | failCompaction hx => exact h.setCompaction rfl hx none
  | saveCompaction data hx => exact h.setCompaction rfl hx _
  | overflowCompacted hx =>
    exact (h.schedule _ (by simp)).setCompaction (s := s) rfl hx none
  | thresholdCompacted hx hscheduled =>
    refine RetryInvariant.setCompaction (s := s) (h.schedule _ ?_) rfl hx none
    obtain rfl | rfl := hscheduled
    · exact id
    · simp
  | continueStarts messages hmem hrun => exact .startRun _ _
  | continueThrows hmem hthrows =>
    refine ⟨?_, h.recorded⟩
    intro hp
    refine (hok hthrows).elim (fun hfalse => ?_) id
    exact (Bool.false_ne_true (hfalse.symm.trans hp)).elim
  | checkPrompt hrun houtcome => exact h.congr rfl rfl rfl rfl id id
  | buildPrompt timestamp messages hprompt => exact h.congr rfl rfl rfl rfl id id
  | submitStarts extensionMessages pendingMessages hprompt hrun => exact .startRun _ _
  | submitThrows extensionMessages hprompt hrun => exact h.congr rfl rfl rfl rfl id id
  | triggerTurn message deliverAs pendingMessages hrun => exact .startRun _ _
  | quiet hcall => exact h
  | abortRetry =>
    refine .of_resolved rfl ?_
    intro r hr hended hany
    have hrecorded : leavesAssistant s.lastAssistantMessage.isSome
        (s.handler.event?.toList ++ s.agentEventQueue) = true := h.recorded r hr hended hany
    have hevent : s.handler.abortSleep.event? = s.handler.event? := by
      cases s.handler <;> rfl
    rw [← hevent] at hrecorded
    exact hrecorded

/-- A session whose runs end with a response, or without one while no promise is pending, never
comes to rest with the retry promise pending. -/
theorem noStuckRetry {entries : List SessionEntry} {steps : List SessionStep}
    (h : Runs cfg (PairsRetry cfg) (opened entries) steps s) (hquiet : s.Quiescent) :
    s.retryPromise = false := by
  have hinvariant : s.control.RetryInvariant :=
    h.induct (P := fun _ s => s.control.RetryInvariant) (retryInvariant_opened _)
      (fun _ _ _ _ hi hok hs => retryInvariant_step hi hok (control_step hs))
  by_contra hp
  have hp : s.control.retryPromise = true := Bool.of_not_eq_false hp
  obtain ⟨r, hr, -⟩ | hs | hs | hs := hinvariant.awaited hp
  · cases hquiet.run.symm.trans hr
  · exact hs hquiet.scheduled
  · rw [show s.control.handler = .idle from hquiet.handler] at hs
    cases hs
  · have hevents : s.control.pendingEvents = [] := by
      rw [pendingEvents, show s.control.handler = .idle from hquiet.handler]
      exact hquiet.agentEventQueue
    rw [hevents] at hs
    cases hs

/-- A prompt that is answered with an error, and whose retry is aborted while it sleeps. -/
def abortedRetry : List SessionAction :=
  promptActions "Hi" 0 ++
    [.endMessage (.assistant (response smallConfig .error (some "overloaded") 0 1)), .endRun,
      .finishRun] ++ handleEvents 6 ++ [.abortRetry, .wakeHandler]

theorem noStuckRetry_abortedRetry :
    ∃ steps s, (Runs smallConfig (PairsRetry smallConfig) (opened []) steps s ∧
      steps.map SessionStep.action = abortedRetry ∧ s.Quiescent) ∧ s.retryPromise = false := by
  obtain ⟨steps, s, hruns, hactions, hquiet⟩ := exists_run_of_play smallConfig
    (PairsRetry smallConfig) (opened []) abortedRetry
    (fun steps s => steps.map SessionStep.action = abortedRetry ∧ s.Quiescent) (by decide +kernel)
  exact ⟨steps, s, ⟨hruns, hactions, hquiet⟩, noStuckRetry hruns hquiet⟩

def failedPrompt : List SessionAction :=
  promptActions "Hi" 0 ++ [.failRun "fetch failed" false 1, .finishRun] ++ handleEvents 5

/-- The promise of that prompt is never resolved. -/
theorem failedPrompt_stuck :
    ¬∀ (cfg : SessionConfig) (entries : List SessionEntry) (steps : List SessionStep)
      (s : AgentSession), Runs cfg (fun _ _ => True) (opened entries) steps s → s.Quiescent →
        s.retryPromise = false := by
  intro h
  obtain ⟨steps, s, hruns, hquiet, hpending⟩ := exists_run_of_play smallConfig (fun _ _ => True)
    (opened []) failedPrompt (fun _ s => s.Quiescent ∧ s.retryPromise = true) (by decide +kernel)
  exact Bool.false_ne_true ((h _ _ _ _ hruns hquiet).symm.trans hpending)

end AgentSession

end Draht
