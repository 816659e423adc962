import Draht.SessionRetry

/-!
# Bounded recovery

How many calls of `agent.continue()` a session makes on its own between two prompts. A retry is
counted by `_retryAttempt`, the recovery from an overflow by its flag; both are reset by events
that are handled later than they are emitted. A prompt that is made while the session is at rest
starts a single chain of runs, in which each call but those for queued messages is paid for by the
counter or by the flag.
-/

namespace Draht
open List Option

namespace SessionAction

/-- Input of the user that reaches the agent, or a successful response. -/
def isAnswer : SessionAction → Bool
  | .startInjection { message := .user _, .. } => true
  | .endMessage (.assistant m) => !m.failed
  | _ => false

/-- From here on the recoveries are counted anew: also from a `continue()` that delivers queued
messages after a compaction. -/
def startsAnew : SessionAction → Bool
  | .continueAgent .queued => true
  | a => a.isAnswer

def startsTurn : SessionAction → Bool
  | .submitPrompt .. => true
  | .sendCustomMessage _ triggerTurn deliverAs => triggerTurn && deliverAs ≠ some .nextTurn
  | _ => false

/-- The calls of `agent.continue()` counted after `a`, if `n` are counted before it. -/
def countContinue (resets : SessionAction → Bool) (n : ℕ) (a : SessionAction) : ℕ :=
  if resets a then 0
  else
    match a with
    | .continueAgent _ => n + 1
    | _ => n

end SessionAction

/-- The calls of `agent.continue()` since the last step that `resets` the count. -/
def continuations (resets : SessionAction → Bool) (steps : List AgentSession.SessionStep) : ℕ :=
  steps.foldl (fun n t => t.action.countContinue resets n) 0

theorem continuations_concat (resets : SessionAction → Bool) (steps : List AgentSession.SessionStep)
    (t : AgentSession.SessionStep) : continuations resets (steps ++ [t]) =
      t.action.countContinue resets (continuations resets steps) :=
  foldl_concat _ _ _ _

namespace SessionEvent

def isEnd : SessionEvent → Bool
  | .agentEnd _ => true
  | _ => false

def isResponse : SessionEvent → Bool
  | .messageEnd m => m.message.isAssistant
  | _ => false

def isAborted : SessionEvent → Bool
  | .messageEnd { message := .assistant m, .. } => m.stopReason = .aborted
  | _ => false

/-- The start of a user message or the end of a successful response. -/
def isAnswer : SessionEvent → Bool
  | .messageEnd { message := .assistant m, .. } => !m.failed
  | e => e.startsUser

end SessionEvent

namespace EventHandler

def isWaiting : EventHandler → Bool
  | .sleeping _ _ => true
  | .compacting _ => true
  | _ => false

/-- The handler is on the way to a retry or to the recovery from an overflow. -/
def isRecovering : EventHandler → Bool
  | .sleeping _ _ => true
  | .compacting { reason := .overflow, .. } => true
  | _ => false

end EventHandler

def PromptCall.compaction? : PromptCall → Option AutoCompaction
  | .checking _ compaction => compaction
  | .prepared _ => none

namespace SessionControl

open AgentSession

variable (c : SessionControl)

def running : Bool := c.run.any fun r => !r.ended

def live : ℕ := c.running.toNat + c.pendingEvents.countP SessionEvent.isEnd

def waits : ℕ := c.handler.isWaiting.toNat + c.scheduled.length

/-- The retries and recoveries that will call `agent.continue()`. -/
def outstanding : ℕ := c.handler.isRecovering.toNat + c.scheduled.countP (· ≠ .queued)

def spent : ℕ := c.retryAttempt + c.overflowRecoveryAttempted.toNat

structure Doomed : Prop where
  live : c.live = 1
  last : ∃ m, c.lastAssistantMessage = some m ∧ m.stopReason = .aborted
  events : ∀ e ∈ c.pendingEvents, e.isResponse = false
  run : ∀ r, c.run = some r → r.ended = false → closed r = true

/-- `n` calls are counted. There is a single run, wait or timer at a time, and what is counted or
still to come is paid for, except where no recovery can follow. -/
structure RecoveryInvariant (cfg : SessionConfig) (n : ℕ) : Prop where
  attempt : c.retryAttempt ≤ cfg.maxRetries
  count : n ≤ cfg.maxRetries + 1
  single : c.live + c.waits ≤ 1
  prompts : ∀ p ∈ c.prompts, p.compaction? = none
  sleeping : ∀ m aborted, c.handler = .sleeping m aborted →
    isRetryableError m cfg.contextWindow = true
  closed : ∀ r, c.run = some r → r.ended = false → closed r = true →
    r.pendingMessages = [] ∧ r.opened = none
  events : c.pendingEvents ≠ [] → c.live = 1
  order : c.pendingEvents.Pairwise fun e e' =>
    e.isEnd = false ∧ ¬(e.isAborted = true ∧ e'.isResponse = true)
  answer : ∀ e ∈ c.pendingEvents, e.isAnswer = true → n = 0
  aborted : ∀ e ∈ c.pendingEvents, e.isAborted = true → ∀ r, c.run = some r → r.ended = false →
    AgentSession.closed r = true
  balance : c.live + c.outstanding = 0 ∨ n + c.outstanding ≤ c.spent ∨ c.Doomed

variable {c} {cfg : SessionConfig} {n : ℕ}

theorem outstanding_le_waits : c.outstanding ≤ c.waits := by
  have hhandler : c.handler.isRecovering.toNat ≤ c.handler.isWaiting.toNat := by
    cases c.handler with
    | compacting x => exact Bool.toNat_le _
    | _ => exact le_rfl
  have hscheduled := countP_le_length (p := fun r => r ≠ .queued) (l := c.scheduled)
  unfold outstanding waits
  omega

variable {r : SessionRun}

theorem running_of_run (hrun : c.run = some r) (hended : r.ended = false) : c.running = true := by
  simp [running, hrun, hended]

theorem ended_of_not_running (h : c.running = false) (hrun : c.run = some r) : r.ended = true := by
  simpa [running, hrun] using h

theorem RecoveryInvariant.of_ended (hrunning : c.running = false) (hevents : c.pendingEvents = [])
    (hattempt : c.retryAttempt ≤ cfg.maxRetries) (hcount : n ≤ cfg.maxRetries + 1)
    (hwaiting : c.waits ≤ 1) (hprompts : ∀ p ∈ c.prompts, p.compaction? = none)
    (hsleeping : ∀ m aborted, c.handler = .sleeping m aborted →
      isRetryableError m cfg.contextWindow = true)
    (hbalance : c.outstanding = 0 ∨ n + c.outstanding ≤ c.spent) :
    c.RecoveryInvariant cfg n := by
  have hlive : c.live = 0 := by simp [live, hrunning, hevents]
  have hended : ∀ r, c.run = some r → r.ended = false → False := by
    intro r hr hended
    cases (ended_of_not_running hrunning hr).symm.trans hended
  refine ⟨hattempt, hcount, by omega, hprompts, hsleeping, ?_, ?_, ?_, ?_, ?_, ?_⟩
  · intro r hr hgoing
    exact (hended r hr hgoing).elim
  · exact fun hne => (hne hevents).elim
  · rw [hevents]
    exact Pairwise.nil
  · rw [hevents]
    exact fun e he => (not_mem_nil he).elim
  · rw [hevents]
    exact fun e he => (not_mem_nil he).elim
  · omega

namespace RecoveryInvariant

variable (h : c.RecoveryInvariant cfg n)

include h

theorem ended_of_waits (hwaiting : 0 < c.waits) :
    c.running = false ∧ c.pendingEvents = [] ∧ c.waits = 1 ∧
      (c.outstanding = 0 ∨ n + c.outstanding ≤ c.spent) := by
  have hsingle := h.single
  have hlive : c.live = 0 := by omega
  have hrunning : c.running = false := by
    unfold live at hlive
    exact Bool.toNat_eq_zero.mp (by omega)
  have hevents : c.pendingEvents = [] := by
    by_contra hne
    have := h.events hne
    omega
  refine ⟨hrunning, hevents, by omega, ?_⟩
  obtain hzero | hpaid | hdoomed := h.balance
  · exact .inl (by omega)
  · exact .inr hpaid
  · have := hdoomed.live
    omega

theorem paid_of_live (hlive : c.live = 1) :
    c.waits = 0 ∧ c.outstanding = 0 ∧ (n ≤ c.spent ∨ c.Doomed) := by
  have hsingle := h.single
  have hle := outstanding_le_waits (c := c)
  refine ⟨by omega, by omega, ?_⟩
  obtain hzero | hpaid | hdoomed := h.balance
  · omega
  · exact .inl (by omega)
  · exact .inr hdoomed

variable {c' : SessionControl} {messages : List AgentMessage} {e : SessionEvent} {r : SessionRun}
  {reason : ContinueReason}

theorem live_of_run (hrun : c.run = some r) (hended : r.ended = false) :
    c.live = 1 ∧ c.pendingEvents.countP SessionEvent.isEnd = 0 := by
  have hsingle := h.single
  have hrunning := running_of_run hrun hended
  simp only [live, hrunning, Bool.toNat_true] at hsingle ⊢
  omega

theorem live_of_handling (he : c.handler = .extensions e) : c.live = 1 := by
  apply h.events
  rw [pendingEvents_extensions he]
  exact cons_ne_nil _ _

theorem ended_of_handling (he : c.handler = .extensions (.agentEnd messages)) :
    c.running = false ∧ c.agentEventQueue = [] ∧ c.scheduled = [] ∧
      (n ≤ c.spent ∨ ∃ m, c.lastAssistantMessage = some m ∧ m.stopReason = .aborted) := by
  have hpending := pendingEvents_extensions he
  have hlive := h.live_of_handling he
  obtain ⟨hwaiting, -, hpaid⟩ := h.paid_of_live hlive
  refine ⟨?_, ?_, ?_, hpaid.imp_right Doomed.last⟩
  · rw [live, hpending, countP_cons_of_pos (by rfl)] at hlive
    exact Bool.toNat_eq_zero.mp (by omega)
  · have horder := h.order
    rw [hpending] at horder
    refine eq_nil_iff_forall_not_mem.mpr fun e hmem => ?_
    cases ((pairwise_cons.mp horder).1 e hmem).1
  · exact eq_nil_of_length_eq_zero (by unfold waits at hwaiting; omega)

theorem emit {r' : SessionRun} {promise : Bool} {n' : ℕ} (hrun : c.run = some r)
    (hended : r.ended = false) (hend : e.isEnd = r'.ended) (hn : n' = n ∨ n' = 0)
    (hanswer : e.isAnswer = true → n' = 0)
    (hempty : r'.ended = false → AgentSession.closed r' = true →
      r'.pendingMessages = [] ∧ r'.opened = none) (hclosed : AgentSession.closed r = true →
      e.isResponse = false ∧ AgentSession.closed r' = true)
    (haborted : e.isAborted = true → r'.ended = false → AgentSession.closed r' = true) :
    { c.emit r' e with retryPromise := promise }.RecoveryInvariant cfg n' := by
  obtain ⟨hlive, hends⟩ := h.live_of_run hrun hended
  obtain ⟨hwaiting, houtstanding, hpaid⟩ := h.paid_of_live hlive
  have hevents : { c.emit r' e with retryPromise := promise }.pendingEvents =
      c.pendingEvents ++ [e] := pendingEvents_emit (c := c) r' e
  have hlive' : { c.emit r' e with retryPromise := promise }.live = 1 := by
    rw [live, hevents, countP_append, hends, countP_singleton, hend]
    change (!r'.ended).toNat + _ = 1
    cases r'.ended <;> rfl
  have hrun' : ∀ r'', { c.emit r' e with retryPromise := promise }.run = some r'' → r'' = r' :=
    fun r'' hr => (some.inj hr).symm
  have hcount := h.count
  refine ⟨h.attempt, by omega, ?_, h.prompts, h.sleeping, ?_, fun _ => hlive', ?_, ?_, ?_, ?_⟩
  · rw [hlive']
    exact Nat.add_le_add_left (Nat.le_of_eq hwaiting) 1
  · intro r'' hr hgoing
    rw [hrun' r'' hr] at hgoing ⊢
    exact hempty hgoing
  · rw [hevents, pairwise_append]
    refine ⟨h.order, pairwise_singleton _ _, fun a ha b hb => ?_⟩
    obtain rfl := mem_singleton.mp hb
    refine ⟨by simpa using countP_eq_zero.mp hends a ha, fun hboth => ?_⟩
    have hresponse := (hclosed (h.aborted a ha hboth.1 r hrun hended)).1
    exact Bool.false_ne_true (hresponse.symm.trans hboth.2)
  · rw [hevents]
    intro a ha hanswer'
    obtain hmem | hmem := mem_append.mp ha
    · have := h.answer a hmem hanswer'
      omega
    · obtain rfl := mem_singleton.mp hmem
      exact hanswer hanswer'
  · rw [hevents]
    intro a ha haborted' r'' hr hgoing
    rw [hrun' r'' hr] at hgoing ⊢
    obtain hmem | hmem := mem_append.mp ha
    · exact (hclosed (h.aborted a hmem haborted' r hrun hended)).2
    · obtain rfl := mem_singleton.mp hmem
      exact haborted haborted' hgoing
  · obtain hle | hdoomed := hpaid
    · refine .inr (.inl ?_)
      change n' + c.outstanding ≤ c.spent
      omega
    · have hdone := hclosed (hdoomed.run r hrun hended)
      refine .inr (.inr ⟨hlive', hdoomed.last, ?_, ?_⟩)
      · rw [hevents]
        intro a ha
        obtain hmem | hmem := mem_append.mp ha
        · exact hdoomed.events a hmem
        · obtain rfl := mem_singleton.mp hmem
          exact hdone.1
      · intro r'' hr _
        rw [hrun' r'' hr]
        exact hdone.2

theorem handled (he : c.handler = .extensions e) (hend : e.isEnd = false) (hrun : c'.run = c.run)
    (hhandler : c'.handler = .idle) (hqueue : c'.agentEventQueue = c.agentEventQueue)
    (hscheduled : c'.scheduled = c.scheduled) (hprompts : c'.prompts = c.prompts)
    (hattempt : c'.retryAttempt ≤ cfg.maxRetries) (hbalance : n ≤ c'.spent ∨
      (∃ m, c'.lastAssistantMessage = some m ∧ m.stopReason = .aborted) ∧
        (∀ e' ∈ c.agentEventQueue, e'.isResponse = false) ∧
        ∀ r, c.run = some r → r.ended = false → AgentSession.closed r = true) :
    c'.RecoveryInvariant cfg n := by
  have hpending := pendingEvents_extensions he
  have hlive := h.live_of_handling he
  obtain ⟨hwaiting, -, -⟩ := h.paid_of_live hlive
  have hpending' : c'.pendingEvents = c.agentEventQueue := by
    rw [pendingEvents, hhandler, hqueue]
    rfl
  have hlive' : c'.live = 1 := by
    rw [live, running, hrun, hpending', ← hlive, live, running, hpending,
      countP_cons_of_neg (by simp [hend])]
  have hwaiting' : c'.waits = 0 := by
    unfold waits at hwaiting ⊢
    rw [hhandler, hscheduled]
    change 0 + c.scheduled.length = 0
    omega
  have houtstanding := outstanding_le_waits (c := c')
  have hmem : ∀ e' ∈ c'.pendingEvents, e' ∈ c.pendingEvents := by
    rw [hpending', hpending]
    exact fun e' he' => mem_cons_of_mem _ he'
  have horder := h.order
  rw [hpending] at horder
  refine ⟨hattempt, h.count, by omega, ?_, ?_, ?_, fun _ => hlive', ?_, ?_, ?_, ?_⟩
  · rw [hprompts]
    exact h.prompts
  · intro m aborted hsleeping
    rw [hhandler] at hsleeping
    cases hsleeping
  · rw [hrun]
    exact h.closed
  · rw [hpending']
    exact (pairwise_cons.mp horder).2
  · exact fun e' he' => h.answer e' (hmem e' he')
  · rw [hrun]
    exact fun e' he' => h.aborted e' (hmem e' he')
  · obtain hle | ⟨hlast, hresponses, hclosed⟩ := hbalance
    · exact .inr (.inl (by omega))
    · refine .inr (.inr ⟨hlive', hlast, ?_, ?_⟩)
      · rw [hpending']
        exact hresponses
      · rw [hrun]
        exact hclosed

theorem handled_quietly (he : c.handler = .extensions e) (hend : e.isEnd = false)
    (hc' : c' = { c with handler := .idle }) : c'.RecoveryInvariant cfg n := by
  subst hc'
  obtain ⟨-, -, hpaid⟩ := h.paid_of_live (h.live_of_handling he)
  refine h.handled he hend rfl rfl rfl rfl rfl h.attempt (hpaid.imp_right fun hdoomed => ?_)
  refine ⟨hdoomed.last, fun e' he' => hdoomed.events e' ?_, hdoomed.run⟩
  rw [pendingEvents_extensions he]
  exact mem_cons_of_mem _ he'

theorem endIgnored (he : c.handler = .extensions (.agentEnd messages)) :
    { c with handler := .idle }.RecoveryInvariant cfg n := by
  obtain ⟨hrunning, hqueue, hscheduled, -⟩ := h.ended_of_handling he
  have hwaiting : { c with handler := .idle }.waits = 0 := by
    simp [waits, EventHandler.isWaiting, hscheduled]
  have houtstanding := outstanding_le_waits (c := { c with handler := .idle })
  exact .of_ended hrunning hqueue h.attempt h.count (by omega) h.prompts
    (fun _ _ heq => nomatch heq) (.inl (by omega))

theorem track {m : SessionMessage} (he : c.handler = .extensions (.messageEnd m)) :
    { c.track m.message with handler := .idle }.RecoveryInvariant cfg n := by
  have hpending := pendingEvents_extensions he
  have hhead : SessionEvent.messageEnd m ∈ c.pendingEvents := by
    rw [hpending]
    exact mem_cons_self
  obtain ⟨-, -, hpaid⟩ := h.paid_of_live (h.live_of_handling he)
  obtain ⟨serial, message⟩ := m
  cases message with
  | assistant m =>
    by_cases herror : m.stopReason = .error
    · -- The error is recorded; a run that was aborted has no such response any more.
      have htrack : c.track (.assistant m) = { c with lastAssistantMessage := some m } := by
        simp [SessionControl.track, herror]
      have hle : n ≤ c.spent := by
        refine hpaid.resolve_right fun hdoomed => ?_
        exact Bool.false_ne_true (hdoomed.events _ hhead).symm
      simp only [htrack]
      exact h.handled he rfl rfl rfl rfl rfl rfl h.attempt (.inl hle)
    · have htrack : c.track (.assistant m) =
          { c with
            lastAssistantMessage := some m, overflowRecoveryAttempted := false
            retryAttempt := 0 } := by
        simp [SessionControl.track, herror]
      simp only [htrack]
      refine h.handled he rfl rfl rfl rfl rfl rfl (Nat.zero_le _) ?_
      by_cases haborted : m.stopReason = .aborted
      · have habortedHead :
            (SessionEvent.messageEnd ⟨serial, .assistant m⟩).isAborted = true := by
          simp [SessionEvent.isAborted, haborted]
        have horder := h.order
        rw [hpending] at horder
        refine .inr ⟨⟨m, rfl, haborted⟩, fun e' he' => ?_, h.aborted _ hhead habortedHead⟩
        have hnot := ((pairwise_cons.mp horder).1 e' he').2
        exact Bool.eq_false_iff.mpr fun hresponse => hnot ⟨habortedHead, hresponse⟩
      · have hzero := h.answer _ hhead
          (by simp [SessionEvent.isAnswer, AssistantMessage.failed, herror, haborted])
        exact .inl (by omega)
  | _ => exact h.handled_quietly he rfl rfl

/-- A step that leaves runs, events, waits and timers alone; a flag may be reset by the start of a
user message, before which nothing is counted. -/
theorem congr (hrun : ∀ r, c'.run = some r → r.ended = false → c.run = some r)
    (hrunning : c'.running = c.running) (hevents : c'.pendingEvents = c.pendingEvents)
    (hwaiting : c'.waits = c.waits) (houtstanding : c'.outstanding = c.outstanding)
    (hprompts : ∀ p ∈ c'.prompts, p.compaction? = none)
    (hsleeping : ∀ m aborted, c'.handler = .sleeping m aborted →
      ∃ aborted', c.handler = .sleeping m aborted') (hattempt : c'.retryAttempt = c.retryAttempt)
    (hlast : c'.lastAssistantMessage = c.lastAssistantMessage)
    (hspent : n + c.outstanding ≤ c.spent → n + c.outstanding ≤ c'.spent) :
    c'.RecoveryInvariant cfg n := by
  have hlive : c'.live = c.live := by rw [live, live, hrunning, hevents]
  refine ⟨hattempt ▸ h.attempt, h.count, ?_, hprompts, ?_, ?_, ?_, ?_, ?_, ?_, ?_⟩
  · rw [hlive, hwaiting]
    exact h.single
  · intro m aborted hm
    obtain ⟨aborted', hm'⟩ := hsleeping m aborted hm
    exact h.sleeping m aborted' hm'
  · exact fun r hr hended => h.closed r (hrun r hr hended) hended
  · rw [hevents, hlive]
    exact h.events
  · rw [hevents]
    exact h.order
  · rw [hevents]
    exact h.answer
  · rw [hevents]
    exact fun e he haborted r hr hended => h.aborted e he haborted r (hrun r hr hended) hended
  · rw [hlive, houtstanding]
    refine h.balance.imp_right (Or.imp hspent fun hdoomed => ?_)
    refine ⟨hlive ▸ hdoomed.live, hlast ▸ hdoomed.last, hevents ▸ hdoomed.events, ?_⟩
    exact fun r hr hended => hdoomed.run r (hrun r hr hended) hended

theorem waited (hpos : 0 < c.waits) (hrun : c'.run = c.run)
    (hqueue : c'.agentEventQueue = c.agentEventQueue) (hevent : c'.handler.event? = none)
    (hawake : c'.handler.isSleeping = false) (hprompts : c'.prompts = c.prompts)
    (hattempt : c'.retryAttempt = c.retryAttempt)
    (hflag : c'.overflowRecoveryAttempted = c.overflowRecoveryAttempted)
    (hwaiting : c'.waits ≤ c.waits) (houtstanding : c'.outstanding ≤ c.outstanding) :
    c'.RecoveryInvariant cfg n := by
  obtain ⟨hrunning, hevents, hone, hbalance⟩ := h.ended_of_waits hpos
  have hspent : c'.spent = c.spent := by rw [spent, spent, hattempt, hflag]
  refine .of_ended ?_ ?_ (hattempt ▸ h.attempt) h.count (by omega) (hprompts ▸ h.prompts) ?_ ?_
  · rw [running, hrun]
    exact hrunning
  · rw [pendingEvents, hevent, hqueue]
    exact (append_eq_nil_iff.mp hevents).2
  · intro m aborted hm
    rw [hm] at hawake
    cases hawake
  · omega

theorem fired (hmem : reason ∈ c.scheduled) :
    c.running = false ∧ c.pendingEvents = [] ∧
      { c with scheduled := c.scheduled.erase reason }.waits = 0 ∧
      (SessionAction.continueAgent reason).countContinue SessionAction.startsAnew n ≤ c.spent := by
  have hlength := length_pos_of_mem hmem
  obtain ⟨hrunning, hevents, hone, hbalance⟩ := h.ended_of_waits (by unfold waits; omega)
  have hwaiting : { c with scheduled := c.scheduled.erase reason }.waits = 0 := by
    simp only [waits, length_erase_of_mem hmem] at hone ⊢
    omega
  refine ⟨hrunning, hevents, hwaiting, ?_⟩
  by_cases hqueued : reason = .queued
  · subst hqueued
    exact Nat.zero_le _
  · have hpos : 0 < c.scheduled.countP fun r => r ≠ .queued :=
      countP_pos_iff.mpr ⟨reason, hmem, by simpa using hqueued⟩
    have hcounted : (SessionAction.continueAgent reason).countContinue
        SessionAction.startsAnew n = n + 1 := by
      cases reason <;> first | rfl | exact (hqueued rfl).elim
    unfold outstanding at hbalance
    omega

omit h

theorem of_startRun (hevents : c.pendingEvents = []) (hwaiting : c.waits = 0)
    (hattempt : c.retryAttempt ≤ cfg.maxRetries) (hcount : n ≤ c.spent)
    (hprompts : ∀ p ∈ c.prompts, p.compaction? = none) (messages : List InjectedMessage) :
    (c.startRun messages).RecoveryInvariant cfg n := by
  have hspent : c.spent ≤ cfg.maxRetries + 1 := by
    have := Bool.toNat_le c.overflowRecoveryAttempted
    unfold spent
    omega
  have houtstanding := outstanding_le_waits (c := c)
  have hevents' : (c.startRun messages).pendingEvents = [] := hevents
  have hlive : (c.startRun messages).live = 1 := by
    rw [live, hevents']
    rfl
  refine ⟨hattempt, by omega, ?_, hprompts, ?_, ?_, fun _ => hlive, ?_, ?_, ?_, ?_⟩
  · rw [hlive]
    exact Nat.add_le_add_left (Nat.le_of_eq hwaiting) 1
  · intro m aborted hm
    have hsleeping : c.handler = .sleeping m aborted := hm
    rw [waits, hsleeping] at hwaiting
    exact absurd hwaiting (by simp [EventHandler.isWaiting])
  · intro r hr _ hclosed
    cases hr
    cases hclosed
  · rw [hevents']
    exact Pairwise.nil
  · rw [hevents']
    exact fun e he => (not_mem_nil he).elim
  · rw [hevents']
    exact fun e he => (not_mem_nil he).elim
  · refine .inr (.inl ?_)
    change n + c.outstanding ≤ c.spent
    omega

theorem of_settled {m : AssistantMessage} {flag : Bool} {compaction : Option AutoCompaction}
    (hrunning : c.running = false) (hqueue : c.agentEventQueue = []) (hscheduled : c.scheduled = [])
    (hattempt : c.retryAttempt ≤ cfg.maxRetries) (hcount : n ≤ cfg.maxRetries + 1)
    (hprompts : ∀ p ∈ c.prompts, p.compaction? = none)
    (houtcome : CheckOutcome cfg m true c.overflowRecoveryAttempted flag compaction)
    (hpaid : isContextOverflow m cfg.contextWindow = true → n ≤ c.spent) :
    (c.settle flag compaction).RecoveryInvariant cfg n := by
  have hevents : (c.settle flag compaction).pendingEvents = [] := by
    cases compaction <;> exact hqueue
  have hlength : c.scheduled.length = 0 := by rw [hscheduled]; rfl
  refine .of_ended hrunning hevents hattempt hcount ?_ hprompts ?_ ?_
  · have := Bool.toNat_le (c.settle flag compaction).handler.isWaiting
    change (c.settle flag compaction).handler.isWaiting.toNat + c.scheduled.length ≤ 1
    omega
  · intro m aborted hm
    cases compaction <;> cases hm
  · have hcalls : c.scheduled.countP (fun r => r ≠ .queued) = 0 := by rw [hscheduled]; rfl
    generalize hflag : c.overflowRecoveryAttempted = before at houtcome
    cases houtcome with
    | none =>
      refine .inl ?_
      change 0 + c.scheduled.countP (fun r => r ≠ .queued) = 0
      omega
    | threshold =>
      refine .inl ?_
      change 0 + c.scheduled.countP (fun r => r ≠ .queued) = 0
      omega
    | overflow hoverflow =>
      have hle := hpaid hoverflow
      rw [spent, hflag] at hle
      refine .inr ?_
      change n + (1 + c.scheduled.countP fun r => r ≠ .queued) ≤ c.retryAttempt + 1
      change n ≤ c.retryAttempt + 0 at hle
      omega

theorem continued (h : c.RecoveryInvariant cfg n) (hmem : reason ∈ c.scheduled)
    (messages : List InjectedMessage) :
    { c with scheduled := c.scheduled.erase reason }.RecoveryInvariant cfg
        ((SessionAction.continueAgent reason).countContinue SessionAction.startsAnew n) ∧
      ({ c with scheduled := c.scheduled.erase reason }.startRun messages).RecoveryInvariant cfg
        ((SessionAction.continueAgent reason).countContinue SessionAction.startsAnew n) := by
  obtain ⟨hrunning, hevents, hwaiting, hpaid⟩ := h.fired hmem
  have hstarted := of_startRun (c := { c with scheduled := c.scheduled.erase reason }) hevents
    hwaiting h.attempt hpaid h.prompts messages
  have houtstanding := outstanding_le_waits (c := { c with scheduled := c.scheduled.erase reason })
  exact ⟨.of_ended hrunning hevents h.attempt hstarted.count (by omega) h.prompts
    hstarted.sleeping (.inl (by omega)), hstarted⟩

end RecoveryInvariant

end SessionControl

namespace SessionAction

theorem countContinue_eq (resets : SessionAction → Bool) (n : ℕ) {a : SessionAction}
    (ha : ∀ reason, a ≠ .continueAgent reason) :
    a.countContinue resets n = n ∨ a.countContinue resets n = 0 := by
  unfold countContinue
  split_ifs
  · exact .inr rfl
  · split
    · exact (ha _ rfl).elim
    · exact .inl rfl

theorem countContinue_of_isCall {a : SessionAction} (ha : a.isCall = true) (n : ℕ) :
    a.countContinue startsAnew n = n := by
  cases a <;> first | rfl | cases ha

end SessionAction

namespace AgentSession

open SessionControl

variable {cfg : SessionConfig} {s : AgentSession} {n : ℕ}

/-- The step is no prompt to an agent that is not running, and no message that starts a run. -/
def noPrompt (s : AgentSession) : SessionAction → Bool
  | .prompt .. => s.isStreaming
  | .submitPrompt .. => false
  | .sendCustomMessage _ triggerTurn deliverAs =>
    s.isStreaming || !triggerTurn || deliverAs = some .nextTurn
  | _ => true

/-- The session is quiet, and no prompt waits for a compaction. -/
structure AtRest (s : AgentSession) : Prop where
  quiescent : s.Quiescent
  prompts : ∀ p ∈ s.prompts, p.compaction? = none

instance (s : AgentSession) : Decidable s.AtRest :=
  decidable_of_iff (s.Quiescent ∧ ∀ p ∈ s.prompts, p.compaction? = none)
    ⟨fun h => ⟨h.1, h.2⟩, fun h => ⟨h.1, h.2⟩⟩

theorem not_overflow_of_aborted {m : AssistantMessage} (h : m.stopReason = .aborted)
    (contextWindow : ℕ) : isContextOverflow m contextWindow = false := by
  simp [isContextOverflow, AssistantMessage.errorText, h]

variable {a : SessionAction} {c' : SessionControl} {r : SessionRun}

theorem not_closed_of_mayGoOn (h : mayGoOn r = true) : closed r = false := by
  simp only [mayGoOn, Bool.and_eq_true, Bool.not_eq_true'] at h
  exact h.2

theorem empty_of_betweenMessages (h : betweenMessages r = true) :
    r.pendingMessages = [] ∧ r.opened = none := by
  simp only [betweenMessages, Bool.and_eq_true, List.isEmpty_iff, Option.isNone_iff_eq_none] at h
  exact ⟨h.1.2, h.2⟩

theorem closed_concat (r : SessionRun) (opened : Option InjectedMessage) (m : AgentMessage) :
    closed { r with opened, newMessages := r.newMessages ++ [m] } =
      match m with
      | .assistant m => m.failed
      | _ => false := by
  unfold closed
  rw [getLast?_concat]
  cases m <;> rfl

theorem handler_of_compactionOf (h : s.control.RecoveryInvariant cfg n) {caller : CompactionCaller}
    {x : AutoCompaction} (hx : s.compactionOf caller = some x) :
    caller = .handler ∧ s.handler = .compacting x := by
  cases caller with
  | handler =>
    simp only [compactionOf] at hx
    split at hx
    · rename_i y hy
      cases hx
      exact ⟨rfl, hy⟩
    · cases hx
  | prompt i =>
    simp only [compactionOf] at hx
    split at hx
    · rename_i content compaction hp
      have hnone := h.prompts _ (mem_of_getElem? hp)
      cases hx.symm.trans hnone
    · cases hx

section

variable (h : s.control.RecoveryInvariant cfg n)
include h

variable {r : SessionRun} {m : InjectedMessage}

theorem recoveryInvariant_startInjection {rest : List InjectedMessage} (hrun : s.run = some r)
    (hended : r.ended = false) (hpending : r.pendingMessages = m :: rest) :
    (s.control.emit { r with pendingMessages := rest, opened := some m }
        (.messageStart m)).RecoveryInvariant cfg
      ((SessionAction.startInjection m).countContinue SessionAction.startsAnew n) := by
  have hopen : closed r ≠ true := by
    intro hclosed
    have hnil := (h.closed r hrun hended hclosed).1
    cases hpending.symm.trans hnil
  apply h.emit hrun hended
  · exact hended.symm
  · exact SessionAction.countContinue_eq _ _ (fun _ heq => nomatch heq)
  · intro hanswer
    obtain ⟨queued, message⟩ := m
    cases message with
    | user m => rfl
    | custom m => cases hanswer
  · exact fun _ hclosed => (hopen hclosed).elim
  · exact fun hclosed => (hopen hclosed).elim
  · exact fun haborted => nomatch haborted

theorem recoveryInvariant_endInjection (hrun : s.run = some r) (hended : r.ended = false)
    (hopened : r.opened = some m) :
    (s.control.emit
        { r with opened := none, newMessages := r.newMessages ++ [m.message.toAgentMessage] }
        (.messageEnd { serial := s.nextSerial, message := m.message.toAgentMessage })
      ).RecoveryInvariant cfg n := by
  have hopen : closed r ≠ true := by
    intro hclosed
    have hnone := (h.closed r hrun hended hclosed).2
    cases hopened.symm.trans hnone
  have hopen' : closed
      { r with opened := none, newMessages := r.newMessages ++ [m.message.toAgentMessage] } =
        false := by
    rw [closed_concat]
    cases m.message <;> rfl
  apply h.emit hrun hended
  · exact hended.symm
  · exact .inl rfl
  · intro hanswer
    cases hm : m.message <;> rw [hm] at hanswer <;> cases hanswer
  · exact fun _ hclosed => nomatch hopen'.symm.trans hclosed
  · exact fun hclosed => (hopen hclosed).elim
  · intro haborted
    cases hm : m.message <;> rw [hm] at haborted <;> cases haborted

theorem recoveryInvariant_endMessage (message : OwnMessage) (hrun : s.run = some r)
    (hgo : mayGoOn r = true) :
    (s.control.emit
        { r with opened := none, newMessages := r.newMessages ++ [message.toAgentMessage] }
        (.messageEnd { serial := s.nextSerial, message := message.toAgentMessage })
      ).RecoveryInvariant cfg
      ((SessionAction.endMessage message).countContinue SessionAction.startsAnew n) := by
  have hended := mayGoOn_not_ended hgo
  have hopen := not_closed_of_mayGoOn hgo
  have hempty := empty_of_betweenMessages (Bool.and_eq_true_iff.mp hgo).1
  apply h.emit hrun hended
  · exact hended.symm
  · exact SessionAction.countContinue_eq _ _ (fun _ heq => nomatch heq)
  · intro hanswer
    cases message with
    | assistant m =>
      have hsucceeded : (SessionAction.endMessage (.assistant m)).startsAnew = true := hanswer
      exact if_pos hsucceeded
    | toolResult m => cases hanswer
  · exact fun _ _ => ⟨hempty.1, rfl⟩
  · exact fun hclosed => nomatch hopen.symm.trans hclosed
  · intro haborted _
    rw [closed_concat]
    cases message with
    | assistant m =>
      have habortedReason : m.stopReason = .aborted := of_decide_eq_true haborted
      simp [OwnMessage.toAgentMessage, AssistantMessage.failed, habortedReason]
    | toolResult m => cases haborted

theorem recoveryInvariant_end (hrun : s.run = some r) (hbetween : betweenMessages r = true)
    (messages : List AgentMessage) (promise : Bool) :
    { s.control.emit { r with ended := true } (.agentEnd messages) with
      retryPromise := promise }.RecoveryInvariant cfg n := by
  apply h.emit hrun (betweenMessages_not_ended hbetween)
  · rfl
  · exact .inl rfl
  · exact fun hanswer => nomatch hanswer
  · exact fun hgoing => nomatch hgoing
  · exact fun hclosed => ⟨rfl, hclosed⟩
  · exact fun haborted => nomatch haborted

theorem recoveryInvariant_poll (hrun : s.run = some r) (hgo : mayGoOn r = true)
    (messages : List InjectedMessage) :
    { s.control with run := some { r with pendingMessages := messages } }.RecoveryInvariant cfg
      n := by
  have hended := mayGoOn_not_ended hgo
  have hopen := not_closed_of_mayGoOn hgo
  have hopen' : closed { r with pendingMessages := messages } ≠ true :=
    fun hclosed => nomatch hopen.symm.trans hclosed
  have hrunning : { s.control with run := some { r with pendingMessages := messages } }.running =
      s.control.running := by
    rw [running_of_run (c := s.control) hrun hended]
    exact running_of_run (r := { r with pendingMessages := messages }) rfl hended
  have hlive : { s.control with run := some { r with pendingMessages := messages } }.live =
      s.control.live := by rw [live, hrunning]; rfl
  refine ⟨h.attempt, h.count, hlive ▸ h.single, h.prompts, h.sleeping, ?_, hlive ▸ h.events,
    h.order, h.answer, ?_, ?_⟩
  · intro r' hr' _ hclosed
    cases hr'
    exact (hopen' hclosed).elim
  · intro e he haborted
    exact nomatch hopen.symm.trans (h.aborted e he haborted r hrun hended)
  · rw [hlive]
    refine h.balance.imp_right (Or.imp_right fun hdoomed => ?_)
    exact nomatch hopen.symm.trans (hdoomed.run r hrun hended)

end

section

variable (h : s.control.RecoveryInvariant cfg n)
include h

variable {compaction : Option AutoCompaction} {flag : Bool} {messages : List AgentMessage}
  {m : AssistantMessage}

theorem recoveryInvariant_agentEnd {attempt : ℕ} (he : s.handler = .extensions (.agentEnd messages))
    (hlast : s.lastAssistantMessage = some m) (hattempt : attempt = s.retryAttempt ∨
      attempt = 0 ∧ isRetryableError m cfg.contextWindow = true)
    (houtcome : CheckOutcome cfg m true s.overflowRecoveryAttempted flag compaction) :
    ({ s.control with lastAssistantMessage := none, retryAttempt := attempt }.settle flag
      compaction).RecoveryInvariant cfg n := by
  obtain ⟨hrunning, hqueue, hscheduled, hpaid⟩ := h.ended_of_handling he
  have hle : attempt ≤ cfg.maxRetries := by
    have : s.retryAttempt ≤ cfg.maxRetries := h.attempt
    omega
  refine .of_settled hrunning hqueue hscheduled hle h.count h.prompts houtcome fun hoverflow => ?_
  -- An overflow is no error to be retried, and the response was not aborted.
  obtain rfl | ⟨-, hretryable⟩ := hattempt
  · refine hpaid.resolve_right ?_
    rintro ⟨m', hm', haborted⟩
    obtain rfl := some.inj (hlast.symm.trans hm')
    cases (not_overflow_of_aborted haborted cfg.contextWindow).symm.trans hoverflow
  · cases (isContextOverflow_of_isRetryableError hretryable).symm.trans hoverflow

theorem recoveryInvariant_retry (he : s.handler = .extensions (.agentEnd messages))
    (hlast : s.lastAssistantMessage = some m)
    (hretryable : isRetryableError m cfg.contextWindow = true)
    (hattempt : s.retryAttempt + 1 ≤ cfg.maxRetries) :
    { s.control with
      lastAssistantMessage := none, retryPromise := true, retryAttempt := s.retryAttempt + 1
      handler := .sleeping m false }.RecoveryInvariant cfg n := by
  obtain ⟨hrunning, hqueue, hscheduled, hpaid⟩ := h.ended_of_handling he
  have hscheduled : s.scheduled = [] := hscheduled
  refine .of_ended hrunning hqueue hattempt h.count ?_ h.prompts ?_ ?_
  · change 1 + s.scheduled.length ≤ 1
    rw [hscheduled]
    exact le_rfl
  · intro m' aborted hm
    obtain ⟨rfl, -⟩ := EventHandler.sleeping.inj hm
    exact hretryable
  · have hle : n ≤ s.control.spent := by
      refine hpaid.resolve_right ?_
      rintro ⟨m', hm', haborted⟩
      obtain rfl := some.inj (hlast.symm.trans hm')
      cases haborted.symm.trans (stopReason_of_isRetryableError hretryable)
    refine .inr ?_
    change n + (1 + s.scheduled.countP fun r => r ≠ .queued) ≤
      s.retryAttempt + 1 + s.overflowRecoveryAttempted.toNat
    change n ≤ s.retryAttempt + s.overflowRecoveryAttempted.toNat at hle
    rw [hscheduled, countP_nil]
    omega

theorem recoveryInvariant_wakeAborted (hm : s.handler = .sleeping m true)
    (houtcome : CheckOutcome cfg m true s.overflowRecoveryAttempted flag compaction) :
    ({ s.control with retryAttempt := 0 }.settle flag compaction).RecoveryInvariant cfg n := by
  have hhandler : s.control.handler = .sleeping m true := hm
  have hpos : s.control.waits = 1 + s.scheduled.length := by
    rw [waits, hhandler]
    rfl
  obtain ⟨hrunning, hevents, hone, -⟩ := h.ended_of_waits (by omega)
  have hqueue := (append_eq_nil_iff.mp hevents).2
  have hscheduled : s.scheduled = [] := eq_nil_of_length_eq_zero (by omega)
  refine .of_settled hrunning hqueue hscheduled (Nat.zero_le _) h.count h.prompts houtcome ?_
  intro hoverflow
  have hretryable := h.sleeping m true hm
  cases (isContextOverflow_of_isRetryableError hretryable).symm.trans hoverflow

theorem recoveryInvariant_startHandler {e : SessionEvent}
    {rest : List SessionEvent} (hidle : s.handler = .idle)
    (hqueue : s.agentEventQueue = e :: rest) :
    { s.control with
      handler := .extensions e, agentEventQueue := rest
      overflowRecoveryAttempted :=
        !e.startsUser && s.overflowRecoveryAttempted }.RecoveryInvariant cfg n := by
  have hhandler : s.control.handler = .idle := hidle
  have hpending : s.control.pendingEvents = e :: rest := by
    rw [pendingEvents, hhandler]
    exact hqueue
  refine h.congr (fun _ hr _ => hr) rfl hpending.symm ?_ ?_ h.prompts ?_ rfl rfl ?_
  · rw [waits, waits, hhandler]
    rfl
  · rw [outstanding, outstanding, hhandler]
    rfl
  · intro m aborted hsleeping
    cases hsleeping
  · intro hle
    by_cases hstarts : e.startsUser = true
    · have hlive := h.events (by rw [hpending]; exact cons_ne_nil _ _)
      have hzero := h.answer e (by rw [hpending]; exact mem_cons_self)
        (by cases e <;> first | exact hstarts | cases hstarts)
      have hnone := (h.paid_of_live hlive).2.1
      omega
    · have hnot : e.startsUser = false := Bool.eq_false_iff.mpr hstarts
      rw [hnot]
      exact hle

theorem recoveryInvariant_abortRetry :
    { s.control with
      retryPromise := false, handler := s.handler.abortSleep }.RecoveryInvariant cfg n := by
  refine h.congr (fun _ hr _ => hr) rfl ?_ ?_ ?_ h.prompts ?_ rfl rfl id
  · change s.handler.abortSleep.event?.toList ++ _ = s.handler.event?.toList ++ _
    cases s.handler <;> rfl
  · change s.handler.abortSleep.isWaiting.toNat + _ = s.handler.isWaiting.toNat + _
    cases s.handler <;> rfl
  · change s.handler.abortSleep.isRecovering.toNat + _ = s.handler.isRecovering.toNat + _
    cases s.handler <;> rfl
  · intro m aborted hm
    change ∃ aborted', s.handler = .sleeping m aborted'
    cases hs : s.handler with
    | sleeping m' b =>
      rw [hs] at hm
      obtain ⟨rfl, -⟩ := EventHandler.sleeping.inj hm
      exact ⟨b, rfl⟩
    | _ =>
      rw [hs] at hm
      cases hm

theorem recoveryInvariant_finishRun {r : SessionRun}
    (hrun : s.run = some r) (hended : r.ended = true) :
    { s.control with run := none }.RecoveryInvariant cfg n := by
  have hrunning : false = s.control.running := by
    simp [running, control, hrun, hended]
  refine h.congr ?_ hrunning rfl rfl rfl h.prompts (fun m b hm => ⟨b, hm⟩) rfl rfl id
  intro r' hr'
  cases hr'

theorem recoveryInvariant_compaction {caller : CompactionCaller} {x : AutoCompaction}
    (hx : s.compactionOf caller = some x) {scheduled : List ContinueReason}
    (hwaiting : compaction.isSome.toNat + scheduled.length ≤ 1 + s.scheduled.length)
    (houtstanding : (compaction.any fun y => y.reason = .overflow).toNat +
        scheduled.countP (· ≠ .queued) ≤
      (decide (x.reason = .overflow)).toNat + s.scheduled.countP (· ≠ .queued)) :
    ({ s.control with scheduled }.setCompaction compaction caller).RecoveryInvariant cfg n := by
  obtain ⟨rfl, hs⟩ := handler_of_compactionOf h hx
  have hhandler : s.control.handler = .compacting x := hs
  have hone : s.control.waits = 1 + s.scheduled.length := by
    rw [waits, hhandler]
    rfl
  have houtstanding' : s.control.outstanding =
      (decide (x.reason = .overflow)).toNat + s.scheduled.countP (· ≠ .queued) := by
    rw [outstanding, hhandler]
    obtain ⟨reason, saved⟩ := x
    cases reason <;> rfl
  apply h.waited (by omega)
  · rfl
  · rfl
  · cases compaction <;> rfl
  · cases compaction <;> rfl
  · rfl
  · rfl
  · rfl
  · rw [hone]
    cases compaction <;> exact hwaiting
  · rw [houtstanding']
    cases compaction with
    | none => exact houtstanding
    | some y =>
      obtain ⟨reason, saved⟩ := y
      cases reason <;> exact houtstanding

theorem recoveryInvariant_wakeUp (hm : s.handler = .sleeping m false) :
    { s.control with
      handler := .idle
      scheduled := s.scheduled ++ [ContinueReason.retry] }.RecoveryInvariant cfg n := by
  have hhandler : s.control.handler = .sleeping m false := hm
  have hone : s.control.waits = 1 + s.scheduled.length := by
    rw [waits, hhandler]
    rfl
  have houtstanding : s.control.outstanding = 1 + s.scheduled.countP (· ≠ .queued) := by
    rw [outstanding, hhandler]
    rfl
  apply h.waited (by omega)
  · rfl
  · rfl
  · rfl
  · rfl
  · rfl
  · rfl
  · rfl
  · change 0 + (s.scheduled ++ [ContinueReason.retry]).length ≤ _
    rw [length_append, length_singleton]
    omega
  · change 0 + (s.scheduled ++ [ContinueReason.retry]).countP (· ≠ .queued) ≤ _
    rw [countP_append, houtstanding]
    change 0 + (_ + 1) ≤ _
    omega

theorem recoveryInvariant_step {a : SessionAction} {c' : SessionControl} (hok : s.noPrompt a = true)
    (hs : ControlStep cfg s a c') :
    c'.RecoveryInvariant cfg (a.countContinue SessionAction.startsAnew n) := by
  cases hs with
  | startInjection hrun hended hpending =>
    exact recoveryInvariant_startInjection h hrun hended hpending
  | endInjection hrun hended hopened => exact recoveryInvariant_endInjection h hrun hended hopened
  | endMessage message hrun hgo => exact recoveryInvariant_endMessage h message hrun hgo
  | emitOther hrun hended =>
    apply h.emit hrun hended
    · exact hended.symm
    · exact .inl rfl
    · exact fun hanswer => nomatch hanswer
    · exact h.closed _ hrun
    · exact fun hclosed => ⟨rfl, hclosed⟩
    · exact fun haborted => nomatch haborted
  | poll queue messages hrun hgo => exact recoveryInvariant_poll h hrun hgo _
  | endRun hrun hbetween => exact recoveryInvariant_end h hrun hbetween _ _
  | failRun error aborted timestamp hrun hbetween =>
    exact recoveryInvariant_end h hrun hbetween _ _
  | finishRun hrun hended => exact recoveryInvariant_finishRun h hrun hended
  | startHandler hidle hqueue => exact recoveryInvariant_startHandler h hidle hqueue
  | @dropEvent e he =>
    by_cases hend : e.isEnd = true
    · obtain ⟨messages, rfl⟩ : ∃ messages, e = .agentEnd messages := by
        cases e <;> first | exact ⟨_, rfl⟩ | cases hend
      exact h.endIgnored he
    · exact h.handled_quietly he (Bool.eq_false_iff.mpr hend) rfl
  | @passEvent e he hpassed =>
    have hend : e.isEnd = false := by cases e <;> first | rfl | cases hpassed
    exact h.handled_quietly he hend rfl
  | messageEnd he => exact h.track he
  | ignoreEnd he hnone => exact h.endIgnored he
  | retry he hlast hretryable hattempt =>
    exact recoveryInvariant_retry h he hlast hretryable hattempt
  | settle he hlast hattempt houtcome =>
    exact recoveryInvariant_agentEnd h he hlast hattempt houtcome
  | wakeUp hm => exact recoveryInvariant_wakeUp h hm
  | wakeAborted hm houtcome => exact recoveryInvariant_wakeAborted h hm houtcome
  | failCompaction hx =>
    apply recoveryInvariant_compaction h hx
    · change 0 + s.scheduled.length ≤ _
      omega
    · change 0 + s.scheduled.countP _ ≤ _
      omega
  | saveCompaction data hx =>
    apply recoveryInvariant_compaction h hx
    · exact le_rfl
    · exact le_rfl
  | overflowCompacted hx =>
    apply recoveryInvariant_compaction h hx
    · change 0 + (s.scheduled ++ [ContinueReason.overflow]).length ≤ _
      rw [length_append, length_singleton]
      omega
    · change 0 + (s.scheduled ++ [ContinueReason.overflow]).countP _ ≤ 1 + _
      rw [countP_append]
      change 0 + (_ + 1) ≤ _
      omega
  | thresholdCompacted hx hscheduled =>
    apply recoveryInvariant_compaction h hx
    · obtain rfl | rfl := hscheduled
      · change 0 + s.scheduled.length ≤ _
        omega
      · change 0 + (s.scheduled ++ [ContinueReason.queued]).length ≤ _
        rw [length_append, length_singleton]
        omega
    · obtain rfl | rfl := hscheduled
      · change 0 + s.scheduled.countP _ ≤ 0 + _
        omega
      · rw [countP_append]
        change 0 + (_ + 0) ≤ _
        omega
  | continueStarts messages hmem hrun => exact (h.continued hmem _).2
  | continueThrows hmem hthrows => exact (h.continued hmem []).1
  | checkPrompt hrun houtcome =>
    have hstreaming : s.run.isSome = true := hok
    rw [hrun] at hstreaming
    cases hstreaming
  | buildPrompt timestamp messages hprompt =>
    refine h.congr (fun _ hr _ => hr) rfl rfl rfl rfl ?_ (fun m b hm => ⟨b, hm⟩) rfl rfl id
    intro p hp
    obtain hmem | rfl := mem_or_eq_of_mem_set hp
    · exact h.prompts p hmem
    · rfl
  | submitStarts extensionMessages prompts hprompt hrun => cases hok
  | submitThrows extensionMessages hprompt hrun => cases hok
  | triggerTurn message deliverAs prompts hrun hnext =>
    simp [noPrompt, isStreaming, hrun, hnext] at hok
  | quiet hcall =>
    rw [SessionAction.countContinue_of_isCall hcall]
    exact h
  | abortRetry => exact recoveryInvariant_abortRetry h

end

theorem retryAttempt_step (h : s.retryAttempt ≤ cfg.maxRetries) (hs : ControlStep cfg s a c') :
    c'.retryAttempt ≤ cfg.maxRetries := by
  cases hs with
  | @messageEnd m he =>
    unfold SessionControl.track
    split
    · split_ifs
      · exact Nat.zero_le _
      · exact h
    · exact h
  | retry he hlast hretryable hattempt => exact hattempt
  | settle he hlast hattempt houtcome =>
    obtain rfl | ⟨rfl, -⟩ := hattempt
    · exact h
    · exact Nat.zero_le _
  | wakeAborted hm houtcome => exact Nat.zero_le _
  | @failCompaction caller reason hx => cases caller <;> exact h
  | @saveCompaction caller reason data hx => cases caller <;> exact h
  | @overflowCompacted caller hx => cases caller <;> exact h
  | @thresholdCompacted caller scheduled hx hscheduled => cases caller <;> exact h
  | _ => exact h

theorem retryAttempt_le {ok : AgentSession → SessionAction → Prop} {entries : List SessionEntry}
    {steps : List SessionStep} (h : Runs cfg ok (opened entries) steps s) :
    s.retryAttempt ≤ cfg.maxRetries :=
  h.induct (P := fun _ s => s.retryAttempt ≤ cfg.maxRetries) (Nat.zero_le _)
    fun _ _ _ _ hle _ hs => retryAttempt_step hle (control_step hs)

theorem recoveryInvariant_start (hattempt : s.retryAttempt ≤ cfg.maxRetries) (hrest : s.AtRest)
    (ha : a.startsTurn = true) (hs : ControlStep cfg s a c') : c'.RecoveryInvariant cfg 0 := by
  obtain ⟨hrun, hqueue, hhandler, hscheduled⟩ := hrest.quiescent
  have hevents : s.control.pendingEvents = [] := by
    rw [pendingEvents, show s.control.handler = .idle from hhandler]
    exact hqueue
  have hwaiting : s.control.waits = 0 := by
    rw [waits, show s.control.handler = .idle from hhandler,
      show s.control.scheduled = [] from hscheduled]
    rfl
  cases hs with
  | @submitStarts i messages extensionMessages prompts hprompt hnone =>
    exact .of_startRun (c := { s.control with prompts := s.prompts.eraseIdx i }) hevents hwaiting
      hattempt (Nat.zero_le _) (fun p hp => hrest.prompts p (mem_of_mem_eraseIdx hp)) _
  | submitThrows extensionMessages hprompt hsome =>
    rw [hrun] at hsome
    cases hsome
  | triggerTurn message deliverAs prompts hnone hnext =>
    exact .of_startRun hevents hwaiting hattempt (Nat.zero_le _) hrest.prompts _
  | quiet hcall =>
    have hrunning : s.control.running = false := by
      simp [running, control, hrun]
    have houtstanding := outstanding_le_waits (c := s.control)
    refine .of_ended hrunning hevents hattempt (Nat.zero_le _) (by omega) hrest.prompts ?_
      (.inl (by omega))
    intro m aborted hm
    cases hhandler.symm.trans hm
  | _ => cases ha

/-- After a prompt to a session at rest, and until the next prompt, the calls of
`agent.continue()` since the last success, user input or delivery of queued messages are at most
the retries and one recovery from an overflow. -/
theorem continuations_le {entries : List SessionEntry} {earlier steps : List SessionStep}
    {s₀ s₁ : AgentSession} {a : SessionAction}
    (hearlier : Runs cfg (fun _ _ => True) (opened entries) earlier s₀) (hrest : s₀.AtRest)
    (ha : a.startsTurn = true) (hs : s₀.step cfg a = some s₁)
    (h : Runs cfg (fun s a => s.noPrompt a = true) s₁ steps s) :
    continuations SessionAction.startsAnew steps ≤ cfg.maxRetries + 1 := by
  have hstart := recoveryInvariant_start (retryAttempt_le hearlier) hrest ha (control_step hs)
  refine (h.induct (P := fun steps s => s.control.RecoveryInvariant cfg
    (continuations SessionAction.startsAnew steps)) hstart ?_).count
  intro steps s a s' hinvariant hok hs
  rw [continuations_concat]
  exact recoveryInvariant_step hinvariant hok (control_step hs)

theorem exists_turn_of_play (cfg : SessionConfig) (before after : List SessionAction)
    (Q : AgentSession → Prop) (P : List SessionStep → Prop) [DecidablePred Q] [DecidablePred P]
    (h : ((play cfg (fun _ _ => True) [] (opened []) before).any fun earlier => Q earlier.2 &&
      (earlier.2.step cfg (.submitPrompt 0 [])).any fun s₁ =>
        (play cfg (fun s a => s.noPrompt a = true) [] s₁ after).any fun out => P out.1) = true) :
    ∃ earlier s₀ s₁ steps s, Runs cfg (fun _ _ => True) (opened []) earlier s₀ ∧ Q s₀ ∧
      s₀.step cfg (.submitPrompt 0 []) = some s₁ ∧
      Runs cfg (fun s a => s.noPrompt a = true) s₁ steps s ∧ P steps := by
  obtain ⟨earlier, hearlier, hrest⟩ := (any_eq_true _ _).mp h
  obtain ⟨hQ, hstep⟩ := Bool.and_eq_true_iff.mp hrest
  obtain ⟨s₁, hs₁, hplay⟩ := (any_eq_true _ _).mp hstep
  obtain ⟨out, hout, hP⟩ := (any_eq_true _ _).mp hplay
  exact ⟨earlier.1, earlier.2, s₁, out.1, out.2, Runs.of_play .refl hearlier,
    of_decide_eq_true hQ, hs₁, Runs.of_play .refl hout, of_decide_eq_true hP⟩

/-- A run that fails with an error, up to the handling of its last event. -/
def failRunWith (error : String) (timestamp events : ℕ) : List SessionAction :=
  [.endMessage (.assistant (response smallConfig .error (some error) 0 timestamp)), .endRun,
    .finishRun] ++ handleEvents events

def keepAll : CompactionData :=
  { summary := "Summary", firstKeptEntryId := "e", tokensBefore := 90, details := none
    fromHook := none }

def compacted : List SessionAction := [.saveCompaction .handler keepAll, .finishCompaction .handler]

def injectUser (text : String) (timestamp : ℕ) : List SessionAction :=
  [.startInjection ⟨false, userMessage (userContent text []) timestamp⟩, .endInjection]

/-- The run of a prompt overflows, and after the compaction fails with an error worth a retry. -/
def overflowThenRetry : List SessionAction :=
  injectUser "Hi" 0 ++ failRunWith "prompt is too long" 10 4 ++ compacted ++
    [.continueAgent .overflow] ++ failRunWith "fetch failed" 20 2 ++
    [.wakeHandler, .continueAgent .retry]

theorem continuations_le_overflowThenRetry :
    ∃ (earlier steps : List SessionStep) (s₀ s₁ s : AgentSession),
      (Runs smallConfig (fun _ _ => True) (opened []) earlier s₀ ∧ s₀.AtRest ∧
        s₀.step smallConfig (.submitPrompt 0 []) = some s₁ ∧
        Runs smallConfig (fun s a => s.noPrompt a = true) s₁ steps s ∧
        continuations SessionAction.startsAnew steps = smallConfig.maxRetries + 1) ∧
      continuations SessionAction.startsAnew steps ≤ smallConfig.maxRetries + 1 := by
  obtain ⟨earlier, s₀, s₁, steps, s, hearlier, hrest, hs, hruns, hcount⟩ := exists_turn_of_play
    smallConfig [.prompt "Hi" [] none true 0, .buildPrompt 0 0] overflowThenRetry AtRest
    (fun steps => continuations SessionAction.startsAnew steps = smallConfig.maxRetries + 1)
    (by decide +kernel)
  exact ⟨earlier, steps, s₀, s₁, s, ⟨hearlier, hrest, hs, hruns, hcount⟩,
    continuations_le hearlier hrest rfl hs hruns⟩

def longText : String := String.ofList (List.replicate 60 'a')

def notice : CustomMessage :=
  { customType := "notice", content := .string "Done", display := true, details := none
    timestamp := 4 }

/-- The retries of a prompt are exhausted, the context is compacted, and the `continue()` that
delivers a queued notice is followed by another retry. -/
def queuedNotice : List SessionAction :=
  injectUser longText 2 ++ failRunWith "fetch failed" 3 4 ++
    [.wakeHandler, .continueAgent .retry, .sendCustomMessage notice false (some .steer)] ++
    failRunWith "fetch failed" 4 2 ++ compacted ++
    [.continueAgent .queued, .startInjection ⟨true, .custom notice⟩, .endInjection] ++
    failRunWith "fetch failed" 5 4 ++ [.wakeHandler, .continueAgent .retry]

/-- A prompt overflows while the recovery from an earlier overflow is still scheduled. -/
def promptDuringRecovery : List SessionAction :=
  injectUser "Go" 20 ++ [.continueAgent .overflow] ++ failRunWith "prompt is too long" 21 4 ++
    compacted ++ [.continueAgent .overflow] ++ failRunWith "fetch failed" 30 2 ++
    [.wakeHandler, .continueAgent .retry]

/-- Without a new count at the delivery of queued messages the bound fails, and so it does after a
prompt that does not wait for the recovery before it. -/
theorem continuations_exceeded :
    (¬∀ (cfg : SessionConfig) (entries : List SessionEntry) (earlier steps : List SessionStep)
      (s₀ s₁ s : AgentSession) (a : SessionAction),
      Runs cfg (fun _ _ => True) (opened entries) earlier s₀ → s₀.AtRest → a.startsTurn = true →
        s₀.step cfg a = some s₁ → Runs cfg (fun s a => s.noPrompt a = true) s₁ steps s →
          continuations SessionAction.isAnswer steps ≤ cfg.maxRetries + 1) ∧
      ¬∀ (cfg : SessionConfig) (entries : List SessionEntry) (earlier steps : List SessionStep)
        (s₀ s₁ s : AgentSession) (a : SessionAction),
        Runs cfg (fun _ _ => True) (opened entries) earlier s₀ → a.startsTurn = true →
          s₀.step cfg a = some s₁ → Runs cfg (fun s a => s.noPrompt a = true) s₁ steps s →
            continuations SessionAction.startsAnew steps ≤ cfg.maxRetries + 1 := by
  constructor
  · intro h
    obtain ⟨earlier, s₀, s₁, steps, s, hearlier, hrest, hs, hruns, hmore⟩ := exists_turn_of_play
      smallConfig
      (promptActions "Hi" 0 ++
        [.endMessage (.assistant (response smallConfig .stop none 90 1)), .endRun, .finishRun] ++
        handleEvents 6 ++ [.prompt longText [] none true 2, .buildPrompt 0 2])
      queuedNotice AtRest
      (fun steps => continuations SessionAction.isAnswer steps = smallConfig.maxRetries + 2)
      (by decide +kernel)
    have hle := h smallConfig [] earlier steps s₀ s₁ s _ hearlier hrest rfl hs hruns
    omega
  · intro h
    obtain ⟨earlier, s₀, s₁, steps, s, hearlier, -, hs, hruns, hmore⟩ := exists_turn_of_play
      smallConfig
      (promptActions "Hi" 0 ++ failRunWith "prompt is too long" 10 6 ++ compacted ++
        [.prompt "Go" [] none true 20, .buildPrompt 0 20])
      promptDuringRecovery (fun _ => True)
      (fun steps => continuations SessionAction.startsAnew steps = smallConfig.maxRetries + 2)
      (by decide +kernel)
    have hle := h smallConfig [] earlier steps s₀ s₁ s _ hearlier rfl hs hruns
    omega

end AgentSession

end Draht
