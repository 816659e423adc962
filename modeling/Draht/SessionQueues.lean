import Draht.SessionOrder
import Mathlib.Algebra.Order.Group.Multiset
import Mathlib.Tactic.Abel

/-!
# Queued input and what `clearQueue` returns

Queued messages are in a queue of the agent, their texts in a list for display. `clearQueue`
empties both and returns the texts. The texts are those of the queued messages as long as only
plain texts are queued and no delivered message still waits for the handler that takes its text
from the list.
-/

namespace Draht
open List Option

/-- Messages are compared without the time at which they were made. -/
def InputMessage.withoutTime : InputMessage → InputMessage
  | .user m => .user { m with timestamp := 0 }
  | .custom m => .custom m

def InputMessage.text : InputMessage → String
  | .user m => AgentSession.userMessageText m.content
  | .custom _ => ""

/-- A `message_start` that takes the text of a queued message from the display. -/
def SessionEvent.queuedMessage? : SessionEvent → Option InputMessage
  | .messageStart { queued := true, message } => some message
  | _ => none

/-- The text of a user message that was not queued, at its `message_start`. -/
def SessionEvent.promptText? : SessionEvent → Option String
  | .messageStart { queued := false, message := .user m } =>
    some (AgentSession.userMessageText m.content)
  | _ => none

namespace SessionRun

/-- The messages from a queue that the run has still to inject. -/
def drained (r : SessionRun) : List InputMessage :=
  if r.ended then []
  else (r.pendingMessages.filter InjectedMessage.queued).map InjectedMessage.message

end SessionRun

namespace SessionControl

/-- The delivered messages of the queues whose text is still displayed: those whose
`message_start` waits to be handled, then those that the run has still to inject. -/
def waiting (c : SessionControl) : List InputMessage :=
  c.agentEventQueue.filterMap SessionEvent.queuedMessage? ++ c.run.toList.flatMap SessionRun.drained

end SessionControl

namespace AgentSession

variable {cfg : SessionConfig} {s s' : AgentSession}

def queued (s : AgentSession) : List InputMessage := s.steeringQueue ++ s.followUpQueue

def displayed (s : AgentSession) : List String := s.steeringMessages ++ s.followUpMessages

def accepted (t : SessionStep) : List InputMessage :=
  match t.action with
  | .queueMessage _ text images timestamp => [userMessage (userContent text images) timestamp]
  | .prompt text images (some _) _ timestamp =>
    if t.before.isStreaming then [userMessage (userContent text images) timestamp] else []
  | .sendCustomMessage m _ deliverAs =>
    if deliverAs ≠ some .nextTurn ∧ t.before.isStreaming then [.custom m] else []
  | _ => []

def delivered (t : SessionStep) : List InputMessage :=
  match t.action with
  | .poll _ => t.after.run.toList.flatMap SessionRun.drained
  | .continueAgent _ =>
    if t.before.run.isSome then [] else t.after.run.toList.flatMap SessionRun.drained
  | _ => []

def returned (t : SessionStep) : List InputMessage :=
  match t.action with
  | .clearQueue =>
    (t.before.clearQueue.1.1 ++ t.before.clearQueue.1.2).map fun text =>
      userMessage (userContent text []) 0
  | _ => []

/-- Each queued message is delivered, or returned with its content, or still queued. -/
def ConservesInput (steps : List SessionStep) (s : AgentSession) : Prop :=
  ((steps.flatMap accepted).map InputMessage.withoutTime).Perm
    ((steps.flatMap delivered ++ steps.flatMap returned ++ s.queued).map InputMessage.withoutTime)

instance (steps : List SessionStep) (s : AgentSession) : Decidable (ConservesInput steps s) := by
  unfold ConservesInput
  infer_instance

/-- The condition on a step: what is queued is a text that is not empty, without images; a prompt
that was not queued has another text than the displayed ones; and the queues are cleared when no
delivered message waits for its `message_start` to be handled. -/
def QueuesTexts (s : AgentSession) : SessionAction → Prop
  | .queueMessage _ text images _ => text ≠ "" ∧ images = []
  | .prompt text images (some _) _ _ => s.isStreaming = true → text ≠ "" ∧ images = []
  | .sendCustomMessage _ _ deliverAs => deliverAs = some .nextTurn ∨ s.isStreaming = false
  | .startHandler => ∀ e ∈ s.agentEventQueue.head?, ∀ text ∈ e.promptText?, text ∉ s.displayed
  | .clearQueue => s.control.waiting = []
  | _ => True

instance (s : AgentSession) : ∀ a, Decidable (QueuesTexts s a)
  | .queueMessage _ text images _ => inferInstanceAs (Decidable (text ≠ "" ∧ images = []))
  | .prompt text images (some _) _ _ =>
    inferInstanceAs (Decidable (s.isStreaming = true → text ≠ "" ∧ images = []))
  | .sendCustomMessage _ _ deliverAs =>
    inferInstanceAs (Decidable (deliverAs = some .nextTurn ∨ s.isStreaming = false))
  | .startHandler =>
    inferInstanceAs (Decidable (∀ e ∈ s.agentEventQueue.head?,
      ∀ text ∈ e.promptText?, text ∉ s.displayed))
  | .clearQueue => inferInstanceAs (Decidable (s.control.waiting = []))
  | .prompt _ _ none _ _ | .startInjection _ | .endInjection | .endMessage _ | .emitOther
  | .poll _ | .endRun | .failRun .. | .finishRun | .resumeHandler _ | .wakeHandler
  | .failCompaction _ | .saveCompaction .. | .finishCompaction _ | .continueAgent _
  | .buildPrompt .. | .submitPrompt .. | .recordBashResult _ | .abortRetry => instDecidableTrue

def IsPlainText (m : InputMessage) : Prop :=
  ∃ text timestamp, text ≠ "" ∧ m = userMessage (userContent text []) timestamp

theorem text_userMessage (text : String) (timestamp : ℕ) :
    (userMessage (userContent text []) timestamp).text = text := by
  simp [userMessage, userContent, InputMessage.text, userMessageText, String.join]

variable {t : SessionStep} {m : InputMessage} {images : List ImageContent} {timestamp : ℕ}
  {queue : QueueName}

theorem IsPlainText.text_ne_empty (h : IsPlainText m) : m.text ≠ "" := by
  obtain ⟨text, timestamp, hne, rfl⟩ := h
  rwa [text_userMessage]

theorem IsPlainText.withoutTime_eq (h : IsPlainText m) :
    m.withoutTime = userMessage (userContent m.text []) 0 := by
  obtain ⟨text, timestamp, -, rfl⟩ := h
  rfl

theorem drain_append (mode : QueueMode) (queue : List InputMessage) :
    (drain mode queue).1 ++ (drain mode queue).2 = queue := by
  cases mode with
  | all => exact append_nil queue
  | oneAtATime => exact take_append_drop 1 queue

theorem drained_injected (messages : List InputMessage) (r : SessionRun)
    (hended : r.ended = false) :
    { r with pendingMessages := injected true messages }.drained = messages := by
  simp [SessionRun.drained, hended, injected, List.filter_map, Function.comp_def]

/-- The queues of the agent and the texts displayed for them. -/
structure SessionInputs where
  steeringQueue : List InputMessage
  followUpQueue : List InputMessage
  steeringMessages : List String
  followUpMessages : List String

def inputs (s : AgentSession) : SessionInputs :=
  { steeringQueue := s.steeringQueue, followUpQueue := s.followUpQueue
    steeringMessages := s.steeringMessages, followUpMessages := s.followUpMessages }

theorem queued_of_inputs (h : s'.inputs = s.inputs) : s'.queued = s.queued := by
  have h₁ := congrArg SessionInputs.steeringQueue h
  have h₂ := congrArg SessionInputs.followUpQueue h
  exact congrArg₂ (· ++ ·) h₁ h₂

theorem displayed_of_inputs (h : s'.inputs = s.inputs) : s'.displayed = s.displayed := by
  have h₁ := congrArg SessionInputs.steeringMessages h
  have h₂ := congrArg SessionInputs.followUpMessages h
  exact congrArg₂ (· ++ ·) h₁ h₂

theorem inputs_persist (cfg : SessionConfig) (s : AgentSession) (m : SessionMessage) :
    (s.persist cfg m).inputs = s.inputs := by
  unfold persist
  split <;> rfl

theorem inputs_flushPendingBashMessages (cfg : SessionConfig) (s : AgentSession) :
    (s.flushPendingBashMessages cfg).inputs = s.inputs := by
  have hfold : ∀ (messages : List BashExecutionMessage) (s : AgentSession),
      (messages.foldl (fun s m => s.appendBashMessage cfg m) s).inputs = s.inputs := by
    intro messages
    induction messages with
    | nil => exact fun s => rfl
    | cons m messages ih => exact fun s => ih _
  exact hfold s.pendingBashMessages s

theorem inputs_checkCompaction (cfg : SessionConfig) (s : AgentSession) (m : AssistantMessage)
    (skipAbortedCheck : Bool) :
    (s.checkCompaction cfg m skipAbortedCheck).1.inputs = s.inputs := by
  unfold checkCompaction
  split_ifs <;> rfl

theorem inputs_checkBeforePrompt (cfg : SessionConfig) (s : AgentSession) :
    (s.checkBeforePrompt cfg).1.inputs = s.inputs := by
  unfold checkBeforePrompt
  split
  · exact inputs_checkCompaction cfg s _ _
  · rfl

theorem inputs_settleRun (cfg : SessionConfig) (s : AgentSession) (m : AssistantMessage) :
    (s.settleRun cfg m).inputs = s.inputs :=
  inputs_checkCompaction cfg s.resolveRetry m true

theorem inputs_handleAgentEnd (cfg : SessionConfig) (s : AgentSession) :
    (s.handleAgentEnd cfg).inputs = s.inputs := by
  unfold handleAgentEnd
  split
  · rfl
  · split_ifs
    · unfold handleRetryableError
      dsimp only
      split_ifs
      · exact inputs_settleRun cfg _ _
      · exact inputs_settleRun cfg _ _
      · rfl
    · exact inputs_settleRun cfg _ _

theorem inputs_finishHandling (cfg : SessionConfig) (s : AgentSession) (e : SessionEvent) :
    (s.finishHandling cfg e).inputs = s.inputs := by
  cases e with
  | messageStart m => rfl
  | other => rfl
  | agentEnd messages => exact inputs_handleAgentEnd cfg s
  | messageEnd m =>
    refine Eq.trans ?_ (inputs_persist cfg s m)
    unfold finishHandling
    dsimp only
    split
    · unfold trackAssistant
      split_ifs <;> rfl
    · rfl

theorem inputs_setCompaction (s : AgentSession) (compaction : Option AutoCompaction)
    (caller : CompactionCaller) : (s.setCompaction compaction caller).inputs = s.inputs := by
  cases caller <;> rfl

theorem inputs_finishCompaction (s : AgentSession) (reason : CompactionReason) :
    (s.finishCompaction reason).inputs = s.inputs := by
  cases reason with
  | overflow => rfl
  | threshold =>
    unfold finishCompaction
    split_ifs <;> rfl

/-- The steps that queue, drain, clear or take a text from the display. -/
def changesInputs : SessionAction → Bool
  | .poll _ => true
  | .startHandler => true
  | .continueAgent _ => true
  | .prompt .. => true
  | .queueMessage .. => true
  | .sendCustomMessage .. => true
  | .clearQueue => true
  | _ => false

variable {a : SessionAction} {c : SessionControl} {r : SessionRun}

theorem inputs_step (ha : changesInputs a = false)
    (hs : s.step cfg a = some s') : s'.inputs = s.inputs := by
  cases step_cases hs with
  | startInjection | endInjection | endMessage | emitOther | endRun | failRun | finishRun => rfl
  | dropEvent | wakeUp | buildPrompt | abortRetry => rfl
  | handleEvent => exact inputs_finishHandling cfg s _
  | wakeAborted => exact inputs_settleRun cfg _ _
  | failCompaction => exact inputs_setCompaction s _ _
  | saveCompaction data => exact inputs_setCompaction (s.saveCompaction cfg data) _ _
  | finishCompaction => exact (inputs_setCompaction _ _ _).trans (inputs_finishCompaction s _)
  | submitPrompt extensionMessages =>
    unfold submitPrompt agentPrompt
    split_ifs <;> rfl
  | recordBashResult message =>
    unfold recordBashResult
    split_ifs <;> rfl
  | poll | startHandler | continueAgent | prompt | queueMessage | sendCustomMessage | clearQueue =>
    cases ha

theorem waiting_emit (hrun : c.run = some r)
    (r' : SessionRun) (e : SessionEvent) (h : r.drained = e.queuedMessage?.toList ++ r'.drained) :
    (c.emit r' e).waiting = c.waiting := by
  simp only [SessionControl.waiting, SessionControl.emit, hrun, filterMap_append,
    toList_some, flatMap_cons, flatMap_nil, append_nil, h,
    append_assoc]
  cases he : e.queuedMessage? with
  | none => simp [he]
  | some m => simp [he]

theorem drained_startInjection {m : InjectedMessage} {rest : List InjectedMessage}
    (hended : r.ended = false) (hpending : r.pendingMessages = m :: rest) :
    r.drained = (SessionEvent.messageStart m).queuedMessage?.toList ++
      { r with pendingMessages := rest, opened := some m }.drained := by
  obtain ⟨queued, message⟩ := m
  cases queued <;> simp [SessionRun.drained, hended, hpending, SessionEvent.queuedMessage?]

theorem drained_betweenMessages (h : betweenMessages r = true) :
    r.drained = [] := by
  simp only [betweenMessages, Bool.and_eq_true, List.isEmpty_iff] at h
  simp [SessionRun.drained, h.1.2]

theorem waiting_startRun (hrun : c.run = none)
    (messages : List InjectedMessage) :
    (c.startRun messages).waiting =
      c.waiting ++ (messages.filter InjectedMessage.queued).map InjectedMessage.message := by
  simp [SessionControl.waiting, SessionControl.startRun, hrun, SessionRun.drained]

theorem waiting_prompts (hrun : c.run = none) (messages : List InputMessage) :
    (c.startRun (injected false messages)).waiting = c.waiting := by
  rw [waiting_startRun hrun]
  simp [injected, List.filter_map, Function.comp_def]

theorem waiting_queuedRun (hrun : c.run = none)
    (messages : List InputMessage) :
    (c.startRun (injected true messages)).waiting = c.waiting ++ messages := by
  rw [waiting_startRun hrun]
  simp [injected, List.filter_map, Function.comp_def]

theorem waiting_step (hs : ControlStep cfg s a c)
    (hpoll : ∀ queue, a ≠ .poll queue) (hcontinue : ∀ reason, a ≠ .continueAgent reason)
    (hstart : a ≠ .startHandler) : c.waiting = s.control.waiting := by
  cases hs with
  | startInjection hrun hended hpending =>
    exact waiting_emit (c := s.control) hrun _ _ (drained_startInjection hended hpending)
  | endInjection hrun hended hopened => exact waiting_emit (c := s.control) hrun _ _ rfl
  | endMessage message hrun hgo => exact waiting_emit (c := s.control) hrun _ _ rfl
  | emitOther hrun hended => exact waiting_emit (c := s.control) hrun _ _ rfl
  | poll queue messages hrun hgo => exact (hpoll queue rfl).elim
  | @endRun r hrun hbetween =>
    exact waiting_emit (c := s.control) hrun { r with ended := true }
      (.agentEnd r.newMessages) (drained_betweenMessages hbetween)
  | @failRun r error aborted timestamp hrun hbetween =>
    exact waiting_emit (c := s.control) hrun { r with ended := true }
      (.agentEnd _) (drained_betweenMessages hbetween)
  | @finishRun r hrun hended =>
    simp [SessionControl.waiting, control, hrun, SessionRun.drained, hended]
  | startHandler hidle hqueue => exact (hstart rfl).elim
  | @messageEnd m he =>
    obtain ⟨hqueue, -⟩ := SessionControl.track_rest s.control m.message
    have hrun := SessionControl.track_run s.control m.message
    simp only [SessionControl.waiting] at hqueue hrun ⊢
    rw [hqueue, hrun]
  | @settle messages m attempt flag compaction he hlast hattempt houtcome => rfl
  | @wakeAborted m flag compaction hsleeping houtcome => rfl
  | @failCompaction caller reason hx => cases caller <;> rfl
  | @saveCompaction caller reason data hx => cases caller <;> rfl
  | @overflowCompacted caller hx => cases caller <;> rfl
  | @thresholdCompacted caller scheduled hx hscheduled => cases caller <;> rfl
  | continueStarts messages hmem hrun => exact (hcontinue _ rfl).elim
  | continueThrows hmem hthrows => exact (hcontinue _ rfl).elim
  | submitStarts extensionMessages prompts hprompt hrun =>
    exact waiting_prompts (c := { s.control with prompts := _ }) hrun prompts
  | triggerTurn message deliverAs prompts hrun =>
    exact waiting_prompts (c := s.control) hrun prompts
  | _ => rfl

/-- Only plain texts are queued, and the display shows those that are queued or wait for the
handler of their `message_start`. -/
structure QueueInvariant (s : AgentSession) : Prop where
  plain : ∀ m ∈ s.queued ++ s.control.waiting, IsPlainText m
  texts : s.displayed.Perm ((s.queued ++ s.control.waiting).map InputMessage.text)

/-- What a step does to the messages accepted so far and where they are. -/
def Balanced (t : SessionStep) : Prop :=
  ((t.before.queued ++ accepted t).map InputMessage.withoutTime).Perm
    ((delivered t ++ returned t ++ t.after.queued).map InputMessage.withoutTime)

theorem Balanced.of_perm (hreturned : returned t = [])
    (h : (t.before.queued ++ accepted t).Perm (delivered t ++ t.after.queued)) : Balanced t := by
  rw [Balanced, hreturned, append_nil]
  exact h.map _

theorem QueueInvariant.move (h : QueueInvariant s) (new : List InputMessage)
    (hplain : ∀ m ∈ new, IsPlainText m)
    (hmessages : (s'.queued ++ s'.control.waiting).Perm (s.queued ++ s.control.waiting ++ new))
    (htexts : s'.displayed.Perm (s.displayed ++ new.map InputMessage.text)) :
    QueueInvariant s' := by
  refine ⟨?_, ?_⟩
  · intro m hm
    obtain hm | hm := mem_append.mp (hmessages.subset hm)
    · exact h.plain m hm
    · exact hplain m hm
  · calc s'.displayed.Perm (s.displayed ++ new.map InputMessage.text) := htexts
      _ |>.Perm ((s.queued ++ s.control.waiting ++ new).map InputMessage.text) := by
          rw [map_append]
          exact h.texts.append_right _
      _ |>.Perm _ := (hmessages.map InputMessage.text).symm

theorem QueueInvariant.keep (h : QueueInvariant s) (hinputs : s'.inputs = s.inputs)
    (hwaiting : s'.control.waiting = s.control.waiting) : QueueInvariant s' := by
  refine h.move [] (by simp) ?_ ?_
  · rw [queued_of_inputs hinputs, hwaiting, append_nil]
  · rw [displayed_of_inputs hinputs, map_nil, append_nil]

theorem queueInvariant_opened (entries : List SessionEntry) :
    QueueInvariant (opened entries) :=
  ⟨fun _ hm => (not_mem_nil hm).elim, Perm.nil⟩

theorem queued_queueMessage (s : AgentSession) (queue : QueueName) (text : String)
    (images : List ImageContent) (timestamp : ℕ) :
    (s.queueMessage queue text images timestamp).queued.Perm
      (s.queued ++ [userMessage (userContent text images) timestamp]) := by
  cases queue with
  | steering =>
    simp only [queueMessage, queued, append_assoc]
    exact perm_append_comm.append_left _
  | followUp => simp only [queueMessage, queued, append_assoc, Perm.refl]

theorem displayed_queueMessage (s : AgentSession) (queue : QueueName) (text : String)
    (images : List ImageContent) (timestamp : ℕ) :
    (s.queueMessage queue text images timestamp).displayed.Perm (s.displayed ++ [text]) := by
  cases queue with
  | steering =>
    simp only [queueMessage, displayed, append_assoc]
    exact perm_append_comm.append_left _
  | followUp => simp only [queueMessage, displayed, append_assoc, Perm.refl]

theorem QueueInvariant.queueMessage (h : QueueInvariant s) (queue : QueueName) {text : String}
    (timestamp : ℕ) (hok : text ≠ "" ∧ images = []) :
    QueueInvariant (s.queueMessage queue text images timestamp) := by
  obtain ⟨hne, rfl⟩ := hok
  refine h.move [userMessage (userContent text []) timestamp] ?_ ?_ ?_
  · intro m hm
    rw [mem_singleton.mp hm]
    exact ⟨text, timestamp, hne, rfl⟩
  · rw [control_queueMessage]
    refine ((queued_queueMessage s queue text [] timestamp).append_right _).trans ?_
    rw [append_assoc, append_assoc]
    exact perm_append_comm.append_left _
  · exact displayed_queueMessage s queue text [] timestamp

theorem displayed_trimQueues (s : AgentSession) (text : String) :
    (s.trimQueues text).displayed = if text = "" then s.displayed else s.displayed.erase text := by
  unfold trimQueues displayed
  rw [erase_append]
  split_ifs <;> rfl

theorem queued_trimQueues (s : AgentSession) (text : String) :
    (s.trimQueues text).queued = s.queued := by
  unfold trimQueues
  split_ifs <;> rfl

theorem QueueInvariant.deliver (h : QueueInvariant s)
    (hwaiting : s.control.waiting = m :: s'.control.waiting) (hqueued : s'.queued = s.queued)
    (hdisplayed : s'.displayed = s.displayed.erase m.text) : QueueInvariant s' := by
  have hmiddle : (s.queued ++ s.control.waiting).Perm
      (m :: (s'.queued ++ s'.control.waiting)) := by
    rw [hwaiting, hqueued]
    exact perm_middle
  refine ⟨fun x hx => h.plain x (hmiddle.symm.subset (mem_cons_of_mem _ hx)), ?_⟩
  have htexts := (h.texts.trans (hmiddle.map InputMessage.text)).erase m.text
  rw [map_cons, erase_cons_head] at htexts
  exact hdisplayed ▸ htexts

theorem waiting_startHandling (s : AgentSession) (e : SessionEvent) (rest : List SessionEvent)
    (hqueue : s.agentEventQueue = e :: rest) :
    s.control.waiting = e.queuedMessage?.toList ++
      ({ s with agentEventQueue := rest }.startHandling e).control.waiting := by
  rw [control_startHandling]
  simp only [SessionControl.waiting, control, hqueue]
  cases he : e.queuedMessage? with
  | none => simp [he]
  | some m => simp [he]

theorem queued_startHandling (s : AgentSession) (e : SessionEvent) :
    (s.startHandling e).queued = s.queued := by
  unfold startHandling
  split
  · exact queued_trimQueues { s with overflowRecoveryAttempted := false } _
  · rfl

theorem displayed_startHandling_user (s : AgentSession) (isQueued : Bool) (m : UserMessage) :
    (s.startHandling (.messageStart ⟨isQueued, .user m⟩)).displayed =
      if userMessageText m.content = "" then s.displayed
      else s.displayed.erase (userMessageText m.content) :=
  displayed_trimQueues { s with overflowRecoveryAttempted := false } _

theorem queueInvariant_startHandling (h : QueueInvariant s) {e : SessionEvent}
    {rest : List SessionEvent} (hqueue : s.agentEventQueue = e :: rest)
    (hok : ∀ text ∈ e.promptText?, text ∉ s.displayed) :
    QueueInvariant ({ s with agentEventQueue := rest }.startHandling e) := by
  have hwaiting := waiting_startHandling s e rest hqueue
  have hqueued : ({ s with agentEventQueue := rest }.startHandling e).queued = s.queued :=
    queued_startHandling _ e
  have hkeep : e.queuedMessage? = none →
      ({ s with agentEventQueue := rest }.startHandling e).displayed = s.displayed →
      QueueInvariant ({ s with agentEventQueue := rest }.startHandling e) := by
    intro hnone hdisplayed
    rw [hnone, toList_none, nil_append] at hwaiting
    refine h.move [] (by simp) ?_ ?_
    · rw [hqueued, hwaiting, append_nil]
    · rw [hdisplayed, map_nil, append_nil]
  have hplain : ∀ m, e.queuedMessage? = some m → IsPlainText m := by
    intro m hm
    refine h.plain m (mem_append_right _ ?_)
    rw [hwaiting, hm]
    exact mem_cons_self
  cases e with
  | messageStart m =>
    obtain ⟨isQueued, message⟩ := m
    cases message with
    | custom m =>
      cases isQueued with
      | false => exact hkeep rfl rfl
      | true =>
        obtain ⟨text, timestamp, -, hm⟩ := hplain _ rfl
        cases hm
    | user m =>
      have hdisplayed :=
        displayed_startHandling_user { s with agentEventQueue := rest } isQueued m
      cases isQueued with
      | false =>
        have hnot : userMessageText m.content ∉
            displayed { s with agentEventQueue := rest } := hok _ rfl
        rw [erase_of_not_mem hnot, ite_self] at hdisplayed
        exact hkeep rfl hdisplayed
      | true =>
        have hne : userMessageText m.content ≠ "" := (hplain _ rfl).text_ne_empty
        rw [if_neg hne] at hdisplayed
        exact h.deliver hwaiting hqueued hdisplayed
  | messageEnd m => exact hkeep rfl rfl
  | agentEnd messages => exact hkeep rfl rfl
  | other => exact hkeep rfl rfl

theorem agentContinue_queues {s' : AgentSession} (h : s.agentContinue cfg = some s') :
    s.run = none ∧ s'.displayed = s.displayed ∧
      ∃ messages, s'.control = s.control.startRun (injected true messages) ∧
        s.queued.Perm (messages ++ s'.queued) := by
  unfold agentContinue at h
  split_ifs at h with hrun
  refine ⟨by simpa using hrun, ?_⟩
  split at h
  · cases h
  · dsimp only at h
    split_ifs at h
    · cases h
      refine ⟨rfl, (drain cfg.steeringMode s.steeringQueue).1, rfl, ?_⟩
      change (s.steeringQueue ++ s.followUpQueue).Perm
        (_ ++ ((drain cfg.steeringMode s.steeringQueue).2 ++ s.followUpQueue))
      rw [← append_assoc, drain_append]
    · cases h
      refine ⟨rfl, (drain cfg.followUpMode s.followUpQueue).1, rfl, ?_⟩
      change (s.steeringQueue ++ s.followUpQueue).Perm
        (_ ++ (s.steeringQueue ++ (drain cfg.followUpMode s.followUpQueue).2))
      conv_lhs => rw [← drain_append cfg.followUpMode s.followUpQueue]
      rw [← append_assoc, ← append_assoc]
      exact perm_append_comm.append_right _
  · cases h
    exact ⟨rfl, [], rfl, Perm.refl _⟩

theorem poll_queues (cfg : SessionConfig) (s : AgentSession) (r : SessionRun)
    (queue : QueueName) :
    (s.poll cfg r queue).displayed = s.displayed ∧
      ∃ messages, (s.poll cfg r queue).control =
          { s.control with run := some { r with pendingMessages := injected true messages } } ∧
        s.queued.Perm (messages ++ (s.poll cfg r queue).queued) := by
  cases queue with
  | steering =>
    refine ⟨rfl, (drain cfg.steeringMode s.steeringQueue).1, rfl, ?_⟩
    change (s.steeringQueue ++ s.followUpQueue).Perm
      (_ ++ ((drain cfg.steeringMode s.steeringQueue).2 ++ s.followUpQueue))
    rw [← append_assoc, drain_append]
  | followUp =>
    refine ⟨rfl, (drain cfg.followUpMode s.followUpQueue).1, rfl, ?_⟩
    change (s.steeringQueue ++ s.followUpQueue).Perm
      (_ ++ (s.steeringQueue ++ (drain cfg.followUpMode s.followUpQueue).2))
    conv_lhs => rw [← drain_append cfg.followUpMode s.followUpQueue]
    rw [← append_assoc, ← append_assoc]
    exact perm_append_comm.append_right _

theorem QueueInvariant.drain (h : QueueInvariant s) {messages : List InputMessage}
    (hdisplayed : s'.displayed = s.displayed) (hqueued : s.queued.Perm (messages ++ s'.queued))
    (hwaiting : s'.control.waiting = s.control.waiting ++ messages) : QueueInvariant s' := by
  refine h.move [] (by simp) ?_ (by rw [hdisplayed, map_nil, append_nil])
  rw [hwaiting, append_nil]
  calc (s'.queued ++ (s.control.waiting ++ messages)).Perm
        (s.control.waiting ++ messages ++ s'.queued) := perm_append_comm
    _ |>.Perm (s.control.waiting ++ s.queued) := by
        rw [append_assoc]
        exact hqueued.symm.append_left _
    _ |>.Perm (s.queued ++ s.control.waiting) := perm_append_comm

theorem QueueInvariant.returned_eq (h : QueueInvariant s) (hwaiting : s.control.waiting = []) :
    (s.queued.map InputMessage.withoutTime).Perm
      (s.displayed.map fun text => userMessage (userContent text []) 0) := by
  have htexts := h.texts
  have hplain := h.plain
  rw [hwaiting, append_nil] at htexts hplain
  have hmap : s.queued.map InputMessage.withoutTime =
      (s.queued.map InputMessage.text).map fun text => userMessage (userContent text []) 0 := by
    rw [List.map_map]
    exact map_congr_left fun m hm => (hplain m hm).withoutTime_eq
  rw [hmap]
  exact (htexts.map _).symm

theorem balanced_of_inputs (ha : accepted ⟨s, a, s'⟩ = [])
    (hd : delivered ⟨s, a, s'⟩ = []) (hr : returned ⟨s, a, s'⟩ = [])
    (hqueued : s'.queued = s.queued) : Balanced ⟨s, a, s'⟩ := by
  refine Balanced.of_perm hr ?_
  rw [ha, hd, append_nil, nil_append]
  exact Perm.of_eq hqueued.symm

theorem balanced_queueMessage {text : String}
    (hs' : s' = s.queueMessage queue text images timestamp)
    (ha : accepted ⟨s, a, s'⟩ = [userMessage (userContent text images) timestamp])
    (hd : delivered ⟨s, a, s'⟩ = []) (hr : returned ⟨s, a, s'⟩ = []) : Balanced ⟨s, a, s'⟩ := by
  refine Balanced.of_perm hr ?_
  rw [ha, hd, nil_append, hs']
  exact (queued_queueMessage s queue text images timestamp).symm

theorem drained_of_run (hrun : s'.control.run = some r) :
    s'.run.toList.flatMap SessionRun.drained = r.drained := by
  have hrun : s'.run = some r := hrun
  simp [hrun]

theorem queueInvariant_continue {reason : ContinueReason} (h : QueueInvariant s)
    (hs : s.step cfg (.continueAgent reason) = some s') :
    QueueInvariant s' ∧ Balanced ⟨s, .continueAgent reason, s'⟩ := by
  simp only [step] at hs
  split_ifs at hs
  cases hs
  cases hcontinue : agentContinue cfg { s with scheduled := s.scheduled.erase reason } with
  | none =>
    refine ⟨h.keep rfl rfl, balanced_of_inputs rfl ?_ rfl rfl⟩
    cases hrun : s.run with
    | none => simp [delivered, hrun]
    | some r => simp [delivered, hrun]
  | some s₁ =>
    obtain ⟨hrun, hdisplayed, messages, hcontrol, hqueued⟩ := agentContinue_queues hcontinue
    have hrun : s.run = none := hrun
    have hqueued : s.queued.Perm (messages ++ s₁.queued) := hqueued
    rw [getD_some]
    refine ⟨h.drain hdisplayed hqueued ?_, Balanced.of_perm rfl ?_⟩
    · rw [hcontrol]
      exact waiting_queuedRun (c := { s.control with scheduled := _ }) hrun messages
    · have hdelivered : delivered ⟨s, .continueAgent reason, s₁⟩ = messages := by
        simp only [delivered, hrun, isSome_none, Bool.false_eq_true, if_false]
        rw [drained_of_run (congrArg SessionControl.run hcontrol)]
        exact drained_injected messages ⟨[], none, [], false⟩ rfl
      rw [hdelivered]
      simpa [accepted] using hqueued

theorem queueInvariant_poll (h : QueueInvariant s) (hs : s.step cfg (.poll queue) = some s') :
    QueueInvariant s' ∧ Balanced ⟨s, .poll queue, s'⟩ := by
  obtain ⟨r, hrun, hr⟩ := bind_eq_some_iff.mp hs
  split_ifs at hr with hgo
  cases hr
  obtain ⟨hdisplayed, messages, hcontrol, hqueued⟩ := poll_queues cfg s r queue
  have hended := SessionControl.mayGoOn_not_ended hgo
  have hbetween : betweenMessages r = true := by
    simp only [mayGoOn, Bool.and_eq_true] at hgo
    exact hgo.1
  refine ⟨h.drain hdisplayed hqueued ?_, Balanced.of_perm rfl ?_⟩
  · rw [hcontrol]
    simp [SessionControl.waiting, control, hrun, drained_betweenMessages hbetween,
      drained_injected messages r hended]
  · have hdelivered : delivered ⟨s, .poll queue, s.poll cfg r queue⟩ = messages := by
      simp only [delivered]
      rw [drained_of_run (congrArg SessionControl.run hcontrol)]
      exact drained_injected messages r hended
    rw [hdelivered]
    simpa [accepted] using hqueued

theorem inputs_sendCustomMessage (cfg : SessionConfig) (m : CustomMessage) (triggerTurn : Bool)
    {deliverAs : Option DeliverAs} (hok : deliverAs = some .nextTurn ∨ s.isStreaming = false) :
    (s.sendCustomMessage cfg m triggerTurn deliverAs).inputs = s.inputs := by
  unfold sendCustomMessage
  split_ifs with hnext hstreaming hfollowUp htrigger
  · rfl
  · exact (hok.elim hnext (by simp [hstreaming])).elim
  · exact (hok.elim hnext (by simp [hstreaming])).elim
  · unfold agentPrompt
    split_ifs <;> rfl
  · rfl

theorem queueInvariant_prompt {text : String} {behavior : Option QueueName}
    {hasConfiguredAuth : Bool} (h : QueueInvariant s)
    (hok : QueuesTexts s (.prompt text images behavior hasConfiguredAuth timestamp))
    (hs : s.step cfg (.prompt text images behavior hasConfiguredAuth timestamp) = some s') :
    QueueInvariant s' ∧
      Balanced ⟨s, .prompt text images behavior hasConfiguredAuth timestamp, s'⟩ := by
  have hwaiting := waiting_step (control_step hs) (by simp) (by simp) (by simp)
  cases hs
  cases hstreaming : s.isStreaming with
  | true =>
    cases behavior with
    | none =>
      have hsame : s.prompt cfg text images none hasConfiguredAuth timestamp = s := by
        simp [prompt, hstreaming]
      rw [hsame]
      exact ⟨h, balanced_of_inputs rfl rfl rfl rfl⟩
    | some queue =>
      have hqueue : s.prompt cfg text images (some queue) hasConfiguredAuth timestamp =
          s.queueMessage queue text images timestamp := by simp [prompt, hstreaming]
      rw [hqueue]
      refine ⟨h.queueMessage queue timestamp (hok hstreaming), ?_⟩
      exact balanced_queueMessage rfl (by simp [accepted, hstreaming]) rfl rfl
  | false =>
    have hinputs : (s.prompt cfg text images behavior hasConfiguredAuth timestamp).inputs =
        s.inputs := by
      unfold prompt
      rw [if_neg (by simp [hstreaming])]
      split_ifs
      · exact (inputs_checkBeforePrompt cfg _).trans (inputs_flushPendingBashMessages cfg s)
      · exact inputs_flushPendingBashMessages cfg s
    refine ⟨h.keep hinputs hwaiting, balanced_of_inputs ?_ rfl rfl (queued_of_inputs hinputs)⟩
    cases behavior with
    | none => rfl
    | some queue => simp [accepted, hstreaming]

theorem queueInvariant_step (h : QueueInvariant s) (hok : QueuesTexts s a)
    (hs : s.step cfg a = some s') : QueueInvariant s' ∧ Balanced ⟨s, a, s'⟩ := by
  have hkeep : changesInputs a = false → QueueInvariant s' ∧ Balanced ⟨s, a, s'⟩ := by
    intro ha
    have hinputs := inputs_step ha hs
    have hwaiting : s'.control.waiting = s.control.waiting := by
      refine waiting_step (control_step hs) ?_ ?_ ?_
      · rintro queue rfl
        cases ha
      · rintro reason rfl
        cases ha
      · rintro rfl
        cases ha
    refine ⟨h.keep hinputs hwaiting, ?_⟩
    refine balanced_of_inputs ?_ ?_ ?_ (queued_of_inputs hinputs) <;>
      cases a <;> first | rfl | cases ha
  cases a with
  | poll queue => exact queueInvariant_poll h hs
  | continueAgent reason => exact queueInvariant_continue h hs
  | prompt text images behavior hasConfiguredAuth timestamp =>
    exact queueInvariant_prompt h hok hs
  | startHandler =>
    simp only [step, startHandler] at hs
    split at hs
    · rename_i e rest hidle hqueue
      cases hs
      have hhead : ∀ text ∈ e.promptText?, text ∉ s.displayed :=
        hok e (by rw [hqueue]; rfl)
      refine ⟨queueInvariant_startHandling h hqueue hhead, ?_⟩
      exact balanced_of_inputs rfl rfl rfl (queued_startHandling _ e)
    · cases hs
  | queueMessage queue text images timestamp =>
    cases hs
    exact ⟨h.queueMessage queue timestamp hok, balanced_queueMessage rfl rfl rfl rfl⟩
  | sendCustomMessage m triggerTurn deliverAs =>
    have hwaiting := waiting_step (control_step hs) (by simp) (by simp) (by simp)
    cases hs
    have hinputs := inputs_sendCustomMessage cfg m triggerTurn hok
    refine ⟨h.keep hinputs hwaiting, balanced_of_inputs ?_ rfl rfl (queued_of_inputs hinputs)⟩
    obtain hnext | hstreaming := hok
    · simp [accepted, hnext]
    · simp [accepted, hstreaming]
  | clearQueue =>
    cases hs
    have hwaiting : s.clearQueue.2.control.waiting = [] := hok
    refine ⟨⟨?_, ?_⟩, ?_⟩
    · rw [hwaiting]
      exact fun m hm => (not_mem_nil hm).elim
    · rw [hwaiting]
      exact Perm.nil
    · have hreturned := h.returned_eq hok
      simpa [Balanced, accepted, delivered, returned, queued, displayed, clearQueue,
        InputMessage.withoutTime, userMessage, Function.comp_def] using hreturned
  | _ => exact hkeep rfl

theorem conservesInput_concat {steps : List SessionStep} (h : ConservesInput steps t.before)
    (ht : Balanced t) : ConservesInput (steps ++ [t]) t.after := by
  unfold ConservesInput Balanced at *
  simp only [flatMap_append, flatMap_cons, flatMap_nil, append_nil,
    map_append, ← Multiset.coe_eq_coe, ← Multiset.coe_add] at h ht ⊢
  rw [h, add_assoc, ht]
  abel

/-- While a run streams, two messages are queued; one is delivered, the other returned. -/
def queuedTexts : List SessionAction :=
  promptActions "Hi" 0 ++
    [.queueMessage .steering "Wait" [] 1, .queueMessage .followUp "Then" [] 2,
      .endMessage (.assistant (response smallConfig .stop none 10 3)), .poll .steering,
      .startInjection ⟨true, userMessage (userContent "Wait" []) 1⟩, .endInjection] ++
    handleEvents 7 ++ [.clearQueue]

end AgentSession

end Draht
