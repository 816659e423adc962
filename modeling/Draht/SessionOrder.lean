import Draht.DeferredLog
import Draht.SessionRetry

/-!
# The order of the branch

The agent's state gets a message when its `message_end` is emitted, the branch when the event is
handled. Bash results and custom messages go to both at once, so they may overtake messages whose
event waits. A session in which none does keeps the two in the same order.
-/

namespace Draht
open List Option

def BranchEntry.serials (branch : List BranchEntry) : List ℕ :=
  (branch.filterMap BranchEntry.message?).map SessionMessage.serial

theorem sublist_serials {branch branch' : List BranchEntry} (h : branch.Sublist branch') :
    (BranchEntry.serials branch).Sublist (BranchEntry.serials branch') :=
  (h.filterMap _).map _

theorem serials_branchContext (branch : List BranchEntry) :
    ∃ items, items.Sublist (BranchEntry.serials branch) ∧
      ((branchContext branch).map SessionMessage.serial = items ∨
        (branchContext branch).map SessionMessage.serial = 0 :: items) := by
  unfold branchContext
  cases (pathSettings (branch.map BranchEntry.entry)).compaction with
  | none => exact ⟨_, Sublist.refl _, .inl rfl⟩
  | some c =>
    obtain ⟨c, data⟩ := c
    refine ⟨_, ?_, .inr rfl⟩
    let idx := branch.findIdx (fun b => b.entry.isCompaction && b.entry.id == c.id)
    have hkept : ((branch.take idx).dropWhile (fun b => b.entry.id ≠ data.firstKeptEntryId) ++
        branch.drop (idx + 1)).Sublist branch := by
      conv_rhs => rw [← take_append_drop idx branch]
      refine (dropWhile_sublist _).append ?_
      exact drop_sublist_drop_left branch (Nat.le_succ idx)
    have h := sublist_serials hkept
    rwa [BranchEntry.serials, filterMap_append] at h

theorem serials_sublist (branch : List BranchEntry) :
    (BranchEntry.serials branch).Sublist (branch.map BranchEntry.serial) := by
  induction branch with
  | nil => exact Sublist.refl _
  | cons b branch ih =>
    unfold BranchEntry.serials at ih ⊢
    cases h : contextMessage? b.entry with
    | none =>
      rw [filterMap_cons_none (by simp [BranchEntry.message?, h])]
      exact ih.cons _
    | some m =>
      rw [filterMap_cons_some (b := ⟨b.serial, m⟩) (by simp [BranchEntry.message?, h])]
      exact ih.cons_cons _

namespace AgentSession

variable {cfg : SessionConfig} {s s' : AgentSession}

theorem serials_numbered (entries : List SessionEntry) :
    (BranchEntry.serials (numbered entries)).Sublist (List.range' 1 entries.length) := by
  refine (serials_sublist _).trans ?_
  have h : (numbered entries).map BranchEntry.serial = List.range' 1 entries.length := by
    rw [numbered, List.map_map, ← List.zipIdx_map_snd 1 entries]
    rfl
  rw [h]

def endSerial? : SessionEvent → Option ℕ
  | .messageEnd m => some m.serial
  | _ => none

/-- The agent's messages, the branch, and the messages whose `message_end` is not yet handled. -/
def orderLog (s : AgentSession) : DeferredLog :=
  { live := s.messages.map SessionMessage.serial
    written := BranchEntry.serials s.branch
    pending := s.control.pendingEvents.filterMap endSerial?
    next := s.nextSerial }

/-- The context messages of the branch are in the order of `agent.state.messages`. -/
def SameOrder (s : AgentSession) : Prop :=
  OrderAgrees ((branchContext s.branch).map SessionMessage.serial)
    (s.messages.map SessionMessage.serial)

theorem sameOrder_of_ordered (h : s.orderLog.Ordered) : s.SameOrder := by
  obtain ⟨items, hitems, hcontext⟩ := serials_branchContext s.branch
  exact h.orderAgrees hitems hcontext

theorem ordered_opened (entries : List SessionEntry) : (opened entries).orderLog.Ordered := by
  have hsub := serials_numbered entries
  have hbounds : ∀ n ∈ BranchEntry.serials (numbered entries), 0 < n ∧ n < entries.length + 1 := by
    intro n hn
    have hrange := mem_range'_1.mp (hsub.subset hn)
    omega
  obtain ⟨items, hitems, hcontext⟩ := serials_branchContext (numbered entries)
  have hlog : DeferredLog.Ordered
      { live := [], written := BranchEntry.serials (numbered entries), pending := []
        next := entries.length + 1 } := by
    refine ⟨Nat.succ_pos _, Pairwise.nil, by simp, ?_, ?_, ?_⟩ <;> rw [append_nil]
    · exact (pairwise_lt_range' 1).sublist hsub
    · exact fun n hn => (hbounds n hn).1
    · exact fun n hn => (hbounds n hn).2
  exact hlog.reload hitems hcontext

/-- The agent's state loses messages at most, the branch is as it was. -/
structure Trims (s s' : AgentSession) : Prop where
  messages : s'.messages.Sublist s.messages
  branch : s'.branch = s.branch
  nextSerial : s'.nextSerial = s.nextSerial

theorem Trims.of_eq (hmessages : s'.messages = s.messages) (hbranch : s'.branch = s.branch)
    (hnext : s'.nextSerial = s.nextSerial) : Trims s s' :=
  ⟨hmessages ▸ Sublist.refl _, hbranch, hnext⟩

theorem Trims.refl (s : AgentSession) : Trims s s := .of_eq rfl rfl rfl

variable {s₁ : AgentSession} {listenersReturn : Bool} {e : SessionEvent}

theorem Trims.trans {s₂ s₃ : AgentSession} (h₁ : Trims s₁ s₂) (h₂ : Trims s₂ s₃) : Trims s₁ s₃ :=
  ⟨h₂.messages.trans h₁.messages, h₂.branch.trans h₁.branch, h₂.nextSerial.trans h₁.nextSerial⟩

theorem ordered_of_trims (h : s.orderLog.Ordered) (ht : Trims s s')
    (hpending : s'.orderLog.pending.Sublist s.orderLog.pending) : s'.orderLog.Ordered := by
  have hshrink := h.shrink (ht.messages.map SessionMessage.serial) hpending
  unfold orderLog at hshrink ⊢
  rwa [ht.branch, ht.nextSerial]

theorem dropLastAssistant_sublist (p : AssistantMessage → Bool) (messages : List SessionMessage) :
    (dropLastAssistant p messages).Sublist messages := by
  unfold dropLastAssistant
  split
  · split_ifs
    · exact dropLast_sublist messages
    · exact Sublist.refl _
  · exact Sublist.refl _

theorem trims_checkCompaction (cfg : SessionConfig) (s : AgentSession) (m : AssistantMessage)
    (skipAbortedCheck : Bool) : Trims s (s.checkCompaction cfg m skipAbortedCheck).1 := by
  unfold checkCompaction
  split_ifs
  all_goals first
    | exact .refl s
    | exact ⟨dropLastAssistant_sublist _ _, rfl, rfl⟩

theorem trims_checkBeforePrompt (cfg : SessionConfig) (s : AgentSession) :
    Trims s (s.checkBeforePrompt cfg).1 := by
  unfold checkBeforePrompt
  split
  · exact trims_checkCompaction cfg s _ _
  · exact .refl s

theorem trims_settleRun (cfg : SessionConfig) (s : AgentSession) (m : AssistantMessage) :
    Trims s (s.settleRun cfg m) := by
  have h := trims_checkCompaction cfg s.resolveRetry m true
  exact ⟨h.messages, h.branch, h.nextSerial⟩

theorem Trims.settleRun (h : Trims s s') (m : AssistantMessage) :
    Trims s (s'.settleRun cfg m) :=
  h.trans (trims_settleRun cfg s' m)

theorem trims_handleAgentEnd (cfg : SessionConfig) (s : AgentSession) :
    Trims s (s.handleAgentEnd cfg) := by
  unfold handleAgentEnd
  split
  · exact .of_eq rfl rfl rfl
  · split_ifs
    · unfold handleRetryableError
      dsimp only
      split_ifs
      · apply Trims.settleRun
        exact .of_eq rfl rfl rfl
      · apply Trims.settleRun
        exact .of_eq rfl rfl rfl
      · exact ⟨dropLastAssistant_sublist _ _, rfl, rfl⟩
    · apply Trims.settleRun
      exact .of_eq rfl rfl rfl

theorem trims_trimQueues (s : AgentSession) (text : String) : Trims s (s.trimQueues text) := by
  unfold trimQueues
  split_ifs <;> exact .of_eq rfl rfl rfl

theorem trims_startHandling (s : AgentSession) (e : SessionEvent) :
    Trims s (s.startHandling e) := by
  unfold startHandling
  split
  · have h := trims_trimQueues { s with overflowRecoveryAttempted := false }
    exact ⟨(h _).messages, (h _).branch, (h _).nextSerial⟩
  · exact .of_eq rfl rfl rfl

theorem trims_finishCompaction (s : AgentSession) (reason : CompactionReason) :
    Trims s (s.finishCompaction reason) := by
  cases reason with
  | overflow => exact ⟨dropLastAssistant_sublist _ _, rfl, rfl⟩
  | threshold =>
    unfold finishCompaction
    split_ifs <;> exact .of_eq rfl rfl rfl

theorem trims_setCompaction (s : AgentSession) (compaction : Option AutoCompaction)
    (caller : CompactionCaller) : Trims s (s.setCompaction compaction caller) := by
  cases caller <;> exact .of_eq rfl rfl rfl

theorem trims_agentContinue (h : s.agentContinue cfg = some s') : Trims s s' := by
  unfold agentContinue at h
  split_ifs at h
  split at h
  · cases h
  · dsimp only at h
    split_ifs at h <;> obtain rfl := some.inj h <;> exact .of_eq rfl rfl rfl
  · cases h
    exact .of_eq rfl rfl rfl

theorem orderLog_push (s : AgentSession) (m : AgentMessage) :
    (s.push m).orderLog =
      { s.orderLog with
        live := s.orderLog.live ++ [s.orderLog.next], next := s.orderLog.next + 1 } := by
  simp [orderLog, push, control]

theorem orderLog_handleAgentEvent (cfg : SessionConfig) (s : AgentSession) (e : SessionEvent) :
    (s.handleAgentEvent cfg e).orderLog =
      { s.orderLog with pending := s.orderLog.pending ++ (endSerial? e).toList } := by
  simp only [orderLog, SessionControl.pendingEvents, control, handleAgentEvent,
    filterMap_append, append_assoc]
  cases h : endSerial? e <;> simp [h]

theorem ordered_handleAgentEvent (cfg : SessionConfig) (s : AgentSession) (h : s.orderLog.Ordered)
    (he : endSerial? e = none) : (s.handleAgentEvent cfg e).orderLog.Ordered := by
  rw [orderLog_handleAgentEvent, he]
  simpa using h

theorem ordered_emitMessageEnd (h : s.orderLog.Ordered) (r : SessionRun) (m : AgentMessage) :
    (s.emitMessageEnd cfg r m).orderLog.Ordered := by
  have hrun : (s.emitMessageEnd cfg r m).orderLog =
      ((s.push m).handleAgentEvent cfg
        (.messageEnd { serial := s.nextSerial, message := m })).orderLog := rfl
  rw [hrun, orderLog_handleAgentEvent, orderLog_push]
  exact h.announce

theorem serials_append (branch : List BranchEntry) (b : BranchEntry) :
    BranchEntry.serials (branch ++ [b]) =
      BranchEntry.serials branch ++ (contextMessage? b.entry).toList.map fun _ => b.serial := by
  simp only [BranchEntry.serials, filterMap_append, map_append]
  cases h : contextMessage? b.entry <;> simp [BranchEntry.message?, h]

theorem orderLog_appendEntry (cfg : SessionConfig) (s : AgentSession) (serial : ℕ)
    (body : EntryBody) :
    (s.appendEntry cfg serial body).orderLog =
      { s.orderLog with
        written := s.orderLog.written ++
          (contextMessage?
            ⟨(cfg.stamp s.branch.length).id, s.branch.getLast?.map fun b => b.entry.id,
              (cfg.stamp s.branch.length).timestamp, body⟩).toList.map fun _ => serial } := by
  simp only [orderLog, appendEntry, serials_append]
  rfl

theorem ordered_pushAndAppend (h : s.orderLog.Ordered) (hpending : s.orderLog.pending = [])
    (m : AgentMessage) (body : EntryBody)
    (hbody : ∀ id parentId timestamp, (contextMessage? ⟨id, parentId, timestamp, body⟩).isSome) :
    (s.pushAndAppend cfg m body).orderLog.Ordered ∧
      (s.pushAndAppend cfg m body).orderLog.pending = [] := by
  rw [pushAndAppend, orderLog_appendEntry, orderLog_push]
  obtain ⟨x, hx⟩ := isSome_iff_exists.mp
    (hbody (cfg.stamp (s.push m).branch.length).id
      ((s.push m).branch.getLast?.map fun b => b.entry.id)
      (cfg.stamp (s.push m).branch.length).timestamp)
  rw [hx]
  exact ⟨h.write hpending, hpending⟩

theorem ordered_appendBashMessage (cfg : SessionConfig) (h : s.orderLog.Ordered)
    (hpending : s.orderLog.pending = []) (m : BashExecutionMessage) :
    (s.appendBashMessage cfg m).orderLog.Ordered ∧
      (s.appendBashMessage cfg m).orderLog.pending = [] :=
  ordered_pushAndAppend h hpending (.bashExecution m) (.message (.bashExecution m))
    (fun _ _ _ => rfl)

theorem ordered_foldl_appendBashMessage (messages : List BashExecutionMessage)
    (h : s.orderLog.Ordered) (hpending : s.orderLog.pending = []) :
    (messages.foldl (fun s m => s.appendBashMessage cfg m) s).orderLog.Ordered ∧
      (messages.foldl (fun s m => s.appendBashMessage cfg m) s).orderLog.pending = [] := by
  induction messages generalizing s with
  | nil => exact ⟨h, hpending⟩
  | cons m messages ih =>
    obtain ⟨hordered, hempty⟩ :=
      ordered_appendBashMessage cfg h hpending m
    exact ih hordered hempty

theorem ordered_flushPendingBashMessages (cfg : SessionConfig) (h : s.orderLog.Ordered)
    (hok : s.pendingBashMessages = [] ∨ s.orderLog.pending = []) :
    (s.flushPendingBashMessages cfg).orderLog.Ordered := by
  obtain hnone | hpending := hok
  · have heq : (s.flushPendingBashMessages cfg).orderLog = s.orderLog := by
      unfold flushPendingBashMessages
      rw [hnone]
      rfl
    rwa [heq]
  · exact (ordered_foldl_appendBashMessage s.pendingBashMessages h hpending).1

theorem contextMessage?_entryBodyOf {m : AgentMessage} {body : EntryBody}
    (h : entryBodyOf m = some body) (id : String) (parentId : Option String) (timestamp : ℕ) :
    (contextMessage? ⟨id, parentId, timestamp, body⟩).isSome := by
  cases m <;> first
    | (obtain rfl := some.inj h; rfl)
    | cases h

theorem ordered_messageEnd (h : s.orderLog.Ordered) {m : SessionMessage}
    (hhandler : s.handler = .extensions (.messageEnd m)) :
    (s.finishHandling cfg (.messageEnd m)).orderLog.Ordered := by
  have hpending : s.orderLog.pending =
      m.serial :: s.agentEventQueue.filterMap endSerial? := by
    simp [orderLog, SessionControl.pendingEvents, control, hhandler, EventHandler.event?,
      endSerial?]
  have hrest : ∀ s' : AgentSession, s'.agentEventQueue = s.agentEventQueue →
      { s' with handler := .idle }.orderLog =
        { s'.orderLog with pending := s.agentEventQueue.filterMap endSerial? } := by
    intro s' hqueue
    simp [orderLog, SessionControl.pendingEvents, control, EventHandler.event?, hqueue]
  have htrack : ∀ (s' : AgentSession) (a : AssistantMessage),
      (s'.trackAssistant a).agentEventQueue = s'.agentEventQueue ∧
        Trims s' (s'.trackAssistant a) ∧ Trims (s'.trackAssistant a) s' := by
    intro s' a
    unfold trackAssistant
    split_ifs <;> exact ⟨rfl, .of_eq rfl rfl rfl, .of_eq rfl rfl rfl⟩
  have hpersisted : { s.persist cfg m with handler := .idle }.orderLog.Ordered := by
    unfold persist
    split
    · rename_i body hbody
      rw [hrest (s.appendEntry cfg m.serial body) rfl, orderLog_appendEntry]
      obtain ⟨x, hx⟩ := isSome_iff_exists.mp
        (contextMessage?_entryBodyOf hbody (cfg.stamp s.branch.length).id
          (s.branch.getLast?.map fun b => b.entry.id) (cfg.stamp s.branch.length).timestamp)
      rw [hx]
      exact h.record hpending
    · exact h.shrink (Sublist.refl _) (hpending ▸ sublist_cons_self _ _)
  simp only [finishHandling]
  split
  · rename_i a _
    refine ordered_of_trims hpersisted ?_ ?_
    · obtain ⟨-, htrims, -⟩ := htrack (s.persist cfg m) a
      exact ⟨htrims.messages, htrims.branch, htrims.nextSerial⟩
    · have hqueue := (htrack (s.persist cfg m) a).1
      simp [orderLog, SessionControl.pendingEvents, control, EventHandler.event?, hqueue]
  · exact hpersisted

theorem ordered_saveCompaction (h : s.orderLog.Ordered) (data : CompactionData) :
    (s.saveCompaction cfg data).orderLog.Ordered := by
  have happended : (s.appendEntry cfg 0 (.compaction data)).orderLog.Ordered := by
    rw [orderLog_appendEntry]
    simpa [contextMessage?] using h
  obtain ⟨items, hitems, hcontext⟩ :=
    serials_branchContext (s.appendEntry cfg 0 (.compaction data)).branch
  exact happended.reload hitems hcontext

/-- The condition on a step: what is written to both at once (a bash result, a custom message, the
bash results flushed by a prompt) is written while no `message_end` waits to be handled. -/
def WritesInTurn (s : AgentSession) : SessionAction → Prop
  | .recordBashResult _ => s.isStreaming = true ∨ s.orderLog.pending = []
  | .sendCustomMessage _ triggerTurn deliverAs =>
    s.isStreaming = true ∨ triggerTurn = true ∨ deliverAs = some .nextTurn ∨
      s.orderLog.pending = []
  | .prompt .. => s.isStreaming = true ∨ s.pendingBashMessages = [] ∨ s.orderLog.pending = []
  | _ => True

instance (s : AgentSession) (a : SessionAction) : Decidable (WritesInTurn s a) := by
  unfold WritesInTurn
  split <;> infer_instance

theorem ordered_of_control (h : s.orderLog.Ordered) (ht : Trims s s')
    (hcontrol : s'.control.pendingEvents = s.control.pendingEvents) : s'.orderLog.Ordered :=
  ordered_of_trims h ht (by rw [orderLog, hcontrol]; exact Sublist.refl _)

theorem ordered_prompt (h : s.orderLog.Ordered) {text : String} {images : List ImageContent}
    {behavior : Option QueueName} {hasConfiguredAuth : Bool} {timestamp : ℕ}
    (hok : s.isStreaming = true ∨ s.pendingBashMessages = [] ∨ s.orderLog.pending = []) :
    (s.prompt cfg text images behavior hasConfiguredAuth timestamp).orderLog.Ordered := by
  unfold prompt
  split_ifs with hstreaming hauth
  · split
    · rename_i queue
      cases queue <;> exact h
    · exact h
  · have hflush := ordered_flushPendingBashMessages cfg h (hok.resolve_left hstreaming)
    have htrims := trims_checkBeforePrompt cfg (s.flushPendingBashMessages cfg)
    obtain ⟨m, flag, hcontrol, -⟩ := checkBeforePrompt_outcome cfg (s.flushPendingBashMessages cfg)
    refine ordered_of_control hflush ⟨htrims.messages, htrims.branch, htrims.nextSerial⟩ ?_
    have hqueue := congrArg SessionControl.agentEventQueue hcontrol
    have hhandler := congrArg SessionControl.handler hcontrol
    simp only [SessionControl.pendingEvents, control] at hqueue hhandler ⊢
    rw [hqueue, hhandler]
  · exact ordered_flushPendingBashMessages cfg h (hok.resolve_left hstreaming)

theorem ordered_sendCustomMessage (h : s.orderLog.Ordered) (m : CustomMessage) (triggerTurn : Bool)
    (deliverAs : Option DeliverAs)
    (hok : WritesInTurn s (.sendCustomMessage m triggerTurn deliverAs)) :
    (s.sendCustomMessage cfg m triggerTurn deliverAs).orderLog.Ordered := by
  unfold sendCustomMessage
  split_ifs with hnext hstreaming hfollowUp htrigger
  · exact h
  · exact h
  · exact h
  · unfold agentPrompt
    split_ifs <;> exact h
  · obtain hs | ht | hd | hpending := hok
    · exact (hstreaming hs).elim
    · exact (htrigger ht).elim
    · exact (hnext hd).elim
    · exact (ordered_pushAndAppend h hpending _ _ fun _ _ _ => rfl).1

theorem ordered_recordBashResult (h : s.orderLog.Ordered) (m : BashExecutionMessage)
    (hok : WritesInTurn s (.recordBashResult m)) :
    (s.recordBashResult cfg m).orderLog.Ordered := by
  unfold recordBashResult
  split_ifs with hstreaming
  · exact h
  · exact (ordered_appendBashMessage cfg h (hok.resolve_left hstreaming) m).1

theorem resumeHandler_done {c : SessionControl}
    (h : ControlStep cfg s (.resumeHandler listenersReturn) c) :
    c.agentEventQueue = s.agentEventQueue ∧ c.handler.event? = none := by
  cases h with
  | dropEvent _ => exact ⟨rfl, rfl⟩
  | passEvent _ _ => exact ⟨rfl, rfl⟩
  | @messageEnd m _ => exact ⟨(SessionControl.track_rest s.control m.message).1, rfl⟩
  | ignoreEnd _ _ => exact ⟨rfl, rfl⟩
  | retry _ _ _ _ => exact ⟨rfl, rfl⟩
  | @settle _ _ _ _ compaction _ _ _ _ => cases compaction <;> exact ⟨rfl, rfl⟩
  | quiet hcall => cases hcall

theorem ordered_of_handled (h : s.orderLog.Ordered) (hhandler : s.handler = .extensions e)
    (htrims : Trims s s') (hstep : ControlStep cfg s (.resumeHandler listenersReturn) s'.control) :
    s'.orderLog.Ordered := by
  have hpending : s.control.pendingEvents = e :: s.agentEventQueue :=
    SessionControl.pendingEvents_extensions hhandler
  obtain ⟨hqueue, hevent⟩ := resumeHandler_done hstep
  have hrest : s'.control.pendingEvents = s.agentEventQueue := by
    rw [SessionControl.pendingEvents, hqueue, hevent]
    rfl
  refine ordered_of_trims h htrims ?_
  simp only [orderLog, hrest, hpending]
  exact (sublist_cons_self e _).filterMap _

theorem ordered_finishHandling (h : s.orderLog.Ordered) (hhandler : s.handler = .extensions e) :
    (s.finishHandling cfg e).orderLog.Ordered := by
  cases e with
  | messageEnd m => exact ordered_messageEnd h hhandler
  | messageStart m =>
    have hstep : ControlStep cfg s (.resumeHandler true) _ := .passEvent hhandler rfl
    exact ordered_of_handled h hhandler (.of_eq rfl rfl rfl) hstep
  | other =>
    have hstep : ControlStep cfg s (.resumeHandler true) _ := .passEvent hhandler rfl
    exact ordered_of_handled h hhandler (.of_eq rfl rfl rfl) hstep
  | agentEnd messages =>
    exact ordered_of_handled h hhandler (trims_handleAgentEnd cfg s)
      (handleAgentEnd_control hhandler)

theorem ordered_wakeHandler (h : s.orderLog.Ordered) (htrims : Trims s s')
    (hstep : ControlStep cfg s .wakeHandler s'.control) : s'.orderLog.Ordered := by
  refine ordered_of_control h htrims ?_
  generalize s'.control = c at hstep
  cases hstep with
  | wakeUp hsleeping =>
    simp [SessionControl.pendingEvents, control, hsleeping, EventHandler.event?]
  | @wakeAborted m flag compaction hsleeping houtcome =>
    cases compaction <;>
      simp [SessionControl.pendingEvents, control, hsleeping, EventHandler.event?,
        SessionControl.settle, SessionControl.setCompaction]
  | quiet hcall => cases hcall

theorem ordered_setCompaction {compaction : Option AutoCompaction} {caller : CompactionCaller}
    {x : AutoCompaction} (h : s₁.orderLog.Ordered)
    (hhandler : s₁.control.handler = s.control.handler) (hx : s.compactionOf caller = some x) :
    (s₁.setCompaction compaction caller).orderLog.Ordered := by
  refine ordered_of_control h (trims_setCompaction s₁ compaction caller) ?_
  rw [control_setCompaction]
  exact (SessionControl.pendingEvents_setCompaction compaction hhandler hx).1

theorem ordered_step {a : SessionAction} (h : s.orderLog.Ordered) (hok : WritesInTurn s a)
    (hs : s.step cfg a = some s') : s'.orderLog.Ordered := by
  have hstep := control_step hs
  cases step_cases hs with
  | startInjection => exact ordered_handleAgentEvent cfg { s with run := _ } h rfl
  | endInjection => exact ordered_emitMessageEnd h _ _
  | endMessage => exact ordered_emitMessageEnd h _ _
  | emitOther => exact ordered_handleAgentEvent cfg s h rfl
  | poll queue => cases queue <;> exact h
  | endRun => exact ordered_handleAgentEvent cfg { s with run := _ } h rfl
  | failRun error aborted timestamp =>
    have hpush := h.push
    rw [← orderLog_push s (.assistant (failureMessage cfg error aborted timestamp))] at hpush
    exact ordered_handleAgentEvent cfg { s.push _ with run := _ } hpush rfl
  | finishRun => exact h
  | @startHandler e rest hidle hqueue =>
    have htrims := trims_startHandling { s with agentEventQueue := rest } e
    refine ordered_of_control h ⟨htrims.messages, htrims.branch, htrims.nextSerial⟩ ?_
    rw [control_startHandling]
    simp [SessionControl.pendingEvents, control, hidle, hqueue, EventHandler.event?]
  | dropEvent hhandler => exact ordered_of_handled h hhandler (.of_eq rfl rfl rfl) hstep
  | handleEvent hhandler => exact ordered_finishHandling h hhandler
  | wakeUp => exact ordered_wakeHandler h (.of_eq rfl rfl rfl) hstep
  | wakeAborted =>
    refine ordered_wakeHandler h ?_ hstep
    apply Trims.settleRun
    exact .of_eq rfl rfl rfl
  | failCompaction hx => exact ordered_setCompaction h rfl hx
  | saveCompaction data hx =>
    exact ordered_setCompaction (ordered_saveCompaction h data) rfl hx
  | @finishCompaction caller reason hx =>
    have hfinish : (s.finishCompaction reason).control.handler = s.control.handler ∧
        (s.finishCompaction reason).control.pendingEvents = s.control.pendingEvents := by
      cases reason with
      | overflow => exact ⟨rfl, rfl⟩
      | threshold =>
        unfold finishCompaction
        split_ifs <;> exact ⟨rfl, rfl⟩
    exact ordered_setCompaction
      (ordered_of_control h (trims_finishCompaction s reason) hfinish.2) hfinish.1 hx
  | @continueAgent reason fired hscheduled hfired =>
    subst hfired
    cases hcontinue : agentContinue cfg { s with scheduled := s.scheduled.erase reason } with
    | none => exact h
    | some s₁ =>
      have htrims := trims_agentContinue hcontinue
      obtain ⟨-, messages, hcontrol⟩ := agentContinue_control hcontinue
      refine ordered_of_control h ⟨htrims.messages, htrims.branch, htrims.nextSerial⟩ ?_
      rw [getD_some, hcontrol]
      rfl
  | prompt => exact ordered_prompt h hok
  | buildPrompt => exact h
  | submitPrompt =>
    unfold submitPrompt agentPrompt
    split_ifs <;> exact h
  | queueMessage queue => cases queue <;> exact h
  | sendCustomMessage m triggerTurn deliverAs =>
    exact ordered_sendCustomMessage h m triggerTurn deliverAs hok
  | recordBashResult m => exact ordered_recordBashResult h m hok
  | clearQueue => exact h
  | abortRetry =>
    refine ordered_of_control h (.of_eq rfl rfl rfl) ?_
    have hevent : s.handler.abortSleep.event? = s.handler.event? := by
      cases s.handler <;> rfl
    simp [SessionControl.pendingEvents, control, abortRetry, resolveRetry, hevent]

/-- A session that writes to both at once only while no `message_end` waits keeps the context
messages of its branch in the order of the agent's messages, in every state that it reaches. -/
theorem persistedOrder {entries : List SessionEntry} {steps : List SessionStep}
    (h : Runs cfg WritesInTurn (opened entries) steps s) : s.SameOrder := by
  apply sameOrder_of_ordered
  exact h.induct (P := fun _ s => s.orderLog.Ordered) (ordered_opened entries)
    (fun _ _ _ _ hordered hok hs => ordered_step hordered hok hs)

def bashResult : BashExecutionMessage :=
  { command := "ls", output := "a.txt", exitCode := some 0, cancelled := false, truncated := false
    fullOutputPath := none, timestamp := 2, excludeFromContext := false }

def answeredPrompt : List SessionAction :=
  promptActions "Hi" 0 ++
    [.endMessage (.assistant (response smallConfig .stop none 10 1)), .endRun, .finishRun]

/-- A bash result that is recorded after the events of a run are handled. -/
theorem persistedOrder_answeredPrompt :
    ∃ steps s, (Runs smallConfig WritesInTurn (opened []) steps s ∧
      s.messages.map SessionMessage.serial = [1, 2, 3]) ∧ s.SameOrder := by
  obtain ⟨steps, s, hruns, hlive⟩ := exists_run_of_play smallConfig WritesInTurn (opened [])
    (answeredPrompt ++ handleEvents 6 ++ [.recordBashResult bashResult])
    (fun _ s => s.messages.map SessionMessage.serial = [1, 2, 3]) (by decide +kernel)
  exact ⟨steps, s, ⟨hruns, hlive⟩, persistedOrder hruns⟩

/-- A bash result that is recorded before them is persisted before the prompt. -/
theorem earlyBashResult_misplaced :
    ¬∀ (cfg : SessionConfig) (entries : List SessionEntry) (steps : List SessionStep)
      (s : AgentSession), Runs cfg (fun _ _ => True) (opened entries) steps s → s.Quiescent →
        s.SameOrder := by
  intro h
  obtain ⟨steps, s, hruns, hquiet, hcontext, hlive⟩ := exists_run_of_play smallConfig
    (fun _ _ => True) (opened [])
    (answeredPrompt ++ [.recordBashResult bashResult] ++ handleEvents 6)
    (fun _ s => s.Quiescent ∧ (branchContext s.branch).map SessionMessage.serial = [3, 1, 2] ∧
      s.messages.map SessionMessage.serial = [1, 2, 3]) (by decide +kernel)
  have hsame := h _ _ _ _ hruns hquiet
  unfold SameOrder at hsame
  rw [hcontext, hlive] at hsame
  exact absurd (hsame 3 1 (by decide) (by decide) (by decide)) (by decide)

end AgentSession

end Draht
