import Draht.Outbox
import Draht.SessionOrder

/-!
# The order of bash results

A bash result that is recorded while the agent streams waits until the next prompt; one that is
recorded while the agent is idle enters the agent's messages and the branch at once. The results
enter in the order in which they were recorded as long as none enters at once while others wait.
-/

namespace Draht
open List Option

def AgentMessage.bash? : AgentMessage → Option BashExecutionMessage
  | .bashExecution m => some m
  | _ => none

def SessionEntry.bash? (e : SessionEntry) : Option BashExecutionMessage :=
  match e.body with
  | .message m => m.bash?
  | _ => none

namespace AgentSession

/-- The bash results among messages, with the serials of the messages. -/
def bashMessages (messages : List SessionMessage) : List (ℕ × BashExecutionMessage) :=
  messages.filterMap fun m => m.message.bash?.map fun bash => (m.serial, bash)

def bashEntries (branch : List BranchEntry) : List (ℕ × BashExecutionMessage) :=
  branch.filterMap fun b => b.entry.bash?.map fun bash => (b.serial, bash)

/-- The bash results of a session: those that have entered both lists, and those that wait. -/
def outbox (s : AgentSession) : Outbox BashExecutionMessage :=
  { live := bashMessages s.messages, log := bashEntries s.branch
    waiting := s.pendingBashMessages, next := s.nextSerial }

def recordedAt : SessionAction → List BashExecutionMessage
  | .recordBashResult m => [m]
  | _ => []

/-- The bash results that `agent.state.messages` gets at a step. -/
def enteredAt (t : SessionStep) : List BashExecutionMessage :=
  Outbox.since t.before.nextSerial (bashMessages t.after.messages)

/-- What has entered the agent's messages and the branch are the results recorded so far, in their
order and each once, but for those that wait. -/
def BashInOrder (first : AgentSession) (steps : List SessionStep) (s : AgentSession) : Prop :=
  steps.flatMap enteredAt ++ s.pendingBashMessages =
      first.pendingBashMessages ++ steps.flatMap (fun t => recordedAt t.action) ∧
    (bashEntries s.branch).map Prod.snd =
      (bashEntries first.branch).map Prod.snd ++ steps.flatMap enteredAt

/-- The condition on a step: no result is recorded while the agent is idle and others wait. -/
def RecordsInTurn (s : AgentSession) : SessionAction → Prop
  | .recordBashResult _ => s.isStreaming = true ∨ s.pendingBashMessages = []
  | _ => True

theorem recordsInTurn_iff (s : AgentSession) (a : SessionAction) :
    (recordedAt a = [] ∨ s.isStreaming = true ∨ s.pendingBashMessages = []) ↔ RecordsInTurn s a := by
  cases a <;> simp [recordedAt, RecordsInTurn]

instance (s : AgentSession) (a : SessionAction) : Decidable (RecordsInTurn s a) :=
  decidable_of_iff _ (recordsInTurn_iff s a)

variable {cfg : SessionConfig} {s s' : AgentSession}

theorem bashMessages_append (messages messages' : List SessionMessage) :
    bashMessages (messages ++ messages') = bashMessages messages ++ bashMessages messages' :=
  filterMap_append

theorem bashEntries_append (branch branch' : List BranchEntry) :
    bashEntries (branch ++ branch') = bashEntries branch ++ bashEntries branch' :=
  filterMap_append

theorem outbox_push {m : AgentMessage} (h : m.bash? = none) :
    (s.push m).outbox = { s.outbox with next := s.nextSerial + 1 } := by
  have hone : bashMessages [{ serial := s.nextSerial, message := m }] = [] := by
    simp [bashMessages, h]
  rw [outbox, push, bashMessages_append, hone, append_nil]
  rfl

theorem outbox_appendEntry (serial : ℕ) {body : EntryBody}
    (h : ∀ m, body ≠ .message (.bashExecution m)) :
    (s.appendEntry cfg serial body).outbox = s.outbox := by
  have hnone (e : SessionEntry) (he : e.body = body) : e.bash? = none := by
    unfold SessionEntry.bash? AgentMessage.bash?
    rw [he]
    split
    · split
      · exact absurd rfl (h _)
      · rfl
    · rfl
  unfold outbox appendEntry
  simp [bashEntries, hnone]

theorem outbox_appendBashMessage (m : BashExecutionMessage) :
    (s.appendBashMessage cfg m).outbox = s.outbox.enter m := by
  unfold appendBashMessage pushAndAppend appendEntry push outbox Outbox.enter
  rw [bashMessages_append, bashEntries_append]
  rfl

theorem outbox_flush : (s.flushPendingBashMessages cfg).outbox = s.outbox.flush := by
  have hfold (messages : List BashExecutionMessage) (s : AgentSession) :
      (messages.foldl (fun s m => s.appendBashMessage cfg m) s).outbox =
        messages.foldl Outbox.enter s.outbox := by
    induction messages generalizing s with
    | nil => rfl
    | cons m messages ih => rw [foldl_cons, ih, outbox_appendBashMessage, foldl_cons]
  unfold flushPendingBashMessages Outbox.flush
  rw [show s.outbox.waiting = s.pendingBashMessages from rfl, ← hfold]
  rfl

theorem bashMessages_dropLastAssistant (p : AssistantMessage → Bool)
    (messages : List SessionMessage) :
    bashMessages (dropLastAssistant p messages) = bashMessages messages := by
  unfold dropLastAssistant
  split
  · rename_i serial m hlast
    split_ifs
    · obtain ⟨messages, rfl⟩ := getLast?_eq_some_iff.mp hlast
      rw [dropLast_concat, bashMessages_append]
      exact (append_nil _).symm
    · rfl
  · rfl

theorem outbox_checkCompaction (m : AssistantMessage) (skipAbortedCheck : Bool) :
    (s.checkCompaction cfg m skipAbortedCheck).1.outbox = s.outbox := by
  unfold checkCompaction
  split_ifs
  all_goals first
    | rfl
    | unfold outbox
      rw [bashMessages_dropLastAssistant]

theorem outbox_checkBeforePrompt : (s.checkBeforePrompt cfg).1.outbox = s.outbox := by
  unfold checkBeforePrompt
  split
  · exact outbox_checkCompaction _ _
  · rfl

theorem outbox_settleRun (m : AssistantMessage) : (s.settleRun cfg m).outbox = s.outbox := by
  have h : (s.resolveRetry.checkCompaction cfg m true).1.outbox = s.resolveRetry.outbox :=
    outbox_checkCompaction m true
  exact h

theorem outbox_handleAgentEnd : (s.handleAgentEnd cfg).outbox = s.outbox := by
  unfold handleAgentEnd
  split
  · rfl
  · split_ifs
    · unfold handleRetryableError
      dsimp only
      split_ifs
      · exact outbox_settleRun _
      · exact outbox_settleRun _
      · unfold outbox
        rw [bashMessages_dropLastAssistant]
    · exact outbox_settleRun _

theorem outbox_startHandling (e : SessionEvent) : (s.startHandling e).outbox = s.outbox := by
  unfold startHandling
  split
  · unfold trimQueues
    split_ifs <;> rfl
  · rfl

theorem outbox_persist (m : SessionMessage) : (s.persist cfg m).outbox = s.outbox := by
  unfold persist
  split
  · rename_i body hbody
    refine outbox_appendEntry _ fun bash hbash => ?_
    subst hbash
    cases h : m.message <;> rw [h] at hbody <;> cases hbody
  · rfl

theorem outbox_finishHandling (e : SessionEvent) : (s.finishHandling cfg e).outbox = s.outbox := by
  unfold finishHandling
  split
  · split
    · unfold trackAssistant
      split_ifs <;> exact outbox_persist _
    · exact outbox_persist _
  · exact outbox_handleAgentEnd
  · rfl

theorem outbox_finishCompaction (reason : CompactionReason) :
    (s.finishCompaction reason).outbox = s.outbox := by
  cases reason with
  | overflow =>
    unfold finishCompaction outbox
    rw [bashMessages_dropLastAssistant]
  | threshold =>
    unfold finishCompaction
    split_ifs <;> rfl

theorem outbox_setCompaction (compaction : Option AutoCompaction) (caller : CompactionCaller) :
    (s.setCompaction compaction caller).outbox = s.outbox := by
  cases caller <;> rfl

theorem outbox_agentContinue (h : s.agentContinue cfg = some s') : s'.outbox = s.outbox := by
  unfold agentContinue at h
  split_ifs at h
  split at h
  · cases h
  · dsimp only at h
    split_ifs at h <;> obtain rfl := some.inj h <;> rfl
  · cases h
    rfl

theorem mem_bashEntries_of_context {branch : List BranchEntry} {p : ℕ × BashExecutionMessage}
    (hp : p ∈ bashMessages (branchContext branch)) : p ∈ bashEntries branch := by
  obtain ⟨m, hm, hbash⟩ := mem_filterMap.mp hp
  obtain ⟨b, hb, hmessage⟩ | ⟨c, data, rfl⟩ : (∃ b ∈ branch, b.message? = some m) ∨
      ∃ c data, m = { serial := 0, message := compactionSummaryOf c data } := by
    unfold branchContext at hm
    cases hcompaction : (pathSettings (branch.map BranchEntry.entry)).compaction with
    | none =>
      rw [hcompaction] at hm
      exact .inl (mem_filterMap.mp hm)
    | some c =>
      obtain ⟨c, data⟩ := c
      rw [hcompaction] at hm
      obtain rfl | hm := mem_cons.mp hm
      · exact .inr ⟨c, data, rfl⟩
      · refine .inl ?_
        obtain hm | hm := mem_append.mp hm
        · obtain ⟨b, hb, hmessage⟩ := mem_filterMap.mp hm
          exact ⟨b, mem_of_mem_take ((dropWhile_sublist _).subset hb), hmessage⟩
        · obtain ⟨b, hb, hmessage⟩ := mem_filterMap.mp hm
          exact ⟨b, mem_of_mem_drop hb, hmessage⟩
  · obtain ⟨message, hcontext, rfl⟩ := map_eq_some_iff.mp hmessage
    refine mem_filterMap.mpr ⟨b, hb, ?_⟩
    have hsame : b.entry.bash? = message.bash? := by
      unfold contextMessage? at hcontext
      unfold SessionEntry.bash?
      split at hcontext
      · rename_i hbody
        rw [hbody]
        exact congrArg AgentMessage.bash? (some.inj hcontext)
      · rename_i hbody
        rw [hbody, ← some.inj hcontext]
        rfl
      · rename_i hbody
        split_ifs at hcontext
        rw [hbody, ← some.inj hcontext]
        rfl
      · cases hcontext
    rw [hsame]
    exact hbash
  · cases hbash

theorem outbox_keeps (hnext : s.nextSerial ≤ s'.nextSerial)
    (h : s'.outbox = { s.outbox with next := s'.nextSerial }) :
    Outbox.Step s.outbox [] s'.outbox := by
  rw [h]
  exact .keep ⟨fun _ hp => .inl hp, rfl, rfl, hnext⟩

theorem outbox_same (h : s'.outbox = s.outbox) : Outbox.Step s.outbox [] s'.outbox := by
  rw [h]
  exact .keep ⟨fun _ hp => .inl hp, rfl, rfl, Nat.le_refl _⟩

theorem outbox_saveCompaction (data : CompactionData) :
    Outbox.Step s.outbox [] (s.saveCompaction cfg data).outbox := by
  have happend : (s.appendEntry cfg 0 (.compaction data)).outbox = s.outbox :=
    outbox_appendEntry 0 (fun _ h => nomatch h)
  have hlog : (s.saveCompaction cfg data).outbox.log = s.outbox.log := by
    have h := congrArg Outbox.log happend
    exact h
  refine .keep ⟨fun p hp => .inr ?_, hlog, rfl, Nat.le_refl _⟩
  rw [← hlog]
  exact mem_bashEntries_of_context hp

theorem outbox_emitMessageEnd (r : SessionRun) {m : AgentMessage} (h : m.bash? = none) :
    Outbox.Step s.outbox [] (s.emitMessageEnd cfg r m).outbox := by
  have hpush : (s.emitMessageEnd cfg r m).outbox = (s.push m).outbox := rfl
  exact outbox_keeps (Nat.le_succ _) (hpush.trans (outbox_push h))

theorem outbox_prompt (text : String) (images : List ImageContent) (behavior : Option QueueName)
    (hasConfiguredAuth : Bool) (timestamp : ℕ) :
    Outbox.Step s.outbox []
      (s.prompt cfg text images behavior hasConfiguredAuth timestamp).outbox := by
  unfold prompt
  split_ifs
  · split
    · rename_i queue
      cases queue <;> exact outbox_same rfl
    · exact outbox_same rfl
  · have hchecked : ((s.flushPendingBashMessages cfg).checkBeforePrompt cfg).1.outbox =
        s.outbox.flush := outbox_checkBeforePrompt.trans outbox_flush
    have hstep : Outbox.Step s.outbox []
        ((s.flushPendingBashMessages cfg).checkBeforePrompt cfg).1.outbox := by
      rw [hchecked]
      exact .flush
    exact hstep
  · rw [outbox_flush]
    exact .flush

theorem outbox_sendCustomMessage (m : CustomMessage) (triggerTurn : Bool)
    (deliverAs : Option DeliverAs) :
    Outbox.Step s.outbox [] (s.sendCustomMessage cfg m triggerTurn deliverAs).outbox := by
  unfold sendCustomMessage
  split_ifs
  · exact outbox_same rfl
  · exact outbox_same rfl
  · exact outbox_same rfl
  · unfold agentPrompt
    split_ifs <;> exact outbox_same rfl
  · refine outbox_keeps (Nat.le_succ _) ((outbox_appendEntry _ ?_).trans (outbox_push rfl))
    exact fun _ h => nomatch h

theorem outbox_recordBashResult (m : BashExecutionMessage)
    (hok : s.isStreaming = true ∨ s.pendingBashMessages = []) :
    Outbox.Step s.outbox [m] (s.recordBashResult cfg m).outbox := by
  unfold recordBashResult
  split_ifs with hstreaming
  · exact .defer m
  · rw [outbox_appendBashMessage]
    exact .enter m (hok.resolve_left hstreaming)

theorem outbox_step {a : SessionAction} (hok : RecordsInTurn s a)
    (hs : s.step cfg a = some s') : Outbox.Step s.outbox (recordedAt a) s'.outbox := by
  cases step_cases hs with
  | startInjection | emitOther | endRun | finishRun => exact outbox_same rfl
  | @endInjection r m => cases hm : m.message <;> exact outbox_emitMessageEnd r rfl
  | @endMessage r m => cases m <;> exact outbox_emitMessageEnd r rfl
  | poll queue => cases queue <;> exact outbox_same rfl
  | failRun => exact outbox_keeps (Nat.le_succ _) (outbox_push (s := s) rfl)
  | startHandler => exact outbox_same (outbox_startHandling _)
  | dropEvent | wakeUp | buildPrompt | clearQueue | abortRetry => exact outbox_same rfl
  | handleEvent => exact outbox_same (outbox_finishHandling _)
  | wakeAborted => exact outbox_same (outbox_settleRun _)
  | failCompaction => exact outbox_same (outbox_setCompaction _ _)
  | saveCompaction data =>
    rw [outbox_setCompaction]
    exact outbox_saveCompaction data
  | finishCompaction =>
    exact outbox_same ((outbox_setCompaction _ _).trans (outbox_finishCompaction _))
  | @continueAgent reason fired hscheduled hfired =>
    subst hfired
    cases hcontinue : agentContinue cfg { s with scheduled := s.scheduled.erase reason } with
    | none => exact outbox_same rfl
    | some s₁ =>
      have hsame := outbox_agentContinue hcontinue
      exact outbox_same hsame
  | prompt text images behavior hasConfiguredAuth timestamp =>
    exact outbox_prompt text images behavior hasConfiguredAuth timestamp
  | submitPrompt extensionMessages =>
    unfold submitPrompt agentPrompt
    split_ifs <;> exact outbox_same rfl
  | queueMessage queue => cases queue <;> exact outbox_same rfl
  | sendCustomMessage m triggerTurn deliverAs =>
    exact outbox_sendCustomMessage m triggerTurn deliverAs
  | recordBashResult m => exact outbox_recordBashResult m hok

theorem bounded_opened (entries : List SessionEntry) : (opened entries).outbox.Bounded := by
  have hlog : ∀ p ∈ bashEntries (numbered entries), p.1 < entries.length + 1 := by
    intro p hp
    obtain ⟨b, hb, hbash⟩ := mem_filterMap.mp hp
    obtain ⟨bash, -, rfl⟩ := map_eq_some_iff.mp hbash
    obtain ⟨⟨e, serial⟩, he, rfl⟩ := mem_map.mp hb
    have hbound := (mem_zipIdx he).2.1
    change serial < _
    omega
  exact ⟨fun p hp => hlog p (mem_bashEntries_of_context hp), hlog⟩

/-- In a run in which no bash result is recorded while the agent is idle and others wait, the
results enter the agent's messages and the branch in the order in which they were recorded, each
once, in every state that it reaches. -/
theorem bashInOrder {entries : List SessionEntry} {steps : List SessionStep}
    (h : Runs cfg RecordsInTurn (opened entries) steps s) :
    BashInOrder (opened entries) steps s := by
  refine (h.induct (P := fun steps s => s.outbox.Bounded ∧ BashInOrder (opened entries) steps s)
    ⟨bounded_opened entries, rfl, (append_nil _).symm⟩ ?_).2
  rintro steps s a s' ⟨hbounded, hwaiting, hlog⟩ hok hs
  obtain ⟨hbounded', items, henters, hitems⟩ := (outbox_step hok hs).enters hbounded
  have hentered : enteredAt ⟨s, a, s'⟩ = items := henters.live
  refine ⟨hbounded', ?_, ?_⟩
  · rw [flatMap_append, flatMap_append, flatMap_singleton, flatMap_singleton,
      hentered, append_assoc]
    have hrest : items ++ s'.pendingBashMessages = s.pendingBashMessages ++ recordedAt a := hitems
    rw [hrest, ← append_assoc, hwaiting, append_assoc]
  · have hnew : (bashEntries s'.branch).map Prod.snd =
        (bashEntries s.branch).map Prod.snd ++ items := henters.log
    rw [hnew, hlog, flatMap_append, flatMap_singleton, hentered, append_assoc]

def laterResult : BashExecutionMessage := { bashResult with command := "pwd", timestamp := 3 }

/-- A result is recorded while the agent answers a prompt, another one when it is done, and then
there is a second prompt. -/
def twoResults : List SessionAction :=
  promptActions "Hi" 0 ++ [.recordBashResult bashResult,
    .endMessage (.assistant (response smallConfig .stop none 10 1)), .endRun, .finishRun] ++
      handleEvents 6 ++ [.recordBashResult laterResult, .prompt "Go on" [] none true 4]

/-- The later result is in the agent's messages and on the branch before the earlier one. -/
theorem laterResult_first :
    ¬∀ (cfg : SessionConfig) (entries : List SessionEntry) (steps : List SessionStep)
      (s : AgentSession), Runs cfg (fun _ _ => True) (opened entries) steps s →
        BashInOrder (opened entries) steps s := by
  intro h
  obtain ⟨steps, s, hruns, hentered, hrecorded, hwaiting⟩ := exists_run_of_play smallConfig
    (fun _ _ => True) (opened []) twoResults
    (fun steps s => steps.flatMap enteredAt = [laterResult, bashResult] ∧
      steps.flatMap (fun t => recordedAt t.action) = [bashResult, laterResult] ∧
      s.pendingBashMessages = []) (by decide +kernel)
  have horder := (h _ _ _ _ hruns).1
  rw [hentered, hrecorded, hwaiting] at horder
  exact absurd horder (by decide)

/-- A result that waits until the second prompt. -/
theorem bashInOrder_oneResult :
    ∃ steps s, Runs smallConfig RecordsInTurn (opened []) steps s ∧
      steps.flatMap enteredAt = [bashResult] ∧ BashInOrder (opened []) steps s := by
  obtain ⟨steps, s, hruns, hentered⟩ := exists_run_of_play smallConfig RecordsInTurn (opened [])
    (promptActions "Hi" 0 ++ [.recordBashResult bashResult,
      .endMessage (.assistant (response smallConfig .stop none 10 1)), .endRun, .finishRun] ++
        handleEvents 6 ++ [.prompt "Go on" [] none true 4])
    (fun steps _ => steps.flatMap enteredAt = [bashResult]) (by decide +kernel)
  exact ⟨steps, s, hruns, hentered, bashInOrder hruns⟩

end AgentSession

end Draht
