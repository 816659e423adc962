import Draht.AgentTrace
import Draht.AgentLedger

/-!
# What holds at a point of a run

One assertion, `View`, describes the world at a point of a run for all the properties of the
agent loop: the parse of the events so far, the messages that ended, the pending calls, the
running tools, the ledger of the queues. Its parameters say which runs are considered.
-/

namespace Draht

/-- `strict`: provider streams obey the protocol, calls made in parallel have distinct ids, and
tools report only before they settle. `plain`: the messages handed to the agent are neither
assistant messages nor tool results, and the ids of the calls of a message are distinct. -/
structure RunScope where
  strict : Prop
  plain : Prop
  listenersThrow : Prop
  providerThrows : Prop

/-- From the end of an assistant message with calls to the end of its last result. -/
def AgentEvent.inToolPhase : AgentEvent → Bool
  | .messageStart m =>
    match m.content with
    | .toolResult _ => true
    | _ => false
  | .messageEnd m =>
    match m.content with
    | .toolResult _ => true
    | .assistant a => !a.failed && a.toolCalls ≠ []
    | _ => false
  | .toolExecutionStart _ _ _ => true
  | .toolExecutionUpdate _ _ _ _ => true
  | .toolExecutionEnd _ _ _ _ => true
  | _ => false

namespace RunScope

variable (σ : RunScope)

structure AllowsStream (mode : ToolExecutionMode) (s : ProviderStream) : Prop where
  protocol : σ.strict → s.obeysProtocol = true
  distinct : ∀ m, s.result = .ok m → σ.plain ∨ (σ.strict ∧ mode = .parallel) →
    (m.toolCalls.map ToolCall.id).Nodup
  result : ∀ e, s.result = .error e → σ.providerThrows

def choice : AgentOp → AgentWorld → Outside → Prop
  | .emit event, _, .throws _ => σ.listenersThrow ∧ event.inToolPhase = false
  | .callLlm _, w, .stream s => σ.AllowsStream w.toolExecution s
  | .callLlm _, _, .throws _ => σ.providerThrows
  | .afterToolCall _ _ _ _ _ _, _, .throws _ => False
  | _, _, _ => True

def action (w : AgentWorld) : AgentAction → Prop
  | .steer m => σ.plain → m.isPlain = true
  | .followUp m => σ.plain → m.isPlain = true
  | .toolUpdate execution _ listenerError => listenerError = none ∧
      (σ.strict → ∃ e, w.executions[execution]? = some e ∧ e.settlement = none)
  | _ => True

def rules : Rules agentMachine where
  choice := σ.choice
  action := σ.action

end RunScope

/-- The items that the loop and `continue()` record. -/
def isLoopItem : TraceItem → Bool
  | .enqueued _ => false
  | .cleared _ _ => false
  | .event (.toolExecutionUpdate _ _ _ _) => false
  | _ => true

def loopItems (trace : List TraceItem) : List TraceItem := trace.filter isLoopItem

/-- The loop polls for follow-ups after a turn without tool calls and a steering poll that
returned nothing; `continue()` drains them when the transcript ends with an assistant message
and draining the steering queue returned nothing. -/
def FollowUpPoint (items : List TraceItem) : DrainedBy → Prop
  | .poll => ∃ m, m.toolCalls = [] ∧ m.failed = false ∧
      [.event (.turnEnd (.assistant m) []), .drained .poll .steering []] <:+ items
  | .continuation => ∃ last, last.isAssistant = true ∧
      [.readLast (some last), .drained .continuation .steering []] <:+ items

theorem FollowUpPoint.mono {items items' : List TraceItem} {drainedBy : DrainedBy}
    (h : FollowUpPoint items drainedBy) (hitems : items <:+ items') :
    FollowUpPoint items' drainedBy := by
  cases drainedBy with
  | poll =>
    obtain ⟨m, hcalls, hfail, hsuffix⟩ := h
    exact ⟨m, hcalls, hfail, hsuffix.trans hitems⟩
  | continuation =>
    obtain ⟨last, hlast, hsuffix⟩ := h
    exact ⟨last, hlast, hsuffix.trans hitems⟩

def FollowUpsInPlace (trace : List TraceItem) : Prop :=
  ∀ before drainedBy batch after, trace = before ++ .drained drainedBy .followUp batch :: after →
    batch ≠ [] → FollowUpPoint (loopItems before) drainedBy

def AgentEndsAnswered (initial : List TranscriptMessage) (trace : List TraceItem) : Prop :=
  ∀ before ms after, trace = before ++ .event (.agentEnd ms) :: after →
    Answered (initial ++ transcriptOf before)

variable {trace : List TraceItem} {item : TraceItem}

theorem forall_split_concat
    {P : List TraceItem → TraceItem → Prop}
    (h : ∀ before x after, trace = before ++ x :: after → P before x) (hitem : P trace item) :
    ∀ before x after, trace ++ [item] = before ++ x :: after → P before x := by
  intro before x after hsplit
  obtain ⟨rest, ht, _⟩ | ⟨rest, rfl, hs⟩ := append_eq_append_cons hsplit
  · exact h before x rest ht
  · cases rest with
    | nil =>
      obtain ⟨rfl, _⟩ := List.cons.inj hs
      simpa using hitem
    | cons y rest =>
      have hlen := congrArg List.length hs
      simp at hlen

/-- Where a run started, and the messages the agent was created with. -/
structure RunStart where
  initial : List TranscriptMessage
  trace : List TraceItem
  messages : List TranscriptMessage
  mode : ToolExecutionMode

/-- A point of a run. `live` are the executions that may not have settled, by number and call
id; `recent` are last items that the loop recorded. -/
structure Point where
  active : Bool
  state : ParseState
  ended : List TranscriptMessage
  flight : List Ticket
  live : List (ℕ × String)
  polled : Bool
  recent : List TraceItem

structure RunTrace (σ : RunScope) (messages : List TranscriptMessage) (state : ParseState)
    (ended : List TranscriptMessage) (run : List TraceItem) : Prop where
  parse : σ.strict → parse (eventsOf run) = some state
  ended : endedMessages run = ended
  contexts : σ.strict → ∀ before context after, run = before ++ .llmCall context :: after →
    context.messages = messages ++ endedMessages before
  ends : ∀ before ms after, run = before ++ .event (.agentEnd ms) :: after →
    ms = endedMessages before

structure Shared (σ : RunScope) (initial : List TranscriptMessage) (w : AgentWorld) : Prop where
  transcript : w.state.messages = initial ++ transcriptOf w.trace
  updates : ∀ e ∈ w.executions, e.updateFailure = none
  plainQueues : σ.plain → ∀ name, ∀ m ∈ (w.queue name).messages, m.isPlain = true
  ledger : ¬ σ.listenersThrow → Ledger w.trace (fun name => (w.queue name).messages)
  followUps : FollowUpsInPlace w.trace
  agentEnds : σ.plain → AgentEndsAnswered initial w.trace

structure View (σ : RunScope) (r : RunStart) (pt : Point) (w : AgentWorld) : Prop where
  shared : Shared σ r.initial w
  active : w.activeRun.isSome = pt.active
  inactive : pt.active = false → pt.live = []
  mode : w.toolExecution = r.mode
  run : ∃ run, w.trace = r.trace ++ run ∧ RunTrace σ r.messages pt.state pt.ended run
  messages : w.state.messages = r.messages ++ pt.ended
  pending : w.state.pendingToolCalls = pt.state.running
  unsettled : ∀ i e, w.executions[i]? = some e → e.settlement = none → ∃ p ∈ pt.live, p.1 = i
  live : ∀ p ∈ pt.live, ∃ e, w.executions[p.1]? = some e ∧ e.toolCall.id = p.2
  running : σ.strict → ∀ p ∈ pt.live, p.2 ∈ pt.state.running ∧ pt.state.phase.inTurn = true
  flight : ¬ σ.listenersThrow → inFlight w.trace = pt.flight
  polled : pt.polled = true → w.skipInitialSteeringPoll = false
  recent : pt.recent <:+ loopItems w.trace

section Concat

variable {σ : RunScope} {messages : List TranscriptMessage} {state state' : ParseState}
  {ended : List TranscriptMessage} {run : List TraceItem}

theorem RunTrace.silent (h : RunTrace σ messages state ended run)
    (hevent : eventOf item = none)
    (hcall : σ.strict → ∀ context, item = .llmCall context → context.messages = messages ++ ended) :
    RunTrace σ messages state ended (run ++ [item]) := by
  have hnone : eventsOf [item] = [] := by simp [eventsOf, hevent]
  refine ⟨?_, ?_, ?_, ?_⟩
  · intro hs
    rw [eventsOf_append, hnone, List.append_nil]
    exact h.parse hs
  · rw [endedMessages, eventsOf_append, hnone, List.append_nil]
    exact h.ended
  · intro hs before context after hsplit
    refine forall_split_concat (P := fun before x => ∀ context, x = .llmCall context →
        context.messages = messages ++ endedMessages before)
      (fun before x after hsplit context hx => h.contexts hs before context after (hx ▸ hsplit))
      ?_ before _ after hsplit context rfl
    intro context hx
    rw [h.ended]
    exact hcall hs context hx
  · intro before ms after hsplit
    refine forall_split_concat (P := fun before x => ∀ ms, x = .event (.agentEnd ms) →
        ms = endedMessages before)
      (fun before x after hs ms hx => h.ends before ms after (hx ▸ hs))
      ?_ before _ after hsplit ms rfl
    rintro ms rfl
    cases hevent

theorem RunTrace.event (h : RunTrace σ messages state ended run) {e : AgentEvent}
    (hstep : σ.strict → state.step e = some state') (hend : ∀ ms, e = .agentEnd ms → ms = ended) :
    RunTrace σ messages state' (ended ++ (endedOf e).toList) (run ++ [.event e]) := by
  refine ⟨?_, ?_, ?_, ?_⟩
  · intro hs
    have he : eventsOf [.event e] = [e] := rfl
    rw [eventsOf_append, he, parse_concat, h.parse hs]
    exact hstep hs
  · rw [endedMessages_append, h.ended]
    cases hended : endedOf e <;> simp [endedMessages, eventsOf, eventOf, hended]
  · intro hs before context after hsplit
    exact forall_split_concat (P := fun before x => ∀ context, x = .llmCall context →
        context.messages = messages ++ endedMessages before)
      (fun before x after hsplit context hx => h.contexts hs before context after (hx ▸ hsplit))
      (fun context hx => by cases hx) before _ after hsplit context rfl
  · intro before ms after hsplit
    refine forall_split_concat (P := fun before x => ∀ ms, x = .event (.agentEnd ms) →
        ms = endedMessages before)
      (fun before x after hs ms hx => h.ends before ms after (hx ▸ hs))
      ?_ before _ after hsplit ms rfl
    intro ms hms
    rw [h.ended]
    exact hend ms (TraceItem.event.inj hms)

theorem FollowUpsInPlace.concat (h : FollowUpsInPlace trace)
    (hitem : ∀ drainedBy batch, item = .drained drainedBy .followUp batch →
      batch ≠ [] → FollowUpPoint (loopItems trace) drainedBy) :
    FollowUpsInPlace (trace ++ [item]) := by
  intro before drainedBy batch after hsplit hne
  exact forall_split_concat (P := fun before x => ∀ drainedBy batch,
      x = .drained drainedBy .followUp batch → batch ≠ [] →
        FollowUpPoint (loopItems before) drainedBy)
    (fun before x after hs drainedBy batch hx => h before drainedBy batch after (hx ▸ hs))
    hitem before _ after hsplit drainedBy batch rfl hne

theorem AgentEndsAnswered.concat {initial : List TranscriptMessage}
    (h : AgentEndsAnswered initial trace)
    (hitem : ∀ ms, item = .event (.agentEnd ms) → Answered (initial ++ transcriptOf trace)) :
    AgentEndsAnswered initial (trace ++ [item]) := by
  intro before ms after hsplit
  exact forall_split_concat (P := fun before x => ∀ ms, x = .event (.agentEnd ms) →
      Answered (initial ++ transcriptOf before))
    (fun before x after hs ms hx => h before ms after (hx ▸ hs))
    hitem before _ after hsplit ms rfl

theorem loopItems_concat (trace : List TraceItem) (item : TraceItem) :
    loopItems (trace ++ [item]) = loopItems trace ++ if isLoopItem item then [item] else [] := by
  rw [loopItems, List.filter_append]
  congr 1
  cases hi : isLoopItem item <;> simp [hi]

theorem recent_concat {recent : List TraceItem} (h : recent <:+ loopItems trace)
    (hitem : isLoopItem item = true) :
    recent ++ [item] <:+ loopItems (trace ++ [item]) := by
  rw [loopItems_concat, if_pos hitem]
  obtain ⟨before, hb⟩ := h
  exact ⟨before, by rw [← List.append_assoc, hb]⟩

theorem recent_other {recent : List TraceItem} (h : recent <:+ loopItems trace)
    (hitem : isLoopItem item = false) :
    recent <:+ loopItems (trace ++ [item]) := by
  rw [loopItems_concat, hitem]
  simpa using h

/-- Recording one item keeps what holds at all times, if the ledger and the rules about
follow-ups and ends of runs allow it. -/
theorem Shared.concat {initial : List TranscriptMessage} {w w' : AgentWorld}
    (h : Shared σ initial w) (htrace : w'.trace = w.trace ++ [item])
    (hmessages : w'.state.messages = w.state.messages ++ (pushedOf item).toList)
    (hupdates : ∀ e ∈ w'.executions, e.updateFailure = none)
    (hplain : σ.plain → ∀ name, ∀ m ∈ (w'.queue name).messages, m.isPlain = true)
    (hledger : ¬ σ.listenersThrow → Ledger w.trace (fun name => (w.queue name).messages) →
      Ledger (w.trace ++ [item]) (fun name => (w'.queue name).messages))
    (hfollowUp : ∀ drainedBy batch, item = .drained drainedBy .followUp batch → batch ≠ [] →
      FollowUpPoint (loopItems w.trace) drainedBy)
    (hend : σ.plain → ∀ ms, item = .event (.agentEnd ms) → Answered w.state.messages) :
    Shared σ initial w' := by
  refine ⟨?_, hupdates, hplain, ?_, ?_, ?_⟩
  · have hpushed : transcriptOf [item] = (pushedOf item).toList := by
      cases hp : pushedOf item <;> simp [transcriptOf, hp]
    rw [hmessages, htrace, transcriptOf_append, h.transcript, List.append_assoc, hpushed]
  · intro hl
    rw [htrace]
    exact hledger hl (h.ledger hl)
  · rw [htrace]
    exact h.followUps.concat hfollowUp
  · intro hp
    rw [htrace]
    apply (h.agentEnds hp).concat
    intro ms hms
    rw [← h.transcript]
    exact hend hp ms hms

theorem Shared.congr {initial : List TranscriptMessage} {w w' : AgentWorld}
    (h : Shared σ initial w) (htrace : w'.trace = w.trace)
    (hmessages : w'.state.messages = w.state.messages)
    (hupdates : ∀ e ∈ w'.executions, e.updateFailure = none)
    (hqueues : ∀ name, (w'.queue name).messages = (w.queue name).messages) :
    Shared σ initial w' := by
  refine ⟨?_, hupdates, ?_, ?_, ?_, ?_⟩
  · rw [hmessages, htrace]
    exact h.transcript
  · intro hp name
    rw [hqueues]
    exact h.plainQueues hp name
  · intro hl
    simp only [hqueues, htrace]
    exact h.ledger hl
  · rw [htrace]
    exact h.followUps
  · intro hp
    rw [htrace]
    exact h.agentEnds hp

end Concat

end Draht
