import Mathlib.Data.List.Nodup
import Mathlib.Data.List.TakeWhile
import Draht.AgentWorld

/-!
# Readings of a trace

The grammar of the event stream as a recogniser, the messages that ended, and what became of
the queued messages: injected, drained and still in flight, or cleared. A transcript is answered
when every tool call of an assistant message that did not fail is followed, before the next
assistant message, by exactly one tool result with its id.
-/

namespace Draht

inductive Phase where
  | start
  | between
  | turn
  | message (message : TranscriptMessage)
  | finished
deriving DecidableEq

/-- Where the recogniser is: the phase, and the ids of the tool calls started and not ended. -/
structure ParseState where
  phase : Phase
  running : List String
deriving DecidableEq

def Phase.inTurn : Phase → Bool
  | .turn => true
  | .message _ => true
  | _ => false

/-- A message that ends is the one that started, or the final version of a streamed one. -/
def sameMessage (started ended : TranscriptMessage) : Bool :=
  started = ended || (started.isAssistant && ended.isAssistant)

/-- `agent_start`, then turns, then `agent_end`. A turn is `turn_start`, brackets
`message_start message_update* message_end`, for each call id brackets `tool_execution_start
tool_execution_update* tool_execution_end` whose updates may fall into a message bracket, and
`turn_end` once all calls have ended. -/
def ParseState.step (s : ParseState) : AgentEvent → Option ParseState
  | .agentStart => if s.phase = .start then some { s with phase := .between } else none
  | .turnStart => if s.phase = .between then some { s with phase := .turn } else none
  | .messageStart m => if s.phase = .turn then some { s with phase := .message m } else none
  | .messageUpdate m _ =>
    match s.phase with
    | .message started =>
      if started.isAssistant && m.isAssistant then some { s with phase := .message m } else none
    | _ => none
  | .messageEnd m =>
    match s.phase with
    | .message started => if sameMessage started m then some { s with phase := .turn } else none
    | _ => none
  | .toolExecutionStart id _ _ =>
    if s.phase = .turn ∧ id ∉ s.running then some { s with running := s.running ++ [id] }
    else none
  | .toolExecutionUpdate id _ _ _ =>
    if s.phase.inTurn ∧ id ∈ s.running then some s else none
  | .toolExecutionEnd id _ _ _ =>
    if s.phase = .turn ∧ id ∈ s.running then
      some { s with running := s.running.filter (fun x => x ≠ id) }
    else none
  | .turnEnd _ _ =>
    if s.phase = .turn ∧ s.running = [] then some { s with phase := .between } else none
  | .agentEnd _ => if s.phase = .between then some { s with phase := .finished } else none

def parseFrom (s : ParseState) (events : List AgentEvent) : Option ParseState :=
  events.foldlM ParseState.step s

def parse (events : List AgentEvent) : Option ParseState := parseFrom ⟨.start, []⟩ events

theorem parseFrom_append (s : ParseState) (events events' : List AgentEvent) :
    parseFrom s (events ++ events') = (parseFrom s events).bind (parseFrom · events') :=
  List.foldlM_append ..

variable (events : List AgentEvent) (t t' : List TraceItem)

theorem parse_concat (e : AgentEvent) : parse (events ++ [e]) = (parse events).bind (·.step e) := by
  rw [parse, parseFrom_append, parse]
  congr 1
  funext s
  cases hs : s.step e <;> simp [parseFrom, hs]

def eventOf : TraceItem → Option AgentEvent
  | .event e => some e
  | _ => none

def eventsOf (trace : List TraceItem) : List AgentEvent := trace.filterMap eventOf

def endedOf : AgentEvent → Option TranscriptMessage
  | .messageEnd m => some m
  | _ => none

def endedMessages (trace : List TraceItem) : List TranscriptMessage :=
  (eventsOf trace).filterMap endedOf

theorem eventsOf_append : eventsOf (t ++ t') = eventsOf t ++ eventsOf t' :=
  List.filterMap_append ..

theorem endedMessages_append : endedMessages (t ++ t') = endedMessages t ++ endedMessages t' := by
  rw [endedMessages, eventsOf_append, List.filterMap_append]
  rfl

def pushedOf : TraceItem → Option TranscriptMessage
  | .event e => endedOf e
  | .failed m => some m
  | _ => none

def transcriptOf (trace : List TraceItem) : List TranscriptMessage := trace.filterMap pushedOf

theorem transcriptOf_append :
    transcriptOf (t ++ t') = transcriptOf t ++ transcriptOf t' := List.filterMap_append ..

@[simp] theorem ticketsOf_append (ms ms' : List TranscriptMessage) :
    ticketsOf (ms ++ ms') = ticketsOf ms ++ ticketsOf ms' := List.filterMap_append ..

@[simp] theorem serialsOf_append (name : QueueName) (ts ts' : List Ticket) :
    serialsOf name (ts ++ ts') = serialsOf name ts ++ serialsOf name ts' :=
  List.filterMap_append ..

def clearedOf (name : QueueName) : TraceItem → List TranscriptMessage
  | .cleared queue ms => if queue = name then ms else []
  | _ => []

def injectedSerials (name : QueueName) (trace : List TraceItem) : List ℕ :=
  serialsOf name (ticketsOf (transcriptOf trace))

def clearedSerials (name : QueueName) (trace : List TraceItem) : List ℕ :=
  serialsOf name (ticketsOf (trace.flatMap (clearedOf name)))

/-- Drained messages join the ones in flight; a message that ends in the transcript leaves. -/
def flightStep (flight : List Ticket) : TraceItem → List Ticket
  | .drained _ _ ms => flight ++ ticketsOf ms
  | .event (.messageEnd m) =>
    match m.ticket with
    | some t => flight.erase t
    | none => flight
  | _ => flight

/-- The tickets of the messages drained from a queue and not yet injected. -/
def inFlight (trace : List TraceItem) : List Ticket := trace.foldl flightStep []

theorem inFlight_concat (trace : List TraceItem) (item : TraceItem) :
    inFlight (trace ++ [item]) = flightStep (inFlight trace) item := by
  rw [inFlight, List.foldl_append]
  rfl

open List

def TranscriptMessage.isResultFor (id : String) (m : TranscriptMessage) : Bool :=
  match m.content with
  | .toolResult r => r.toolCallId = id
  | _ => false

def AgentMessage.isPlain : AgentMessage → Bool
  | .assistant _ => false
  | .toolResult _ => false
  | _ => true

def TranscriptMessage.isPlain (m : TranscriptMessage) : Bool := m.content.isPlain

def untilAssistant (messages : List TranscriptMessage) : List TranscriptMessage :=
  messages.takeWhile (fun m => !m.isAssistant)

def Answered (transcript : List TranscriptMessage) : Prop :=
  ∀ before a m after, transcript = before ++ a :: after → a.content = .assistant m →
    m.failed = false → ∀ c ∈ m.toolCalls, (untilAssistant after).countP (·.isResultFor c.id) = 1

theorem append_eq_append_cons {α : Type*} {t s before after : List α} {a : α}
    (h : t ++ s = before ++ a :: after) :
    (∃ rest, t = before ++ a :: rest ∧ after = rest ++ s) ∨
      ∃ rest, before = t ++ rest ∧ s = rest ++ a :: after := by
  obtain ⟨rest, hb, hs⟩ | ⟨rest, ht, hs⟩ := append_eq_append_iff.mp h
  · exact .inr ⟨rest, hb, hs⟩
  · cases rest with
    | nil => exact .inr ⟨[], by simpa using ht.symm, by simpa using hs.symm⟩
    | cons x rest =>
      cases hs
      exact .inl ⟨rest, ht, rfl⟩

variable {m a : TranscriptMessage} {transcript : List TranscriptMessage}

theorem isAssistant_of_content {m : AssistantMessage} (h : a.content = .assistant m) :
    a.isAssistant = true := by
  rw [TranscriptMessage.isAssistant, h]
  rfl

theorem untilAssistant_append_assistant (xs : List TranscriptMessage) (ha : a.isAssistant = true)
    (ys : List TranscriptMessage) : untilAssistant (xs ++ a :: ys) = untilAssistant xs := by
  induction xs with
  | nil => simp [untilAssistant, ha]
  | cons x xs ih =>
    cases hx : x.isAssistant with
    | true => simp [untilAssistant, hx]
    | false =>
      simp only [untilAssistant] at ih
      simp [untilAssistant, hx, ih]

theorem countP_untilAssistant_append (p : TranscriptMessage → Bool)
    {xs ys : List TranscriptMessage} (hys : ∀ y ∈ ys, p y = false) :
    (untilAssistant (xs ++ ys)).countP p = (untilAssistant xs).countP p := by
  have hnone : (untilAssistant ys).countP p = 0 :=
    countP_eq_zero.mpr (fun y hy => by
      simpa using hys y ((takeWhile_sublist _).subset hy))
  induction xs with
  | nil => simpa [untilAssistant] using hnone
  | cons x xs ih =>
    cases hx : x.isAssistant with
    | true => simp [untilAssistant, hx]
    | false =>
      simp only [untilAssistant] at ih
      simp [untilAssistant, hx, countP_cons, ih]

theorem isResultFor_of_isPlain (h : m.isPlain = true) (id : String) : m.isResultFor id = false := by
  unfold TranscriptMessage.isPlain AgentMessage.isPlain at h
  unfold TranscriptMessage.isResultFor
  split at h <;> simp_all

theorem isAssistant_of_isPlain (h : m.isPlain = true) : m.isAssistant = false := by
  unfold TranscriptMessage.isPlain AgentMessage.isPlain at h
  unfold TranscriptMessage.isAssistant AgentMessage.isAssistant
  split at h <;> simp_all

theorem answered_nil : Answered [] := by
  intro before a m after h
  simp at h

theorem Answered.append_plain {messages : List TranscriptMessage} (h : Answered transcript)
    (hm : ∀ m ∈ messages, m.isPlain = true) : Answered (transcript ++ messages) := by
  intro before a m after hsplit ha hfail c hc
  obtain ⟨rest, ht, rfl⟩ | ⟨rest, rfl, hs⟩ := append_eq_append_cons hsplit
  · rw [countP_untilAssistant_append _ (fun y hy => isResultFor_of_isPlain (hm y hy) c.id)]
    exact h before a m rest ht ha hfail c hc
  · have hplain := isAssistant_of_isPlain (hm a (by rw [hs]; simp))
    rw [isAssistant_of_content ha] at hplain
    cases hplain

variable (results : List ToolResultMessage)

theorem untilAssistant_results :
    untilAssistant (results.map TranscriptMessage.toolResult) =
      results.map TranscriptMessage.toolResult := by
  rw [untilAssistant, takeWhile_eq_self_iff]
  intro m hm
  obtain ⟨r, _, rfl⟩ := mem_map.mp hm
  rfl

theorem countP_results (id : String) :
    (results.map TranscriptMessage.toolResult).countP (·.isResultFor id) =
      (results.map ToolResultMessage.toolCallId).count id := by
  rw [countP_map, List.count, countP_map]
  apply countP_congr
  intro r _
  simp [TranscriptMessage.toolResult, TranscriptMessage.isResultFor]

theorem Answered.append_turn (h : Answered transcript) {m : AssistantMessage}
    {results : List ToolResultMessage}
    (hresults : m.failed = false → (m.toolCalls.map ToolCall.id).Nodup ∧
      (results.map ToolResultMessage.toolCallId).Perm (m.toolCalls.map ToolCall.id)) :
    Answered (transcript ++ .assistant m :: results.map TranscriptMessage.toolResult) := by
  intro before a m' after hsplit ha hfail c hc
  obtain ⟨rest, ht, rfl⟩ | ⟨rest, rfl, hs⟩ := append_eq_append_cons hsplit
  · rw [untilAssistant_append_assistant _ (by rfl)]
    exact h before a m' rest ht ha hfail c hc
  · cases rest with
    | nil =>
      cases hs
      obtain rfl : m = m' := AgentMessage.assistant.inj ha
      obtain ⟨hnodup, hperm⟩ := hresults hfail
      rw [untilAssistant_results, countP_results, hperm.count_eq]
      exact count_eq_one_of_mem hnodup (mem_map_of_mem hc)
    | cons x rest =>
      obtain ⟨_, hrest⟩ := cons.inj hs
      have hmem : a ∈ results.map TranscriptMessage.toolResult := by rw [hrest]; simp
      obtain ⟨r, _, rfl⟩ := mem_map.mp hmem
      cases ha

end Draht
