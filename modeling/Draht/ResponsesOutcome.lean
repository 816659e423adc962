import Draht.ResponsesStream

/-!
# How responses end

A sequence of response events is some content and, if it is not cut off, an event that says how the
response has ended. The three routes agree on the outcome, and it is the right one, except for the
ends that one of them does not know.
-/

namespace Draht.Responses
open List Option

open AssistantMessageEvent (EndsWith)

inductive Verdict where
  | finished | incomplete | failed
deriving DecidableEq

def ResponseStatus.verdict? : ResponseStatus → Option Verdict
  | .completed => some .finished
  | .incomplete => some .incomplete
  | .failed => some .failed
  | .cancelled => some .failed
  | _ => none

def ResponseEvent.verdict? : ResponseEvent → Option Verdict
  | .completed response => (response.bind (·.status)).bind ResponseStatus.verdict?
  | .incomplete _ => some .incomplete
  | .failed _ => some .failed
  | .error _ _ _ => some .failed
  | _ => none

def ResponseEvent.isContent : ResponseEvent → Bool
  | .completed _ => false
  | .incomplete _ => false
  | .responseDone _ => false
  | .failed _ => false
  | .error _ _ _ => false
  | _ => true

structure Sequence where
  content : List ResponseEvent
  last : Option ResponseEvent
  content_isContent : ∀ event ∈ content, event.isContent = true
  last_verdict : ∀ event ∈ last, event.verdict?.isSome = true

namespace Sequence

def events (q : Sequence) : List ResponseEvent := q.content ++ q.last.toList

def verdict? (q : Sequence) : Option Verdict := q.last.bind ResponseEvent.verdict?

end Sequence

inductive ConnectionEnd where
  | closed (closeError : JsText)
  | failed (message : JsText)
deriving DecidableEq

def ConnectionEnd.thrown : ConnectionEnd → Option JsText
  | .closed _ => none
  | .failed message => some message

def ConnectionEnd.socketEnd : ConnectionEnd → SocketEnd
  | .closed closeError => .closed closeError
  | .failed message => .error message

inductive Route where
  | plain | codexSse | codexWebSocket
deriving DecidableEq

def streamed (F : Format) (events : List ResponseEvent) (connectionEnd : ConnectionEnd)
    (aborted : Bool) : Route → Output × List (Produced Event Unit)
  | .plain => streamOpenAIResponses F (.ok ⟨events, connectionEnd.thrown⟩) aborted
  | .codexSse =>
    streamOpenAICodexResponses F
      { setup := none
        transport := .sse
        socket := .error []
        response := .ok ⟨events, connectionEnd.thrown⟩ } aborted
  | .codexWebSocket =>
    streamOpenAICodexResponses F
      { setup := none
        transport := .websocket
        socket := .ok ⟨events.map some, connectionEnd.socketEnd⟩
        response := .error [] } aborted

variable {F : Format} {p : Processing} {reason : StopReason}

structure Pending (reason : StopReason) (p : Processing) : Prop where
  stopReason : p.output.stopReason = reason
  pushed : ∀ event ∈ p.pushed, event.isTerminal = false

namespace Pending

theorem push (h : Pending reason p) {event : Event} (hevent : event.isTerminal = false) :
    Pending reason (p.push event) where
  stopReason := h.stopReason
  pushed e he := by
    obtain he | he := mem_append.mp he
    · exact h.pushed e he
    · rw [mem_singleton.mp he]
      exact hevent

theorem setItem (h : Pending reason p) (item : CurrentItem) : Pending reason (p.setItem item) :=
  ⟨h.stopReason, h.pushed⟩

theorem setContent (h : Pending reason p) (content : List Block) (hasCurrentBlock : Bool) :
    Pending reason (p.setContent content hasCurrentBlock) :=
  ⟨h.stopReason, h.pushed⟩

theorem start : Pending .stop (Processing.initial.push .start) :=
  (show Pending .stop Processing.initial from ⟨rfl, by simp [Processing.initial]⟩).push rfl

section

variable (h : Pending reason p)
include h

variable (item : OutputItem) (delta : JsText)

theorem itemAdded : Pending reason (p.itemAdded item) := by
  cases item with
  | reasoning summary json => exact ((h.setItem _).setContent _ _).push rfl
  | message id phase content => exact ((h.setItem _).setContent _ _).push rfl
  | functionCall callId id name arguments => exact ((h.setItem _).setContent _ _).push rfl
  | other => exact h

theorem summaryDelta : Pending reason (p.summaryDelta delta) := by
  rw [Processing.summaryDelta]
  split
  · split
    · exact h
    · exact ((h.setItem _).setContent _ _).push rfl
  · exact h

theorem partDelta (extend : ContentPart → Option ContentPart)
    (delta : JsText) : Pending reason (p.partDelta extend delta) := by
  rw [Processing.partDelta]
  split
  · split
    · exact h
    · exact ((h.setItem _).setContent _ _).push rfl
  · exact h

theorem argumentsDelta : Pending reason (p.argumentsDelta F delta) := by
  rw [Processing.argumentsDelta]
  split
  · exact (h.setContent _ _).push rfl
  · exact h

theorem argumentsDone (arguments : JsText) :
    Pending reason (p.argumentsDone F arguments) := by
  rw [Processing.argumentsDone]
  split
  · simp only
    split_ifs
    · exact (h.setContent _ _).push rfl
    · exact h.setContent _ _
  · exact h

theorem itemDone : Pending reason (p.itemDone F item) := by
  cases item with
  | reasoning summary json =>
    simp only [Processing.itemDone]
    split
    · exact (h.setContent _ _).push rfl
    · exact h
  | message id phase content =>
    simp only [Processing.itemDone]
    split
    · exact (h.setContent _ _).push rfl
    · exact h
  | functionCall callId id name arguments =>
    have hclosed : Pending reason { p with hasCurrentBlock := false } := ⟨h.stopReason, h.pushed⟩
    exact hclosed.push rfl
  | other => exact h

theorem processEvent {event : ResponseEvent}
    (hevent : event.isContent = true) :
    Pending reason (processEvent F p event).1 ∧ (Responses.processEvent F p event).2 = none := by
  cases event with
  | created id => exact ⟨⟨h.stopReason, h.pushed⟩, rfl⟩
  | outputItemAdded item => exact ⟨h.itemAdded item, rfl⟩
  | reasoningSummaryPartAdded text =>
    simp only [Responses.processEvent]
    split
    · exact ⟨h.setItem _, rfl⟩
    · exact ⟨h, rfl⟩
  | reasoningSummaryTextDelta delta => exact ⟨h.summaryDelta delta, rfl⟩
  | reasoningSummaryPartDone => exact ⟨h.summaryDelta _, rfl⟩
  | contentPartAdded part =>
    simp only [Responses.processEvent]
    split
    · exact ⟨h, rfl⟩
    · exact ⟨h.setItem _, rfl⟩
    · exact ⟨h, rfl⟩
  | outputTextDelta delta => exact ⟨h.partDelta _ delta, rfl⟩
  | refusalDelta delta => exact ⟨h.partDelta _ delta, rfl⟩
  | functionCallArgumentsDelta delta => exact ⟨h.argumentsDelta delta, rfl⟩
  | functionCallArgumentsDone arguments => exact ⟨h.argumentsDone arguments, rfl⟩
  | outputItemDone item => exact ⟨h.itemDone item, rfl⟩
  | other => exact ⟨h, rfl⟩
  | untyped => exact ⟨h, rfl⟩
  | completed response => cases hevent
  | incomplete response => cases hevent
  | responseDone response => cases hevent
  | failed response => cases hevent
  | error code message json => cases hevent

theorem processEvent_pushed (event : ResponseEvent) :
    ∃ reason', Pending reason' (Responses.processEvent F p event).1 := by
  by_cases hevent : event.isContent = true
  · exact ⟨reason, (h.processEvent hevent).1⟩
  · cases event with
    | completed response =>
      simp only [Responses.processEvent, Processing.responseCompleted]
      split
      · exact ⟨_, ⟨rfl, h.pushed⟩⟩
      · exact ⟨_, ⟨rfl, h.pushed⟩⟩
    | incomplete response => exact ⟨reason, h⟩
    | responseDone response => exact ⟨reason, h⟩
    | failed response => exact ⟨reason, h⟩
    | error code message json => exact ⟨reason, h⟩
    | _ => exact absurd rfl hevent

theorem processResponsesStream (thrown : Option JsText)
    (events : List ResponseEvent) :
    ∃ reason', Pending reason' (Responses.processResponsesStream F thrown p events).1 := by
  induction events generalizing p reason with
  | nil => exact ⟨reason, h⟩
  | cons event events ih =>
    obtain ⟨reason', h'⟩ := h.processEvent_pushed (F := F) event
    rw [Responses.processResponsesStream]
    split
    next p' message hstep =>
      rw [hstep] at h'
      exact ⟨reason', h'⟩
    next p' hstep =>
      rw [hstep] at h'
      exact ih h'

theorem processStream (source : Source) :
    ∃ reason', Pending reason' (Responses.processStream F p source).1 :=
  h.processResponsesStream _ _

end

end Pending

variable {verdict : Verdict} {event : ResponseEvent} {response : Option Response}

theorem processResponsesStream_content (h : Pending reason p) (hevent : event.isContent = true)
    (thrown : Option JsText) (events : List ResponseEvent) :
    processResponsesStream F thrown p (event :: events) =
      processResponsesStream F thrown (processEvent F p event).1 events := by
  have hstep := (h.processEvent (F := F) hevent).2
  rw [processResponsesStream]
  generalize processEvent F p event = processed at *
  obtain ⟨p', thrown'⟩ := processed
  obtain rfl : thrown' = none := hstep
  rfl

theorem processStream_content (h : Pending reason p) (hevent : event.isContent = true)
    (thrown : Option JsText) (events : List ResponseEvent) :
    processStream F p ⟨event :: events, thrown⟩ =
      processStream F (processEvent F p event).1 ⟨events, thrown⟩ := by
  by_cases huntyped : event = .untyped
  · subst huntyped
    rfl
  · have hmap : mapCodexEvents thrown (event :: events) =
        ⟨event :: (mapCodexEvents thrown events).events,
          (mapCodexEvents thrown events).thrown⟩ := by
      cases event with
      | untyped => exact absurd rfl huntyped
      | completed response => cases hevent
      | incomplete response => cases hevent
      | responseDone response => cases hevent
      | failed response => cases hevent
      | error code message json => cases hevent
      | _ => rfl
    simp only [processStream, hmap]
    exact processResponsesStream_content h hevent _ _

theorem content_processed {content : List ResponseEvent} (h : Pending reason p)
    (hcontent : ∀ event ∈ content, event.isContent = true) :
    ∃ p', Pending reason p' ∧
      (∀ thrown rest, processResponsesStream F thrown p (content ++ rest) =
        processResponsesStream F thrown p' rest) ∧
      ∀ thrown rest, processStream F p ⟨content ++ rest, thrown⟩ =
        processStream F p' ⟨rest, thrown⟩ := by
  induction content generalizing p with
  | nil => exact ⟨p, h, fun _ _ => rfl, fun _ _ => rfl⟩
  | cons event content ih =>
    have hevent := hcontent event mem_cons_self
    obtain ⟨p', hp', hplain, hcodex⟩ := ih (h.processEvent (F := F) hevent).1
      (fun e he => hcontent e (mem_cons_of_mem _ he))
    refine ⟨p', hp', ?_, ?_⟩
    · intro thrown rest
      rw [cons_append, processResponsesStream_content h hevent, hplain]
    · intro thrown rest
      rw [cons_append, processStream_content h hevent, hcodex]

def errorReason (aborted : Bool) : StopReason := if aborted then .aborted else .error

theorem endsWith_fail (h : Pending reason p) (aborted : Bool) (message : JsText) :
    EndsWith (fail aborted p message).2 (.error (errorReason aborted)) :=
  ⟨p.pushed, rfl, h.pushed, rfl⟩

theorem endsWith_succeed (h : Pending reason p) : EndsWith (succeed p).2 (.done reason) :=
  ⟨p.pushed, by rw [succeed, h.stopReason], h.pushed, rfl⟩

def reasonFor (p : Processing) : Verdict → StopReason
  | .finished => if p.output.content.any isToolCall then .toolUse else .stop
  | .incomplete => .length
  | .failed => .error

theorem responseCompleted_verdict (h : Pending reason p)
    (hverdict : (response.bind (·.status)).bind ResponseStatus.verdict? = some verdict) :
    ∃ p', p.responseCompleted response = (p', none) ∧ Pending (reasonFor p verdict) p' := by
  obtain ⟨status, hstatus, hknown⟩ := bind_eq_some_iff.mp hverdict
  rw [Processing.responseCompleted, hstatus]
  cases status with
  | completed =>
    cases hknown
    refine ⟨_, rfl, ⟨?_, h.pushed⟩⟩
    simp [reasonFor]
  | incomplete =>
    cases hknown
    exact ⟨_, rfl, ⟨by simp [reasonFor], h.pushed⟩⟩
  | failed =>
    cases hknown
    exact ⟨_, rfl, ⟨by simp [reasonFor], h.pushed⟩⟩
  | cancelled =>
    cases hknown
    exact ⟨_, rfl, ⟨by simp [reasonFor], h.pushed⟩⟩
  | inProgress => cases hknown
  | queued => cases hknown
  | other status => cases hknown

theorem verdict_normalize
    (hverdict : (response.bind (·.status)).bind ResponseStatus.verdict? = some verdict) :
    ((response.map fun r => { r with status := normalizeCodexStatus r.status }).bind
      (·.status)).bind ResponseStatus.verdict? = some verdict := by
  obtain ⟨status, hstatus, hknown⟩ := bind_eq_some_iff.mp hverdict
  obtain ⟨r, rfl, hr⟩ := bind_eq_some_iff.mp hstatus
  simp only [map_some, bind_some, hr]
  cases status with
  | other status => cases hknown
  | _ => exact hknown

theorem foldl_onMessage (events : List ResponseEvent) (l : Listeners) :
    (events.map some).foldl Listeners.onMessage l =
      { l with
        queue := l.queue ++ events
        sawCompletion := l.sawCompletion || events.any ResponseEvent.isCompletion } := by
  induction events generalizing l with
  | nil => simp
  | cons event events ih =>
    rw [map_cons, foldl_cons, ih]
    simp [Listeners.onMessage, Bool.or_assoc]

theorem parseWebSocket_events (events : List ResponseEvent) (socketEnd : SocketEnd) :
    (parseWebSocket (events.map some) socketEnd).events = events := by
  rw [parseWebSocket, foldl_onMessage]
  cases socketEnd with
  | closed closeError =>
    simp only [Listeners.onEnd]
    split_ifs <;> rfl
  | error message => rfl
  | aborted => rfl

/-- The end of the plain provider, given what the processor has come to. -/
def plainEnd (aborted : Bool) : Processing × Option JsText → Output × List (Produced Event Unit)
  | (p, some message) => fail aborted p message
  | (p, none) =>
    if aborted then fail aborted p requestAborted
    else if p.output.stopReason = .aborted || p.output.stopReason = .error then
      fail aborted p (utf16 "An unknown error occurred")
    else succeed p

theorem endsWith_aborted (h : Pending reason p) (thrown : Option JsText) :
    EndsWith (plainEnd true (p, thrown)).2 (.error .aborted) ∧
      EndsWith (codexEnd true (p, thrown)).2 (.error .aborted) := by
  cases thrown with
  | none => exact ⟨endsWith_fail h true _, endsWith_fail h true _⟩
  | some message => exact ⟨endsWith_fail h true _, endsWith_fail h true _⟩

theorem endsWith_plainEnd (h : Pending reason p) (hreason : reason ≠ .aborted ∧ reason ≠ .error) :
    EndsWith (plainEnd false (p, none)).2 (.done reason) := by
  have hstop := h.stopReason
  rw [plainEnd, if_neg (by simp), if_neg (by simpa [hstop] using hreason)]
  exact endsWith_succeed h

theorem reasonFor_ne (h : verdict ≠ .failed) :
    reasonFor p verdict ≠ .aborted ∧ reasonFor p verdict ≠ .error := by
  cases verdict with
  | finished =>
    rw [reasonFor]
    split_ifs <;> simp
  | incomplete => simp [reasonFor]
  | failed => exact absurd rfl h

def Claimed (q : Sequence) (aborted : Bool) : Event → Prop
  | .done reason =>
    (reason = .stop ∨ reason = .toolUse) ∧ q.verdict? = some .finished ∨
      reason = .length ∧ q.verdict? = some .incomplete
  | .error _ => aborted = true ∨ q.verdict? = some .failed ∨ q.verdict? = none
  | _ => False

/-- Over all routes the stream ends in one and the same event, a right one. -/
def OutcomesAgree (F : Format) (q : Sequence) (connectionEnd : ConnectionEnd) (aborted : Bool) :
    Prop :=
  ∃ last, Claimed q aborted last ∧
    ∀ route, EndsWith (streamed F q.events connectionEnd aborted route).2 last

/-- The ends that every route knows: a response that is completed without having failed on a
connection that is then closed, an event that says that the response has failed, and a connection
that fails before its end. -/
def Handled (q : Sequence) (connectionEnd : ConnectionEnd) : Prop :=
  match q.last with
  | none => connectionEnd.thrown.isSome = true
  | some (.completed _) => q.verdict? ≠ some .failed ∧ connectionEnd.thrown = none
  | some (.incomplete _) => False
  | some _ => True

variable {q : Sequence} {connectionEnd : ConnectionEnd}

theorem sequence_processed (F : Format) (q : Sequence) (connectionEnd : ConnectionEnd)
    (aborted : Bool) :
    ∃ p, Pending .stop p ∧
      streamed F q.events connectionEnd aborted .plain =
        plainEnd aborted (processResponsesStream F connectionEnd.thrown p q.last.toList) ∧
      streamed F q.events connectionEnd aborted .codexSse =
        codexEnd aborted (processStream F p ⟨q.last.toList, connectionEnd.thrown⟩) ∧
      streamed F q.events connectionEnd aborted .codexWebSocket =
        codexEnd aborted (processStream F p ⟨q.last.toList,
          (parseWebSocket (q.events.map some) connectionEnd.socketEnd).thrown⟩) := by
  obtain ⟨p, hp, hplain, hcodex⟩ := content_processed (F := F) .start q.content_isContent
  refine ⟨p, hp, ?_, ?_, ?_⟩
  · exact congrArg (plainEnd aborted) (hplain _ _)
  · exact congrArg (codexEnd aborted) (hcodex _ _)
  · refine (congrArg (codexEnd aborted) ?_).trans (congrArg (codexEnd aborted) (hcodex _ _))
    have hevents := parseWebSocket_events q.events connectionEnd.socketEnd
    generalize parseWebSocket (q.events.map some) connectionEnd.socketEnd = source at *
    obtain ⟨events, thrown⟩ := source
    obtain rfl : events = q.events := hevents
    rfl

theorem agree_of_aborted (F : Format) (q : Sequence) (connectionEnd : ConnectionEnd) :
    OutcomesAgree F q connectionEnd true := by
  obtain ⟨p, hp, hplain, hsse, hsocket⟩ := sequence_processed F q connectionEnd true
  refine ⟨.error .aborted, .inl rfl, fun route => ?_⟩
  cases route with
  | plain =>
    obtain ⟨reason, h⟩ := hp.processResponsesStream (F := F) connectionEnd.thrown q.last.toList
    rw [hplain]
    exact (endsWith_aborted h _).1
  | codexSse =>
    obtain ⟨reason, h⟩ := hp.processStream (F := F) ⟨q.last.toList, connectionEnd.thrown⟩
    rw [hsse]
    exact (endsWith_aborted h _).2
  | codexWebSocket =>
    obtain ⟨reason, h⟩ := hp.processStream (F := F) ⟨q.last.toList,
      (parseWebSocket (q.events.map some) connectionEnd.socketEnd).thrown⟩
    rw [hsocket]
    exact (endsWith_aborted h _).2

theorem agree_of_failedConnection (hlast : q.last = none) (message : JsText) :
    OutcomesAgree F q (.failed message) false := by
  obtain ⟨p, hp, hplain, hsse, hsocket⟩ := sequence_processed F q (.failed message) false
  have hthrown : (parseWebSocket (q.events.map some)
      (ConnectionEnd.failed message).socketEnd).thrown = some message := by
    rfl
  rw [hlast] at hplain hsse hsocket
  refine ⟨.error .error, .inr (.inr (by rw [Sequence.verdict?, hlast]; rfl)), fun route => ?_⟩
  cases route with
  | plain =>
    rw [hplain]
    exact endsWith_fail hp false message
  | codexSse =>
    rw [hsse]
    exact endsWith_fail hp false message
  | codexWebSocket =>
    rw [hsocket, hthrown]
    exact endsWith_fail hp false message

theorem agree_of_failedEvent (hlast : q.last = some event)
    (hverdict : event.verdict? = some .failed)
    (hplain : ∀ p, ∃ message, processEvent F p event = (p, some message))
    (hcodex : ∀ thrown, ∃ message, mapCodexEvents thrown [event] = ⟨[], some message⟩) :
    OutcomesAgree F q connectionEnd false := by
  obtain ⟨p, hp, hstreamed, hsse, hsocket⟩ := sequence_processed F q connectionEnd false
  rw [hlast] at hstreamed hsse hsocket
  have hthrows : ∀ thrown, ∃ message, processStream F p ⟨[event], thrown⟩ = (p, some message) := by
    intro thrown
    obtain ⟨message, hmap⟩ := hcodex thrown
    exact ⟨message, by rw [processStream, hmap, processResponsesStream]⟩
  refine ⟨.error .error, .inr (.inl (by rw [Sequence.verdict?, hlast]; exact hverdict)),
    fun route => ?_⟩
  cases route with
  | plain =>
    obtain ⟨message, hprocess⟩ := hplain p
    rw [hstreamed, toList_some, processResponsesStream, hprocess]
    exact endsWith_fail hp false message
  | codexSse =>
    obtain ⟨message, hprocess⟩ := hthrows connectionEnd.thrown
    rw [hsse, toList_some, hprocess]
    exact endsWith_fail hp false message
  | codexWebSocket =>
    obtain ⟨message, hprocess⟩ := hthrows
      (parseWebSocket (q.events.map some) connectionEnd.socketEnd).thrown
    rw [hsocket, toList_some, hprocess]
    exact endsWith_fail hp false message

theorem completed_processed (hp : Pending reason p)
    (hverdict : (ResponseEvent.completed response).verdict? = some verdict) :
    (∀ thrown, ∃ p', processResponsesStream F thrown p [.completed response] = (p', thrown) ∧
      Pending (reasonFor p verdict) p') ∧
      ∀ thrown, ∃ p', processStream F p ⟨[.completed response], thrown⟩ = (p', none) ∧
        Pending (reasonFor p verdict) p' := by
  constructor
  · intro thrown
    obtain ⟨p', hcompleted, hp'⟩ := responseCompleted_verdict hp hverdict
    exact ⟨p', by rw [processResponsesStream, processEvent, hcompleted]; rfl, hp'⟩
  · intro thrown
    obtain ⟨p', hcompleted, hp'⟩ := responseCompleted_verdict hp (verdict_normalize hverdict)
    refine ⟨p', ?_, hp'⟩
    rw [processStream, mapCodexEvents, completedOf]
    simp [processResponsesStream, processEvent, hcompleted]

theorem agree_of_completed (hlast : q.last = some (.completed response))
    (hverdict : q.verdict? ≠ some .failed) (hclosed : connectionEnd.thrown = none) :
    OutcomesAgree F q connectionEnd false := by
  obtain ⟨p, hp, hstreamed, hsse, hsocket⟩ := sequence_processed F q connectionEnd false
  have hsome := q.last_verdict _ hlast
  obtain ⟨verdict, hknown⟩ := isSome_iff_exists.mp hsome
  have hq : q.verdict? = some verdict := by rw [Sequence.verdict?, hlast]; exact hknown
  have hne : verdict ≠ .failed := fun h => hverdict (by rw [hq, h])
  obtain ⟨hplain, hcodex⟩ := completed_processed (F := F) hp hknown
  rw [hlast, toList_some] at hstreamed hsse hsocket
  refine ⟨.done (reasonFor p verdict), ?_, fun route => ?_⟩
  · cases verdict with
    | finished =>
      refine .inl ⟨?_, hq⟩
      rw [reasonFor]
      split_ifs
      · exact .inr rfl
      · exact .inl rfl
    | incomplete => exact .inr ⟨rfl, hq⟩
    | failed => exact absurd rfl hne
  · cases route with
    | plain =>
      obtain ⟨p', hprocess, hp'⟩ := hplain connectionEnd.thrown
      rw [hstreamed, hprocess, hclosed]
      exact endsWith_plainEnd hp' (reasonFor_ne hne)
    | codexSse =>
      obtain ⟨p', hprocess, hp'⟩ := hcodex connectionEnd.thrown
      rw [hsse, hprocess]
      exact endsWith_succeed hp'
    | codexWebSocket =>
      obtain ⟨p', hprocess, hp'⟩ := hcodex
        (parseWebSocket (q.events.map some) connectionEnd.socketEnd).thrown
      rw [hsocket, hprocess]
      exact endsWith_succeed hp'

theorem not_agree_of_unnoticed
    (hnotice : ∀ p, processResponsesStream F connectionEnd.thrown p q.last.toList =
      (p, connectionEnd.thrown))
    (hverdict : q.verdict? = none ∧ connectionEnd.thrown = none ∨
      q.verdict? = some .incomplete) : ¬ OutcomesAgree F q connectionEnd false := by
  rintro ⟨last, hclaimed, hends⟩
  obtain ⟨p, hp, hplain, _⟩ := sequence_processed F q connectionEnd false
  have hlast := hends .plain
  rw [hplain, hnotice] at hlast
  cases hthrown : connectionEnd.thrown with
  | none =>
    rw [hthrown] at hlast
    obtain rfl := hlast.unique (endsWith_plainEnd hp (by decide))
    obtain ⟨hnone, _⟩ | hincomplete := hverdict
    · simp [Claimed, hnone] at hclaimed
    · simp [Claimed, hincomplete] at hclaimed
  | some message =>
    rw [hthrown] at hlast
    obtain rfl := hlast.unique (endsWith_fail hp false message)
    obtain ⟨_, hclosed⟩ | hincomplete := hverdict
    · simp [hthrown] at hclosed
    · simp [Claimed, hincomplete] at hclaimed

/-- A response that has failed, but is completed, is passed off as finished by the Codex provider,
and one whose connection fails afterwards as failed by the plain one. -/
theorem not_agree_of_completed (hlast : q.last = some (.completed response))
    (hfailed : q.verdict? = some .failed ∨ connectionEnd.thrown ≠ none) :
    ¬ OutcomesAgree F q connectionEnd false := by
  rintro ⟨last, hclaimed, hends⟩
  obtain ⟨p, hp, hstreamed, hsse, _⟩ := sequence_processed F q connectionEnd false
  obtain ⟨verdict, hknown⟩ := isSome_iff_exists.mp (q.last_verdict _ hlast)
  have hq : q.verdict? = some verdict := by rw [Sequence.verdict?, hlast]; exact hknown
  obtain ⟨hplain, hcodex⟩ := completed_processed (F := F) hp hknown
  rw [hlast, toList_some] at hstreamed hsse
  obtain ⟨p', hprocess, hp'⟩ := hcodex connectionEnd.thrown
  have hdone := hends .codexSse
  rw [hsse, hprocess] at hdone
  obtain rfl := hdone.unique (endsWith_succeed hp')
  obtain hfailed | hthrown := hfailed
  · obtain rfl := some.inj (hq.symm.trans hfailed)
    simp [Claimed, reasonFor] at hclaimed
  · obtain ⟨message, hmessage⟩ := ne_none_iff_exists'.mp hthrown
    obtain ⟨p'', hplainProcess, hp''⟩ := hplain connectionEnd.thrown
    have herror := hends .plain
    rw [hstreamed, hplainProcess, hmessage] at herror
    cases herror.unique (endsWith_fail hp'' false message)

/-- The three routes come to one end, and the right one, exactly for the ends that all of them
know, or when the request is aborted. -/
theorem outcomesAgree_iff (F : Format) (q : Sequence) (connectionEnd : ConnectionEnd)
    (aborted : Bool) :
    OutcomesAgree F q connectionEnd aborted ↔ aborted = true ∨ Handled q connectionEnd := by
  cases aborted with
  | true => exact iff_of_true (agree_of_aborted F q connectionEnd) (.inl rfl)
  | false =>
    rw [or_iff_right Bool.false_ne_true, Handled]
    cases hlast : q.last with
    | none =>
      have hverdict : q.verdict? = none := by rw [Sequence.verdict?, hlast]; rfl
      cases connectionEnd with
      | closed closeError =>
        refine iff_of_false (not_agree_of_unnoticed ?_ (.inl ⟨hverdict, rfl⟩)) (by simp [
          ConnectionEnd.thrown])
        intro p
        rw [hlast]
        rfl
      | failed message => exact iff_of_true (agree_of_failedConnection hlast message) rfl
    | some event =>
      have hsome := q.last_verdict event hlast
      cases event with
      | completed response =>
        constructor
        · intro hagree
          by_contra hnot
          rw [not_and_or, not_not] at hnot
          exact not_agree_of_completed hlast hnot hagree
        · exact fun h => agree_of_completed hlast h.1 h.2
      | incomplete response =>
        refine iff_of_false (not_agree_of_unnoticed ?_ (.inr ?_)) id
        · intro p
          rw [hlast]
          rfl
        · rw [Sequence.verdict?, hlast]
          rfl
      | failed response =>
        exact iff_of_true (agree_of_failedEvent hlast rfl (fun p => ⟨_, rfl⟩)
          (fun _ => ⟨_, rfl⟩)) trivial
      | error code message json =>
        exact iff_of_true (agree_of_failedEvent hlast rfl (fun p => ⟨_, rfl⟩)
          (fun _ => ⟨_, rfl⟩)) trivial
      | _ => cases hsome

def plainFormat : Format := ⟨⟨fun _ => none, fun _ => none⟩, id⟩

def cancelledResponse : Response := ⟨none, some .cancelled, none, none, none⟩

def cutOff : Sequence := ⟨[], none, by simp, by simp⟩

/-- A stream that is cut off, an incomplete response, and a cancelled one: the first two are taken
for finished by the plain route, the first also by the Codex event stream, and the last is a `done`
event with the reason of an error over the Codex routes. -/
theorem cutOff_and_cancelled_taken_for_done :
    ¬ OutcomesAgree plainFormat cutOff (.closed []) false ∧
      (streamed plainFormat [] (.closed []) false .plain).2 =
        [.push .start, .push (.done .stop), .ended none] ∧
      (streamed plainFormat [] (.closed []) false .codexSse).2 =
        [.push .start, .push (.done .stop), .ended none] ∧
      (streamed plainFormat [] (.closed []) false .codexWebSocket).2 =
        [.push .start, .push (.error .error), .ended none] ∧
      (streamed plainFormat [.incomplete none] (.closed []) false .plain).2 =
        [.push .start, .push (.done .stop), .ended none] ∧
      (streamed plainFormat [.completed (some cancelledResponse)] (.closed []) false .plain).2 =
        [.push .start, .push (.error .error), .ended none] ∧
      (streamed plainFormat [.completed (some cancelledResponse)] (.closed []) false .codexSse).2 =
        [.push .start, .push (.done .error), .ended none] :=
  ⟨not_agree_of_unnoticed (fun _ => rfl) (.inl ⟨rfl, rfl⟩), rfl, rfl, rfl, rfl, rfl, rfl⟩

end Draht.Responses
