import Draht.ProxyFold

/-!
# When a stream through a proxy ends

The stream of an answer ends with one `done` or `error` event, and its message stays the fold of the
events, exactly when the reading is interrupted or the terminal event was read, and not both. A body
that ends before a terminal event leaves the result open for ever; an interruption after it is
written into the message that the result has already given.
-/

namespace Draht.Proxy
open List

def dropMark (text : List Char) : List Char :=
  if text.head? = some '\uFEFF' then text.tail else text

def bodyText (bytes : List UInt8) : List Char := dropMark (Utf8.start.readAll bytes).1

def bodyLines (bytes : List UInt8) : List (List Char) := ((bodyText bytes).splitOn '\n').dropLast

def Fetched.body : Fetched → List UInt8
  | .ok reads _ => reads.flatMap BodyRead.bytes
  | _ => []

/-- The events of the lines that are read before the reading is interrupted. -/
def eventsRead (F : ProxyFormat) : Fetched → List ProxyEvent
  | .ok reads _ =>
    lineEvents F (bodyLines ((reads.takeWhile fun r => !r.aborted).flatMap BodyRead.bytes))
  | _ => []

def interruption : Fetched → Option Thrown
  | .rejected thrown => some thrown
  | .notOk status statusText errorData aborted =>
    some ⟨proxyError status statusText errorData, aborted⟩
  | .ok reads bodyEnd =>
    if reads.any BodyRead.aborted then some abortedByUser
    else
      match bodyEnd with
      | .done aborted => if aborted then some abortedByUser else none
      | .failed message aborted => some ⟨message, aborted⟩

/-- The data lines of the body are the beginning of a sequence that follows the protocol. -/
structure ConformingBody (F : ProxyFormat) (fetched : Fetched) : Prop where
  parses : Parses F (bodyLines fetched.body)
  conforms : ∃ whole, FollowsProtocol whole ∧ lineEvents F (bodyLines fetched.body) <+: whole

/-- Whatever the consumers do, the stream holds the events in order and ends with one `done` or
`error` event, its result is given and nobody waits; when the whole sequence was read, its message
is the fold of the events. -/
structure Completes (F : ProxyFormat) (model : Model) (timestamp : ℕ) (fetched : Fetched) :
    Prop where
  inOrder : ∀ ops : List (StreamOp ℕ ProxyOutput Unit),
    ops.filterMap EventStream.produced? = (streamProxy F model timestamp fetched).2 →
      ∃ tail, (EventStream.run completion .empty ops).events =
        outputs F (eventsRead F fetched) ++ tail ∧ ∀ e ∈ tail, ∃ reason, e = .error reason
  endsOnce : ∀ ops : List (StreamOp ℕ ProxyOutput Unit),
    ops.filterMap EventStream.produced? = (streamProxy F model timestamp fetched).2 →
      ∃ before last, (EventStream.run completion .empty ops).events = before ++ [last] ∧
        isTerminal last = true ∧ ∀ e ∈ before, isTerminal e = false
  resolves : ∀ ops : List (StreamOp ℕ ProxyOutput Unit),
    ops.filterMap EventStream.produced? = (streamProxy F model timestamp fetched).2 →
      (EventStream.run completion .empty ops).result = some () ∧
        (EventStream.run completion .empty ops).waiting = []
  folded : (∃ e ∈ eventsRead F fetched, e.isTerminal = true) →
    (streamProxy F model timestamp fetched).1 =
      foldMessage F (initialMessage model timestamp) (eventsRead F fetched)

/-- Without an interruption the terminal event is read. After an interruption it was not, or it
says the same as the interruption. -/
def EndsInTime (F : ProxyFormat) (fetched : Fetched) : Prop :=
  match interruption fetched with
  | none => ∃ e ∈ eventsRead F fetched, e.isTerminal = true
  | some thrown => ∀ e ∈ eventsRead F fetched, e.isTerminal = true →
      ∃ usage, e = .error (abortReason thrown.aborted) (some thrown.message) usage

theorem dropMark_append (a b : List Char) :
    dropMark (a ++ b) = dropMark a ++ if a = [] then dropMark b else b := by
  cases a with
  | nil => simp [dropMark]
  | cons c a =>
    by_cases hc : c = '\uFEFF'
    · simp [dropMark, hc]
    · simp [dropMark, hc]

structure ReaderAt (bytes : List UInt8) (r : BodyReader) : Prop where
  decoder : r.decoder = (Utf8.start.readAll bytes).2
  atStart : r.atStart = (Utf8.start.readAll bytes).1.isEmpty
  buffer : r.buffer = ((bodyText bytes).splitOn '\n').getLastD []

theorem readerAt_start : ReaderAt [] .start := ⟨rfl, rfl, rfl⟩

variable {lines : List (List Char)} {r : BodyReader} {reads : List BodyRead} {bytes : List UInt8}

theorem ReaderAt.read (h : ReaderAt bytes r) (chunk : List UInt8) :
    bodyLines (bytes ++ chunk) = bodyLines bytes ++ (r.read chunk).1 ∧
      ReaderAt (bytes ++ chunk) (r.read chunk).2 := by
  have happend := Utf8.readAll_append Utf8.start bytes chunk
  rw [← h.decoder] at happend
  have hmark : (r.decode chunk).1 = if (Utf8.start.readAll bytes).1 = [] then
      dropMark (r.decoder.readAll chunk).1 else (r.decoder.readAll chunk).1 := by
    rw [BodyReader.decode, h.atStart]
    cases (Utf8.start.readAll bytes).1 <;> simp [dropMark]
  have htext : bodyText (bytes ++ chunk) = bodyText bytes ++ (r.decode chunk).1 := by
    rw [bodyText, bodyText, happend, dropMark_append, hmark]
  have hsplit : (bodyText bytes ++ (r.decode chunk).1).splitOn '\n' =
      ((bodyText bytes).splitOn '\n').dropLast ++
        (r.buffer ++ (r.decode chunk).1).splitOn '\n' := by
    rw [h.buffer, splitOn_append_last]
  rw [← htext] at hsplit
  have hbuffer : (r.decode chunk).2.buffer = r.buffer := rfl
  have hne := splitOn_ne_nil '\n' (r.buffer ++ (r.decode chunk).1)
  refine ⟨?_, ?_, ?_, ?_⟩
  · rw [bodyLines, hsplit, dropLast_append_of_ne_nil hne]
    rfl
  · exact (congrArg Prod.snd happend).symm
  · change (r.atStart && (r.decoder.readAll chunk).1.isEmpty) = _
    rw [happend, h.atStart]
    cases (Utf8.start.readAll bytes).1 <;> rfl
  · rw [hsplit, getLastD_eq_getLast?, getLast?_append_of_ne_nil _ hne]
    rw [← getLastD_eq_getLast?]
    rfl

theorem Parses.of_append {F : ProxyFormat} {rest : List (List Char)} (h : Parses F (lines ++ rest)) :
    Parses F lines ∧ Parses F rest :=
  ⟨fun line hline => h line (mem_append_left _ hline),
    fun line hline => h line (mem_append_right _ hline)⟩

theorem exists_bodyLines_append (bytes chunk : List UInt8) :
    ∃ lines, bodyLines (bytes ++ chunk) = bodyLines bytes ++ lines := by
  have hreader : ReaderAt bytes ⟨(Utf8.start.readAll bytes).2, (Utf8.start.readAll bytes).1.isEmpty,
      ((bodyText bytes).splitOn '\n').getLastD []⟩ := ⟨rfl, rfl, rfl⟩
  exact ⟨_, (hreader.read chunk).1⟩

theorem readBody_spec {F : ProxyFormat} {start : ProxyMessage} (bodyEnd : BodyEnd) {p : Progress}
    (hreader : ReaderAt bytes r) (hbuilt : Built F start (lineEvents F (bodyLines bytes)) p)
    (hparses : Parses F (bodyLines (bytes ++ reads.flatMap BodyRead.bytes)))
    (hconforms : Conforms (lineEvents F (bodyLines (bytes ++ reads.flatMap BodyRead.bytes)))) :
    (readBody F bodyEnd r p reads).2 = interruption (.ok reads bodyEnd) ∧
      Built F start (lineEvents F (bodyLines (bytes ++
        (reads.takeWhile fun r => !r.aborted).flatMap BodyRead.bytes)))
        (readBody F bodyEnd r p reads).1 := by
  induction reads generalizing bytes r p with
  | nil =>
    simp only [takeWhile_nil, flatMap_nil, append_nil]
    cases bodyEnd with
    | done aborted => exact ⟨rfl, hbuilt⟩
    | failed message aborted => exact ⟨rfl, hbuilt⟩
  | cons read reads ih =>
    by_cases haborted : read.aborted = true
    · rw [readBody, if_pos haborted, takeWhile_cons_of_neg (by simp [haborted])]
      simp only [flatMap_nil, append_nil]
      refine ⟨?_, hbuilt⟩
      simp [interruption, haborted]
    · obtain ⟨hlines, hreader'⟩ := hreader.read read.bytes
      rw [flatMap_cons, ← append_assoc] at hparses hconforms
      obtain ⟨later, hlater⟩ := exists_bodyLines_append (bytes ++ read.bytes)
        (reads.flatMap BodyRead.bytes)
      have hparsesChunk : Parses F (r.read read.bytes).1 := by
        rw [hlater, hlines, append_assoc] at hparses
        exact hparses.of_append.2.of_append.1
      have hconformsChunk : Conforms (lineEvents F (bodyLines bytes) ++
          lineEvents F (r.read read.bytes).1) := by
        rw [hlater, hlines, lineEvents, filterMap_append, filterMap_append] at hconforms
        exact hconforms.of_append
      obtain ⟨p', hprocess, hbuilt'⟩ :=
        processLines_built hbuilt hparsesChunk hconformsChunk
      have hevents : lineEvents F (bodyLines bytes) ++ lineEvents F (r.read read.bytes).1 =
          lineEvents F (bodyLines (bytes ++ read.bytes)) := by
        rw [hlines, lineEvents, lineEvents, lineEvents, filterMap_append]
      rw [hevents] at hbuilt'
      obtain ⟨hthrown, hdone⟩ := ih hreader' hbuilt' hparses hconforms
      rw [readBody, if_neg haborted, takeWhile_cons_of_pos (by simpa using haborted),
        flatMap_cons, ← append_assoc]
      simp only [hprocess]
      refine ⟨hthrown.trans ?_, hdone⟩
      simp [interruption, haborted]

theorem isTerminal_output (F : ProxyFormat) (records : List BlockRecord) (e : ProxyEvent) :
    isTerminal (e.output F records) = e.isTerminal := by
  cases e <;> rfl

theorem accepted_true (ops : List (Produced ProxyOutput Unit)) :
    EventStream.accepted completion true ops = [] := by
  induction ops with
  | nil => rfl
  | cons op ops ih => exact ih

theorem accepted_append {outs : List ProxyOutput} (h : ∀ e ∈ outs, isTerminal e = false)
    (ops : List (Produced ProxyOutput Unit)) :
    EventStream.accepted completion false (outs.map .push ++ ops) =
        outs ++ EventStream.accepted completion false ops ∧
      EventStream.resultOf completion false (outs.map .push ++ ops) =
        EventStream.resultOf completion false ops := by
  induction outs with
  | nil => exact ⟨rfl, rfl⟩
  | cons e outs ih =>
    have he : completion.isComplete e = false := h e mem_cons_self
    obtain ⟨haccepted, hresult⟩ := ih fun x hx => h x (mem_cons_of_mem _ hx)
    rw [map_cons, cons_append, EventStream.accepted, EventStream.resultOf, he]
    exact ⟨by rw [haccepted, cons_append], by simpa using hresult⟩

theorem accepted_terminal {e : ProxyOutput} (h : isTerminal e = true)
    (ops : List (Produced ProxyOutput Unit)) :
    EventStream.accepted completion false (.push e :: ops) = [e] ∧
      EventStream.resultOf completion false (.push e :: ops) = some () := by
  have he : completion.isComplete e = true := h
  rw [EventStream.accepted, EventStream.resultOf, he, accepted_true]
  exact ⟨rfl, rfl⟩

theorem Conforms.terminal_cases {F : ProxyFormat} {es : List ProxyEvent} (h : Conforms es) :
    ((∀ e ∈ es, e.isTerminal = false) ∧ ∀ o ∈ outputs F es, isTerminal o = false) ∨
      ∃ before last outs o, es = before ++ [last] ∧ last.isTerminal = true ∧
        outputs F es = outs ++ [o] ∧ isTerminal o = true ∧ ∀ x ∈ outs, isTerminal x = false := by
  induction es using reverseRecOn with
  | nil => exact .inl ⟨by simp, by simp [outputs, outputsFrom]⟩
  | append_singleton es e ih =>
    obtain ⟨hnone, _⟩ := h.concat
    have houts : ∀ o ∈ outputs F es, isTerminal o = false := by
      obtain ⟨_, houts⟩ | ⟨before, last, _, _, rfl, hlast, _⟩ := ih h.of_append
      · exact houts
      · exact absurd (hnone last (by simp)) (by simp [hlast])
    rw [outputs_concat]
    by_cases hterminal : e.isTerminal = true
    · refine .inr ⟨es, e, outputs F es, _, rfl, hterminal, rfl, ?_, houts⟩
      rw [isTerminal_output, hterminal]
    · refine .inl ⟨?_, ?_⟩
      · intro x hx
        obtain hx | hx := mem_append.mp hx
        · exact hnone x hx
        · rw [mem_singleton.mp hx]
          simpa using hterminal
      · intro o ho
        obtain ho | ho := mem_append.mp ho
        · exact houts o ho
        · rw [mem_singleton.mp ho, isTerminal_output]
          simpa using hterminal

def withThrown (message : ProxyMessage) (thrown : Thrown) : ProxyMessage :=
  { message with
    stopReason := abortReason thrown.aborted
    errorMessage := some thrown.message }

section

variable {F : ProxyFormat} {model : Model} {timestamp : ℕ} {fetched : Fetched}

theorem ConformingBody.events (h : ConformingBody F fetched) :
    Conforms (lineEvents F (bodyLines fetched.body)) := by
  obtain ⟨whole, ⟨hwhole, _⟩, rest, rfl⟩ := h.conforms
  exact hwhole.of_append

theorem ConformingBody.eventsRead (h : ConformingBody F fetched) :
    Conforms (eventsRead F fetched) := by
  cases fetched with
  | rejected thrown => exact .inl trivial
  | notOk status statusText errorData aborted => exact .inl trivial
  | ok reads bodyEnd =>
    have hall := h.events
    have hsplit : reads.flatMap BodyRead.bytes =
        (reads.takeWhile fun r => !r.aborted).flatMap BodyRead.bytes ++
          (reads.dropWhile fun r => !r.aborted).flatMap BodyRead.bytes := by
      rw [← flatMap_append, takeWhile_append_dropWhile]
    obtain ⟨lines, hlines⟩ := exists_bodyLines_append
      ((reads.takeWhile fun r => !r.aborted).flatMap BodyRead.bytes)
      ((reads.dropWhile fun r => !r.aborted).flatMap BodyRead.bytes)
    rw [Fetched.body, hsplit, hlines, lineEvents, filterMap_append] at hall
    exact hall.of_append

theorem streamProxy_spec (model : Model) (timestamp : ℕ) (hbody : ConformingBody F fetched) :
    streamProxy F model timestamp fetched =
      match interruption fetched with
      | none =>
        (foldMessage F (initialMessage model timestamp) (eventsRead F fetched),
          (outputs F (eventsRead F fetched)).map .push ++ [.ended none])
      | some thrown =>
        (withThrown
          (foldMessage F (initialMessage model timestamp) (eventsRead F fetched)) thrown,
          (outputs F (eventsRead F fetched)).map .push ++
            [.push (.error (abortReason thrown.aborted)), .ended none]) := by
  cases fetched with
  | rejected thrown => rfl
  | notOk status statusText errorData aborted => rfl
  | ok reads bodyEnd =>
    have hstart : Built F (initialMessage model timestamp) (lineEvents F (bodyLines []))
        ⟨initialMessage model timestamp, []⟩ := ⟨rfl, rfl⟩
    obtain ⟨hthrown, hbuilt⟩ :=
      readBody_spec bodyEnd readerAt_start hstart hbody.parses hbody.events
    rw [nil_append] at hbuilt
    rw [streamProxy]
    simp only [hthrown]
    cases interruption (.ok reads bodyEnd) with
    | none => simp only [hbuilt.message, hbuilt.pushed]; rfl
    | some thrown => simp only [hbuilt.message, hbuilt.pushed]; rfl

theorem completes_iff (hended : .ended none ∈ (streamProxy F model timestamp fetched).2) :
    Completes F model timestamp fetched ↔
      (∃ tail, EventStream.accepted completion false (streamProxy F model timestamp fetched).2 =
        outputs F (eventsRead F fetched) ++ tail ∧ ∀ e ∈ tail, ∃ reason, e = .error reason) ∧
      (∃ before last,
        EventStream.accepted completion false (streamProxy F model timestamp fetched).2 =
          before ++ [last] ∧ isTerminal last = true ∧ ∀ e ∈ before, isTerminal e = false) ∧
      EventStream.resultOf completion false (streamProxy F model timestamp fetched).2 = some () ∧
      ((∃ e ∈ eventsRead F fetched, e.isTerminal = true) →
        (streamProxy F model timestamp fetched).1 =
          foldMessage F (initialMessage model timestamp) (eventsRead F fetched)) := by
  have hrun : ∀ ops : List (StreamOp ℕ ProxyOutput Unit),
      ops.filterMap EventStream.produced? = (streamProxy F model timestamp fetched).2 →
        (EventStream.run completion .empty ops).events =
          EventStream.accepted completion false (streamProxy F model timestamp fetched).2 ∧
        (EventStream.run completion .empty ops).result =
          EventStream.resultOf completion false (streamProxy F model timestamp fetched).2 := by
    intro ops hops
    obtain ⟨_, hevents, hresult⟩ := EventStream.run_spec (C := completion)
      (s := (.empty : EventStream ℕ ProxyOutput Unit)) (fun h => absurd rfl h) ops
    rw [hops] at hevents hresult
    exact ⟨hevents, hresult.trans (Option.none_or)⟩
  constructor
  · intro h
    have hops : (((streamProxy F model timestamp fetched).2.map .produce :
        List (StreamOp ℕ ProxyOutput Unit)).filterMap EventStream.produced?) =
          (streamProxy F model timestamp fetched).2 := by
      rw [filterMap_map]
      exact filterMap_some
    obtain ⟨hevents, hresult⟩ := hrun _ hops
    refine ⟨?_, ?_, ?_, h.folded⟩
    · rw [← hevents]
      exact h.inOrder _ hops
    · rw [← hevents]
      exact h.endsOnce _ hops
    · rw [← hresult]
      exact (h.resolves _ hops).1
  · rintro ⟨hinOrder, hendsOnce, hresolves, hfolded⟩
    refine ⟨?_, ?_, ?_, hfolded⟩
    · intro ops hops
      rw [(hrun ops hops).1]
      exact hinOrder
    · intro ops hops
      rw [(hrun ops hops).1]
      exact hendsOnce
    · intro ops hops
      exact ⟨(hrun ops hops).2.trans hresolves, EventStream.waiting_of_ended (hops ▸ hended)⟩

theorem withThrown_eq_iff {start : ProxyMessage} (hstart : start.errorMessage = none)
    (before : List ProxyEvent) {last : ProxyEvent} (hlast : last.isTerminal = true)
    (thrown : Thrown) :
    withThrown (foldMessage F start (before ++ [last])) thrown =
        foldMessage F start (before ++ [last]) ↔
      ∃ usage, last = .error (abortReason thrown.aborted) (some thrown.message) usage := by
  rw [foldMessage, getLast?_concat]
  cases last with
  | done reason usage =>
    simp only [reduceCtorEq, exists_false, iff_false]
    intro h
    have herror := congrArg ProxyMessage.errorMessage h
    simp [withThrown, withTerminal, hstart] at herror
  | error reason errorMessage usage =>
    constructor
    · intro h
      have hreason := congrArg ProxyMessage.stopReason h
      have herror := congrArg ProxyMessage.errorMessage h
      simp only [withThrown, withTerminal] at hreason herror
      exact ⟨usage, by rw [hreason, herror]⟩
    · rintro ⟨_, heq⟩
      obtain ⟨rfl, rfl, rfl⟩ := ProxyEvent.error.inj heq
      rfl
  | _ => exact absurd hlast (by simp [ProxyEvent.isTerminal])

end

/-- A stream through a proxy completes exactly when its reading ends in time: with the terminal
event, or interrupted before it. -/
theorem streamProxy_completes_iff (F : ProxyFormat) (model : Model) (timestamp : ℕ)
    (fetched : Fetched) (hbody : ConformingBody F fetched) :
    Completes F model timestamp fetched ↔ EndsInTime F fetched := by
  have hspec := streamProxy_spec model timestamp hbody
  have hended : .ended none ∈ (streamProxy F model timestamp fetched).2 := by
    rw [hspec]
    cases interruption fetched <;> simp
  rw [completes_iff hended, EndsInTime, hspec]
  have hlast : EventStream.accepted completion false [.ended none] = [] ∧
      EventStream.resultOf completion false [.ended none] = none := ⟨rfl, rfl⟩
  rcases hbody.eventsRead.terminal_cases (F := F) with
    ⟨hnone, houts⟩ | ⟨before, last, outs, o, hes, hterminal, heq, ho, houts⟩
  · have hno : ¬ ∃ e ∈ eventsRead F fetched, e.isTerminal = true := by
      rintro ⟨e, he, hterminal⟩
      exact absurd (hnone e he) (by simp [hterminal])
    cases interruption fetched with
    | none =>
      simp only [hno, iff_false]
      rintro ⟨_, _, hresult, _⟩
      rw [(accepted_append houts _).2, hlast.2] at hresult
      exact absurd hresult (by simp)
    | some thrown =>
      obtain ⟨htaken, hresult⟩ := accepted_append houts
        [.push (.error (abortReason thrown.aborted)), .ended none]
      obtain ⟨hone, hgiven⟩ := accepted_terminal (e := .error (abortReason thrown.aborted)) rfl
        [.ended none]
      rw [hone] at htaken
      rw [hgiven] at hresult
      simp only [htaken, hresult]
      refine iff_of_true ⟨⟨_, rfl, ?_⟩, ⟨_, _, rfl, rfl, houts⟩, trivial, fun h => absurd h hno⟩ ?_
      · intro e he
        exact ⟨_, mem_singleton.mp he⟩
      · exact fun e he hterminal => absurd ⟨e, he, hterminal⟩ hno
  · have hsome : ∃ e ∈ eventsRead F fetched, e.isTerminal = true :=
      ⟨last, by rw [hes]; simp, hterminal⟩
    have htaken : ∀ ops, EventStream.accepted completion false
          ((outputs F (eventsRead F fetched)).map .push ++ ops) = outputs F (eventsRead F fetched) ∧
        EventStream.resultOf completion false
          ((outputs F (eventsRead F fetched)).map .push ++ ops) = some () := by
      intro ops
      obtain ⟨hone, hgiven⟩ := accepted_terminal ho ops
      rw [heq, map_append, append_assoc, map_singleton, singleton_append,
        (accepted_append houts _).1, (accepted_append houts _).2, hone, hgiven]
      exact ⟨rfl, rfl⟩
    have hdone : ∀ ops, (∃ tail, EventStream.accepted completion false
          ((outputs F (eventsRead F fetched)).map .push ++ ops) =
            outputs F (eventsRead F fetched) ++ tail ∧ ∀ e ∈ tail, ∃ reason, e = .error reason) ∧
        (∃ before last, EventStream.accepted completion false
          ((outputs F (eventsRead F fetched)).map .push ++ ops) = before ++ [last] ∧
            isTerminal last = true ∧ ∀ e ∈ before, isTerminal e = false) := by
      intro ops
      rw [(htaken ops).1]
      exact ⟨⟨[], by simp, by simp⟩, outs, o, heq, ho, houts⟩
    cases interruption fetched with
    | none =>
      simp only [(htaken _).2]
      exact iff_of_true ⟨(hdone _).1, (hdone _).2, trivial, fun _ => trivial⟩ hsome
    | some thrown =>
      have hstart : (initialMessage model timestamp).errorMessage = none := rfl
      have hmessage := withThrown_eq_iff (F := F) hstart before hterminal thrown
      rw [← hes] at hmessage
      have hbefore : ∀ e ∈ before, e.isTerminal = false := by
        have hconforms := hbody.eventsRead
        rw [hes] at hconforms
        exact hconforms.concat.1
      have hsays : (∀ e ∈ eventsRead F fetched, e.isTerminal = true →
          ∃ usage, e = .error (abortReason thrown.aborted) (some thrown.message) usage) ↔
            ∃ usage, last = .error (abortReason thrown.aborted) (some thrown.message) usage := by
        constructor
        · exact fun h => h last (by rw [hes]; simp) hterminal
        · intro h e he hterminal'
          rw [hes] at he
          obtain he | he := mem_append.mp he
          · exact absurd (hbefore e he) (by simp [hterminal'])
          · rw [mem_singleton.mp he]
            exact h
      simp only [(htaken _).2, hsays, ← hmessage]
      exact ⟨fun h => h.2.2.2 hsome, fun h => ⟨(hdone _).1, (hdone _).2, trivial, fun _ => h⟩⟩

def wordEvents : List (ProxyEvent × List Char) :=
  [(.start, "\x7b\"type\":\"start\"\x7d".toList),
    (.textStart 0, "\x7b\"type\":\"text_start\",\"contentIndex\":0\x7d".toList),
    (.textDelta 0 [0xE9],
      "\x7b\"type\":\"text_delta\",\"contentIndex\":0,\"delta\":\"é\"\x7d".toList),
    (.textEnd 0 none, "\x7b\"type\":\"text_end\",\"contentIndex\":0\x7d".toList),
    (.done .stop ⟨1, 1, 0, 0, 2⟩,
      "\x7b\"type\":\"done\",\"reason\":\"stop\",\"usage\":\x7b\"input\":1,".toList ++
      "\"output\":1,\"cacheRead\":0,\"cacheWrite\":0,\"totalTokens\":2\x7d\x7d".toList)]

/-- `JSON.parse` on the texts of these events. -/
def wordFormat : ProxyFormat where
  parseEvent data :=
    match wordEvents.find? fun p => p.2 = data with
    | some p => .ok p.1
    | none => .error (utf16 "Unexpected end of JSON input")
  parseJson _ := none
  partialParse _ := none

def wordBody (n : ℕ) : List UInt8 :=
  Utf8.encode ((wordEvents.take n).flatMap fun p => "data: ".toList ++ p.2 ++ ['\n', '\n'])

def proxyModel : Model := ⟨"gpt-4o", "openai-completions", "openai"⟩

theorem parses_of_all {F : ProxyFormat} (h : (lines.all fun line =>
      (lineData line).all fun data => (F.parseEvent data).toOption.isSome) = true) :
    Parses F lines := by
  intro line hline data hdata
  have hall := all_eq_true.mp h line hline
  rw [hdata, Option.all_some] at hall
  cases hparse : F.parseEvent data with
  | ok e => exact ⟨e, rfl⟩
  | error message => simp [hparse, Except.toOption] at hall

theorem wordEvents_followProtocol : FollowsProtocol (wordEvents.map Prod.fst) := by
  exact ⟨.inr ⟨_, rfl, rfl⟩, (wordEvents.map Prod.fst).take 4, _, rfl, rfl⟩

theorem wordBody_lines : ∀ n ≤ 5,
    ((bodyLines (wordBody n)).all fun line =>
      (lineData line).all fun data => (wordFormat.parseEvent data).toOption.isSome) = true ∧
    lineEvents wordFormat (bodyLines (wordBody n)) = (wordEvents.map Prod.fst).take n := by
  unfold wordFormat wordBody wordEvents
  repeat rw [String.toList_ofList]
  decide +kernel

theorem wordBody_conforms {n : ℕ} (hn : n ≤ 5) {bodyEnd : BodyEnd}
    (hreads : reads.flatMap BodyRead.bytes = wordBody n) :
    ConformingBody wordFormat (.ok reads bodyEnd) := by
  obtain ⟨hparses, hevents⟩ := wordBody_lines n hn
  refine ⟨?_, _, wordEvents_followProtocol, ?_⟩
  · rw [Fetched.body, hreads]
    exact parses_of_all hparses
  · rw [Fetched.body, hreads, hevents]
    exact take_prefix _ _

/-- The second chunk begins inside a character. -/
theorem streamProxy_completes_cut :
    Completes wordFormat proxyModel 0
      (.ok [⟨(wordBody 5).take 124, false⟩, ⟨(wordBody 5).drop 124, false⟩] (.done false)) := by
  have hbody : [⟨(wordBody 5).take 124, false⟩, ⟨(wordBody 5).drop 124, false⟩].flatMap
      BodyRead.bytes = wordBody 5 := by
    simp
  refine (streamProxy_completes_iff wordFormat proxyModel 0 _
    (wordBody_conforms (le_refl 5) hbody)).mpr ⟨.done .stop ⟨1, 1, 0, 0, 2⟩, ?_, rfl⟩
  have hevents := (wordBody_lines 5 (le_refl 5)).2
  rw [← hbody] at hevents
  rw [eventsRead, takeWhile_eq_self_iff.mpr (by simp), hevents]
  exact mem_of_getLast? rfl

/-- The connection is closed after the word: the stream ends, and its result stays open. -/
theorem closed_body_never_resolves :
    ∃ F model timestamp fetched, ConformingBody F fetched ∧
      ¬ Completes F model timestamp fetched := by
  refine ⟨wordFormat, proxyModel, 0, .ok [⟨wordBody 3, false⟩] (.done false),
    wordBody_conforms (show 3 ≤ 5 by decide) (by simp), ?_⟩
  intro h
  have hops : (streamProxy wordFormat proxyModel 0 (.ok [⟨wordBody 3, false⟩] (.done false))).2 =
      [.push .start, .push (.textStart 0), .push (.textDelta 0 [0xE9]), .ended none] := by
    unfold wordFormat wordBody wordEvents
    repeat rw [String.toList_ofList]
    decide +kernel
  have hresult := (h.resolves [.produce (.push .start), .produce (.push (.textStart 0)),
    .produce (.push (.textDelta 0 [0xE9])), .produce (.ended none)] hops.symm).1
  exact absurd hresult (by decide)

end Draht.Proxy
