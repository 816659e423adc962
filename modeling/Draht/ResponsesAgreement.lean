import Draht.ResponsesOutcome

/-!
# Blocks and the events that end them

An item is streamed by its start, by parts, and by its end, and the items come one after another.
The event that ends a text or a reasoning has what the block of the message has. The event that ends
a tool call is made from the end of the item, and the block of the message keeps what the parts have
left in it.
-/

namespace Draht.Responses

def OutputItem.isCall : OutputItem → Bool
  | .functionCall _ _ _ _ => true
  | _ => false

def OutputItem.sameItem : OutputItem → OutputItem → Bool
  | .reasoning _ _, .reasoning _ _ => true
  | .message id _ _, .message id' _ _ => id = id'
  | .functionCall callId id name _, .functionCall callId' id' name' _ =>
    callId = callId' && id = id' && name = name'
  | .other, .other => true
  | _, _ => false

def ResponseEvent.isPart : ResponseEvent → Bool
  | .reasoningSummaryPartAdded _ | .reasoningSummaryTextDelta _ | .reasoningSummaryPartDone
  | .contentPartAdded _ | .outputTextDelta _ | .refusalDelta _ | .functionCallArgumentsDelta _
  | .functionCallArgumentsDone _ | .other | .untyped => true
  | _ => false

structure StreamedItem where
  added : OutputItem
  parts : List ResponseEvent
  done : OutputItem
  sameItem : added.sameItem done = true
  isPart : ∀ event ∈ parts, event.isPart = true

/-- What a response consists of: items, and events that belong to none. -/
inductive Segment where
  | item (item : StreamedItem)
  | created (id : JsText)
  | other
  | untyped

/-- The segments of a response, and then at most one event, which ends it. -/
structure StreamedResponse where
  segments : List Segment
  last : Option ResponseEvent
  last_ends : ∀ event ∈ last, event.isContent = false

def StreamedItem.events (s : StreamedItem) : List ResponseEvent :=
  .outputItemAdded s.added :: (s.parts ++ [.outputItemDone s.done])

def Segment.events : Segment → List ResponseEvent
  | .item s => s.events
  | .created id => [.created id]
  | .other => [.other]
  | .untyped => [.untyped]

def Segment.isCall : Segment → Bool
  | .item s => s.added.isCall
  | _ => false

def StreamedResponse.content (r : StreamedResponse) : List ResponseEvent :=
  r.segments.flatMap Segment.events

/-- The processor on a response; `thrown` is an exception of its source. -/
def StreamedResponse.processed (F : Format) (thrown : Option JsText) (r : StreamedResponse) :
    Processing :=
  (processResponsesStream F thrown (Processing.initial.push .start)
    (r.content ++ r.last.toList)).1

/-- A tool call as an object. Only the block of a stream is to have `partialJson`. -/
structure CallObject where
  id : JsText
  name : JsText
  arguments : Json
  partialJson : Option JsText
deriving DecidableEq

inductive Carried where
  | text (content : JsText)
  | thinking (content : JsText)
  | toolCall (call : CallObject)
deriving DecidableEq

def Block.carried : Block → Carried
  | .text content _ => .text content
  | .thinking content _ => .thinking content
  | .toolCall id name arguments partialJson => .toolCall ⟨id, name, arguments, some partialJson⟩

/-- The block that an event ends, and what the event says of it. -/
def carriedBy? : Event → Option (ℤ × Carried)
  | .textEnd contentIndex content => some (contentIndex, .text content)
  | .thinkingEnd contentIndex content => some (contentIndex, .thinking content)
  | .toolcallEnd contentIndex toolCall =>
    some (contentIndex, .toolCall ⟨toolCall.id, toolCall.name, toolCall.arguments, none⟩)
  | _ => none

def Processing.ends (p : Processing) : List (ℤ × Carried) := p.pushed.filterMap carriedBy?

def blocksOf (content : List Block) : List (ℤ × Carried) :=
  content.zipIdx.map fun (block, index) => ((index : ℤ), block.carried)

def Processing.blocks (p : Processing) : List (ℤ × Carried) := blocksOf p.output.content

/-- The blocks of the message are those that the events have ended, as far as `view` tells. -/
def Processing.AgreesOn {β : Type*} (view : Carried → β) (p : Processing) : Prop :=
  p.blocks.map (Prod.map id view) = p.ends.map (Prod.map id view)

def Carried.withoutPartial : Carried → Carried
  | .toolCall call => .toolCall { call with partialJson := none }
  | carried => carried

/-- The JSON of a call after a part, and whether any part has set the arguments. -/
def callAfter : JsText × Bool → ResponseEvent → JsText × Bool
  | (partialJson, _), .functionCallArgumentsDelta delta => (partialJson ++ delta, true)
  | _, .functionCallArgumentsDone arguments => (arguments, true)
  | call, _ => call

/-- The arguments of the block, which is made without any. -/
def blockArguments (F : Format) (call : JsText × Bool) : Json :=
  if call.2 then F.parseStreamingJson call.1 else .object .nil

/-- The arguments of the event: those of the block's JSON, or else those of the item. -/
def endArguments (F : Format) (call : JsText × Bool) (arguments : JsText) : Json :=
  if call.1 ≠ [] then F.parseStreamingJson call.1
  else F.parseStreamingJson (if arguments = [] then utf16 "\x7b\x7d" else arguments)

def StreamedItem.call? (F : Format) (s : StreamedItem) : Option (Carried × Carried) :=
  match s.added, s.done with
  | .functionCall callId id name arguments, .functionCall _ _ _ doneArguments =>
    let call := s.parts.foldl callAfter (arguments, false)
    some (.toolCall ⟨toolCallId callId id, name, blockArguments F call, some call.1⟩,
      .toolCall ⟨toolCallId callId id, name, endArguments F call doneArguments, none⟩)
  | _, _ => none

def Segment.call? (F : Format) : Segment → Option (Carried × Carried)
  | .item s => s.call? F
  | _ => none

inductive BlockKind where
  | text | thinking | toolCall
deriving DecidableEq

def Block.kind : Block → BlockKind
  | .text _ _ => .text
  | .thinking _ _ => .thinking
  | .toolCall _ _ _ _ => .toolCall

def advance (F : Format) (p : Processing) (events : List ResponseEvent) : Processing :=
  events.foldl (fun p event => (processEvent F p event).1) p

namespace Processing

variable {F : Format} {p : Processing} {before : List Block} {ended : List (ℤ × Carried)}
  {kind : BlockKind}

/-- The last block is the current one, and the others and what was ended stay as they are. -/
structure Writes (before : List Block) (ended : List (ℤ × Carried)) (kind : BlockKind)
    (p : Processing) : Prop where
  hasCurrentBlock : p.hasCurrentBlock = true
  content : ∃ block, p.output.content = before ++ [block] ∧ block.kind = kind
  ends : p.ends = ended

theorem Writes.currentBlock (h : Writes before ended kind p) :
    ∃ block, p.currentBlock = some block ∧ block.kind = kind := by
  obtain ⟨block, hcontent, hkind⟩ := h.content
  exact ⟨block, by simp [Processing.currentBlock, h.hasCurrentBlock, hcontent], hkind⟩

theorem Writes.setItem (h : Writes before ended kind p) (item : CurrentItem) :
    Writes before ended kind (p.setItem item) :=
  ⟨h.hasCurrentBlock, h.content, h.ends⟩

theorem Writes.setBlock (h : Writes before ended kind p) {block : Block}
    (hkind : block.kind = kind) : Writes before ended kind (p.setBlock block) := by
  obtain ⟨old, hcontent, _⟩ := h.content
  refine ⟨rfl, ⟨block, ?_, hkind⟩, h.ends⟩
  simp [Processing.setBlock, setContent, hcontent]

variable {event : Event} {β : Type*}

theorem ends_push (p : Processing) (hevent : carriedBy? event = none) :
    (p.push event).ends = p.ends := by
  simp [Processing.ends, push, hevent]

theorem ends_push_some (p : Processing) {carried : ℤ × Carried}
    (hevent : carriedBy? event = some carried) : (p.push event).ends = p.ends ++ [carried] := by
  simp [Processing.ends, push, hevent]

section

variable (h : Writes before ended kind p)
include h

theorem Writes.push
    (hevent : carriedBy? event = none) : Writes before ended kind (p.push event) :=
  ⟨h.hasCurrentBlock, h.content, (ends_push p hevent).trans h.ends⟩

theorem Writes.summaryDelta (delta : JsText) :
    Writes before ended kind (p.summaryDelta delta) := by
  obtain ⟨block, hblock, hkind⟩ := h.currentBlock
  unfold Processing.summaryDelta
  rw [hblock]
  split
  · next summary thinking signature _ hthinking =>
      obtain rfl := Option.some.inj hthinking
      split
      · exact h
      · refine Writes.push ?_ rfl
        exact (h.setItem _).setBlock hkind
  · exact h

theorem Writes.partDelta
    (extend : ContentPart → Option ContentPart) (delta : JsText) :
    Writes before ended kind (p.partDelta extend delta) := by
  obtain ⟨block, hblock, hkind⟩ := h.currentBlock
  unfold Processing.partDelta
  rw [hblock]
  split
  · next content text signature _ htext =>
      obtain rfl := Option.some.inj htext
      split
      · exact h
      · refine Writes.push ?_ rfl
        exact (h.setItem _).setBlock hkind
  · exact h

theorem Writes.argumentsDelta (delta : JsText) :
    Writes before ended kind (p.argumentsDelta F delta) := by
  obtain ⟨block, hblock, hkind⟩ := h.currentBlock
  unfold Processing.argumentsDelta
  rw [hblock]
  split
  · next id name arguments partialJson _ hcall =>
      obtain rfl := Option.some.inj hcall
      refine Writes.push ?_ rfl
      exact h.setBlock hkind
  · exact h

theorem Writes.argumentsDone (arguments : JsText) :
    Writes before ended kind (p.argumentsDone F arguments) := by
  obtain ⟨block, hblock, hkind⟩ := h.currentBlock
  unfold Processing.argumentsDone
  rw [hblock]
  split
  · next id name previous partialJson _ hcall =>
      obtain rfl := Option.some.inj hcall
      dsimp only
      split_ifs
      · refine Writes.push ?_ rfl
        exact h.setBlock hkind
      · exact h.setBlock hkind
  · exact h

theorem Writes.processEvent {event : ResponseEvent}
    (hpart : event.isPart = true) : Writes before ended kind (processEvent F p event).1 := by
  cases event with
  | reasoningSummaryPartAdded text =>
    simp only [Responses.processEvent]
    split
    · exact h.setItem _
    · exact h
  | contentPartAdded part =>
    simp only [Responses.processEvent]
    split
    · exact h
    · exact h.setItem _
    · exact h
  | reasoningSummaryTextDelta delta => exact h.summaryDelta delta
  | reasoningSummaryPartDone => exact h.summaryDelta _
  | outputTextDelta delta => exact h.partDelta _ delta
  | refusalDelta delta => exact h.partDelta _ delta
  | functionCallArgumentsDelta delta => exact h.argumentsDelta delta
  | functionCallArgumentsDone arguments => exact h.argumentsDone arguments
  | other => exact h
  | untyped => exact h
  | _ => cases hpart

theorem Writes.advance {parts : List ResponseEvent}
    (hparts : ∀ event ∈ parts, event.isPart = true) :
    Writes before ended kind (advance F p parts) := by
  induction parts generalizing p with
  | nil => exact h
  | cons event parts ih =>
    exact ih (h.processEvent (hparts event List.mem_cons_self))
      fun e he => hparts e (List.mem_cons_of_mem _ he)

end

/-- While a call is streamed, its block has the arguments that the parts have set. -/
structure WritesCall (F : Format) (before : List Block) (ended : List (ℤ × Carried))
    (id name : JsText) (call : JsText × Bool) (p : Processing) : Prop where
  currentItem : p.currentItem = some .functionCall
  hasCurrentBlock : p.hasCurrentBlock = true
  content : p.output.content = before ++ [.toolCall id name (blockArguments F call) call.1]
  ends : p.ends = ended

variable {partialId callName : JsText} {call : JsText × Bool}

section

variable (h : WritesCall F before ended partialId callName call p)
include h

theorem WritesCall.currentBlock :
    p.currentBlock = some (.toolCall partialId callName (blockArguments F call) call.1) := by
  simp [Processing.currentBlock, h.hasCurrentBlock, h.content]

theorem WritesCall.setBlock
    (partialJson : JsText) :
    WritesCall F before ended partialId callName (partialJson, true)
      (p.setBlock
        (.toolCall partialId callName (F.parseStreamingJson partialJson) partialJson)) := by
  refine ⟨h.currentItem, rfl, ?_, h.ends⟩
  simp [Processing.setBlock, setContent, h.content, blockArguments]

theorem WritesCall.push
    (hevent : carriedBy? event = none) :
    WritesCall F before ended partialId callName call (p.push event) :=
  ⟨h.currentItem, h.hasCurrentBlock, h.content, (ends_push p hevent).trans h.ends⟩

theorem WritesCall.processEvent
    {event : ResponseEvent} (hpart : event.isPart = true) :
    WritesCall F before ended partialId callName (callAfter call event)
      (processEvent F p event).1 := by
  have hitem := h.currentItem
  have hblock := h.currentBlock
  cases event with
  | reasoningSummaryPartAdded text => simpa [Responses.processEvent, hitem, callAfter] using h
  | contentPartAdded part => simpa [Responses.processEvent, hitem, callAfter] using h
  | reasoningSummaryTextDelta delta =>
    simpa [Responses.processEvent, Processing.summaryDelta, hitem, callAfter] using h
  | reasoningSummaryPartDone =>
    simpa [Responses.processEvent, Processing.summaryDelta, hitem, callAfter] using h
  | outputTextDelta delta =>
    simpa [Responses.processEvent, Processing.partDelta, hitem, callAfter] using h
  | refusalDelta delta =>
    simpa [Responses.processEvent, Processing.partDelta, hitem, callAfter] using h
  | functionCallArgumentsDelta delta =>
    simp only [Responses.processEvent, Processing.argumentsDelta, hitem, hblock]
    exact WritesCall.push (h.setBlock (call.1 ++ delta)) rfl
  | functionCallArgumentsDone arguments =>
    simp only [Responses.processEvent, Processing.argumentsDone, hitem, hblock]
    split_ifs
    · exact WritesCall.push (h.setBlock arguments) rfl
    · exact h.setBlock arguments
  | other => exact h
  | untyped => exact h
  | _ => cases hpart

theorem WritesCall.advance
    {parts : List ResponseEvent} (hparts : ∀ event ∈ parts, event.isPart = true) :
    WritesCall F before ended partialId callName (parts.foldl callAfter call)
      (advance F p parts) := by
  induction parts generalizing p call with
  | nil => exact h
  | cons event parts ih =>
    exact ih (h.processEvent (hparts event List.mem_cons_self))
      fun e he => hparts e (List.mem_cons_of_mem _ he)

end

/-- Between two items there is no current block, so parts change nothing. -/
structure Between (content : List Block) (ended : List (ℤ × Carried)) (p : Processing) : Prop where
  hasCurrentBlock : p.hasCurrentBlock = false
  content : p.output.content = content
  ends : p.ends = ended

variable {content : List Block}

theorem Between.processEvent (h : Between content ended p) {event : ResponseEvent}
    (hpart : event.isPart = true) : Between content ended (processEvent F p event).1 := by
  have hblock : p.currentBlock = none := by simp [Processing.currentBlock, h.hasCurrentBlock]
  have hset : ∀ item, Between content ended (p.setItem item) := fun item =>
    ⟨h.hasCurrentBlock, h.content, h.ends⟩
  cases event with
  | reasoningSummaryPartAdded text =>
    simp only [Responses.processEvent]
    split
    · exact hset _
    · exact h
  | contentPartAdded part =>
    simp only [Responses.processEvent]
    split
    · exact h
    · exact hset _
    · exact h
  | reasoningSummaryTextDelta delta =>
    simpa [Responses.processEvent, Processing.summaryDelta, hblock] using h
  | reasoningSummaryPartDone =>
    simpa [Responses.processEvent, Processing.summaryDelta, hblock] using h
  | outputTextDelta delta => simpa [Responses.processEvent, Processing.partDelta, hblock] using h
  | refusalDelta delta => simpa [Responses.processEvent, Processing.partDelta, hblock] using h
  | functionCallArgumentsDelta delta =>
    simpa [Responses.processEvent, Processing.argumentsDelta, hblock] using h
  | functionCallArgumentsDone arguments =>
    simpa [Responses.processEvent, Processing.argumentsDone, hblock] using h
  | other => exact h
  | untyped => exact h
  | _ => cases hpart

theorem Between.advance (h : Between content ended p) {parts : List ResponseEvent}
    (hparts : ∀ event ∈ parts, event.isPart = true) :
    Between content ended (advance F p parts) := by
  induction parts generalizing p with
  | nil => exact h
  | cons event parts ih =>
    exact ih (h.processEvent (hparts event List.mem_cons_self))
      fun e he => hparts e (List.mem_cons_of_mem _ he)

theorem Between.openBlock (h : Between content ended p) (item : CurrentItem) (block : Block)
    {started : ℤ → Event} (hstarted : ∀ index, carriedBy? (started index) = none) :
    Writes content ended block.kind (p.openBlock item block started) := by
  refine ⟨rfl, ⟨block, ?_, rfl⟩, ?_⟩
  · exact congrArg (· ++ [block]) h.content
  · exact (ends_push _ (hstarted _)).trans h.ends

theorem Writes.closeBlock (h : Writes before ended kind p) (block : Block) {done : ℤ → Event}
    {carried : Carried} (hdone : ∀ index, carriedBy? (done index) = some (index, carried)) :
    Between (before ++ [block]) (ended ++ [((before.length : ℤ), carried)])
      (p.closeBlock block done) := by
  obtain ⟨old, hcontent, _⟩ := h.content
  have hclosed : p.output.content.dropLast ++ [block] = before ++ [block] := by simp [hcontent]
  refine ⟨rfl, hclosed, (ends_push_some _ (hdone _)).trans ?_⟩
  have hindex : (p.setContent (p.output.content.dropLast ++ [block]) false).blockIndex =
      before.length := by
    simp [blockIndex, setContent, hclosed]
  rw [hindex]
  exact congrArg (· ++ _) h.ends

theorem Between.openCall (h : Between content ended p) (callId id name arguments : JsText) :
    WritesCall F content ended (toolCallId callId id) name (arguments, false)
      (p.itemAdded (.functionCall callId id name arguments)) :=
  ⟨rfl, rfl, congrArg (· ++ [Block.toolCall (toolCallId callId id) name (.object .nil) arguments])
    h.content, (ends_push _ rfl).trans h.ends⟩

theorem WritesCall.itemDone (h : WritesCall F before ended partialId callName call p)
    (callId id doneName arguments : JsText) :
    Between (before ++ [.toolCall partialId callName (blockArguments F call) call.1])
      (ended ++ [((before.length : ℤ), .toolCall
        ⟨toolCallId callId id, doneName, endArguments F call arguments, none⟩)])
      (p.itemDone F (.functionCall callId id doneName arguments)) := by
  have hblock := h.currentBlock
  have hindex : p.blockIndex = before.length := by simp [blockIndex, h.content]
  simp only [Processing.itemDone, hblock]
  refine ⟨rfl, h.content, (ends_push_some _ rfl).trans ?_⟩
  rw [← hindex, ← h.ends]
  rfl

theorem advance_append (F : Format) (p : Processing) (events more : List ResponseEvent) :
    Responses.advance F p (events ++ more) =
      Responses.advance F (Responses.advance F p events) more :=
  List.foldl_append ..

theorem Between.item (h : Between content ended p) (s : StreamedItem) :
    (s.call? F = none ∧ Between content ended (Responses.advance F p s.events)) ∨
      ∃ block carried,
        Between (content ++ [block]) (ended ++ [((content.length : ℤ), carried)])
          (Responses.advance F p s.events) ∧
        ((s.call? F = none ∧ block.carried = carried) ∨
          s.call? F = some (block.carried, carried)) := by
  obtain ⟨added, parts, done, hsame, hparts⟩ := s
  have hevents : Responses.advance F p
      (StreamedItem.events ⟨added, parts, done, hsame, hparts⟩) =
        (Responses.advance F (p.itemAdded added) parts).itemDone F done := by
    rw [StreamedItem.events, ← List.cons_append, advance_append]
    rfl
  rw [hevents]
  cases added with
  | reasoning summary json =>
    cases done with
    | reasoning doneSummary doneJson =>
      have hopen := (h.openBlock (.reasoning summary) (.thinking [] none)
        (fun _ => rfl : ∀ index, carriedBy? (.thinkingStart index) = none)).advance (F := F) hparts
      obtain ⟨block, hblock, hkind⟩ := hopen.currentBlock
      cases block with
      | thinking thinking signature =>
        refine .inr ⟨.thinking (summaryText doneSummary) (some doneJson),
          .thinking (summaryText doneSummary), ?_, .inl ⟨rfl, rfl⟩⟩
        have hclosed := hopen.closeBlock
          (.thinking (summaryText doneSummary) (some doneJson)) (fun _ => rfl :
            ∀ index, carriedBy? (.thinkingEnd index (summaryText doneSummary)) =
              some (index, .thinking (summaryText doneSummary)))
        simpa only [Processing.itemDone, Processing.itemAdded, hblock] using hclosed
      | _ => cases hkind
    | _ => cases hsame
  | message id phase parts' =>
    cases done with
    | message doneId donePhase doneContent =>
      have hopen := (h.openBlock (.message parts') (.text [] none)
        (fun _ => rfl : ∀ index, carriedBy? (.textStart index) = none)).advance (F := F) hparts
      obtain ⟨block, hblock, hkind⟩ := hopen.currentBlock
      cases block with
      | text text signature =>
        refine .inr ⟨.text (doneContent.flatMap partText)
          (some (encodeTextSignatureV1 F doneId donePhase)),
          .text (doneContent.flatMap partText), ?_, .inl ⟨rfl, rfl⟩⟩
        have hclosed := hopen.closeBlock (.text (doneContent.flatMap partText)
          (some (encodeTextSignatureV1 F doneId donePhase))) (fun _ => rfl :
            ∀ index, carriedBy? (.textEnd index (doneContent.flatMap partText)) =
              some (index, .text (doneContent.flatMap partText)))
        simpa only [Processing.itemDone, Processing.itemAdded, hblock] using hclosed
      | _ => cases hkind
    | _ => cases hsame
  | functionCall callId id name arguments =>
    cases done with
    | functionCall doneCallId doneId doneName doneArguments =>
      simp only [OutputItem.sameItem, Bool.and_eq_true, decide_eq_true_eq] at hsame
      obtain ⟨⟨rfl, rfl⟩, rfl⟩ := hsame
      have hcall := (h.openCall (F := F) callId id name arguments).advance hparts
      exact .inr ⟨_, _, hcall.itemDone callId id name doneArguments, .inr rfl⟩
    | _ => cases hsame
  | other =>
    cases done with
    | other => exact .inl ⟨rfl, h.advance hparts⟩
    | _ => cases hsame

theorem blocksOf_append (content : List Block) (block : Block) :
    blocksOf (content ++ [block]) =
      blocksOf content ++ [((content.length : ℤ), block.carried)] := by
  simp [blocksOf, List.zipIdx_append]

theorem Between.agreesOn {view : Carried → β} (h : Between content ended p) :
    p.AgreesOn view ↔
      (blocksOf content).map (Prod.map id view) = ended.map (Prod.map id view) := by
  rw [AgreesOn, blocks, h.content, h.ends]

theorem agreesOn_append (view : Carried → β) (content : List Block)
    (ended : List (ℤ × Carried)) (block : Block) (carried : Carried) :
    (blocksOf (content ++ [block])).map (Prod.map id view) =
        (ended ++ [((content.length : ℤ), carried)]).map (Prod.map id view) ↔
      (blocksOf content).map (Prod.map id view) = ended.map (Prod.map id view) ∧
        view block.carried = view carried := by
  rw [blocksOf_append, List.map_append, List.map_append]
  constructor
  · intro h
    obtain ⟨hbefore, hlast⟩ := List.append_inj' h rfl
    exact ⟨hbefore, by simpa using hlast⟩
  · rintro ⟨hbefore, hlast⟩
    rw [hbefore]
    simp [hlast]

theorem Between.segment (view : Carried → β) (h : Between content ended p)
    (s : Segment) :
    ∃ content' ended', Between content' ended' (Responses.advance F p s.events) ∧
      ((Responses.advance F p s.events).AgreesOn view ↔
        p.AgreesOn view ∧ ∀ call ∈ s.call? F, view call.1 = view call.2) := by
  cases s with
  | item s =>
    obtain ⟨hnone, hafter⟩ | ⟨block, carried, hafter, hcall⟩ := h.item (F := F) s
    · refine ⟨content, ended, hafter, ?_⟩
      rw [Segment.events, hafter.agreesOn, h.agreesOn]
      simp [Segment.call?, hnone]
    · refine ⟨_, _, hafter, ?_⟩
      rw [Segment.events, hafter.agreesOn, h.agreesOn, agreesOn_append]
      refine and_congr_right fun _ => ?_
      obtain ⟨hnone, hsame⟩ | hsome := hcall
      · simp [Segment.call?, hnone, hsame]
      · simp [Segment.call?, hsome]
  | created id => exact ⟨content, ended, ⟨h.hasCurrentBlock, h.content, h.ends⟩, by
      simp [Segment.call?, Segment.events, Responses.advance, Responses.processEvent, AgreesOn,
        blocks, Processing.ends]⟩
  | other => exact ⟨content, ended, h, by simp [Segment.call?, Segment.events, Responses.advance,
      Responses.processEvent]⟩
  | untyped => exact ⟨content, ended, h, by simp [Segment.call?, Segment.events,
      Responses.advance, Responses.processEvent]⟩

theorem Between.segments {view : Carried → β} (h : Between content ended p)
    (segments : List Segment) :
    (Responses.advance F p (segments.flatMap Segment.events)).AgreesOn view ↔
      p.AgreesOn view ∧ ∀ s ∈ segments, ∀ call ∈ s.call? F, view call.1 = view call.2 := by
  induction segments generalizing content ended p with
  | nil => simp [Responses.advance]
  | cons s segments ih =>
    obtain ⟨content', ended', hafter, hiff⟩ := h.segment (F := F) view s
    rw [List.flatMap_cons, advance_append, ih hafter, hiff, List.forall_mem_cons, and_assoc]

end Processing

theorem OutputItem.isCall_iff {F : Format} (s : StreamedItem) :
    s.added.isCall = (s.call? F).isSome := by
  obtain ⟨added, parts, done, hsame, _⟩ := s
  cases added <;> cases done <;> first | rfl | cases hsame

theorem Segment.isCall_iff {F : Format} (s : Segment) : s.isCall = (s.call? F).isSome := by
  cases s with
  | item s => exact OutputItem.isCall_iff s
  | _ => rfl

theorem StreamedResponse.isContent (r : StreamedResponse) :
    ∀ event ∈ r.content, event.isContent = true := by
  have hpart : ∀ event : ResponseEvent, event.isPart = true → event.isContent = true := by
    intro event hevent
    cases event <;> first | rfl | cases hevent
  intro event hevent
  obtain ⟨s, _, hs⟩ := List.mem_flatMap.mp hevent
  cases s with
  | item s =>
    simp only [Segment.events, StreamedItem.events, List.mem_cons, List.mem_append,
      List.not_mem_nil, or_false] at hs
    obtain rfl | hs | rfl := hs
    · rfl
    · exact hpart event (s.isPart event hs)
    · rfl
  | created id => rw [List.mem_singleton.mp hs]; rfl
  | other => rw [List.mem_singleton.mp hs]; rfl
  | untyped => rw [List.mem_singleton.mp hs]; rfl

section Processed

variable {F : Format} {p : Processing} {reason : StopReason}

theorem processResponsesStream_advance (h : Pending reason p) {content : List ResponseEvent}
    (hcontent : ∀ event ∈ content, event.isContent = true) (thrown : Option JsText)
    (rest : List ResponseEvent) :
    processResponsesStream F thrown p (content ++ rest) =
      processResponsesStream F thrown (advance F p content) rest := by
  induction content generalizing p with
  | nil => rfl
  | cons event content ih =>
    have hevent := hcontent event List.mem_cons_self
    rw [List.cons_append, processResponsesStream_content h hevent,
      ih (h.processEvent hevent).1 fun e he => hcontent e (List.mem_cons_of_mem _ he)]
    rfl

theorem processEvent_last {event : ResponseEvent} (h : event.isContent = false) :
    (processEvent F p event).1.output.content = p.output.content ∧
      (processEvent F p event).1.pushed = p.pushed := by
  cases event with
  | completed response =>
    simp only [processEvent, Processing.responseCompleted]
    split <;> exact ⟨rfl, rfl⟩
  | incomplete response => exact ⟨rfl, rfl⟩
  | responseDone response => exact ⟨rfl, rfl⟩
  | failed response => exact ⟨rfl, rfl⟩
  | error code message json => exact ⟨rfl, rfl⟩
  | _ => cases h

theorem agreesOn_processed (view : Carried → β) (thrown : Option JsText)
    (r : StreamedResponse) : (r.processed F thrown).AgreesOn view ↔
      (advance F (Processing.initial.push .start) r.content).AgreesOn view := by
  rw [StreamedResponse.processed, processResponsesStream_advance Pending.start r.isContent]
  generalize advance F (Processing.initial.push .start) r.content = p
  cases hlast : r.last with
  | none => rfl
  | some event =>
    obtain ⟨hcontent, hpushed⟩ := processEvent_last (F := F) (p := p) (r.last_ends event hlast)
    have hprocessed : (processResponsesStream F thrown p [event]).1 =
        (processEvent F p event).1 := by
      rw [processResponsesStream]
      rcases processEvent F p event with ⟨p', _ | message⟩ <;> rfl
    rw [Option.toList_some, hprocessed, Processing.AgreesOn, Processing.AgreesOn,
      Processing.blocks, Processing.blocks, Processing.ends, Processing.ends, hcontent, hpushed]

theorem agreesOn_iff (view : Carried → β) (thrown : Option JsText)
    (r : StreamedResponse) : (r.processed F thrown).AgreesOn view ↔
      ∀ s ∈ r.segments, ∀ call ∈ s.call? F, view call.1 = view call.2 := by
  have hstart : Processing.Between [] [] (Processing.initial.push .start) := ⟨rfl, rfl, rfl⟩
  rw [agreesOn_processed, StreamedResponse.content, hstart.segments]
  exact and_iff_right rfl

end Processed

theorem Segment.call?_eq {F : Format} {s : Segment} {call : Carried × Carried}
    (h : call ∈ s.call? F) : ∃ id name arguments arguments' partialJson,
      call = (.toolCall ⟨id, name, arguments, some partialJson⟩,
        .toolCall ⟨id, name, arguments', none⟩) := by
  cases s with
  | item s =>
    obtain ⟨added, parts, done, hsame, hparts⟩ := s
    cases added with
    | functionCall callId id name arguments =>
      cases done with
      | functionCall callId' id' name' arguments' =>
        obtain rfl := Option.some.inj h
        exact ⟨_, _, _, _, _, rfl⟩
      | _ => cases h
    | _ => cases done <;> cases h
  | _ => cases h

theorem arguments_agree_iff (F : Format) (thrown : Option JsText) (r : StreamedResponse) :
    (r.processed F thrown).AgreesOn Carried.withoutPartial ↔
      ∀ s, .item s ∈ r.segments → ∀ callId id name arguments doneArguments,
        s.added = .functionCall callId id name arguments →
        s.done = .functionCall callId id name doneArguments →
        blockArguments F (s.parts.foldl callAfter (arguments, false)) =
          endArguments F (s.parts.foldl callAfter (arguments, false)) doneArguments := by
  rw [agreesOn_iff]
  constructor
  · intro h s hs callId id name arguments doneArguments hadded hdone
    have hsame := h (.item s) hs _ (by rw [Segment.call?, StreamedItem.call?, hadded, hdone]; rfl)
    simpa [Carried.withoutPartial] using hsame
  · intro h s hs call hcall
    cases s with
    | item s =>
      obtain ⟨added, parts, done, hsame, hparts⟩ := s
      cases added with
      | functionCall callId id name arguments =>
        cases done with
        | functionCall callId' id' name' doneArguments =>
          simp only [OutputItem.sameItem, Bool.and_eq_true, decide_eq_true_eq] at hsame
          obtain ⟨⟨rfl, rfl⟩, rfl⟩ := hsame
          obtain rfl := Option.some.inj hcall
          have hequal := h _ hs callId id name arguments doneArguments rfl rfl
          simpa [Carried.withoutPartial] using hequal
        | _ => cases hcall
      | _ => cases done <;> cases hcall
    | _ => cases hcall

/-- The blocks of the message are what the events have ended exactly when no call was streamed: the
block of a call keeps the field of the stream. -/
theorem blocks_agree_iff (F : Format) (thrown : Option JsText) (r : StreamedResponse) :
    (r.processed F thrown).AgreesOn id ↔ ∀ s ∈ r.segments, s.isCall = false := by
  rw [agreesOn_iff]
  refine forall₂_congr fun s _ => ?_
  rw [Segment.isCall_iff (F := F), Option.isSome_eq_false_iff, Option.isNone_iff_eq_none]
  constructor
  · intro h
    by_contra hne
    obtain ⟨call, hcall⟩ := Option.ne_none_iff_exists'.mp hne
    obtain ⟨id, name, arguments, arguments', partialJson, rfl⟩ := Segment.call?_eq hcall
    have hsame := h _ hcall
    simp at hsame
  · intro hnone call hcall
    rw [hnone] at hcall
    cases hcall

def argumentsText : JsText := utf16 "\x7b\"a\":1\x7d"

def argumentsJson : Json := .object (.cons "a" (.number "1") .nil)

def oneFormat : Format where
  parse := fun text => if text = argumentsText then some argumentsJson else none
  partialParse := fun _ => none
  quote := id

def lateArguments : StreamedResponse where
  segments := [.item
    { added := .functionCall (utf16 "c") (utf16 "i") (utf16 "f") []
      parts := []
      done := .functionCall (utf16 "c") (utf16 "i") (utf16 "f") argumentsText
      sameItem := by decide
      isPart := by simp }]
  last := none
  last_ends := by simp

/-- The event has them, and the block has none. -/
theorem lateArguments_not_agree :
    (lateArguments.processed oneFormat none).blocks =
        [(0, .toolCall ⟨utf16 "c|i", utf16 "f", .object .nil, some []⟩)] ∧
      (lateArguments.processed oneFormat none).ends =
        [(0, .toolCall ⟨utf16 "c|i", utf16 "f", argumentsJson, none⟩)] ∧
      ¬ ∀ (F : Format) (thrown : Option JsText) (r : StreamedResponse),
        (r.processed F thrown).AgreesOn id := by
  have hblocks : (lateArguments.processed oneFormat none).blocks =
      [(0, .toolCall ⟨utf16 "c|i", utf16 "f", .object .nil, some []⟩)] := by decide +kernel
  have hends : (lateArguments.processed oneFormat none).ends =
      [(0, .toolCall ⟨utf16 "c|i", utf16 "f", argumentsJson, none⟩)] := by
    decide +kernel
  refine ⟨hblocks, hends, fun hclaim => ?_⟩
  have hagrees := hclaim oneFormat none lateArguments
  rw [Processing.AgreesOn, hblocks, hends] at hagrees
  simp at hagrees

end Draht.Responses
