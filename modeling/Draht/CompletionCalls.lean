import Draht.OpenAICompletionsStream
import Draht.StreamedCalls

/-!
# Calls of a completion

The pieces of a call come one after the other: a piece with another id, some text or some reasoning
ends it. The tool calls of the message are those that the pieces make up, in order.
-/

namespace Draht.Providers
open List Option

/-- A part of a call, with an id if it has one, or something else. -/
inductive CallPiece where
  | other
  | part (id : Option String) (arguments : JsText)
deriving DecidableEq

/-- The texts of the calls that ended, and the id and the text of the one that is streamed. -/
structure CallTally where
  ended : List JsText
  streaming : Option (String × JsText)
deriving DecidableEq

namespace CallTally

variable (t : CallTally)

def texts : List JsText := t.ended ++ (t.streaming.map (·.2)).toList

def add : CallPiece → CallTally
  | .other => ⟨t.texts, none⟩
  | .part id arguments =>
    match t.streaming with
    | none => ⟨t.texts, some (id.getD "", arguments)⟩
    | some (current, text) =>
      if id.all (· = current) then ⟨t.ended, some (current, text ++ arguments)⟩
      else ⟨t.texts, some (id.getD "", arguments)⟩

end CallTally

def ToolCallDelta.piece (toolCall : ToolCallDelta) : CallPiece :=
  .part (toolCall.id.filter (· ≠ "")) (toolCall.arguments.getD [])

def Delta.pieces (delta : Delta) : List CallPiece :=
  (delta.content.filter (· ≠ [])).toList.map (fun _ => .other) ++
    ((Completions.foundReasoning delta).toList.map (fun _ => .other) ++
      delta.toolCalls.filterMap (·.map ToolCallDelta.piece))

/-- What is `null` in a list ends in an exception. -/
def Delta.NoNull (delta : Delta) : Prop :=
  (∀ toolCall ∈ delta.toolCalls, toolCall.isSome) ∧
    ∀ detail ∈ delta.reasoningDetails, detail.isSome

def choiceOf (chunk : Option CompletionChunk) : Option Choice := chunk.bind (·.choice)

def deltaOf (chunk : Option CompletionChunk) : Option Delta := (choiceOf chunk).bind (·.delta)

def CallTally.addChunk (t : CallTally) (chunk : Option CompletionChunk) : CallTally :=
  ((deltaOf chunk).elim [] Delta.pieces).foldl CallTally.add t

def readFinishReason (reason : StopReason) (chunk : Option CompletionChunk) : StopReason :=
  match ((choiceOf chunk).bind (·.finishReason)).filter (· ≠ "") with
  | none => reason
  | some finishReason => (Completions.mapStopReason finishReason).1

namespace CompletionSource

variable (source : CompletionSource)

def calls : List StreamedCall :=
  (source.chunks.foldl CallTally.addChunk ⟨[], none⟩).texts.map fun text => ⟨.object .nil, text⟩

def finalStopReason : StopReason := source.chunks.foldl readFinishReason .stop

/-- Nothing is thrown, and the last finish reason is none of an error. -/
def Succeeds : Prop :=
  (∀ chunk ∈ source.chunks, ∀ delta ∈ deltaOf chunk, delta.NoNull) ∧ source.thrown = none ∧
    source.finalStopReason ≠ .error

end CompletionSource

variable {α : Type*} {block' : Block}

theorem filter_ne_getD [DecidableEq α] (x : Option α) (d : α) :
    (x.filter (· ≠ d)).getD d = x.getD d := by
  cases x with
  | none => rfl
  | some a => by_cases h : a = d <;> simp [Option.filter, h]

theorem filter_ne_all [DecidableEq α] (x : Option α) (d : α) :
    (x.filter (· ≠ d)).all (· = x.getD d) := by
  cases x with
  | none => rfl
  | some a => by_cases h : a = d <;> simp [Option.filter, h]

variable {P : JsonParser} {s : Streaming} {ended : List JsText} {text : JsText}
  {content : List Block} {call : ToolCall}

def EndedRead (P : JsonParser) (ended : List JsText) (content : List Block) : Prop :=
  CallsRead P (ended.map fun text => ⟨.object .nil, text⟩) content

structure Between (P : JsonParser) (s : Streaming) (ended : List JsText) : Prop where
  current : ∀ block ∈ s.current, toolCall? block = none
  read : EndedRead P ended s.output.content

structure Within (P : JsonParser) (s : Streaming) (ended : List JsText) (text : JsText)
    (content : List Block) (call : ToolCall) : Prop where
  content_eq : s.output.content = content ++ [.toolCall call]
  currentBlock : s.currentBlock = some content.length
  partialArgs : call.partialArgs = some text
  reads : StreamedCall.Reads P ⟨.object .nil, text⟩ call.arguments
  read : EndedRead P ended content

def Streamed (P : JsonParser) (s : Streaming) (t : CallTally) : Prop :=
  match t.streaming with
  | none => Between P s t.ended
  | some (id, text) => ∃ content call, Within P s t.ended text content call ∧ call.id = id

theorem toolCallsOf_append (content content' : List Block) :
    toolCallsOf (content ++ content') = toolCallsOf content ++ toolCallsOf content' :=
  filterMap_append

variable {block : Block} {i : ℕ}

theorem EndedRead.append_other (h : EndedRead P ended content)
    (hblock : toolCall? block = none) : EndedRead P ended (content ++ [block]) := by
  unfold EndedRead CallsRead at h ⊢
  simpa [toolCallsOf, hblock] using h

theorem EndedRead.append_call (h : EndedRead P ended content)
    (hreads : StreamedCall.Reads P ⟨.object .nil, text⟩ call.arguments) :
    EndedRead P (ended ++ [text]) (content ++ [.toolCall call]) := by
  unfold EndedRead CallsRead at h ⊢
  rw [toolCallsOf_append, map_append]
  exact rel_append h (.cons hreads .nil)

theorem filterMap_set {β : Type*} {f : α → Option β} {xs : List α} {x x' : α} (hi : xs[i]? = some x)
    (hf : f x' = f x) : (xs.set i x').filterMap f = xs.filterMap f := by
  induction xs generalizing i with
  | nil => rfl
  | cons y xs ih =>
    cases i with
    | zero =>
      cases hi
      rw [set_cons_zero, filterMap_cons, filterMap_cons, hf]
    | succ i =>
      rw [set_cons_succ, filterMap_cons, filterMap_cons, ih hi]

theorem EndedRead.set (h : EndedRead P ended content) (hi : content[i]? = some block)
    (hblock : (toolCall? block').map (·.arguments) = (toolCall? block).map (·.arguments)) :
    EndedRead P ended (content.set i block') := by
  unfold EndedRead CallsRead toolCallsOf at h ⊢
  rw [← forall₂_map_right_iff (f := ToolCall.arguments)
    (R := fun (c : StreamedCall) arguments => c.Reads P arguments), map_filterMap] at h ⊢
  rwa [filterMap_set hi hblock]

theorem Within.current (h : Within P s ended text content call) :
    s.current = some (.toolCall call) :=
  Streaming.current_of_block h.currentBlock (by rw [h.content_eq]; simp)

theorem Streamed.between {t : CallTally} (h : Streamed P s t)
    (hcurrent : s.current = some block) (hblock : toolCall? block = none) :
    Between P s t.texts := by
  obtain ⟨ended, streaming⟩ := t
  cases streaming with
  | none => simpa [Streamed, CallTally.texts] using h
  | some streaming =>
    obtain ⟨content, call, hwithin, hid⟩ := h
    rw [hwithin.current] at hcurrent
    cases hcurrent
    cases hblock

theorem Streamed.read {t : CallTally} (h : Streamed P s t) :
    EndedRead P t.texts s.output.content := by
  obtain ⟨ended, streaming⟩ := t
  cases streaming with
  | none =>
    have hbetween : Between P s ended := h
    simpa [CallTally.texts] using hbetween.read
  | some streaming =>
    obtain ⟨content, call, hwithin, hid⟩ := h
    rw [hwithin.content_eq]
    exact hwithin.read.append_call hwithin.reads

theorem Between.openBlock (h : Between P s ended) (hblock : toolCall? block = none)
    (started : ℤ → Event) : Between P (s.openBlock block started) ended := by
  refine ⟨fun block' hcurrent => ?_, ?_⟩
  · rw [Streaming.current_openBlock] at hcurrent
    cases hcurrent
    exact hblock
  · simpa [Streaming.openBlock] using h.read.append_other hblock

theorem Between.setBlock (h : Between P s ended) (hi : s.currentBlock = some i)
    (hcurrent : s.current = some block) (hblock : toolCall? block' = none) (event : Event) :
    Between P ((s.setBlock i block').push event) ended := by
  have hget := Streaming.block_of_current hi hcurrent
  refine ⟨fun block'' hcurrent'' => ?_, ?_⟩
  · have hset : ((s.setBlock i block').push event).current = some block' := by
      refine Streaming.current_of_block (i := i) hi ?_
      simp [(List.getElem?_eq_some_iff.mp hget).1]
    rw [hset] at hcurrent''
    cases hcurrent''
    exact hblock
  · exact h.read.set hget (by rw [hblock, h.current block hcurrent])

theorem Between.openCall (h : Between P s ended) (id name : String) (started : ℤ → Event) :
    Within P (s.openBlock (.toolCall ⟨id, name, .object .nil, none, some []⟩) started) ended []
      s.output.content ⟨id, name, .object .nil, none, some []⟩ :=
  ⟨rfl, rfl, rfl, .inr ⟨rfl, rfl⟩, h.read⟩

theorem Within.setCall (h : Within P s ended text content call) {text' : JsText} {call' : ToolCall}
    (hargs : call'.partialArgs = some text')
    (hreads : StreamedCall.Reads P ⟨.object .nil, text'⟩ call'.arguments) (event : Event) :
    Within P ((s.setBlock content.length (.toolCall call')).push event) ended text' content call' :=
  ⟨by simp [h.content_eq], h.currentBlock, hargs, hreads, h.read⟩

namespace Completions

theorem finishCurrentBlock_between {t : CallTally} (h : Streamed P s t) :
    Between P (finishCurrentBlock P s) t.texts := by
  obtain ⟨ended, streaming⟩ := t
  cases streaming with
  | none =>
    have hbetween : Between P s ended := h
    have hfinish : finishCurrentBlock P s = s.finishText := by
      unfold finishCurrentBlock
      split
      · next hcurrent => cases hbetween.current _ hcurrent
      · rfl
    rw [hfinish]
    refine ⟨fun block hcurrent => ?_, ?_⟩
    · rw [Streaming.current, s.finishText_currentBlock] at hcurrent
      cases hcurrent
    · simpa [CallTally.texts] using hbetween.read
  | some streaming =>
    obtain ⟨content, call, hwithin, hid⟩ := h
    unfold finishCurrentBlock
    rw [hwithin.currentBlock, hwithin.current]
    refine ⟨fun block (hcurrent : none = some block) => (by cases hcurrent), ?_⟩
    have hreads : StreamedCall.Reads P ⟨.object .nil, streaming.2⟩
        (P.parseStreamingJson (call.partialArgs.getD [])) :=
      .inl (by rw [hwithin.partialArgs]; rfl)
    have hread : EndedRead P (ended ++ [streaming.2]) (content ++ [.toolCall { call with
        arguments := P.parseStreamingJson (call.partialArgs.getD []), partialArgs := none }]) :=
      hwithin.read.append_call hreads
    simpa [hwithin.content_eq, CallTally.texts] using hread

theorem handleContent_streamed {t : CallTally} (h : Streamed P s t) (piece : JsText) :
    Streamed P (handleContent P s piece) (t.add .other) := by
  unfold handleContent
  extract_lets s'
  have hs' : Between P s' t.texts := by
    simp only [s']
    split
    · next hcurrent => exact h.between hcurrent rfl
    · exact (finishCurrentBlock_between h).openBlock rfl _
  split
  · next i text signature hi hcurrent => exact hs'.setBlock hi hcurrent rfl _
  · exact hs'

theorem handleReasoning_streamed {t : CallTally} (h : Streamed P s t) (field : String)
    (piece : JsText) : Streamed P (handleReasoning P s field piece) (t.add .other) := by
  unfold handleReasoning
  extract_lets s'
  have hs' : Between P s' t.texts := by
    simp only [s']
    split
    · next hcurrent => exact h.between hcurrent rfl
    · exact (finishCurrentBlock_between h).openBlock rfl _
  split
  · next i thinking signature hi hcurrent => exact hs'.setBlock hi hcurrent rfl _
  · exact hs'

variable {toolCall : ToolCallDelta}

theorem extendCall_id (h : (toolCall.id.filter (· ≠ "")).all (· = call.id)) :
    (extendCall P toolCall call).id = call.id := by
  have hid : (toolCall.id.filter (· ≠ "")).getD call.id = call.id := by
    cases hfilter : toolCall.id.filter (· ≠ "") with
    | none => rfl
    | some id =>
      rw [hfilter] at h
      simpa using h
  unfold extendCall
  split <;> exact hid

theorem extendCall_reads (hargs : call.partialArgs = some text)
    (hreads : StreamedCall.Reads P ⟨.object .nil, text⟩ call.arguments)
    (toolCall : ToolCallDelta) :
    (extendCall P toolCall call).partialArgs = some (text ++ toolCall.arguments.getD []) ∧
      StreamedCall.Reads P ⟨.object .nil, text ++ toolCall.arguments.getD []⟩
        (extendCall P toolCall call).arguments := by
  unfold extendCall
  rw [← filter_ne_getD toolCall.arguments]
  cases toolCall.arguments.filter (· ≠ []) with
  | none =>
    rw [getD_none, append_nil]
    exact ⟨hargs, hreads⟩
  | some delta =>
    simp only [hargs, getD_some, true_and]
    exact .inl rfl

theorem within_of_continuesCall {t : CallTally} (h : Streamed P s t)
    (hcontinues : continuesCall s toolCall = true) :
    ∃ text content call, Within P s t.ended text content call ∧
      (toolCall.id.filter (· ≠ "")).all (· = call.id) ∧ t.streaming = some (call.id, text) := by
  unfold continuesCall at hcontinues
  obtain ⟨ended, streaming⟩ := t
  cases streaming with
  | none =>
    have hbetween : Between P s ended := h
    split at hcontinues
    · next hcurrent => cases hbetween.current _ hcurrent
    · cases hcontinues
  | some streaming =>
    obtain ⟨content, call, hwithin, hid⟩ := h
    rw [hwithin.current] at hcontinues
    exact ⟨streaming.2, content, call, hwithin, hcontinues, by rw [hid]⟩

theorem add_of_not_continuesCall {t : CallTally} (h : Streamed P s t)
    (hcontinues : ¬ continuesCall s toolCall = true) :
    t.add toolCall.piece =
      ⟨t.texts, some (toolCall.id.getD "", toolCall.arguments.getD [])⟩ := by
  obtain ⟨ended, streaming⟩ := t
  cases streaming with
  | none => simp only [ToolCallDelta.piece, CallTally.add, filter_ne_getD]
  | some streaming =>
    obtain ⟨content, call, hwithin, hcall⟩ := h
    unfold continuesCall at hcontinues
    rw [hwithin.current] at hcontinues
    simp only [hcall] at hcontinues
    simp only [ToolCallDelta.piece, CallTally.add, filter_ne_getD, if_neg hcontinues]

theorem add_part {t : CallTally} (h : Streamed P s t) (toolCall : ToolCallDelta) {s' : Streaming}
    (hs' : s' = if continuesCall s toolCall then s else (finishCurrentBlock P s).openBlock
      (.toolCall ⟨toolCall.id.getD "", toolCall.name.getD "", .object .nil, none, some []⟩)
      .toolcallStart) :
    ∃ ended text content call, Within P s' ended text content call ∧
      (toolCall.id.filter (· ≠ "")).all (· = call.id) ∧
      t.add toolCall.piece = ⟨ended, some (call.id, text ++ toolCall.arguments.getD [])⟩ := by
  subst hs'
  split_ifs with hcontinues
  · obtain ⟨text, content, call, hwithin, hid, hstreaming⟩ := within_of_continuesCall h hcontinues
    refine ⟨t.ended, text, content, call, hwithin, hid, ?_⟩
    simp only [ToolCallDelta.piece, CallTally.add, hstreaming, if_pos hid]
  · refine ⟨t.texts, [], _, _, (finishCurrentBlock_between h).openCall _ _ _,
      filter_ne_all toolCall.id "", ?_⟩
    rw [add_of_not_continuesCall h hcontinues, nil_append]

theorem handleToolCall_streamed {t : CallTally} (h : Streamed P s t) (toolCall : ToolCallDelta) :
    Streamed P (handleToolCall P s (some toolCall)).1 (t.add toolCall.piece) := by
  obtain ⟨ended, text, content, call, hwithin, hid, hadd⟩ := add_part h toolCall rfl
  have hextend := extendCall_reads (P := P) hwithin.partialArgs hwithin.reads toolCall
  unfold handleToolCall
  dsimp only
  rw [hwithin.currentBlock, hwithin.current, hadd]
  exact ⟨content, _, hwithin.setCall hextend.1 hextend.2 _, extendCall_id hid⟩

theorem withSignature_other (hblock : toolCall? block = none) (json : String) :
    withSignature json block = block := by
  cases block with
  | text text signature => rfl
  | thinking thinking signature => rfl
  | toolCall call => cases hblock

theorem withSignature_arguments (json : String) (block : Block) :
    (toolCall? (withSignature json block)).map (·.arguments) =
      (toolCall? block).map (·.arguments) := by
  cases block <;> rfl

theorem sign_between (h : Between P s ended) (json : String)
    (hblock : s.output.content[i]? = some block) :
    Between P (s.setBlock i (withSignature json block)) ended := by
  refine ⟨fun block' hcurrent => ?_, h.read.set hblock (withSignature_arguments json block)⟩
  obtain ⟨j, hj, hblock'⟩ := bind_eq_some_iff.mp hcurrent
  have hj' : s.currentBlock = some j := hj
  rw [Streaming.setBlock_content, getElem?_set] at hblock'
  split_ifs at hblock' with hij hlt
  · cases hblock'
    subst hij
    have hother := h.current block (Streaming.current_of_block hj' hblock)
    rwa [withSignature_other hother]
  · exact h.current block' (Streaming.current_of_block hj' hblock')

theorem sign_within (h : Within P s ended text content call)
    (json : String) (hblock : s.output.content[i]? = some block) :
    ∃ content' call', Within P (s.setBlock i (withSignature json block)) ended text content' call' ∧
      call'.id = call.id := by
  rw [h.content_eq] at hblock
  obtain hlt | hge := Nat.lt_or_ge i content.length
  · rw [getElem?_append_left hlt] at hblock
    refine ⟨content.set i (withSignature json block), call, ⟨?_, ?_, h.partialArgs, h.reads, ?_⟩,
      rfl⟩
    · rw [Streaming.setBlock_content, h.content_eq, set_append_left _ _ hlt]
    · rw [Streaming.setBlock_currentBlock, h.currentBlock, length_set]
    · exact h.read.set hblock (withSignature_arguments json block)
  · rw [getElem?_append_right hge, getElem?_singleton] at hblock
    split_ifs at hblock with hi
    cases hblock
    obtain rfl : i = content.length := by omega
    refine ⟨content, { call with thoughtSignature := some json },
      ⟨?_, h.currentBlock, h.partialArgs, h.reads, h.read⟩, rfl⟩
    rw [Streaming.setBlock_content, h.content_eq, set_append_right _ _ le_rfl, Nat.sub_self]
    rfl

theorem sign_streamed {t : CallTally} (h : Streamed P s t) (json : String)
    (hblock : s.output.content[i]? = some block) :
    Streamed P (s.setBlock i (withSignature json block)) t := by
  obtain ⟨ended, streaming⟩ := t
  cases streaming with
  | none =>
    have hbetween : Between P s ended := h
    exact sign_between hbetween json hblock
  | some streaming =>
    obtain ⟨content, call, hwithin, hid⟩ := h
    obtain ⟨content', call', hwithin', hid'⟩ := sign_within hwithin json hblock
    exact ⟨content', call', hwithin', hid'.trans hid⟩

theorem handleDetail_streamed {t : CallTally} (h : Streamed P s t)
    (detail : Option ReasoningDetail) : Streamed P (handleDetail s detail).1 t := by
  unfold handleDetail
  split
  · exact h
  · split
    · split_ifs
      · split
        · split
          · next hblock => exact sign_streamed h _ hblock
          · exact h
        · exact h
      · exact h
    · exact h

theorem handleToolCall_thrown (s : Streaming) (toolCall : Option ToolCallDelta) :
    (handleToolCall P s toolCall).2 = none ↔ toolCall.isSome := by
  cases toolCall with
  | none =>
    unfold handleToolCall
    dsimp only
    split <;> simp
  | some toolCall =>
    unfold handleToolCall
    dsimp only
    split <;> simp

theorem handleDetail_thrown (s : Streaming) (detail : Option ReasoningDetail) :
    (handleDetail s detail).2 = none ↔ detail.isSome := by
  cases detail with
  | none => simp [handleDetail]
  | some detail =>
    simp only [handleDetail, isSome_some, iff_true]
    split
    · split_ifs
      · split
        · split <;> rfl
        · rfl
      · rfl
    · rfl

theorem handleToolCalls_streamed {t : CallTally} (h : Streamed P s t)
    {toolCalls : List (Option ToolCallDelta)} (hsome : ∀ toolCall ∈ toolCalls, toolCall.isSome) :
    Streamed P (foldUntil (handleToolCall P) s toolCalls).1
      ((toolCalls.filterMap (·.map ToolCallDelta.piece)).foldl CallTally.add t) := by
  induction toolCalls generalizing s t with
  | nil => exact h
  | cons toolCall toolCalls ih =>
    obtain ⟨hfirst, hrest⟩ := forall_mem_cons.mp hsome
    obtain ⟨toolCall, rfl⟩ := isSome_iff_exists.mp hfirst
    have hstep := handleToolCall_streamed h toolCall
    have hthrown := (handleToolCall_thrown (P := P) s (some toolCall)).mpr rfl
    rw [foldUntil]
    cases hrun : handleToolCall P s (some toolCall) with
    | mk s' thrown =>
      rw [hrun] at hstep hthrown
      obtain rfl : thrown = none := hthrown
      exact ih hstep hrest

theorem handleDelta_streamed {t : CallTally} (h : Streamed P s t) {delta : Delta}
    (hdelta : delta.NoNull) :
    Streamed P (handleDelta P s delta).1 (delta.pieces.foldl CallTally.add t) := by
  unfold handleDelta Delta.pieces
  extract_lets s₁ s₂
  rw [foldl_append, foldl_append]
  have hs₁ : Streamed P s₁ (((delta.content.filter (· ≠ [])).toList.map
      fun _ => CallPiece.other).foldl CallTally.add t) := by
    simp only [s₁]
    cases delta.content.filter (· ≠ []) with
    | none => exact h
    | some content => exact handleContent_streamed h content
  generalize ((delta.content.filter (· ≠ [])).toList.map
    fun _ => CallPiece.other).foldl CallTally.add t = t₁ at hs₁ ⊢
  have hs₂ : Streamed P s₂ (((foundReasoning delta).toList.map
      fun _ => CallPiece.other).foldl CallTally.add t₁) := by
    simp only [s₂]
    cases foundReasoning delta with
    | none => exact hs₁
    | some found => exact handleReasoning_streamed hs₁ found.1 found.2
  have hcalls := handleToolCalls_streamed hs₂ hdelta.1
  have hthrown := (foldUntil_thrown (handleToolCall_thrown (P := P)) s₂ delta.toolCalls).mpr
    hdelta.1
  cases hrun : foldUntil (handleToolCall P) s₂ delta.toolCalls with
  | mk s₃ thrown =>
    rw [hrun] at hcalls hthrown
    obtain rfl : thrown = none := hthrown
    exact foldUntil_invariant (I := fun s => Streamed P s _)
      (fun s detail hs => handleDetail_streamed hs detail) hcalls delta.reasoningDetails

theorem handleDelta_thrown (s : Streaming) (delta : Delta) :
    (handleDelta P s delta).2 = none ↔ delta.NoNull := by
  unfold handleDelta
  extract_lets s₁ s₂
  have hcalls := foldUntil_thrown (handleToolCall_thrown (P := P)) s₂ delta.toolCalls
  cases hrun : foldUntil (handleToolCall P) s₂ delta.toolCalls with
  | mk s₃ thrown =>
    rw [hrun] at hcalls
    cases thrown with
    | none =>
      have hdetails := foldUntil_thrown handleDetail_thrown s₃ delta.reasoningDetails
      exact hdetails.trans (and_iff_right (hcalls.mp rfl)).symm
    | some message =>
      refine iff_of_false (by simp) fun hdelta => ?_
      cases hcalls.mpr hdelta.1

theorem setOutput_streamed {t : CallTally} (h : Streamed P s t) (f : Output → Output) :
    Streamed P (setOutput s f) t := by
  obtain ⟨ended, streaming⟩ := t
  cases streaming with
  | none =>
    have hbetween : Between P s ended := h
    exact Between.mk hbetween.current hbetween.read
  | some streaming =>
    obtain ⟨content, call, hwithin, hid⟩ := h
    exact ⟨content, call, ⟨hwithin.content_eq, hwithin.currentBlock, hwithin.partialArgs,
      hwithin.reads, hwithin.read⟩, hid⟩

theorem handleChunk_streamed {t : CallTally} (h : Streamed P s t)
    {chunk : Option CompletionChunk} (hchunk : ∀ delta ∈ deltaOf chunk, delta.NoNull) :
    Streamed P (handleChunk P s chunk).1 (t.addChunk chunk) := by
  cases chunk with
  | none => exact h
  | some chunk =>
    obtain ⟨id, usage, choice⟩ := chunk
    cases choice with
    | none =>
      unfold handleChunk
      dsimp only
      exact setOutput_streamed h _
    | some choice =>
      obtain ⟨choiceUsage, finishReason, delta⟩ := choice
      cases delta with
      | none =>
        unfold handleChunk
        dsimp only
        exact setOutput_streamed (setOutput_streamed h _) _
      | some delta =>
        exact handleDelta_streamed (setOutput_streamed (setOutput_streamed h _) _)
          (hchunk delta rfl)

theorem handleChunk_thrown (s : Streaming) (chunk : Option CompletionChunk) :
    (handleChunk P s chunk).2 = none ↔ ∀ delta ∈ deltaOf chunk, delta.NoNull := by
  cases chunk with
  | none => simp [handleChunk, deltaOf, choiceOf]
  | some chunk =>
    obtain ⟨id, usage, choice⟩ := chunk
    cases choice with
    | none => simp [handleChunk, deltaOf, choiceOf]
    | some choice =>
      obtain ⟨choiceUsage, finishReason, delta⟩ := choice
      cases delta with
      | none => simp [handleChunk, deltaOf, choiceOf]
      | some delta =>
        have hdeltas : (∀ d ∈ deltaOf (some ⟨id, usage, some ⟨choiceUsage, finishReason,
            some delta⟩⟩), d.NoNull) ↔ delta.NoNull := by
          simp [deltaOf, choiceOf]
        rw [hdeltas]
        exact handleDelta_thrown _ delta

theorem finishCurrentBlock_stopReason :
    (finishCurrentBlock P s).output.stopReason = s.output.stopReason := by
  unfold finishCurrentBlock
  split
  · rfl
  · rw [Streaming.finishText_output]

theorem openBlock_stopReason (block : Block) (started : ℤ → Event) :
    ((finishCurrentBlock P s).openBlock block started).output.stopReason = s.output.stopReason :=
  finishCurrentBlock_stopReason

theorem handleContent_stopReason (piece : JsText) :
    (handleContent P s piece).output.stopReason = s.output.stopReason := by
  unfold handleContent
  extract_lets s'
  have hs' : s'.output.stopReason = s.output.stopReason := by
    simp only [s']
    split
    · rfl
    · exact openBlock_stopReason _ _
  split
  · exact hs'
  · exact hs'

theorem handleReasoning_stopReason (field : String) (piece : JsText) :
    (handleReasoning P s field piece).output.stopReason = s.output.stopReason := by
  unfold handleReasoning
  extract_lets s'
  have hs' : s'.output.stopReason = s.output.stopReason := by
    simp only [s']
    split
    · rfl
    · exact openBlock_stopReason _ _
  split
  · exact hs'
  · exact hs'

theorem handleToolCall_stopReason (toolCall : Option ToolCallDelta) :
    (handleToolCall P s toolCall).1.output.stopReason = s.output.stopReason := by
  cases toolCall with
  | none =>
    unfold handleToolCall
    dsimp only
    split
    · rfl
    · exact finishCurrentBlock_stopReason
  | some toolCall =>
    have hs' : (if continuesCall s toolCall then s else (finishCurrentBlock P s).openBlock
        (.toolCall ⟨toolCall.id.getD "", toolCall.name.getD "", .object .nil, none, some []⟩)
        .toolcallStart).output.stopReason = s.output.stopReason := by
      split_ifs
      · rfl
      · exact openBlock_stopReason _ _
    unfold handleToolCall
    dsimp only
    split
    · exact hs'
    · exact hs'

theorem handleDetail_stopReason (detail : Option ReasoningDetail) :
    (handleDetail s detail).1.output.stopReason = s.output.stopReason := by
  unfold handleDetail
  split
  · rfl
  · split
    · split_ifs
      · split
        · split <;> rfl
        · rfl
      · rfl
    · rfl

theorem handleDelta_stopReason (s : Streaming) (delta : Delta) :
    (handleDelta P s delta).1.output.stopReason = s.output.stopReason := by
  unfold handleDelta
  extract_lets s₁ s₂
  have hs₁ : s₁.output.stopReason = s.output.stopReason := by
    simp only [s₁]
    split
    · exact handleContent_stopReason _
    · rfl
  have hs₂ : s₂.output.stopReason = s.output.stopReason := by
    simp only [s₂]
    split
    · exact (handleReasoning_stopReason _ _).trans hs₁
    · exact hs₁
  have hcalls := foldUntil_invariant
    (I := fun s' : Streaming => s'.output.stopReason = s.output.stopReason)
    (fun _ toolCall hs => (handleToolCall_stopReason (P := P) toolCall).trans hs) hs₂
    delta.toolCalls
  split
  · next hrun =>
      rw [hrun] at hcalls
      exact hcalls
  · next hrun =>
      rw [hrun] at hcalls
      exact foldUntil_invariant
        (I := fun s' : Streaming => s'.output.stopReason = s.output.stopReason)
        (fun _ detail hs => (handleDetail_stopReason detail).trans hs) hcalls _

theorem handleChunk_stopReason (chunk : Option CompletionChunk) :
    (handleChunk P s chunk).1.output.stopReason = readFinishReason s.output.stopReason chunk := by
  cases chunk with
  | none => rfl
  | some chunk =>
    obtain ⟨id, usage, choice⟩ := chunk
    cases choice with
    | none => rfl
    | some choice =>
      obtain ⟨choiceUsage, finishReason, delta⟩ := choice
      have hreason (o : Output) : (finishReasonOf o finishReason).stopReason =
          readFinishReason o.stopReason (some ⟨id, usage, some ⟨choiceUsage, finishReason,
            delta⟩⟩) := by
        simp only [finishReasonOf, readFinishReason, choiceOf, bind_some]
        cases finishReason.filter (· ≠ "") <;> rfl
      cases delta with
      | none =>
        exact hreason _
      | some delta =>
        exact (handleDelta_stopReason _ delta).trans (hreason _)

theorem mapStopReason_ne_aborted (reason : String) : (mapStopReason reason).1 ≠ .aborted := by
  unfold mapStopReason
  split_ifs <;> simp

theorem readFinishReason_ne_aborted {reason : StopReason} (h : reason ≠ .aborted)
    (chunk : Option CompletionChunk) : readFinishReason reason chunk ≠ .aborted := by
  unfold readFinishReason
  split
  · exact h
  · exact mapStopReason_ne_aborted _

end Completions

theorem CompletionSource.finalStopReason_ne_aborted (source : CompletionSource) :
    source.finalStopReason ≠ .aborted :=
  List.foldlRecOn (motive := fun reason => reason ≠ StopReason.aborted) source.chunks
    readFinishReason (by decide) fun _ h chunk _ => Completions.readFinishReason_ne_aborted h chunk

theorem Streaming.fail_failed (s : Streaming) (aborted : Bool) (message : JsText) :
    (s.fail aborted message).output.stopReason.failed = true := by
  cases aborted <;> rfl

theorem streamed_initial : Streamed P (Streaming.initial.push .start) ⟨[], none⟩ :=
  Between.mk nofun .nil

theorem CompletionSource.streamed (source : CompletionSource)
    (h : foldUntil (Completions.handleChunk P) (Streaming.initial.push .start) source.chunks =
      (s, none)) :
    CallsRead P source.calls (Completions.finishCurrentBlock P s).output.content ∧
      (Completions.finishCurrentBlock P s).output.stopReason = source.finalStopReason := by
  have hnone := congrArg Prod.snd h
  have hcalls := foldUntil_simulates (f := Completions.handleChunk P) (R := Streamed P)
    (fun s t chunk hs hchunk => Completions.handleChunk_streamed hs
      ((Completions.handleChunk_thrown s chunk).mp hchunk))
    streamed_initial source.chunks hnone
  have hreason := foldUntil_simulates
    (R := fun (s : Streaming) reason => s.output.stopReason = reason)
    (fun s reason chunk hs _ => by rw [Completions.handleChunk_stopReason (P := P) chunk, hs])
    (s := Streaming.initial.push .start) rfl source.chunks hnone
  rw [h] at hcalls hreason
  exact ⟨(Completions.finishCurrentBlock_between hcalls).read,
    Completions.finishCurrentBlock_stopReason.trans hreason⟩

theorem streamOpenAICompletions_succeeds {source : CompletionSource} (h : source.Succeeds) :
    (streamOpenAICompletions P (.ok source) false).output.stopReason = source.finalStopReason ∧
      CallsRead P source.calls (streamOpenAICompletions P (.ok source) false).output.content := by
  obtain ⟨hnull, hthrown, hfinal⟩ := h
  have hnone := (foldUntil_thrown (Completions.handleChunk_thrown (P := P))
    (Streaming.initial.push .start) source.chunks).mpr hnull
  cases hrun : foldUntil (Completions.handleChunk P) (Streaming.initial.push .start)
      source.chunks with
  | mk s thrown =>
    rw [hrun] at hnone
    obtain rfl : thrown = none := hnone
    obtain ⟨hread, hreason⟩ := source.streamed hrun
    have haborted : (Completions.finishCurrentBlock P s).output.stopReason ≠ .aborted := by
      rw [hreason]
      exact source.finalStopReason_ne_aborted
    have herror : (Completions.finishCurrentBlock P s).output.stopReason ≠ .error := by
      rwa [hreason]
    have hstream : streamOpenAICompletions P (.ok source) false =
        (Completions.finishCurrentBlock P s).succeed := by
      simp [streamOpenAICompletions, hrun, hthrown, if_neg haborted, if_neg herror]
    rw [hstream]
    exact ⟨hreason, hread⟩

theorem streamOpenAICompletions_fails {opened : Except CompletionError CompletionSource}
    {aborted : Bool}
    (h : ∀ source, opened = .ok source → aborted = false → ¬ source.Succeeds) :
    (streamOpenAICompletions P opened aborted).output.stopReason.failed = true := by
  cases opened with
  | error error => exact Streaming.fail_failed _ aborted _
  | ok source =>
    unfold streamOpenAICompletions
    dsimp only
    split
    · exact Streaming.fail_failed _ aborted _
    · next s hrun =>
        split
        · exact Streaming.fail_failed _ aborted _
        · next hthrown =>
            split_ifs with haborted _ herror
            · exact Streaming.fail_failed _ _ _
            · exact Streaming.fail_failed _ _ _
            · exact Streaming.fail_failed _ _ _
            · have hnull := (foldUntil_thrown (Completions.handleChunk_thrown (P := P))
                (Streaming.initial.push .start) source.chunks).mp (by rw [hrun])
              refine absurd ⟨hnull, hthrown, fun hfinal => herror ?_⟩
                (h source rfl (by simpa using haborted))
              rw [(source.streamed hrun).2, hfinal]

end Draht.Providers
