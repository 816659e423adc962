import Draht.ProviderStream

/-!
# Streams of chat completions

The chunks of a completion have text, reasoning and pieces of tool calls, in any order. Each block
is the current one until a piece of another comes.
-/

namespace Draht.Providers

structure ToolCallDelta where
  id : Option String
  name : Option String
  arguments : Option JsText
deriving DecidableEq

/-- `json` is `JSON.stringify(detail)`. -/
structure ReasoningDetail where
  type : String
  id : Option String
  hasData : Bool
  json : String
deriving DecidableEq

/-- The lists may have `null` in them. -/
structure Delta where
  content : Option JsText
  reasoningContent : Option JsText
  reasoning : Option JsText
  reasoningText : Option JsText
  toolCalls : List (Option ToolCallDelta)
  reasoningDetails : List (Option ReasoningDetail)
deriving DecidableEq

structure RawUsage where
  promptTokens : Option ℤ
  completionTokens : Option ℤ
  cachedTokens : Option ℤ
  cacheWriteTokens : Option ℤ
  reasoningTokens : Option ℤ
deriving DecidableEq

structure Choice where
  usage : Option RawUsage
  finishReason : Option String
  delta : Option Delta
deriving DecidableEq

structure CompletionChunk where
  id : Option String
  usage : Option RawUsage
  choice : Option Choice
deriving DecidableEq

namespace Completions

def parseChunkUsage (rawUsage : RawUsage) : TokenUsage :=
  let promptTokens := rawUsage.promptTokens.getD 0
  let reportedCachedTokens := rawUsage.cachedTokens.getD 0
  let cacheWriteTokens := rawUsage.cacheWriteTokens.getD 0
  let reasoningTokens := rawUsage.reasoningTokens.getD 0
  let cacheReadTokens :=
    if 0 < cacheWriteTokens then max 0 (reportedCachedTokens - cacheWriteTokens)
    else reportedCachedTokens
  let input := max 0 (promptTokens - cacheReadTokens - cacheWriteTokens)
  let outputTokens := rawUsage.completionTokens.getD 0 + reasoningTokens
  { input := input, output := outputTokens, cacheRead := cacheReadTokens
    cacheWrite := cacheWriteTokens
    totalTokens := input + outputTokens + cacheReadTokens + cacheWriteTokens }

/-- The stop reason for a finish reason, and the message if it is an error. -/
def mapStopReason (reason : String) : StopReason × Option JsText :=
  if reason = "stop" ∨ reason = "end" then (.stop, none)
  else if reason = "length" then (.length, none)
  else if reason = "function_call" ∨ reason = "tool_calls" then (.toolUse, none)
  else (.error, some (utf16 ("Provider finish_reason: " ++ reason)))

/-- The first field with some reasoning, and the reasoning. -/
def foundReasoning (delta : Delta) : Option (String × JsText) :=
  [("reasoning_content", delta.reasoningContent), ("reasoning", delta.reasoning),
    ("reasoning_text", delta.reasoningText)].findSome? fun (field, text) =>
      (text.filter (· ≠ [])).map fun text => (field, text)

def cannotRead (property : String) : JsText :=
  utf16 ("Cannot read properties of null (reading '" ++ property ++ "')")

variable (P : JsonParser) (s : Streaming)

/-- The current block ends; a tool call is parsed as a whole. -/
def finishCurrentBlock : Streaming :=
  match s.currentBlock, s.current with
  | some i, some (.toolCall call) =>
    let call := { call with
      arguments := P.parseStreamingJson (call.partialArgs.getD []), partialArgs := none }
    { (s.setBlock i (.toolCall call)).push
        (.toolcallEnd s.blockIndex ⟨i, call.id, call.name, call.arguments⟩) with
      currentBlock := none }
  | _, _ => s.finishText

def handleContent (content : JsText) : Streaming :=
  let s := match s.current with
    | some (.text _ _) => s
    | _ => (finishCurrentBlock P s).openBlock (.text [] none) .textStart
  match s.currentBlock, s.current with
  | some i, some (.text text signature) =>
    (s.setBlock i (.text (text ++ content) signature)).push (.textDelta s.blockIndex content)
  | _, _ => s

def handleReasoning (field : String) (delta : JsText) : Streaming :=
  let s := match s.current with
    | some (.thinking _ _) => s
    | _ => (finishCurrentBlock P s).openBlock (.thinking [] (some field)) .thinkingStart
  match s.currentBlock, s.current with
  | some i, some (.thinking thinking signature) =>
    (s.setBlock i (.thinking (thinking ++ delta) signature)).push
      (.thinkingDelta s.blockIndex delta)
  | _, _ => s

def continuesCall (toolCall : ToolCallDelta) : Bool :=
  match s.current with
  | some (.toolCall call) => (toolCall.id.filter (· ≠ "")).all (· = call.id)
  | _ => false

def extendCall (toolCall : ToolCallDelta) (call : ToolCall) : ToolCall :=
  let call := { call with
    id := (toolCall.id.filter (· ≠ "")).getD call.id
    name := (toolCall.name.filter (· ≠ "")).getD call.name }
  match toolCall.arguments.filter (· ≠ []) with
  | some delta =>
    let partialArgs := call.partialArgs.getD [] ++ delta
    { call with arguments := P.parseStreamingJson partialArgs, partialArgs := some partialArgs }
  | none => call

def handleToolCall (s : Streaming) : Option ToolCallDelta → Streaming × Option JsText
  | none =>
    match s.current with
    | some (.toolCall _) => (s, some (cannotRead "id"))
    | _ => (finishCurrentBlock P s, some (cannotRead "id"))
  | some toolCall =>
    let s :=
      if continuesCall s toolCall then s
      else
        (finishCurrentBlock P s).openBlock
          (.toolCall ⟨toolCall.id.getD "", toolCall.name.getD "", .object .nil, none, some []⟩)
          .toolcallStart
    match s.currentBlock, s.current with
    | some i, some (.toolCall call) =>
      ((s.setBlock i (.toolCall (extendCall P toolCall call))).push
        (.toolcallDelta s.blockIndex (toolCall.arguments.getD [])), none)
    | _, _ => (s, none)

def withSignature (json : String) : Block → Block
  | .toolCall call => .toolCall { call with thoughtSignature := some json }
  | block => block

/-- The first tool call that a detail is about gets it as its signature. -/
def handleDetail (s : Streaming) : Option ReasoningDetail → Streaming × Option JsText
  | none => (s, some (cannotRead "type"))
  | some detail =>
    match detail.id.filter (· ≠ "") with
    | some id =>
      if detail.type = "reasoning.encrypted" ∧ detail.hasData then
        match s.output.content.findIdx? (hasCallId id) with
        | some i =>
          match s.output.content[i]? with
          | some block => (s.setBlock i (withSignature detail.json block), none)
          | none => (s, none)
        | none => (s, none)
      else (s, none)
    | none => (s, none)

def handleDelta (delta : Delta) : Streaming × Option JsText :=
  let s := match delta.content.filter (· ≠ []) with
    | some content => handleContent P s content
    | none => s
  let s := match foundReasoning delta with
    | some (field, text) => handleReasoning P s field text
    | none => s
  match foldUntil (handleToolCall P) s delta.toolCalls with
  | (s, some message) => (s, some message)
  | (s, none) => foldUntil handleDetail s delta.reasoningDetails

def setOutput (f : Output → Output) : Streaming :=
  { s with output := { f s.output with content := s.output.content } }

def finishReasonOf (o : Output) (reason : Option String) : Output :=
  match reason.filter (· ≠ "") with
  | none => o
  | some reason =>
    { o with
      stopReason := (mapStopReason reason).1
      errorMessage := (mapStopReason reason).2.or o.errorMessage }

/-- One chunk, and the exception that it may end in. What is no object is skipped. -/
def handleChunk (s : Streaming) : Option CompletionChunk → Streaming × Option JsText
  | none => (s, none)
  | some chunk =>
    let s := setOutput s fun o => { o with
      responseId := orAssign o.responseId chunk.id
      usage := (chunk.usage.map parseChunkUsage).getD o.usage }
    match chunk.choice with
    | none => (s, none)
    | some choice =>
      let s := setOutput s fun o => finishReasonOf { o with
        usage := ((if chunk.usage.isSome then none else choice.usage).map
          parseChunkUsage).getD o.usage } choice.finishReason
      match choice.delta with
      | none => (s, none)
      | some delta => handleDelta P s delta

end Completions

/-- An exception, with what some providers add to it. -/
structure CompletionError where
  message : JsText
  rawMetadata : Option JsText
deriving DecidableEq

def CompletionError.describe (error : CompletionError) : JsText :=
  match error.rawMetadata.filter (· ≠ []) with
  | some rawMetadata => error.message ++ [10] ++ rawMetadata
  | none => error.message

structure CompletionSource where
  chunks : List (Option CompletionChunk)
  thrown : Option CompletionError
deriving DecidableEq

/-- `opened` is what the request gives, and `aborted` the signal at the end. -/
def streamOpenAICompletions (P : JsonParser) (opened : Except CompletionError CompletionSource)
    (aborted : Bool) : Outcome :=
  match opened with
  | .error error => Streaming.initial.fail aborted error.describe
  | .ok openaiStream =>
    let start := Streaming.initial.push .start
    match foldUntil (Completions.handleChunk P) start openaiStream.chunks with
    | (s, some message) => s.fail aborted message
    | (s, none) =>
      match openaiStream.thrown with
      | some error => s.fail aborted error.describe
      | none =>
        let s := Completions.finishCurrentBlock P s
        if aborted then s.fail aborted requestAborted
        else if s.output.stopReason = .aborted then s.fail aborted requestAborted
        else if s.output.stopReason = .error then
          s.fail aborted ((s.output.errorMessage.filter (· ≠ [])).getD
            (utf16 "Provider returned an error stop reason"))
        else s.succeed

structure CompletionSound (s : Streaming) : Prop where
  sound : Sound (fun i => s.currentBlock = some i) s
  current : ∀ i, s.currentBlock = some i → i + 1 = s.output.content.length

namespace CompletionSound

variable {s : Streaming} {P : JsonParser}

theorem setOutput (h : CompletionSound s) (f : Output → Output) :
    CompletionSound (Completions.setOutput s f) :=
  ⟨h.sound.congr rfl rfl fun _ _ => Iff.rfl, h.current⟩

theorem finishCurrentBlock (h : CompletionSound s) :
    CompletionSound (Completions.finishCurrentBlock P s) := by
  unfold Completions.finishCurrentBlock
  split
  · next i call hi hcurrent =>
      refine ⟨h.sound.close (Streaming.block_of_current hi hcurrent)
        (e := .toolcallEnd i ⟨i, call.id, call.name,
          P.parseStreamingJson (call.partialArgs.getD [])⟩)
        (b := .toolCall { call with
          arguments := P.parseStreamingJson (call.partialArgs.getD []), partialArgs := none })
        rfl hi (by simp) (fun j hj => ?_) rfl (fun _ _ => trivial) rfl ?_, nofun⟩
      · simp [hi, Ne.symm hj]
      · simp [s.blockIndex_of_length (h.current i hi)]
  · next hcall =>
      refine ⟨h.sound.finishText (fun i hi => ⟨h.current i hi, hi, by simp, fun block hblock => ?_⟩)
        fun i hi => by simp [hi], fun i hi => by simp at hi⟩
      cases block with
      | text text signature => rfl
      | thinking thinking signature => rfl
      | toolCall call => exact absurd (Streaming.current_of_block hi hblock) (hcall i call hi)

theorem finishCurrentBlock_currentBlock :
    (Completions.finishCurrentBlock P s).currentBlock = none := by
  unfold Completions.finishCurrentBlock
  split
  · rfl
  · exact s.finishText_currentBlock

section

variable (h : CompletionSound s)
include h

variable {block : Block} {i : ℕ}

theorem openBlock (hnone : s.currentBlock = none) {started : ℤ → Event}
    (hmark : ∀ i, mark (started i) = some (i, .opened (reading.kind block)))
    (hgrown : reading.grown block []) : CompletionSound (s.openBlock block started) := by
  refine ⟨h.sound.openBlock hmark hgrown rfl fun i hi => ?_, fun i hi => ?_⟩
  · simp [Streaming.openBlock, hnone, Nat.ne_of_gt hi]
  · obtain rfl : s.output.content.length = i := Option.some.inj hi
    simp [Streaming.openBlock]

theorem extend {block' : Block} {e : ℤ → Event} {delta : JsText} (hi : s.currentBlock = some i)
    (hcurrent : s.current = some block)
    (hmark : mark (e i) = some ((i : ℤ), .piece (reading.kind block) delta))
    (hkind : reading.kind block' = reading.kind block)
    (hgrown : ∀ deltas, reading.grown block deltas → reading.grown block' (deltas ++ [delta])) :
    CompletionSound ((s.setBlock i block').push (e s.blockIndex)) := by
  have hlast := h.current i hi
  refine ⟨h.sound.grow (Streaming.block_of_current hi hcurrent) hmark hi hkind hgrown rfl ?_,
    fun j hj => ?_⟩
  · simp [s.blockIndex_of_length hlast]
  · simpa using h.current j hj

theorem handleContent (content : JsText) :
    CompletionSound (Completions.handleContent P s content) := by
  unfold Completions.handleContent
  extract_lets s'
  have hopened : CompletionSound s' := by
    simp only [s']
    split
    · exact h
    · exact h.finishCurrentBlock.openBlock finishCurrentBlock_currentBlock (fun _ => rfl) rfl
  split
  · next i text signature hi hcurrent =>
      exact hopened.extend (e := (.textDelta · content)) hi hcurrent rfl rfl fun _ => grown_text
  · exact hopened

theorem handleReasoning (field : String) (delta : JsText) :
    CompletionSound (Completions.handleReasoning P s field delta) := by
  unfold Completions.handleReasoning
  extract_lets s'
  have hopened : CompletionSound s' := by
    simp only [s']
    split
    · exact h
    · exact h.finishCurrentBlock.openBlock finishCurrentBlock_currentBlock (fun _ => rfl) rfl
  split
  · next i thinking signature hi hcurrent =>
      exact hopened.extend (e := (.thinkingDelta · delta)) hi hcurrent rfl rfl fun _ =>
        grown_thinking
  · exact hopened

theorem handleToolCall (toolCall : Option ToolCallDelta) :
    CompletionSound (Completions.handleToolCall P s toolCall).1 := by
  cases toolCall with
  | none =>
    unfold Completions.handleToolCall
    dsimp only
    split
    · exact h
    · exact h.finishCurrentBlock
  | some toolCall =>
    unfold Completions.handleToolCall
    dsimp only
    have hopened : CompletionSound (if Completions.continuesCall s toolCall then s
        else (Completions.finishCurrentBlock P s).openBlock (.toolCall ⟨toolCall.id.getD "",
          toolCall.name.getD "", .object .nil, none, some []⟩) .toolcallStart) := by
      split_ifs
      · exact h
      · exact h.finishCurrentBlock.openBlock finishCurrentBlock_currentBlock (fun _ => rfl)
          trivial
    split
    · next i call hi hcurrent =>
        exact hopened.extend (e := (.toolcallDelta · (toolCall.arguments.getD []))) hi hcurrent
          rfl rfl fun _ _ => trivial
    · exact hopened

theorem sign (json : String) (hblock : s.output.content[i]? = some block) :
    CompletionSound (s.setBlock i (Completions.withSignature json block)) := by
  refine ⟨h.sound.touch hblock ?_ (fun deltas hg => ?_) (fun _ => ?_) rfl rfl, fun j hj => ?_⟩
  · cases block <;> rfl
  · cases block with
    | text text signature => exact hg
    | thinking thinking signature => exact hg
    | toolCall call => trivial
  · cases block <;> rfl
  · simpa using h.current j hj

theorem handleDetail (detail : Option ReasoningDetail) :
    CompletionSound (Completions.handleDetail s detail).1 := by
  unfold Completions.handleDetail
  split
  · exact h
  · split
    · split_ifs
      · split
        · split
          · next hblock => exact h.sign _ hblock
          · exact h
        · exact h
      · exact h
    · exact h

theorem handleDelta (delta : Delta) :
    CompletionSound (Completions.handleDelta P s delta).1 := by
  unfold Completions.handleDelta
  extract_lets s₁ s₂
  have hcontent : CompletionSound s₁ := by
    simp only [s₁]
    split
    · exact h.handleContent _
    · exact h
  have hreasoning : CompletionSound s₂ := by
    simp only [s₂]
    split
    · exact hcontent.handleReasoning _ _
    · exact hcontent
  have hcalls := foldUntil_invariant (I := CompletionSound)
    (fun s toolCall hs => hs.handleToolCall (P := P) toolCall) hreasoning delta.toolCalls
  split
  · next heq =>
      rw [heq] at hcalls
      exact hcalls
  · next heq =>
      rw [heq] at hcalls
      exact foldUntil_invariant (fun s detail hs => hs.handleDetail detail) hcalls _

theorem handleChunk (chunk : Option CompletionChunk) :
    CompletionSound (Completions.handleChunk P s chunk).1 := by
  cases chunk with
  | none => exact h
  | some chunk =>
    unfold Completions.handleChunk
    dsimp only
    split
    · dsimp only
      exact h.setOutput _
    · split
      · dsimp only
        exact (h.setOutput _).setOutput _
      · exact ((h.setOutput _).setOutput _).handleDelta _

end

end CompletionSound

theorem streamOpenAICompletions_obeysProtocol (P : JsonParser)
    (opened : Except CompletionError CompletionSource) (aborted : Bool) :
    ObeysProtocol (streamOpenAICompletions P opened aborted) := by
  unfold streamOpenAICompletions
  cases opened with
  | error error => exact (Sound.initial fun _ => False).fail aborted _
  | ok openaiStream =>
    have hstart : CompletionSound (Streaming.initial.push .start) :=
      ⟨(Sound.initial _).start rfl [], nofun⟩
    have hchunks := foldUntil_invariant (I := CompletionSound)
      (fun s chunk hs => hs.handleChunk (P := P) chunk) hstart openaiStream.chunks
    dsimp only
    split
    · next heq =>
        rw [heq] at hchunks
        exact hchunks.sound.fail aborted _
    · next heq =>
        rw [heq] at hchunks
        split
        · exact hchunks.sound.fail aborted _
        · have hend := hchunks.finishCurrentBlock (P := P)
          split_ifs
          · exact hend.sound.fail aborted _
          · exact hend.sound.fail aborted _
          · exact hend.sound.fail aborted _
          · exact hend.sound.succeed fun i _ => by
              simp [CompletionSound.finishCurrentBlock_currentBlock]

end Draht.Providers
