import Draht.ProviderStream
import Draht.Surrogates
import Draht.ToolCallIds

/-!
# Streams of Mistral conversations

Tool calls are built side by side, each under a key, and all end after the last chunk. Text and
thinking may come in between.
-/

namespace Draht.Providers
open List Option

/-- A part of thinking has a text or not. -/
inductive ContentItem where
  | string (text : JsText)
  | thinking (parts : List (Option JsText))
  | text (text : JsText)
  | other
deriving DecidableEq

inductive CallArguments where
  | string (text : JsText)
  | value (json : Option Json)
deriving DecidableEq

structure MistralToolCall where
  id : Option String
  index : Option ℕ
  name : String
  arguments : CallArguments
deriving DecidableEq

/-- A content that is a string has one item. The lists may have `null` in them. -/
structure MistralDelta where
  content : List (Option ContentItem)
  toolCalls : List (Option MistralToolCall)
deriving DecidableEq

structure MistralUsage where
  promptTokens : Option ℤ
  completionTokens : Option ℤ
  totalTokens : Option ℤ
deriving DecidableEq

structure MistralChoice where
  finishReason : Option String
  delta : MistralDelta
deriving DecidableEq

structure MistralChunk where
  id : Option String
  usage : Option MistralUsage
  choice : Option MistralChoice
deriving DecidableEq

structure MistralStreaming extends Streaming where
  toolBlocksByKey : OrderedMap String ℕ

def mapChatStopReason (reason : String) : StopReason :=
  if reason = "length" ∨ reason = "model_length" then .length
  else if reason = "tool_calls" then .toolUse
  else if reason = "error" then .error
  else .stop

def CallArguments.delta : CallArguments → JsText
  | .string text => text
  | .value json => utf16Chars (json.getD (.object .nil)).stringify

/-- The id of a tool call: one is made up from its index if it has none. -/
def MistralToolCall.callId (toolCall : MistralToolCall) : String :=
  match toolCall.id.filter fun id => id ≠ "" && id ≠ "null" with
  | some id => id
  | none =>
    ToolCallIds.deriveMistralToolCallId ("toolcall:" ++ Nat.repr (toolCall.index.getD 0)) 0

def MistralToolCall.key (toolCall : MistralToolCall) : String :=
  toolCall.callId ++ ":" ++ Nat.repr (toolCall.index.getD 0)

namespace MistralStreaming

variable (s : MistralStreaming)

def lift (f : Streaming → Streaming) : MistralStreaming := { s with toStreaming := f s.toStreaming }

@[simp] theorem lift_toStreaming (f : Streaming → Streaming) :
    (s.lift f).toStreaming = f s.toStreaming := rfl

@[simp] theorem lift_toolBlocksByKey (f : Streaming → Streaming) :
    (s.lift f).toolBlocksByKey = s.toolBlocksByKey := rfl

def setOutput (f : Output → Output) : MistralStreaming :=
  s.lift fun b => { b with output := { f b.output with content := b.output.content } }

def handleText (textDelta : JsText) : MistralStreaming :=
  let s := match s.current with
    | some (.text _ _) => s
    | _ => s.lift fun b => b.finishText.openBlock (.text [] none) .textStart
  match s.currentBlock, s.current with
  | some i, some (.text text signature) =>
    s.lift fun b =>
      (b.setBlock i (.text (text ++ textDelta) signature)).push
        (.textDelta b.blockIndex textDelta)
  | _, _ => s

def handleThinking (thinkingDelta : JsText) : MistralStreaming :=
  let s := match s.current with
    | some (.thinking _ _) => s
    | _ => s.lift fun b => b.finishText.openBlock (.thinking [] none) .thinkingStart
  match s.currentBlock, s.current with
  | some i, some (.thinking thinking signature) =>
    s.lift fun b =>
      (b.setBlock i (.thinking (thinking ++ thinkingDelta) signature)).push
        (.thinkingDelta b.blockIndex thinkingDelta)
  | _, _ => s

def handleItem (s : MistralStreaming) : Option ContentItem → MistralStreaming × Option JsText
  | none => (s, some (utf16 "Cannot read properties of null (reading 'type')"))
  | some (.string text) => (s.handleText (sanitizeSurrogates false text), none)
  | some (.thinking parts) =>
    let thinkingDelta := sanitizeSurrogates false (parts.flatMap (·.getD []))
    if thinkingDelta = [] then (s, none) else (s.handleThinking thinkingDelta, none)
  | some (.text text) => (s.handleText (sanitizeSurrogates false text), none)
  | some .other => (s, none)

def existing (key : String) : Option ℕ :=
  (s.toolBlocksByKey.get key).filter fun i => (s.output.content[i]?).any isToolCall

def openCall (toolCall : MistralToolCall) : MistralStreaming :=
  { s.lift fun b =>
      let b := b.pushBlock
        (.toolCall ⟨toolCall.callId, toolCall.name, .object .nil, none, some []⟩)
      b.push (.toolcallStart b.blockIndex) with
    toolBlocksByKey := s.toolBlocksByKey.set toolCall.key s.output.content.length }

def extendCall (P : JsonParser) (delta : JsText) (call : ToolCall) : ToolCall :=
  let partialArgs := call.partialArgs.getD [] ++ delta
  { call with partialArgs := some partialArgs, arguments := P.parseStreamingJson partialArgs }

def handleToolCall (P : JsonParser) (s : MistralStreaming) :
    Option MistralToolCall → MistralStreaming × Option JsText
  | none =>
    (s.lift (·.finishText), some (utf16 "Cannot read properties of null (reading 'id')"))
  | some toolCall =>
    let s := s.lift (·.finishText)
    let s := if (s.existing toolCall.key).isSome then s else s.openCall toolCall
    let delta := toolCall.arguments.delta
    match s.toolBlocksByKey.get toolCall.key with
    | some i =>
      match s.output.content[i]? with
      | some (.toolCall call) =>
        (s.lift fun b => (b.setBlock i (.toolCall (extendCall P delta call))).push
          (.toolcallDelta i delta), none)
      | _ => (s, none)
    | none => (s, none)

def usageOf (usage : MistralUsage) : TokenUsage :=
  let input := usage.promptTokens.getD 0
  let output := usage.completionTokens.getD 0
  { input := input, output := output, cacheRead := 0, cacheWrite := 0
    totalTokens := (usage.totalTokens.filter (· ≠ 0)).getD (input + output) }

def handleChunk (P : JsonParser) (s : MistralStreaming) (chunk : MistralChunk) :
    MistralStreaming × Option JsText :=
  let s := s.setOutput fun o => { o with
    responseId := orAssign o.responseId chunk.id
    usage := (chunk.usage.map usageOf).getD o.usage }
  match chunk.choice with
  | none => (s, none)
  | some choice =>
    let s := s.setOutput fun o => { o with
      stopReason := ((choice.finishReason.filter (· ≠ "")).map mapChatStopReason).getD
        o.stopReason }
    match foldUntil handleItem s choice.delta.content with
    | (s, some message) => (s, some message)
    | (s, none) => foldUntil (handleToolCall P) s choice.delta.toolCalls

def finishCall (P : JsonParser) (b : Streaming) (i : ℕ) : Streaming :=
  match b.output.content[i]? with
  | some (.toolCall call) =>
    let call := { call with
      arguments := P.parseStreamingJson (call.partialArgs.getD []), partialArgs := none }
    (b.setBlock i (.toolCall call)).push
      (.toolcallEnd i ⟨i, call.id, call.name, call.arguments⟩)
  | _ => b

/-- The positions of the tool calls, in the order of their keys. -/
def callPositions : List ℕ := s.toolBlocksByKey.entries.map Prod.snd

def finishAll (P : JsonParser) : Streaming :=
  s.callPositions.foldl (finishCall P) s.finishText

end MistralStreaming

/-- An exception: an error, of which the client has the status and body of the answer, or anything
else, as JSON. -/
inductive MistralError where
  | error (message : JsText) (statusCode : Option ℕ) (body : Option JsText)
  | other (json : JsText)
deriving DecidableEq

def MAX_MISTRAL_ERROR_BODY_CHARS : ℕ := 4000

def truncateErrorText (text : JsText) (maxChars : ℕ) : JsText :=
  if text.length ≤ maxChars then text
  else
    text.take maxChars ++
      utf16 ("... [truncated " ++ Nat.repr (text.length - maxChars) ++ " chars]")

def formatMistralError : MistralError → JsText
  | .other json => json
  | .error message none _ => message
  | .error message (some statusCode) body =>
    let bodyText := (body.map (trim fun c => isWhiteSpaceCode c.toNat)).getD []
    let status := utf16 ("Mistral API error (" ++ Nat.repr statusCode ++ "): ")
    if bodyText ≠ [] then status ++ truncateErrorText bodyText MAX_MISTRAL_ERROR_BODY_CHARS
    else status ++ message

structure MistralSource where
  chunks : List MistralChunk
  thrown : Option MistralError
deriving DecidableEq

/-- `opened` is what the request gives, and `aborted` the signal at the end. -/
def streamMistral (P : JsonParser) (opened : Except MistralError MistralSource) (aborted : Bool) :
    Outcome :=
  match opened with
  | .error error => Streaming.initial.fail aborted (formatMistralError error)
  | .ok mistralStream =>
    let start : MistralStreaming := ⟨Streaming.initial.push .start, .empty⟩
    match foldUntil (MistralStreaming.handleChunk P) start mistralStream.chunks with
    | (s, some message) => s.fail aborted message
    | (s, none) =>
      match mistralStream.thrown with
      | some error => s.fail aborted (formatMistralError error)
      | none =>
        let s := s.finishAll P
        if aborted then s.fail aborted requestAborted
        else if s.output.stopReason = .aborted || s.output.stopReason = .error then
          s.fail aborted unknownError
        else s.succeed

/-- What is open: the current text or thinking block, which is the last block, and the tool calls
that have a key. -/
structure MistralSound (s : MistralStreaming) : Prop where
  sound : Sound (fun i => s.currentBlock = some i ∨ i ∈ s.callPositions) s.toStreaming
  current : ∀ i, s.currentBlock = some i → i + 1 = s.output.content.length ∧
    ∀ block, s.output.content[i]? = some block → isToolCall block = false
  calls : ∀ i ∈ s.callPositions, ∃ call, s.output.content[i]? = some (.toolCall call)
  nodup : s.callPositions.Nodup

namespace MistralSound

variable {s : MistralStreaming}

section

variable (h : MistralSound s)
include h

theorem setOutput (f : Output → Output) : MistralSound (s.setOutput f) :=
  ⟨h.sound.congr rfl rfl fun _ _ => Iff.rfl, h.current, h.calls, h.nodup⟩

theorem not_current_of_call {i : ℕ} (hi : s.currentBlock = some i) :
    i ∉ s.callPositions := by
  intro hcall
  obtain ⟨call, hblock⟩ := h.calls i hcall
  cases (h.current i hi).2 _ hblock

theorem sound_finishText :
    Sound (· ∈ s.callPositions) s.finishText := by
  refine h.sound.finishText (fun i hi => ?_) fun i hi => ?_
  · obtain ⟨hlast, hkind⟩ := h.current i hi
    exact ⟨hlast, .inl hi, h.not_current_of_call hi, hkind⟩
  · simp [hi]

theorem finishText : MistralSound (s.lift (·.finishText)) := by
  refine ⟨h.sound_finishText.congr rfl rfl fun i _ => ?_, fun i hi => ?_, ?_, h.nodup⟩
  · simp [MistralStreaming.callPositions]
  · simp at hi
  · simpa [MistralStreaming.callPositions] using h.calls

theorem openBlock (hnone : s.currentBlock = none) {block : Block}
    {started : ℤ → Event} (hmark : ∀ i, mark (started i) = some (i, .opened (reading.kind block)))
    (hgrown : reading.grown block []) (hkind : isToolCall block = false) :
    MistralSound (s.lift fun b => b.openBlock block started) := by
  refine ⟨h.sound.openBlock hmark hgrown (.inl rfl) fun i hi => ?_, fun i hi => ?_, fun i hi => ?_,
    h.nodup⟩
  · simp [Streaming.openBlock, hnone, Nat.ne_of_gt hi, MistralStreaming.callPositions]
  · obtain rfl : s.output.content.length = i := some.inj hi
    refine ⟨by simp [Streaming.openBlock], fun block' hblock' => ?_⟩
    simp only [MistralStreaming.lift_toStreaming, Streaming.openBlock, Streaming.push_output,
      Streaming.pushBlock_content, getElem?_concat_length, some_inj] at hblock'
    rw [← hblock']
    exact hkind
  · obtain ⟨call, hcall⟩ := h.calls i hi
    refine ⟨call, ?_⟩
    simp only [MistralStreaming.lift_toStreaming, Streaming.openBlock, Streaming.push_output,
      Streaming.pushBlock_content]
    rw [List.getElem?_append_left (List.getElem?_eq_some_iff.mp hcall).1]
    exact hcall

theorem extend {i : ℕ} {block block' : Block} {e : Event}
    {delta : JsText} (hopen : s.currentBlock = some i ∨ i ∈ s.callPositions)
    (hblock : s.output.content[i]? = some block)
    (hmark : mark e = some ((i : ℤ), .piece (reading.kind block) delta))
    (hkind : reading.kind block' = reading.kind block)
    (hgrown : ∀ deltas, reading.grown block deltas → reading.grown block' (deltas ++ [delta]))
    (hcall : isToolCall block' = isToolCall block) :
    MistralSound (s.lift fun b => (b.setBlock i block').push e) := by
  have hlength : i < s.output.content.length := (List.getElem?_eq_some_iff.mp hblock).1
  refine ⟨h.sound.grow hblock hmark hopen hkind hgrown rfl rfl, fun j hj => ?_, fun j hj => ?_,
    h.nodup⟩
  · obtain ⟨hlast, hother⟩ := h.current j hj
    refine ⟨by simpa using hlast, fun block₀ hblock₀ => ?_⟩
    simp only [MistralStreaming.lift_toStreaming, Streaming.push_output,
      Streaming.setBlock_content] at hblock₀
    by_cases hij : i = j
    · subst hij
      rw [getElem?_set_self hlength, some_inj] at hblock₀
      rw [← hblock₀, hcall]
      exact hother block hblock
    · rw [getElem?_set_ne hij] at hblock₀
      exact hother block₀ hblock₀
  · obtain ⟨call, hcall'⟩ := h.calls j hj
    simp only [MistralStreaming.lift_toStreaming, Streaming.push_output, Streaming.setBlock_content]
    by_cases hij : i = j
    · subst hij
      rw [hblock, some_inj] at hcall'
      rw [hcall'] at hcall
      rw [getElem?_set_self hlength]
      cases block' with
      | text text signature => cases hcall
      | thinking thinking signature => cases hcall
      | toolCall call' => exact ⟨call', rfl⟩
    · rw [getElem?_set_ne hij]
      exact ⟨call, hcall'⟩

theorem handleText (textDelta : JsText) :
    MistralSound (s.handleText textDelta) := by
  unfold MistralStreaming.handleText
  extract_lets s'
  have hopened : MistralSound s' := by
    simp only [s']
    split
    · exact h
    · exact h.finishText.openBlock (by simp) (fun _ => rfl) rfl rfl
  split
  · next i text signature hi hcurrent =>
      exact hopened.extend (.inl hi) (Streaming.block_of_current hi hcurrent)
        (e := .textDelta s'.blockIndex textDelta)
        (by rw [s'.blockIndex_of_length (hopened.current i hi).1]; rfl) rfl
        (fun _ => grown_text) rfl
  · exact hopened

theorem handleThinking (thinkingDelta : JsText) :
    MistralSound (s.handleThinking thinkingDelta) := by
  unfold MistralStreaming.handleThinking
  extract_lets s'
  have hopened : MistralSound s' := by
    simp only [s']
    split
    · exact h
    · exact h.finishText.openBlock (by simp) (fun _ => rfl) rfl rfl
  split
  · next i thinking signature hi hcurrent =>
      exact hopened.extend (.inl hi) (Streaming.block_of_current hi hcurrent)
        (e := .thinkingDelta s'.blockIndex thinkingDelta)
        (by rw [s'.blockIndex_of_length (hopened.current i hi).1]; rfl) rfl
        (fun _ => grown_thinking) rfl
  · exact hopened

theorem handleItem (item : Option ContentItem) :
    MistralSound (MistralStreaming.handleItem s item).1 := by
  unfold MistralStreaming.handleItem
  split
  · exact h
  · exact h.handleText _
  · dsimp only
    split_ifs
    · exact h
    · exact h.handleThinking _
  · exact h.handleText _
  · exact h

end

theorem mem_callPositions {key : String} {i : ℕ} (h : s.toolBlocksByKey.get key = some i) :
    i ∈ s.callPositions :=
  mem_map.mpr ⟨(key, i), (s.toolBlocksByKey.mem_entries_iff key i).mpr h, rfl⟩

theorem openCall (h : MistralSound s) (hnone : s.currentBlock = none)
    (toolCall : MistralToolCall) (hnew : s.existing toolCall.key = none) :
    MistralSound (s.openCall toolCall) := by
  have hkey : s.toolBlocksByKey.get toolCall.key = none := by
    cases hget : s.toolBlocksByKey.get toolCall.key with
    | none => rfl
    | some i =>
      obtain ⟨call, hblock⟩ := h.calls i (mem_callPositions hget)
      simp [MistralStreaming.existing, hget, hblock, isToolCall] at hnew
  have hpositions : (s.openCall toolCall).callPositions =
      s.callPositions ++ [s.output.content.length] := by
    simp only [MistralStreaming.callPositions, MistralStreaming.openCall]
    rw [OrderedMap.entries_set_of_not_mem _ _ ((OrderedMap.get_eq_none_iff _ _).mp hkey),
      map_append, map_singleton]
  have hcontent : (s.openCall toolCall).output.content = s.output.content ++
      [.toolCall ⟨toolCall.callId, toolCall.name, .object .nil, none, some []⟩] := rfl
  have hindex : (s.pushBlock
      (.toolCall ⟨toolCall.callId, toolCall.name, .object .nil, none, some []⟩)).blockIndex =
        (s.output.content.length : ℤ) :=
    Streaming.blockIndex_of_length _ (by simp)
  have hpushed : (s.openCall toolCall).pushed = s.pushed ++
      [⟨.toolcallStart s.output.content.length, (s.openCall toolCall).output.content⟩] := by
    rw [← hindex]
    rfl
  have hcurrent : (s.openCall toolCall).currentBlock = s.currentBlock := rfl
  have hsound : Sound (fun i => s.currentBlock = some i ∨ i ∈ (s.openCall toolCall).callPositions)
      (s.openCall toolCall).toStreaming := by
    rw [hpositions]
    exact h.sound.open_block (b := .toolCall ⟨toolCall.callId, toolCall.name, .object .nil, none,
      some []⟩) rfl trivial (by simp) (fun i hi => by simp [Nat.ne_of_lt hi]) hcontent hpushed
  refine ⟨hsound, fun i hi => ?_, fun i hi => ?_, ?_⟩
  · rw [hcurrent, hnone] at hi
    cases hi
  · rw [hpositions, mem_append, mem_singleton] at hi
    rw [hcontent]
    obtain hi | rfl := hi
    · obtain ⟨call, hblock⟩ := h.calls i hi
      refine ⟨call, ?_⟩
      rw [List.getElem?_append_left (List.getElem?_eq_some_iff.mp hblock).1]
      exact hblock
    · exact ⟨_, getElem?_concat_length⟩
  · rw [hpositions, nodup_append]
    refine ⟨h.nodup, nodup_singleton _, fun i hi j hj => ?_⟩
    obtain ⟨call, hblock⟩ := h.calls i hi
    have hlt := (List.getElem?_eq_some_iff.mp hblock).1
    rw [mem_singleton.mp hj]
    exact Nat.ne_of_lt hlt

theorem handleToolCall (h : MistralSound s) (P : JsonParser) (toolCall : Option MistralToolCall) :
    MistralSound (MistralStreaming.handleToolCall P s toolCall).1 := by
  cases toolCall with
  | none => exact h.finishText
  | some toolCall =>
    have hopened : MistralSound (if ((s.lift (·.finishText)).existing toolCall.key).isSome then
        s.lift (·.finishText) else (s.lift (·.finishText)).openCall toolCall) := by
      split_ifs with hexisting
      · exact h.finishText
      · exact h.finishText.openCall (by simp) toolCall (by simpa using hexisting)
    unfold MistralStreaming.handleToolCall
    dsimp only
    generalize (if ((s.lift (·.finishText)).existing toolCall.key).isSome then
        s.lift (·.finishText) else (s.lift (·.finishText)).openCall toolCall) = s' at *
    split
    · next i hget =>
        split
        · next call hblock =>
            exact hopened.extend (.inr (mem_callPositions hget)) hblock rfl rfl
              (fun _ _ => trivial) rfl
        · exact hopened
    · exact hopened

theorem handleChunk (h : MistralSound s) (P : JsonParser) (chunk : MistralChunk) :
    MistralSound (MistralStreaming.handleChunk P s chunk).1 := by
  unfold MistralStreaming.handleChunk
  dsimp only
  split
  · dsimp only
    exact h.setOutput _
  · next choice _ =>
      have hitems := foldUntil_invariant (I := MistralSound) (fun s item hs => hs.handleItem item)
        ((h.setOutput fun o => { o with
            responseId := orAssign o.responseId chunk.id
            usage := (chunk.usage.map MistralStreaming.usageOf).getD o.usage }).setOutput
          fun o => { o with
            stopReason := ((choice.finishReason.filter (· ≠ "")).map mapChatStopReason).getD
              o.stopReason }) choice.delta.content
      split
      · next heq =>
          rw [heq] at hitems
          exact hitems
      · next heq =>
          rw [heq] at hitems
          exact foldUntil_invariant (fun s toolCall hs => hs.handleToolCall P toolCall) hitems _

theorem finishCalls (P : JsonParser) {positions : List ℕ} (hnodup : positions.Nodup)
    {b : Streaming} (h : Sound (· ∈ positions) b)
    (hcalls : ∀ i ∈ positions, ∃ call, b.output.content[i]? = some (.toolCall call)) :
    Sound (fun _ => False) (positions.foldl (MistralStreaming.finishCall P) b) := by
  induction positions generalizing b with
  | nil => exact h.congr rfl rfl fun i _ => by simp
  | cons i positions ih =>
    obtain ⟨hnot, hrest⟩ := nodup_cons.mp hnodup
    obtain ⟨call, hblock⟩ := hcalls i mem_cons_self
    have hfinished : MistralStreaming.finishCall P b i =
        (b.setBlock i (.toolCall { call with
          arguments := P.parseStreamingJson (call.partialArgs.getD [])
          partialArgs := none })).push
            (.toolcallEnd i ⟨i, call.id, call.name,
              P.parseStreamingJson (call.partialArgs.getD [])⟩) := by
      simp [MistralStreaming.finishCall, hblock]
    apply ih hrest
    · rw [hfinished]
      exact h.close hblock (b := .toolCall { call with
          arguments := P.parseStreamingJson (call.partialArgs.getD []), partialArgs := none })
        rfl mem_cons_self hnot (fun j hj => by simp [hj]) rfl (fun _ _ => trivial) rfl rfl
    · intro j hj
      have hij : i ≠ j := by
        rintro rfl
        exact hnot hj
      rw [hfinished, Streaming.push_output, Streaming.setBlock_content, getElem?_set_ne hij]
      exact hcalls j (mem_cons_of_mem _ hj)

theorem finishAll (h : MistralSound s) (P : JsonParser) :
    Sound (fun _ => False) (s.finishAll P) :=
  finishCalls P h.nodup h.sound_finishText (by simpa using h.calls)

end MistralSound

theorem streamMistral_obeysProtocol (P : JsonParser) (opened : Except MistralError MistralSource)
    (aborted : Bool) : ObeysProtocol (streamMistral P opened aborted) := by
  unfold streamMistral
  cases opened with
  | error error => exact (Sound.initial fun _ => False).fail aborted _
  | ok mistralStream =>
    have hstart : MistralSound ⟨Streaming.initial.push .start, .empty⟩ :=
      ⟨(Sound.initial _).start rfl [], nofun, nofun, nodup_nil⟩
    have hchunks := foldUntil_invariant (I := MistralSound)
      (fun s chunk hs => hs.handleChunk P chunk) hstart mistralStream.chunks
    dsimp only
    split
    · next heq =>
        rw [heq] at hchunks
        exact hchunks.sound.fail aborted _
    · next heq =>
        rw [heq] at hchunks
        split
        · exact hchunks.sound.fail aborted _
        · have hend := hchunks.finishAll P
          split_ifs
          · exact hend.fail aborted _
          · exact hend.fail aborted _
          · exact hend.succeed fun _ _ => id

end Draht.Providers
