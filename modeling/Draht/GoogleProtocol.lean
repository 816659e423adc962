import Draht.GoogleStream

/-!
# The Google providers obey the protocol

A text or thinking block is the current one until the next block comes, and a tool call comes whole.
Nothing is pushed for an answer without content, so that it can be asked for again.
-/

namespace Draht.Providers

theorem handleChunk_invariant {I : GoogleStreaming → Prop} {F : GoogleFormat}
    (hpart : ∀ s part, I s → I (GoogleStreaming.handlePart F s part).1)
    (houtput : ∀ s f, I s → I (s.setOutput f)) (mapStop : String → Except JsText StopReason)
    (chunk : GenerateContentResponse) {s : GoogleStreaming} (h : I s) :
    I (GoogleStreaming.handleChunk F mapStop s chunk).1 := by
  have hparts := foldUntil_invariant hpart
    (houtput s (fun o => { o with responseId := orAssign o.responseId chunk.responseId }) h)
    ((chunk.candidate.map (·.parts)).getD [])
  unfold GoogleStreaming.handleChunk
  dsimp only
  split
  · next heq =>
      rw [heq] at hparts
      exact hparts
  · next heq =>
      rw [heq] at hparts
      unfold GoogleStreaming.handleEnd
      split
      · exact hparts
      · dsimp only at hparts ⊢
        exact houtput _ _ hparts
      · dsimp only at hparts ⊢
        exact houtput _ _ hparts

/-- The current block is the last one, and the only open one; there is none before the start. -/
structure GoogleSound (s : GoogleStreaming) : Prop where
  sound : Sound (fun i => s.currentBlock = some i) s.toStreaming
  current : ∀ i, s.currentBlock = some i → i + 1 = s.output.content.length ∧
    ∀ block, s.output.content[i]? = some block → isToolCall block = false
  start : s.started = false → s.pushed = [] ∧ s.currentBlock = none

namespace GoogleSound

variable {s : GoogleStreaming}

theorem hasContent (h : GoogleSound s) (hasContent : Bool) : GoogleSound { s with hasContent } :=
  ⟨h.sound, h.current, h.start⟩

theorem setOutput (h : GoogleSound s) (f : Output → Output) : GoogleSound (s.setOutput f) :=
  ⟨h.sound.congr rfl rfl fun _ _ => Iff.rfl, h.current, h.start⟩

theorem finishText (h : GoogleSound s) : GoogleSound (s.lift (·.finishText)) := by
  have hnone : (s.lift (·.finishText)).currentBlock = none :=
    Streaming.finishText_currentBlock s.toStreaming
  refine ⟨h.sound.finishText (fun i hi => ?_) fun i hi => ?_, fun i hi => ?_, fun hstarted => ?_⟩
  · obtain ⟨hlast, hkind⟩ := h.current i hi
    exact ⟨hlast, hi, by simp [Streaming.finishText_currentBlock], hkind⟩
  · simp [Streaming.finishText_currentBlock, hi]
  · rw [hnone] at hi
    cases hi
  · obtain ⟨hpushed, hcurrent⟩ := h.start hstarted
    exact ⟨(Streaming.finishText_pushed s.toStreaming hcurrent).trans hpushed, hnone⟩

def startedPushes (s : GoogleStreaming) (content : List Block) : List Pushed :=
  if s.started then s.pushed else [⟨.start, content⟩]

theorem ensureStarted_pushed (hstart : s.started = false → s.pushed = []) :
    s.ensureStarted.pushed = startedPushes s s.output.content := by
  unfold GoogleStreaming.ensureStarted startedPushes
  split_ifs with hstarted
  · rfl
  · have hpushed := hstart (Bool.eq_false_iff.mpr hstarted)
    simp [GoogleStreaming.lift, Streaming.push, hpushed]

theorem started (h : GoogleSound s) (content : List Block) :
    Sound (fun i => s.currentBlock = some i)
      { s.toStreaming with pushed := startedPushes s content } := by
  unfold startedPushes
  split_ifs with hstarted
  · exact h.sound
  · exact h.sound.start (h.start (Bool.eq_false_iff.mpr hstarted)).1 content

theorem ensureStarted_output (s : GoogleStreaming) : s.ensureStarted.output = s.output := by
  unfold GoogleStreaming.ensureStarted
  split_ifs <;> rfl

theorem ensureStarted_currentBlock (s : GoogleStreaming) :
    s.ensureStarted.currentBlock = s.currentBlock := by
  unfold GoogleStreaming.ensureStarted
  split_ifs <;> rfl

theorem ensureStarted_started (s : GoogleStreaming) : s.ensureStarted.started = true := by
  unfold GoogleStreaming.ensureStarted
  split_ifs with h
  · exact h
  · rfl

section

variable (h : GoogleSound s)
include h

theorem with_block (block : Block) {isOpen : ℕ → Prop} {e : Event}
    {b : Streaming} (hnone : s.currentBlock = none)
    (hmark : mark e = some ((s.output.content.length : ℤ), .opened (reading.kind block)))
    (hgrown : reading.grown block [])
    (hopen : ∀ i, isOpen i ↔ i = s.output.content.length)
    (hcontent : b.output.content = s.output.content ++ [block])
    (hpushed : b.pushed = startedPushes s b.output.content ++ [⟨e, b.output.content⟩]) :
    Sound isOpen b := by
  refine (h.started b.output.content).open_block hmark hgrown ((hopen _).mpr rfl) (fun i hi => ?_)
    hcontent hpushed
  rw [hopen]
  simp only [hnone]
  exact ⟨fun heq => absurd heq (Nat.ne_of_lt hi), fun heq => by cases heq⟩

theorem openBlock (hnone : s.currentBlock = none) (isThinking : Bool) :
    GoogleSound (s.openBlock isThinking) := by
  have hopened : ∀ (block : Block) (event : ℤ → Event),
      (∀ i, mark (event i) = some (i, .opened (reading.kind block))) → reading.grown block [] →
      isToolCall block = false →
      GoogleSound ((s.lift fun b => { b.pushBlock block with
        currentBlock := some b.output.content.length }).ensureStarted.lift fun b =>
          b.push (event b.blockIndex)) := by
    intro block event hmark hgrown hkind
    generalize hs' : (s.lift fun b => { b.pushBlock block with
      currentBlock := some b.output.content.length }) = s'
    have hcontent : s'.ensureStarted.output.content = s.output.content ++ [block] := by
      rw [ensureStarted_output, ← hs']
      rfl
    have hcurrent : s'.ensureStarted.currentBlock = some s.output.content.length := by
      rw [ensureStarted_currentBlock, ← hs']
      rfl
    have hpushed : s'.ensureStarted.pushed = startedPushes s (s.output.content ++ [block]) := by
      rw [ensureStarted_pushed (by rw [← hs']; exact fun hf => (h.start hf).1), ← hs']
      rfl
    have hindex : s'.ensureStarted.blockIndex = (s.output.content.length : ℤ) := by
      rw [Streaming.blockIndex, hcontent, List.length_append, List.length_singleton]
      omega
    refine ⟨h.with_block block (e := event s.output.content.length) hnone (hmark _) hgrown
      (fun i => ?_) hcontent ?_, fun i hi => ?_, fun hstarted => ?_⟩
    · simp [hcurrent, eq_comm]
    · simp [hpushed, hindex, hcontent]
    · rw [GoogleStreaming.lift_toStreaming, Streaming.push_currentBlock, hcurrent,
        Option.some_inj] at hi
      subst hi
      refine ⟨by simp [hcontent], fun block' hblock' => ?_⟩
      simp only [GoogleStreaming.lift_toStreaming, Streaming.push_output, hcontent,
        List.getElem?_concat_length, Option.some_inj] at hblock'
      rw [← hblock']
      exact hkind
    · rw [GoogleStreaming.lift_started, ensureStarted_started] at hstarted
      cases hstarted
  cases isThinking with
  | false => exact hopened (.text [] none) .textStart (fun _ => rfl) rfl rfl
  | true => exact hopened (.thinking [] none) .thinkingStart (fun _ => rfl) rfl rfl

theorem extend {i : ℕ} {block block' : Block} {e : ℤ → Event}
    {delta : JsText} (hi : s.currentBlock = some i) (hcurrent : s.current = some block)
    (hmark : mark (e i) = some ((i : ℤ), .piece (reading.kind block) delta))
    (hkind : reading.kind block' = reading.kind block)
    (hgrown : ∀ deltas, reading.grown block deltas → reading.grown block' (deltas ++ [delta]))
    (hcall : isToolCall block' = false) :
    GoogleSound (s.lift fun b => (b.setBlock i block').push (e b.blockIndex)) := by
  obtain ⟨hlast, _⟩ := h.current i hi
  have hblock := Streaming.block_of_current hi hcurrent
  refine ⟨h.sound.grow hblock hmark hi hkind hgrown rfl ?_, fun j hj => ?_, fun hstarted => ?_⟩
  · simp [s.blockIndex_of_length hlast]
  · obtain rfl : i = j := Option.some.inj (hi.symm.trans hj)
    refine ⟨by simpa using hlast, fun block₀ hblock₀ => ?_⟩
    simp only [GoogleStreaming.lift_toStreaming, Streaming.push_output,
      Streaming.setBlock_content] at hblock₀
    rw [List.getElem?_set_self (by omega), Option.some_inj] at hblock₀
    rw [← hblock₀]
    exact hcall
  · rw [(h.start hstarted).2] at hi
    cases hi

variable (text : JsText) (F : GoogleFormat)

theorem appendText (signature : Option String) : GoogleSound (s.appendText text signature) := by
  unfold GoogleStreaming.appendText
  split
  · next i thinking thinkingSignature hi hcurrent =>
      exact h.extend hi hcurrent (e := (.thinkingDelta · text)) rfl rfl
        (fun _ => grown_thinking) rfl
  · next i existing textSignature hi hcurrent =>
      exact h.extend hi hcurrent (e := (.textDelta · text)) rfl rfl (fun _ => grown_text) rfl
  · exact h

theorem handleText (part : Part) (text : JsText) :
    GoogleSound (s.handleText part text) := by
  have h' := h.hasContent true
  unfold GoogleStreaming.handleText
  dsimp only
  split_ifs
  · exact h'.appendText text part.thoughtSignature
  · exact (h'.finishText.openBlock (Streaming.finishText_currentBlock _)
      part.thought).appendText text part.thoughtSignature

theorem pushToolCall (hnone : s.currentBlock = none) (toolCall : ToolCall) :
    GoogleSound (s.pushToolCall toolCall) := by
  unfold GoogleStreaming.pushToolCall
  generalize hs' : (s.lift (·.pushBlock (.toolCall toolCall))).ensureStarted = s'
  have hcurrent : s'.currentBlock = none := by
    rw [← hs', ensureStarted_currentBlock]
    exact hnone
  have hcontent : s'.output.content = s.output.content ++ [.toolCall toolCall] := by
    rw [← hs', ensureStarted_output]
    rfl
  have hpushed : s'.pushed = startedPushes s (s.output.content ++ [.toolCall toolCall]) := by
    rw [← hs']
    exact ensureStarted_pushed (s := s.lift (·.pushBlock (.toolCall toolCall)))
      fun hf => (h.start hf).1
  have hindex : s'.blockIndex = (s.output.content.length : ℤ) :=
    s'.blockIndex_of_length (by simp [hcontent])
  have hblock : s'.output.content[s.output.content.length]? = some (.toolCall toolCall) := by
    rw [hcontent, List.getElem?_concat_length]
  have hset := (set_of_getElem? hblock).symm
  have hopened : Sound (· = s.output.content.length)
      (s'.push (.toolcallStart s'.blockIndex)) :=
    h.with_block (.toolCall toolCall) (e := .toolcallStart s.output.content.length) hnone rfl
      trivial (fun _ => Iff.rfl) hcontent
      (by rw [Streaming.push_pushed, hpushed, Streaming.push_output, hindex, hcontent])
  have hgrown : Sound (· = s.output.content.length) ((s'.push (.toolcallStart s'.blockIndex)).push
      (.toolcallDelta s'.blockIndex (utf16Chars toolCall.arguments.stringify))) :=
    hopened.grow hblock (by rw [hindex]; rfl) rfl rfl (fun _ _ => trivial) hset rfl
  refine ⟨hgrown.close hblock (by rw [hindex]; rfl) rfl ?_ (fun j hj => ?_) rfl
    (fun _ _ => trivial) hset rfl, fun i hi => ?_, fun hstarted => ?_⟩
  · simp [hcurrent]
  · simp [hcurrent, hj]
  · simp [hcurrent] at hi
  · rw [GoogleStreaming.lift_started, ← hs', ensureStarted_started] at hstarted
    cases hstarted

theorem handleFunctionCall (call : FunctionCall) (signature : Option String) :
    GoogleSound (s.handleFunctionCall F call signature) := by
  have hcall := (h.hasContent true).finishText.pushToolCall (Streaming.finishText_currentBlock _)
    { id := (({ s with hasContent := true }.lift (·.finishText)).toolCallId F call).1
      name := call.name.getD "", arguments := call.args.getD (.object .nil)
      thoughtSignature := signature.filter (· ≠ ""), partialArgs := none }
  exact ⟨hcall.sound, hcall.current, hcall.start⟩

theorem handlePart (part : Option Part) : GoogleSound (GoogleStreaming.handlePart F s part).1 := by
  cases part with
  | none => exact h
  | some part =>
    cases htext : part.text with
    | none =>
      simp only [GoogleStreaming.handlePart, htext]
      split
      · exact h.handleFunctionCall F _ part.thoughtSignature
      · exact h
    | some text =>
      have hs := h.handleText part text
      simp only [GoogleStreaming.handlePart, htext]
      split
      · exact hs.handleFunctionCall F _ part.thoughtSignature
      · exact hs

end

theorem not_open (h : s.currentBlock = none) (i : ℕ) (_ : i < s.output.content.length) :
    ¬ s.currentBlock = some i := by
  simp [h]

theorem conclude (h : GoogleSound s) (hnone : s.currentBlock = none) (aborted : Bool) :
    ObeysProtocol (s.conclude aborted) := by
  unfold GoogleStreaming.conclude
  split_ifs
  · exact h.sound.fail aborted requestAborted
  · exact h.sound.fail aborted unknownError
  · exact h.sound.succeed (not_open hnone)

end GoogleSound

variable (F : GoogleFormat) (toolCallCounter : ℕ)

theorem streamGoogle_obeysProtocol (opened : Except JsText GoogleSource) (aborted : Bool) :
    ObeysProtocol (streamGoogle F toolCallCounter opened aborted) := by
  unfold streamGoogle
  cases opened with
  | error message => exact (Sound.initial fun _ => False).fail aborted message
  | ok googleStream =>
    have hstart : GoogleSound ⟨Streaming.initial.push .start, true, false, toolCallCounter⟩ :=
      ⟨(Sound.initial _).start rfl [], fun i hi => (by cases hi), fun hf => (by cases hf)⟩
    have hchunks := foldUntil_invariant (I := GoogleSound)
      (fun s chunk hs => handleChunk_invariant (fun s part h => h.handlePart F part)
        (fun s f h => h.setOutput f) mapStopReason chunk hs) hstart googleStream.chunks
    dsimp only
    split
    · next heq =>
        rw [heq] at hchunks
        exact hchunks.sound.fail aborted _
    · next heq =>
        rw [heq] at hchunks
        split
        · exact hchunks.sound.fail aborted _
        · exact hchunks.finishText.conclude (Streaming.finishText_currentBlock _) aborted

/-- What was pushed obeys the protocol, and nothing was if there was no content. -/
structure Answering (s : GoogleStreaming) : Prop where
  sound : GoogleSound s
  quiet : s.hasContent = false → s.pushed = [] ∧ s.currentBlock = none

namespace Answering

variable {s : GoogleStreaming}

theorem ensureStarted_hasContent (s : GoogleStreaming) :
    s.ensureStarted.hasContent = s.hasContent := by
  unfold GoogleStreaming.ensureStarted
  split_ifs <;> rfl

theorem appendText_hasContent (text : JsText) (signature : Option String) :
    (s.appendText text signature).hasContent = s.hasContent := by
  unfold GoogleStreaming.appendText
  split <;> rfl

theorem handleText_hasContent (part : Part) (text : JsText) :
    (s.handleText part text).hasContent = true := by
  unfold GoogleStreaming.handleText
  rw [appendText_hasContent]
  split_ifs
  · rfl
  · simp [GoogleStreaming.openBlock, ensureStarted_hasContent]

theorem handleFunctionCall_hasContent (F : GoogleFormat) (call : FunctionCall)
    (signature : Option String) : (s.handleFunctionCall F call signature).hasContent = true := by
  simp [GoogleStreaming.handleFunctionCall, GoogleStreaming.pushToolCall, ensureStarted_hasContent]

theorem handlePart (h : Answering s) (F : GoogleFormat) (part : Option Part) :
    Answering (GoogleStreaming.handlePart F s part).1 := by
  refine ⟨h.sound.handlePart F part, ?_⟩
  cases part with
  | none => exact h.quiet
  | some part =>
    simp only [GoogleStreaming.handlePart]
    split
    · intro hf
      rw [handleFunctionCall_hasContent] at hf
      cases hf
    · split
      · intro hf
        rw [handleText_hasContent] at hf
        cases hf
      · exact h.quiet

theorem setOutput (h : Answering s) (f : Output → Output) : Answering (s.setOutput f) :=
  ⟨h.sound.setOutput f, h.quiet⟩

theorem handleChunk (h : Answering s) (F : GoogleFormat)
    (mapStop : String → Except JsText StopReason) (chunk : GenerateContentResponse) :
    Answering (GoogleStreaming.handleChunk F mapStop s chunk).1 :=
  handleChunk_invariant (fun _ part hs => hs.handlePart F part) (fun _ f hs => hs.setOutput f)
    mapStop chunk h

theorem handleLine (h : Answering s) (F : GoogleFormat) (line : List Char) :
    Answering (GoogleStreaming.handleLine F s line).1 := by
  unfold GoogleStreaming.handleLine
  split
  · exact h
  · exact h.handleChunk F _ _
  · exact h

theorem handleRead {p : GoogleStreaming × Proxy.BodyReader} (h : Answering p.1) (F : GoogleFormat)
    (read : BodyRead) : Answering (GoogleStreaming.handleRead F p read).1.1 := by
  unfold GoogleStreaming.handleRead
  split_ifs
  · exact h
  · exact foldUntil_invariant (I := Answering) (fun s line hs => hs.handleLine F line) h _

theorem finishText (h : Answering s) : Answering (s.lift (·.finishText)) := by
  refine ⟨h.sound.finishText, fun hf => ?_⟩
  obtain ⟨hpushed, hcurrent⟩ := h.quiet hf
  exact ⟨(Streaming.finishText_pushed s.toStreaming hcurrent).trans hpushed,
    Streaming.finishText_currentBlock _⟩

end Answering

structure Fresh (s : GoogleStreaming) : Prop where
  pushed : s.pushed = []
  content : s.output.content = []
  currentBlock : s.currentBlock = none

namespace Fresh

variable {s : GoogleStreaming}

theorem sound (h : Fresh s) : GoogleSound s := by
  refine ⟨⟨⟨[], [], h.pushed, .inl rfl, by simp⟩, fun before p after heq => ?_, ?_⟩, fun i hi => ?_,
    fun _ => ⟨h.pushed, h.currentBlock⟩⟩
  · rw [h.pushed] at heq
    simp at heq
  · rw [h.pushed, h.content]
    exact .nil _
  · rw [h.currentBlock] at hi
    cases hi

theorem resetOutput (hpushed : s.pushed = []) (hcurrent : s.currentBlock = none) :
    Fresh s.resetOutput :=
  ⟨hpushed, rfl, hcurrent⟩

theorem streamResponse (h : Fresh s) (F : GoogleFormat) (body : Option ResponseBody) :
    GoogleSound (s.streamResponse F body).1 ∧ ((s.streamResponse F body).2 = none →
      (s.streamResponse F body).1.currentBlock = none ∧ Answering (s.streamResponse F body).1) := by
  cases body with
  | none => exact ⟨h.sound, fun hthrown => by cases hthrown⟩
  | some body =>
    have hstart : Answering { s.lift ({ · with currentBlock := none }) with
        hasContent := false } := by
      have hfresh : Fresh { s.lift ({ · with currentBlock := none }) with hasContent := false } :=
        ⟨h.pushed, h.content, rfl⟩
      exact ⟨hfresh.sound, fun _ => ⟨h.pushed, rfl⟩⟩
    have hreads := foldUntil_invariant (f := GoogleStreaming.handleRead F)
      (I := fun p => Answering p.1) (fun p read hp => hp.handleRead F read)
      (s := (_, Proxy.BodyReader.start)) hstart body.reads
    unfold GoogleStreaming.streamResponse
    dsimp only
    split
    · next heq =>
        rw [heq] at hreads
        exact ⟨hreads.sound, fun hthrown => by cases hthrown⟩
    · next heq =>
        rw [heq] at hreads
        split_ifs
        · exact ⟨hreads.sound, fun hthrown => by cases hthrown⟩
        · split
          · exact ⟨hreads.sound, fun hthrown => by cases hthrown⟩
          · exact ⟨hreads.finishText.sound, fun _ =>
              ⟨Streaming.finishText_currentBlock _, hreads.finishText⟩⟩

theorem streamAttempts (h : Fresh s) (F : GoogleFormat) (retries : ℕ → EmptyRetry) (left : ℕ)
    (response : Option ResponseBody) :
    GoogleSound (streamAttempts F retries left s response).1 ∧
      ((streamAttempts F retries left s response).2 = none →
        (streamAttempts F retries left s response).1.currentBlock = none) := by
  induction left generalizing s response with
  | zero =>
    have hanswer := h.streamResponse F response
    unfold Providers.streamAttempts
    split
    · next heq =>
        rw [heq] at hanswer
        exact ⟨hanswer.1, fun hthrown => by cases hthrown⟩
    · next heq =>
        rw [heq] at hanswer
        split_ifs
        · exact ⟨hanswer.1, fun _ => (hanswer.2 rfl).1⟩
        · exact ⟨hanswer.1, fun hthrown => by cases hthrown⟩
  | succ left ih =>
    have hanswer := h.streamResponse F response
    unfold Providers.streamAttempts
    split
    · next heq =>
        rw [heq] at hanswer
        exact ⟨hanswer.1, fun hthrown => by cases hthrown⟩
    · next heq =>
        rw [heq] at hanswer
        obtain ⟨hcurrent, hanswering⟩ := hanswer.2 rfl
        split_ifs with hcontent
        · exact ⟨hanswer.1, fun _ => hcurrent⟩
        · have hempty := hanswering.quiet (Bool.eq_false_iff.mpr hcontent)
          have hfresh := resetOutput hempty.1 hcurrent
          dsimp only
          split
          · exact ⟨hfresh.sound, fun hthrown => by cases hthrown⟩
          · exact ih hfresh _

end Fresh

theorem streamGoogleGeminiCli_obeysProtocol (run : GeminiRun) :
    ObeysProtocol (streamGoogleGeminiCli F toolCallCounter run) := by
  have hfresh : Fresh ⟨Streaming.initial, false, false, toolCallCounter⟩ := ⟨rfl, rfl, rfl⟩
  have hfail := hfresh.sound.sound.fail run.aborted
  unfold streamGoogleGeminiCli
  dsimp only
  split
  · exact hfail _
  · split
    · exact hfail _
    · next response _ =>
        split_ifs
        · exact hfail _
        · obtain ⟨hsound, hcurrent⟩ :=
            hfresh.streamAttempts F run.retries MAX_EMPTY_STREAM_RETRIES response
          split
          · next heq =>
              rw [heq] at hsound
              exact hsound.sound.fail run.aborted _
          · next heq =>
              rw [heq] at hsound hcurrent
              exact hsound.conclude (hcurrent rfl) run.aborted

end Draht.Providers
