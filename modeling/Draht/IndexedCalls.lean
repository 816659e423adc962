import Draht.CompletionCalls
import Draht.Demultiplex

/-!
# Calls by their index

Each piece of a tool call has the index of its call, and the first one has an id. The provider does
not look at the index: a piece without an id goes to the call that is streamed. The calls of the
message are those of the indices as long as each piece comes while its own call is streamed.
-/

namespace Draht.Providers
open List Option

open Demultiplex

/-- A piece of a tool call with the index that it has in the chunk. -/
structure CallFragment where
  index : ℕ
  toolCall : ToolCallDelta

abbrev IndexedPiece := Piece ℕ String UInt16

def CallFragment.fragment (f : CallFragment) : Fragment ℕ String UInt16 :=
  ⟨f.index, f.toolCall.id.filter (· ≠ ""), f.toolCall.arguments.getD []⟩

def CallFragment.piece (f : CallFragment) : IndexedPiece := .fragment f.fragment

/-- A chunk whose tool calls have an index each; no list has `null` in it. -/
structure IndexedChunk where
  chunk : Option CompletionChunk
  fragments : List CallFragment
  toolCalls : (deltaOf chunk).elim [] (·.toolCalls) = fragments.map fun f => some f.toolCall
  details : ∀ delta ∈ deltaOf chunk, ∀ detail ∈ delta.reasoningDetails, detail.isSome

/-- Text and reasoning come before the calls of a chunk. -/
def Delta.gaps (delta : Delta) : List IndexedPiece :=
  (delta.content.filter (· ≠ [])).toList.map (fun _ => .gap) ++
    (Completions.foundReasoning delta).toList.map fun _ => .gap

def IndexedChunk.pieces (c : IndexedChunk) : List IndexedPiece :=
  (deltaOf c.chunk).elim [] Delta.gaps ++ c.fragments.map CallFragment.piece

def piecesOf (chunks : List IndexedChunk) : List IndexedPiece := chunks.flatMap IndexedChunk.pieces

def callFragments (chunks : List IndexedChunk) : List (Fragment ℕ String UInt16) :=
  (chunks.flatMap (·.fragments)).map CallFragment.fragment

theorem fragmentsOf_gaps (delta : Delta) : fragmentsOf delta.gaps = [] := by
  have hgaps {α : Type} (xs : List α) :
      (xs.map fun _ => (Piece.gap : IndexedPiece)).filterMap Piece.fragment? = [] := by
    rw [filterMap_map]
    exact filterMap_eq_nil_iff.mpr fun _ _ => rfl
  rw [fragmentsOf, Delta.gaps, filterMap_append, hgaps, hgaps, append_nil]

theorem IndexedChunk.fragmentsOf_pieces (c : IndexedChunk) :
    fragmentsOf c.pieces = c.fragments.map CallFragment.fragment := by
  have hgaps : ((deltaOf c.chunk).elim [] Delta.gaps).filterMap Piece.fragment? = [] := by
    cases deltaOf c.chunk with
    | none => rfl
    | some delta => exact fragmentsOf_gaps delta
  rw [fragmentsOf, pieces, filterMap_append, hgaps, nil_append, filterMap_map, ← filterMap_eq_map]
  rfl

theorem fragmentsOf_piecesOf (chunks : List IndexedChunk) :
    fragmentsOf (piecesOf chunks) = callFragments chunks := by
  rw [fragmentsOf, piecesOf, filterMap_flatMap, callFragments, map_flatMap]
  exact flatMap_congr fun c _ => c.fragmentsOf_pieces

def callPiece : IndexedPiece → CallPiece
  | .gap => .other
  | .fragment f => .part f.label f.payload

theorem IndexedChunk.noNull (c : IndexedChunk) : ∀ delta ∈ deltaOf c.chunk, delta.NoNull := by
  intro delta hdelta
  refine ⟨fun toolCall hmem => ?_, c.details delta hdelta⟩
  have htoolCalls := c.toolCalls
  rw [hdelta, elim_some] at htoolCalls
  rw [htoolCalls] at hmem
  obtain ⟨f, -, rfl⟩ := mem_map.mp hmem
  rfl

/-- The texts of the groups, with an empty id where there is no label. -/
def tally (a : Assembly String UInt16) : CallTally :=
  ⟨a.ended.map (·.2), a.opened.map fun g => (g.1.getD "", g.2)⟩

theorem tally_texts (a : Assembly String UInt16) : (tally a).texts = a.groups.map (·.2) := by
  rw [CallTally.texts, tally, Assembly.groups, map_append]
  cases a.opened <;> rfl

def Named : IndexedPiece → Prop
  | .gap => True
  | .fragment f => f.label ≠ some ""

theorem CallFragment.named (f : CallFragment) : Named f.piece := by
  intro h
  obtain ⟨-, hne⟩ := filter_eq_some_iff.mp h
  exact absurd rfl (of_decide_eq_true hne)

theorem all_label_eq {label label' : Option String} (h : label ≠ some "") :
    label.all (· = label'.getD "") = label.all (some · = label') := by
  cases label with
  | none => rfl
  | some id =>
    cases label' with
    | none =>
      have hne : id ≠ "" := fun heq => h (congrArg some heq)
      simp [hne]
    | some id' => simp

theorem tally_add (a : Assembly String UInt16) {p : IndexedPiece} (h : Named p) :
    tally (a.add p) = (tally a).add (callPiece p) := by
  cases p with
  | gap => rw [Assembly.add_gap, callPiece, CallTally.add, tally_texts, tally]; rfl
  | fragment f =>
    have hlabel : f.label ≠ some "" := h
    rw [callPiece]
    cases hopened : a.opened with
    | none =>
      rw [Assembly.add_begin (by simp [hopened])]
      simp only [CallTally.add, tally_texts]
      simp [tally, hopened, map_none, map_some]
    | some g =>
      by_cases hall : f.label.all (some · = g.1)
      · rw [Assembly.add_continue hopened hall]
        simp [CallTally.add, tally, hopened, map_some, all_label_eq hlabel, if_pos hall]
      · rw [Assembly.add_begin (by simpa [hopened] using hall)]
        simp only [CallTally.add, tally_texts]
        simp [tally, hopened, map_some, all_label_eq hlabel, if_neg hall]

def callId? (block : Block) : Option String := (toolCall? block).map (·.id)

def callIds (s : Streaming) : List String := s.output.content.filterMap callId?

variable {P : JsonParser} {s : Streaming}

theorem callIds_setBlock {i : ℕ} {block block' : Block} (hblock : s.output.content[i]? = some block)
    (hid : callId? block' = callId? block) : callIds (s.setBlock i block') = callIds s :=
  filterMap_set hblock hid

theorem callIds_openBlock (block : Block) (started : ℤ → Event) :
    callIds (s.openBlock block started) = callIds s ++ (callId? block).toList := by
  change (s.output.content ++ [block]).filterMap callId? = _
  rw [filterMap_append, callIds]
  cases hblock : callId? block <;> simp [hblock]

def CallsAre (P : JsonParser) (groups : List (LabelledGroup String UInt16))
    (content : List Block) : Prop :=
  (toolCallsOf content).map (fun call => (call.id, call.arguments)) =
    groups.map fun g => (g.1.getD "", P.parseStreamingJson g.2)

theorem arguments_of_callsRead {texts : List JsText} {content : List Block}
    (h : CallsRead P (texts.map fun text => ⟨.object .nil, text⟩) content) :
    (toolCallsOf content).map (·.arguments) = texts.map P.parseStreamingJson := by
  unfold CallsRead at h
  rw [forall₂_map_left_iff] at h
  generalize toolCallsOf content = calls at h ⊢
  induction h with
  | nil => rfl
  | @cons text call texts calls hread hrest ih =>
    rw [map_cons, map_cons, ih]
    congr 1
    obtain hread | ⟨hempty, hinput⟩ := hread
    · exact hread
    · rw [hinput, show text = [] from hempty, StreamedCall.parseStreamingJson_nil]

namespace Completions

theorem callIds_finishCurrentBlock : callIds (finishCurrentBlock P s) = callIds s := by
  unfold finishCurrentBlock
  split
  · next i call hi hcurrent =>
      exact callIds_setBlock (Streaming.block_of_current hi hcurrent) rfl
  · rw [callIds, Streaming.finishText_output, callIds]

theorem callIds_openBlock_other {block : Block} (hblock : toolCall? block = none)
    (started : ℤ → Event) :
    callIds ((finishCurrentBlock P s).openBlock block started) = callIds s := by
  rw [callIds_openBlock, callIds_finishCurrentBlock, callId?, hblock]
  exact append_nil _

theorem callIds_handleContent (content : JsText) :
    callIds (handleContent P s content) = callIds s := by
  unfold handleContent
  extract_lets s'
  have hs' : callIds s' = callIds s := by
    simp only [s']
    split
    · rfl
    · exact callIds_openBlock_other rfl _
  split
  · next i text signature hi hcurrent =>
      exact (callIds_setBlock (Streaming.block_of_current hi hcurrent) (by rfl)).trans hs'
  · exact hs'

theorem callIds_handleReasoning (field : String) (delta : JsText) :
    callIds (handleReasoning P s field delta) = callIds s := by
  unfold handleReasoning
  extract_lets s'
  have hs' : callIds s' = callIds s := by
    simp only [s']
    split
    · rfl
    · exact callIds_openBlock_other rfl _
  split
  · next i thinking signature hi hcurrent =>
      exact (callIds_setBlock (Streaming.block_of_current hi hcurrent) (by rfl)).trans hs'
  · exact hs'

theorem callIds_handleDetail (detail : Option ReasoningDetail) :
    callIds (handleDetail s detail).1 = callIds s := by
  unfold handleDetail
  split
  · rfl
  · split
    · split_ifs
      · split
        · split
          · next block hblock =>
              refine callIds_setBlock hblock ?_
              cases block <;> rfl
          · rfl
        · rfl
      · rfl
    · rfl

theorem all_id_of_current {toolCall : ToolCallDelta} {call : ToolCall}
    (h : (if continuesCall s toolCall then s else (finishCurrentBlock P s).openBlock
      (.toolCall ⟨toolCall.id.getD "", toolCall.name.getD "", .object .nil, none, some []⟩)
      .toolcallStart).current = some (.toolCall call)) :
    (toolCall.id.filter (· ≠ "")).all (· = call.id) := by
  split_ifs at h with hcontinues
  · unfold continuesCall at hcontinues
    rwa [h] at hcontinues
  · rw [Streaming.current_openBlock] at h
    obtain rfl := Block.toolCall.inj (some.inj h)
    exact filter_ne_all toolCall.id ""

theorem callIds_handleToolCall (toolCall : ToolCallDelta) :
    callIds (handleToolCall P s (some toolCall)).1 =
      callIds s ++ if continuesCall s toolCall then [] else [toolCall.id.getD ""] := by
  have hs' : callIds (if continuesCall s toolCall then s else (finishCurrentBlock P s).openBlock
      (.toolCall ⟨toolCall.id.getD "", toolCall.name.getD "", .object .nil, none, some []⟩)
      .toolcallStart) =
      callIds s ++ if continuesCall s toolCall then [] else [toolCall.id.getD ""] := by
    split_ifs
    · exact (append_nil _).symm
    · rw [callIds_openBlock, callIds_finishCurrentBlock]
      rfl
  unfold handleToolCall
  dsimp only
  split
  · next i call hi hcurrent =>
      refine (callIds_setBlock (Streaming.block_of_current hi hcurrent) ?_).trans hs'
      exact congrArg some (extendCall_id (all_id_of_current hcurrent))
  · exact hs'

/-- The message follows the groups, and their labels are the ids of its calls. -/
structure Builds (P : JsonParser) (s : Streaming) (a : Assembly String UInt16) : Prop where
  streamed : Streamed P s (tally a)
  ids : callIds s = a.groups.map (·.1.getD "")

theorem continuesCall_iff {t : CallTally} (h : Streamed P s t) (toolCall : ToolCallDelta) :
    continuesCall s toolCall = true ↔
      ∃ call ∈ t.streaming, (toolCall.id.filter (· ≠ "")).all (· = call.1) := by
  refine ⟨fun hcontinues => ?_, ?_⟩
  · obtain ⟨text, content, call, hwithin, hid, hstreaming⟩ := within_of_continuesCall h hcontinues
    exact ⟨_, hstreaming, hid⟩
  · rintro ⟨⟨id, text⟩, hstreaming, hid⟩
    unfold Streamed at h
    rw [hstreaming] at h
    obtain ⟨content, call, hwithin, hcall⟩ := h
    unfold continuesCall
    rw [hwithin.current]
    rwa [← hcall] at hid

theorem Builds.gap {a : Assembly String UInt16} (hids : callIds s = a.groups.map (·.1.getD ""))
    {s' : Streaming} (hs' : callIds s' = callIds s)
    (hstreamed : Streamed P s' ((tally a).add .other)) :
    Builds P s' (a.add (Piece.gap : IndexedPiece)) := by
  refine ⟨?_, ?_⟩
  · rw [tally_add a (p := .gap) trivial]
    exact hstreamed
  · rw [hs', hids, Assembly.add_gap, Assembly.groups]
    exact congrArg (List.map _) (append_nil _).symm

theorem Builds.handleToolCall {a : Assembly String UInt16} (h : Builds P s a) (f : CallFragment) :
    Builds P (handleToolCall P s (some f.toolCall)).1 (a.add f.piece) := by
  refine ⟨?_, ?_⟩
  · rw [tally_add a f.named]
    exact handleToolCall_streamed h.streamed f.toolCall
  · have hcontinues := continuesCall_iff h.streamed f.toolCall
    rw [callIds_handleToolCall, h.ids, CallFragment.piece]
    obtain ⟨hother, hadd⟩ | ⟨g, hopened, hall, hadd⟩ := a.add_fragment f.fragment
    · have hnot : ¬continuesCall s f.toolCall = true := by
        rw [hcontinues]
        rintro ⟨call, hcall, hid⟩
        obtain ⟨g, hg, rfl⟩ := map_eq_some_iff.mp hcall
        exact hother g hg (by rwa [← all_label_eq f.named])
      rw [hadd, if_neg hnot, Assembly.groups_mk_some, map_append, ← filter_ne_getD f.toolCall.id]
      rfl
    · have hyes : continuesCall s f.toolCall = true := by
        rw [hcontinues]
        exact ⟨_, map_eq_some_iff.mpr ⟨g, hopened, rfl⟩, (all_label_eq f.named).trans hall⟩
      rw [hadd, if_pos hyes, Assembly.groups_of_opened hopened, Assembly.groups_mk_some,
        map_append, map_append]
      exact append_nil _

variable {a : Assembly String UInt16}

theorem Builds.handleToolCalls (h : Builds P s a) (fragments : List CallFragment) :
    (foldUntil (Completions.handleToolCall P) s (fragments.map fun f => some f.toolCall)).2 = none ∧
      Builds P (foldUntil (Completions.handleToolCall P) s
        (fragments.map fun f => some f.toolCall)).1
        ((fragments.map CallFragment.piece).foldl Assembly.add a) := by
  rw [foldl_map]
  exact foldUntil_map_simulates (R := Builds P)
    (fun s a f hs => ⟨(handleToolCall_thrown s (some f.toolCall)).mpr rfl, hs.handleToolCall f⟩) h
    fragments

theorem Builds.handleDetail (h : Builds P s a) (detail : Option ReasoningDetail) :
    Builds P (Completions.handleDetail s detail).1 a :=
  ⟨handleDetail_streamed h.streamed detail, (callIds_handleDetail detail).trans h.ids⟩

theorem Builds.setOutput (h : Builds P s a) (f : Output → Output) :
    Builds P (Completions.setOutput s f) a :=
  ⟨setOutput_streamed h.streamed f, h.ids⟩

theorem Builds.handleDelta (h : Builds P s a) {delta : Delta} {fragments : List CallFragment}
    (htoolCalls : delta.toolCalls = fragments.map fun f => some f.toolCall) :
    Builds P (Completions.handleDelta P s delta).1
      ((delta.gaps ++ fragments.map CallFragment.piece).foldl Assembly.add a) := by
  unfold Completions.handleDelta Delta.gaps
  extract_lets s₁ s₂
  rw [foldl_append, foldl_append]
  have hs₁ : Builds P s₁ (((delta.content.filter (· ≠ [])).toList.map
      fun _ => (Piece.gap : IndexedPiece)).foldl Assembly.add a) := by
    simp only [s₁]
    cases delta.content.filter (· ≠ []) with
    | none => exact h
    | some content =>
      exact Builds.gap h.ids (callIds_handleContent content)
        (handleContent_streamed h.streamed content)
  generalize ((delta.content.filter (· ≠ [])).toList.map
    fun _ => (Piece.gap : IndexedPiece)).foldl Assembly.add a = a₁ at hs₁ ⊢
  have hs₂ : Builds P s₂ (((foundReasoning delta).toList.map
      fun _ => (Piece.gap : IndexedPiece)).foldl Assembly.add a₁) := by
    simp only [s₂]
    cases foundReasoning delta with
    | none => exact hs₁
    | some found =>
      exact Builds.gap hs₁.ids (callIds_handleReasoning found.1 found.2)
        (handleReasoning_streamed hs₁.streamed found.1 found.2)
  obtain ⟨hthrown, hcalls⟩ := hs₂.handleToolCalls fragments
  rw [htoolCalls]
  cases hrun : foldUntil (Completions.handleToolCall P) s₂
      (fragments.map fun f => some f.toolCall) with
  | mk s₃ thrown =>
    rw [hrun] at hcalls hthrown
    obtain rfl : thrown = none := hthrown
    exact foldUntil_invariant (I := fun s => Builds P s _)
      (fun s detail hs => hs.handleDetail detail) hcalls delta.reasoningDetails

theorem Builds.handleChunk (h : Builds P s a) (c : IndexedChunk) :
    Builds P (Completions.handleChunk P s c.chunk).1 (c.pieces.foldl Assembly.add a) := by
  obtain ⟨chunk, fragments, htoolCalls, hdetails⟩ := c
  have hnone (hdelta : deltaOf chunk = none) : fragments = [] := by
    rw [hdelta, elim_none, eq_comm, map_eq_nil_iff] at htoolCalls
    exact htoolCalls
  unfold IndexedChunk.pieces
  dsimp only
  cases chunk with
  | none =>
    rw [hnone rfl]
    exact h
  | some chunk =>
    obtain ⟨id, usage, choice⟩ := chunk
    cases choice with
    | none =>
      rw [hnone rfl]
      unfold Completions.handleChunk
      dsimp only
      exact h.setOutput _
    | some choice =>
      obtain ⟨choiceUsage, finishReason, delta⟩ := choice
      cases delta with
      | none =>
        rw [hnone rfl]
        unfold Completions.handleChunk
        dsimp only
        exact (h.setOutput _).setOutput _
      | some delta => exact ((h.setOutput _).setOutput _).handleDelta htoolCalls

theorem Builds.handleChunks (h : Builds P s a) (chunks : List IndexedChunk) :
    (foldUntil (Completions.handleChunk P) s (chunks.map (·.chunk))).2 = none ∧
      Builds P (foldUntil (Completions.handleChunk P) s (chunks.map (·.chunk))).1
        ((piecesOf chunks).foldl Assembly.add a) := by
  rw [piecesOf, foldl_flatMap]
  exact foldUntil_map_simulates (R := Builds P)
    (fun s a c hs => ⟨(handleChunk_thrown s c.chunk).mpr c.noNull, hs.handleChunk c⟩) h chunks

theorem callsAre_of {content : List Block} (hids : content.filterMap callId? =
    a.groups.map (·.1.getD "")) (hread : EndedRead P (tally a).texts content) :
    CallsAre P a.groups content := by
  have harguments := arguments_of_callsRead hread
  have hids' : (toolCallsOf content).map (·.id) = a.groups.map (·.1.getD "") := by
    rw [← hids, toolCallsOf, map_filterMap]
    rfl
  rw [tally_texts, List.map_map] at harguments
  unfold CallsAre
  rw [← zip_map', ← zip_map', hids', harguments]
  rfl

theorem Builds.callsAre (h : Builds P s a) : CallsAre P a.groups s.output.content :=
  callsAre_of h.ids h.streamed.read

theorem Builds.callsAre_finished (h : Builds P s a) :
    CallsAre P a.groups (finishCurrentBlock P s).output.content :=
  callsAre_of (callIds_finishCurrentBlock.trans h.ids) (finishCurrentBlock_between h.streamed).read

end Completions

theorem streamOpenAICompletions_content (source : CompletionSource) {s : Streaming}
    (h : foldUntil (Completions.handleChunk P) (Streaming.initial.push .start) source.chunks =
      (s, none)) (aborted : Bool) :
    (streamOpenAICompletions P (.ok source) aborted).output.content = s.output.content ∨
      (streamOpenAICompletions P (.ok source) aborted).output.content =
        (Completions.finishCurrentBlock P s).output.content := by
  unfold streamOpenAICompletions
  dsimp only
  rw [h]
  dsimp only
  split
  · exact .inl rfl
  · right
    split_ifs <;> rfl

theorem streamOpenAICompletions_callsAre (P : JsonParser) (chunks : List IndexedChunk)
    (thrown : Option CompletionError) (aborted : Bool) :
    CallsAre P (Assembly.run (piecesOf chunks)).groups
      (streamOpenAICompletions P (.ok ⟨chunks.map (·.chunk), thrown⟩) aborted).output.content := by
  have hstart : Completions.Builds P (Streaming.initial.push .start) ⟨[], none⟩ :=
    ⟨streamed_initial, rfl⟩
  obtain ⟨hnone, hbuilds⟩ := hstart.handleChunks chunks
  cases hrun : foldUntil (Completions.handleChunk P) (Streaming.initial.push .start)
      (chunks.map (·.chunk)) with
  | mk s thrown' =>
    rw [hrun] at hnone hbuilds
    obtain rfl : thrown' = none := hnone
    rcases streamOpenAICompletions_content ⟨chunks.map (·.chunk), thrown⟩ hrun aborted
      with hcontent | hcontent
    · rw [hcontent]
      exact hbuilds.callsAre
    · rw [hcontent]
      exact hbuilds.callsAre_finished

/-- The message has a call for each index, in the order in which the indices first come, with the id
of the first piece of the index and the reading of all its pieces, whatever the parser. -/
def CallPerIndex (chunks : List IndexedChunk) (thrown : Option CompletionError) (aborted : Bool) :
    Prop :=
  ∀ P : JsonParser, CallsAre P (byKey (callFragments chunks))
    (streamOpenAICompletions P (.ok ⟨chunks.map (·.chunk), thrown⟩) aborted).output.content

def Blank (text : JsText) : Prop := trim (fun c => isWhiteSpaceCode c.toNat) text = []

theorem text_eq_of_reads {text text' : JsText}
    (h : ∀ P : JsonParser, P.parseStreamingJson text = P.parseStreamingJson text')
    (hblank : ¬Blank text') : text = text' := by
  have hread := h ⟨fun t => some (.bool (t = text')), fun _ => none⟩
  unfold JsonParser.parseStreamingJson at hread
  rw [if_neg (show ¬trim (fun c => isWhiteSpaceCode c.toNat) text' = [] from hblank)] at hread
  split_ifs at hread
  simpa using hread

theorem labels_eq_of_ids {labels labels' : List (Option String)}
    (h : labels.map (·.getD "") = labels'.map (·.getD ""))
    (hnamed : ∀ label ∈ labels', label.isSome ∧ label ≠ some "") : labels = labels' := by
  induction labels' generalizing labels with
  | nil => exact map_eq_nil_iff.mp h
  | cons label' labels' ih =>
    obtain ⟨⟨hsome, hne⟩, hrest⟩ := forall_mem_cons.mp hnamed
    obtain ⟨id, rfl⟩ := isSome_iff_exists.mp hsome
    obtain ⟨label, labels, rfl, hlabel, hlabels⟩ := map_eq_cons_iff.mp h
    rw [ih hlabels hrest]
    cases label with
    | none => exact absurd (congrArg some hlabel.symm) hne
    | some label => rw [show label = id from hlabel]

/-- If each piece of a call comes while the call is streamed, the message has a call for each index.
If it has, each piece came so, unless some call has a text of white space only. -/
theorem callPerIndex_inTurn (chunks : List IndexedChunk)
    (h : FirstLabelled [] (callFragments chunks)) (thrown : Option CompletionError)
    (aborted : Bool) :
    (InTurn none (piecesOf chunks) → CallPerIndex chunks thrown aborted) ∧
      ((∀ g ∈ byKey (callFragments chunks), g.2 = [] ∨ ¬Blank g.2) →
        CallPerIndex chunks thrown aborted → InTurn none (piecesOf chunks)) := by
  rw [← fragmentsOf_piecesOf] at h
  refine ⟨fun hturn P => ?_, fun hblank hcalls => ?_⟩
  · rw [← fragmentsOf_piecesOf, ← groups_of_inTurn h hturn]
    exact streamOpenAICompletions_callsAre P chunks thrown aborted
  · by_contra hturn
    have hboth (P : JsonParser) :
        (Assembly.run (piecesOf chunks)).groups.map
            (fun g => (g.1.getD "", P.parseStreamingJson g.2)) =
          (byKey (fragmentsOf (piecesOf chunks))).map
            fun g => (g.1.getD "", P.parseStreamingJson g.2) := by
      rw [fragmentsOf_piecesOf]
      exact (streamOpenAICompletions_callsAre P chunks thrown aborted).symm.trans (hcalls P)
    obtain hlabels | ⟨i, g, g', hg, hg', hlength⟩ := differs_of_not_inTurn h hturn
    · refine hlabels (labels_eq_of_ids ?_ fun label hmem => ?_)
      · have hids := congrArg (List.map Prod.fst) (hboth ⟨fun _ => none, fun _ => none⟩)
        rw [List.map_map, List.map_map] at hids
        rw [List.map_map, List.map_map]
        exact hids
      · obtain ⟨hsome, f, hf, hlabel⟩ := label_of_mem_byKey h hmem
        rw [fragmentsOf_piecesOf] at hf
        obtain ⟨piece, -, rfl⟩ := mem_map.mp hf
        exact ⟨hsome, hlabel ▸ piece.named⟩
    · have hread (P : JsonParser) : P.parseStreamingJson g.2 = P.parseStreamingJson g'.2 := by
        have hi := congrArg (fun calls => calls[i]?.map (·.2)) (hboth P)
        simpa [hg, hg'] using hi
      have hmem := mem_of_getElem? hg'
      rw [fragmentsOf_piecesOf] at hmem
      obtain hempty | hnonblank := hblank g' hmem
      · rw [hempty] at hlength
        exact absurd hlength (Nat.not_lt_zero _)
      · rw [text_eq_of_reads hread hnonblank] at hlength
        exact absurd hlength (Nat.lt_irrefl _)

def callChunk (index : ℕ) (id name : Option String) (arguments : String) : IndexedChunk where
  chunk := some ⟨none, none, some ⟨none, none, some ⟨none, none, none, none,
    [some ⟨id, name, some (utf16 arguments)⟩], []⟩⟩⟩
  fragments := [⟨index, id, name, some (utf16 arguments)⟩]
  toolCalls := rfl
  details := by simp [deltaOf, choiceOf]

def oneByOne : List IndexedChunk :=
  [callChunk 0 (some "a") (some "read") "\x7b\"x\":", callChunk 0 none none "1\x7d",
    callChunk 1 (some "b") (some "edit") "\x7b\"y\":", callChunk 1 none none "2\x7d"]

theorem oneByOne_callPerIndex :
    FirstLabelled [] (callFragments oneByOne) ∧ InTurn none (piecesOf oneByOne) ∧
      CallPerIndex oneByOne none false := by
  have hlabelled : FirstLabelled [] (callFragments oneByOne) := by decide +kernel
  have hturn : InTurn none (piecesOf oneByOne) := by decide +kernel
  exact ⟨hlabelled, hturn, (callPerIndex_inTurn oneByOne hlabelled none false).1 hturn⟩

def interleaved : List IndexedChunk :=
  [callChunk 0 (some "a") (some "read") "\x7b\"x\":",
    callChunk 1 (some "b") (some "edit") "\x7b\"y\":", callChunk 0 none none "1\x7d",
    callChunk 1 none none "2\x7d"]

def twoCallsParser : JsonParser where
  parse text :=
    if text = utf16 "\x7b\"x\":1\x7d" then some (.object (.cons "x" (.number "1") .nil))
    else if text = utf16 "\x7b\"y\":2\x7d" then some (.object (.cons "y" (.number "2") .nil))
    else if text = utf16 "\x7b\"y\":1\x7d" then some (.object (.cons "y" (.number "1") .nil))
    else none
  partialParse text :=
    if text = utf16 "\x7b\"y\":1\x7d2\x7d" then some (.object (.cons "y" (.number "1") .nil))
    else if text = utf16 "\x7b\"x\":" ∨ text = utf16 "\x7b\"y\":" then some (.object .nil)
    else none

/-- The rest of the first call goes to the second one. -/
theorem interleaved_mixed :
    ¬∀ (chunks : List IndexedChunk) (thrown : Option CompletionError) (aborted : Bool),
      FirstLabelled [] (callFragments chunks) → CallPerIndex chunks thrown aborted := by
  intro h
  have hcalls := h interleaved none false (by decide +kernel) twoCallsParser
  unfold CallsAre at hcalls
  exact absurd hcalls (by decide +kernel)

end Draht.Providers
