import Draht.AnthropicCalls

/-!
# Arguments of an Anthropic message

What the events say of each block with all of its pieces, and what the blocks of the final message
keep of it. A call that is stopped without a piece loses its input, and one that is not stopped
keeps its text.
-/

namespace Draht.Providers
open List Option

/-- A call with the input of its start and the pieces of its text. -/
structure LoggedCall where
  input : Json
  deltas : List JsText
deriving DecidableEq

def LoggedCall.arguments (P : JsonParser) (c : LoggedCall) : Json :=
  if c.deltas = [] then c.input else P.parseStreamingJson c.deltas.flatten

/-- A block that was started; it has its index until it is stopped. -/
structure LoggedBlock where
  index : Option ℕ
  call : Option LoggedCall
deriving DecidableEq

def LoggedBlock.addDelta (delta : JsText) (b : LoggedBlock) : LoggedBlock :=
  { b with call := b.call.map fun c => { c with deltas := c.deltas ++ [delta] } }

def LoggedBlock.stop (b : LoggedBlock) : LoggedBlock := { b with index := none }

def logEvent (blocks : List LoggedBlock) : AnthropicEvent → List LoggedBlock
  | .contentBlockStart _ .other => blocks
  | .contentBlockStart index (.toolUse _ _ input) =>
    blocks ++ [⟨some index, some ⟨orEmpty input, []⟩⟩]
  | .contentBlockStart index _ => blocks ++ [⟨some index, none⟩]
  | .contentBlockDelta index (.inputJson delta) =>
    modifyFirst (·.index = some index) (.addDelta delta) blocks
  | .contentBlockStop index => modifyFirst (·.index = some index) .stop blocks
  | _ => blocks

def AnthropicEvent.isKnown : AnthropicEvent → Bool
  | .messageDelta stopReason _ =>
    (stopReason.filter (· ≠ "")).all fun reason =>
      (Anthropic.mapStopReason reason).toOption.isSome
  | _ => true

/-- The blocks of a request that are told before anything is thrown. -/
def loggedBlocks : Except JsText AnthropicSource → List LoggedBlock
  | .error _ => []
  | .ok source => (source.events.takeWhile (·.isKnown)).foldl logEvent []

/-- A block of the final message with the arguments that the events have given, and without the
fields of the stream. -/
structure Final (P : JsonParser) (b : LoggedBlock) (found : IndexedBlock) : Prop where
  index : found.index = none
  other : toolCall? found.block = none → b.call = none
  call : ∀ call, toolCall? found.block = some call → ∃ c, b.call = some c ∧
    call.arguments = c.arguments P ∧ call.partialArgs = none

def KeepsArguments (P : JsonParser) (blocks : List LoggedBlock) (content : List IndexedBlock) :
    Prop :=
  List.Forall₂ (Final P) blocks content

def LoggedBlock.Kept (b : LoggedBlock) : Prop :=
  ∀ c ∈ b.call, b.index = none ∧ (c.deltas = [] → c.input = .object .nil)

/-- The request is sent, nothing is thrown, and the answer is no error. -/
def Answered (opened : Except JsText AnthropicSource) (aborted : Bool) : Prop :=
  ∃ source, opened = .ok source ∧ aborted = false ∧ source.Succeeds

structure Logs (P : JsonParser) (b : LoggedBlock) (found : IndexedBlock) : Prop where
  index : b.index = found.index
  other : toolCall? found.block = none → b.call = none
  call : ∀ call, toolCall? found.block = some call → ∃ c, b.call = some c ∧
    (b.index ≠ none → call.partialArgs = some c.deltas.flatten ∧ call.arguments = c.arguments P) ∧
    (b.index = none →
      call.partialArgs = none ∧ call.arguments = P.parseStreamingJson c.deltas.flatten)

variable {P : JsonParser} {N : ToolNames} {b : LoggedBlock} {found : IndexedBlock}
  {blocks : List LoggedBlock} {content : List IndexedBlock}

theorem Logs.of_other (h : b.index = found.index) (hcall : b.call = none)
    (hblock : toolCall? found.block = none) : Logs P b found :=
  ⟨h, fun _ => hcall, fun call hsome => by rw [hblock] at hsome; cases hsome⟩

theorem LoggedCall.arguments_append (c : LoggedCall) (delta : JsText) :
    LoggedCall.arguments P { c with deltas := c.deltas ++ [delta] } =
      P.parseStreamingJson (c.deltas.flatten ++ delta) := by
  simp [LoggedCall.arguments]

theorem Logs.extended (h : Logs P b found) (hopen : b.index ≠ none) (delta : JsText) :
    Logs P (b.addDelta delta) (extended P (.inputJson delta) found) := by
  cases hblock : toolCall? found.block with
  | none =>
    exact .of_other h.index (by simp [LoggedBlock.addDelta, h.other hblock])
      (toolCall?_extendedBlock P _ hblock)
  | some call =>
    obtain ⟨c, hc, hread, _⟩ := h.call call hblock
    obtain ⟨hwritten, _⟩ := hread hopen
    have hafter : toolCall? (Providers.extended P (.inputJson delta) found).block =
        some { call with
          arguments := P.parseStreamingJson (c.deltas.flatten ++ delta)
          partialArgs := some (c.deltas.flatten ++ delta) } := by
      simp [Providers.extended, block_of_toolCall? hblock, extendedBlock, toolCall?, hwritten]
    refine ⟨h.index, fun hnone => ?_, fun call' hcall' => ?_⟩
    · rw [hafter] at hnone
      cases hnone
    · rw [hafter] at hcall'
      cases hcall'
      refine ⟨{ c with deltas := c.deltas ++ [delta] }, ?_, fun _ => ⟨?_, ?_⟩,
        fun hclosed => absurd hclosed hopen⟩
      · rw [LoggedBlock.addDelta, hc]
        rfl
      · simp
      · exact (LoggedCall.arguments_append c delta).symm

theorem Logs.extended_other (h : Logs P b found) {delta : ContentBlockDelta}
    (hdelta : ∀ text, delta ≠ .inputJson text) : Logs P b (Providers.extended P delta found) := by
  cases hblock : toolCall? found.block with
  | none => exact .of_other h.index (h.other hblock) (toolCall?_extendedBlock P _ hblock)
  | some call =>
    have hsame : Providers.extended P delta found = found := by
      rw [Providers.extended, block_of_toolCall? hblock, extendedBlock_toolCall P hdelta,
        ← block_of_toolCall? hblock]
    rw [hsame]
    exact h

theorem Logs.stopped (h : Logs P b found) (hopen : b.index ≠ none) :
    Logs P b.stop (stopped P found) := by
  cases hblock : toolCall? found.block with
  | none => exact .of_other rfl (h.other hblock) (toolCall?_stoppedBlock P hblock)
  | some call =>
    obtain ⟨c, hc, hread, _⟩ := h.call call hblock
    obtain ⟨hwritten, _⟩ := hread hopen
    have hafter : toolCall? (Providers.stopped P found).block = some { call with
        arguments := P.parseStreamingJson c.deltas.flatten, partialArgs := none } := by
      simp [Providers.stopped, block_of_toolCall? hblock, stoppedBlock, toolCall?, hwritten]
    refine ⟨rfl, fun hnone => ?_, fun call' hcall' => ?_⟩
    · rw [hafter] at hnone
      cases hnone
    · rw [hafter] at hcall'
      cases hcall'
      exact ⟨c, hc, fun hne => absurd rfl hne, fun _ => ⟨rfl, rfl⟩⟩

theorem logs_append (h : List.Forall₂ (Logs P) blocks content) (hb : Logs P b found) :
    List.Forall₂ (Logs P) (blocks ++ [b]) (content ++ [found]) :=
  rel_append h (.cons hb .nil)

theorem logEvent_logs (h : List.Forall₂ (Logs P) blocks content) (event : AnthropicEvent) :
    List.Forall₂ (Logs P) (logEvent blocks event) (nextContent P N content event) := by
  have hindex : ∀ index b found, Logs P b found →
      decide (b.index = some index) = decide (found.index = some index) := by
    intro index b found hb
    rw [hb.index]
  have hopen : ∀ {index b found}, Logs P b found → decide (found.index = some index) = true →
      b.index ≠ none := by
    intro index b found hb hfound
    rw [hb.index, of_decide_eq_true hfound]
    simp
  cases event with
  | contentBlockStart index contentBlock =>
    cases contentBlock with
    | text => exact logs_append h (.of_other rfl rfl rfl)
    | thinking => exact logs_append h (.of_other rfl rfl rfl)
    | redactedThinking data => exact logs_append h (.of_other rfl rfl rfl)
    | toolUse id name input =>
      refine logs_append h ⟨rfl, nofun, fun call hcall => ?_⟩
      cases hcall
      exact ⟨_, rfl, fun _ => ⟨rfl, rfl⟩, nofun⟩
    | other => simpa [logEvent, nextContent, startedBlock?] using h
  | contentBlockDelta index delta =>
    have hother : (∀ text, delta ≠ .inputJson text) → List.Forall₂ (Logs P) blocks
        (modifyFirst (·.index = some index) (extended P delta) content) := by
      intro hdelta
      rw [← modifyFirst_id (·.index = some index) blocks]
      exact forall₂_modifyFirst h (hindex index) fun _ _ hb _ => hb.extended_other hdelta
    cases delta with
    | inputJson delta =>
      exact forall₂_modifyFirst h (hindex index) fun _ _ hb hfound =>
        hb.extended (hopen hb hfound) delta
    | text text => exact hother (by simp)
    | thinking thinking => exact hother (by simp)
    | signature signature => exact hother (by simp)
    | other => exact hother (by simp)
  | contentBlockStop index =>
    exact forall₂_modifyFirst h (hindex index) fun _ _ hb hfound => hb.stopped (hopen hb hfound)
  | messageStart id usage => exact h
  | messageDelta stopReason usage => exact h
  | other => exact h

theorem isKnown_iff (event : AnthropicEvent) : event.isKnown = true ↔ KnownReason event := by
  cases event with
  | messageDelta stopReason usage =>
    simp [AnthropicEvent.isKnown, KnownReason, Option.all_eq_true, or_iff_not_imp_left]
  | _ => simp [AnthropicEvent.isKnown, KnownReason]

variable {s : AnthropicStreaming}

theorem foldUntil_logs (h : List.Forall₂ (Logs P) blocks s.output.content)
    (events : List AnthropicEvent) :
    List.Forall₂ (Logs P) ((events.takeWhile (·.isKnown)).foldl logEvent blocks)
      (foldUntil (AnthropicStreaming.handleEvent P N) s events).1.output.content := by
  induction events generalizing s blocks with
  | nil => exact h
  | cons event events ih =>
    have hcontent := AnthropicStreaming.handleEvent_content (P := P) (N := N) (s := s) event
    have hthrown := AnthropicStreaming.handleEvent_thrown (P := P) (N := N) s event
    have hlogs : List.Forall₂ (Logs P) (logEvent blocks event)
        (AnthropicStreaming.handleEvent P N s event).1.output.content := by
      rw [hcontent]
      exact logEvent_logs h event
    rw [foldUntil]
    generalize AnthropicStreaming.handleEvent P N s event = step at hlogs hthrown ⊢
    obtain ⟨s', _ | message⟩ := step
    · have hknown : event.isKnown = true := (isKnown_iff event).mpr (hthrown.mp rfl)
      rw [takeWhile_cons_of_pos hknown, foldl_cons]
      exact ih hlogs
    · have hknown : ¬event.isKnown = true := fun hknown => by
        cases hthrown.mpr ((isKnown_iff event).mp hknown)
      rw [takeWhile_cons_of_neg hknown, foldl_nil]
      cases event with
      | messageDelta stopReason usage => exact hlogs
      | _ => exact absurd rfl hknown

theorem LoggedCall.arguments_eq_iff (c : LoggedCall) :
    P.parseStreamingJson c.deltas.flatten = c.arguments P ↔
      (c.deltas = [] → c.input = .object .nil) := by
  by_cases hdeltas : c.deltas = []
  · rw [LoggedCall.arguments, if_pos hdeltas, hdeltas, flatten_nil,
      StreamedCall.parseStreamingJson_nil]
    exact ⟨fun h _ => h.symm, fun h => (h rfl).symm⟩
  · rw [LoggedCall.arguments, if_neg hdeltas]
    exact iff_of_true rfl fun h => absurd h hdeltas

theorem Logs.final_iff (h : Logs P b found) : Final P b { found with index := none } ↔ b.Kept := by
  constructor
  · intro hfinal c hc
    cases hblock : toolCall? found.block with
    | none =>
      rw [h.other hblock] at hc
      cases hc
    | some call =>
      obtain ⟨c', hc', harguments, hwritten⟩ := hfinal.call call hblock
      obtain ⟨c'', hc'', hopen, hclosed⟩ := h.call call hblock
      obtain rfl := some.inj (hc'.symm.trans hc)
      obtain rfl := some.inj (hc''.symm.trans hc)
      have hindex : b.index = none := by
        by_contra hne
        rw [(hopen hne).1] at hwritten
        cases hwritten
      refine ⟨hindex, ?_⟩
      rw [← LoggedCall.arguments_eq_iff (P := P), ← (hclosed hindex).2, harguments]
  · intro hkept
    refine ⟨rfl, h.other, fun call hcall => ?_⟩
    obtain ⟨c, hc, _, hclosed⟩ := h.call call hcall
    obtain ⟨hindex, hinput⟩ := hkept c hc
    obtain ⟨hwritten, harguments⟩ := hclosed hindex
    exact ⟨c, hc, harguments.trans (c.arguments_eq_iff.mpr hinput), hwritten⟩

theorem Logs.final_iff_stopped (h : Logs P b found) :
    Final P b found ↔ b.Kept ∧ b.index = none := by
  constructor
  · intro hfinal
    have hindex : b.index = none := h.index.trans hfinal.index
    have hsame : { found with index := none } = found := by rw [← hfinal.index]
    exact ⟨h.final_iff.mp (hsame ▸ hfinal), hindex⟩
  · rintro ⟨hkept, hindex⟩
    have hsame : { found with index := none } = found := by rw [← hindex, h.index]
    exact hsame ▸ h.final_iff.mpr hkept

theorem keepsArguments_of_logs {f : IndexedBlock → IndexedBlock} {Q : LoggedBlock → Prop}
    (hQ : ∀ b found, Logs P b found → (Final P b (f found) ↔ Q b))
    (h : List.Forall₂ (Logs P) blocks content) :
    KeepsArguments P blocks (content.map f) ↔ ∀ b ∈ blocks, Q b := by
  unfold KeepsArguments
  induction h with
  | nil => simp
  | cons hb _ ih =>
    rw [map_cons, forall₂_cons, hQ _ _ hb, ih, forall_mem_cons]

theorem keepsArguments_fail (h : List.Forall₂ (Logs P) blocks s.output.content) (aborted : Bool)
    (message : JsText) :
    KeepsArguments P blocks (s.fail aborted message).output.content ↔ ∀ b ∈ blocks, b.Kept :=
  keepsArguments_of_logs (fun _ _ hb => hb.final_iff) h

theorem keepsArguments_succeed (h : List.Forall₂ (Logs P) blocks s.output.content) :
    KeepsArguments P blocks s.succeed.output.content ↔
      ∀ b ∈ blocks, b.Kept ∧ b.index = none := by
  have hall := keepsArguments_of_logs (f := id) (fun _ _ hb => hb.final_iff_stopped) h
  rwa [List.map_id] at hall

theorem streamAnthropic_cases (source : AnthropicSource) (aborted : Bool) :
    let s := (foldUntil (AnthropicStreaming.handleEvent P N)
      (AnthropicStreaming.initial.push .start) source.events).1
    (Answered (.ok source) aborted ∧ streamAnthropic P N (.ok source) aborted = s.succeed) ∨
      (¬Answered (.ok source) aborted ∧
        ∃ message, streamAnthropic P N (.ok source) aborted = s.fail aborted message) := by
  have hknown := foldUntil_thrown (AnthropicStreaming.handleEvent_thrown (P := P) (N := N))
    (AnthropicStreaming.initial.push .start) source.events
  have hreason := fun s hrun => (source.follows (P := P) (N := N) (s := s) hrun).2
  unfold streamAnthropic
  dsimp only
  generalize foldUntil (AnthropicStreaming.handleEvent P N) (AnthropicStreaming.initial.push .start)
    source.events = run at hknown hreason
  obtain ⟨s, _ | message⟩ := run
  · have hreason : s.output.stopReason = source.finalStopReason := hreason s rfl
    have hne := source.finalStopReason_ne_aborted
    dsimp only
    cases hthrown : source.thrown with
    | some message =>
      refine .inr ⟨?_, message, rfl⟩
      rintro ⟨_, hsource, _, hsucceeds⟩
      cases hsource
      rw [hsucceeds.2.1] at hthrown
      cases hthrown
    | none =>
      split_ifs with haborted hfailed
      · refine .inr ⟨?_, requestAborted, rfl⟩
        rintro ⟨_, _, hnot, _⟩
        rw [hnot] at haborted
        cases haborted
      · refine .inr ⟨?_, unknownError, rfl⟩
        rintro ⟨_, hsource, _, hsucceeds⟩
        cases hsource
        rw [hreason] at hfailed
        exact hfailed.elim hne hsucceeds.2.2
      · refine .inl ⟨⟨source, rfl, by simpa using haborted, hknown.mp rfl, hthrown, ?_⟩, rfl⟩
        rw [← hreason]
        exact fun herror => hfailed (.inr herror)
  · refine .inr ⟨?_, message, rfl⟩
    rintro ⟨_, hsource, _, hsucceeds⟩
    cases hsource
    cases hknown.mpr hsucceeds.1

/-- The message has the arguments that were streamed, and nothing of the stream, exactly when each
call was stopped after a piece or without an input, and, if all goes well, every block was
stopped. -/
theorem keepsArguments_iff (P : JsonParser) (N : ToolNames)
    (opened : Except JsText AnthropicSource) (aborted : Bool) :
    KeepsArguments P (loggedBlocks opened) (streamAnthropic P N opened aborted).output.content ↔
      (∀ b ∈ loggedBlocks opened, b.Kept) ∧
        (Answered opened aborted → ∀ b ∈ loggedBlocks opened, b.index = none) := by
  cases opened with
  | error message =>
    refine iff_of_true .nil ⟨fun b hb => ?_, fun _ b hb => ?_⟩
    · cases hb
    · cases hb
  | ok source =>
    have hlogs := foldUntil_logs (P := P) (N := N)
      (s := AnthropicStreaming.initial.push .start) .nil source.events
    rcases streamAnthropic_cases (P := P) (N := N) source aborted with
      ⟨hanswered, hstream⟩ | ⟨hnot, message, hstream⟩
    · rw [hstream]
      refine (keepsArguments_succeed hlogs).trans ?_
      rw [forall₂_and]
      exact and_congr_right fun _ => ⟨fun h _ => h, fun h => h hanswered⟩
    · rw [hstream]
      refine (keepsArguments_fail hlogs aborted message).trans ?_
      exact ⟨fun h => ⟨h, fun hanswered => absurd hanswered hnot⟩, fun h => h.1⟩

def someInput : Json := .object (.cons "a" (.number "1") .nil)

def inputAtStart : AnthropicSource where
  events := [.contentBlockStart 0 (.toolUse "t" "f" (some someInput)), .contentBlockStop 0]
  thrown := none

def cutInput : AnthropicSource where
  events := [.contentBlockStart 0 (.toolUse "t" "f" none), .contentBlockDelta 0 (.inputJson [0x7B])]
  thrown := some []

def noParser : JsonParser := ⟨fun _ => none, fun _ => none⟩

def plainNames : ToolNames := ⟨false, [], id⟩

/-- The input is lost, and the text of a call that was cut off stays in the message. -/
theorem inputAtStart_lost :
    (streamAnthropic noParser plainNames (.ok inputAtStart) false).output.content =
        [⟨.toolCall ⟨"t", "f", .object .nil, none, none⟩, false, none⟩] ∧
      (streamAnthropic noParser plainNames (.ok cutInput) false).output.content =
        [⟨.toolCall ⟨"t", "f", .object .nil, none, some [0x7B]⟩, false, none⟩] ∧
      ¬ ∀ (P : JsonParser) (N : ToolNames) (opened : Except JsText AnthropicSource)
        (aborted : Bool), KeepsArguments P (loggedBlocks opened)
          (streamAnthropic P N opened aborted).output.content := by
  have hcontent : (streamAnthropic noParser plainNames (.ok inputAtStart) false).output.content =
      [⟨.toolCall ⟨"t", "f", .object .nil, none, none⟩, false, none⟩] := by decide
  refine ⟨hcontent, by decide, fun hclaim => ?_⟩
  have hkept := hclaim noParser plainNames (.ok inputAtStart) false
  have hblocks : loggedBlocks (.ok inputAtStart) = [⟨none, some ⟨someInput, []⟩⟩] := by decide
  rw [hcontent, hblocks, KeepsArguments, forall₂_cons] at hkept
  obtain ⟨c, hc, harguments, _⟩ := hkept.1.call _ rfl
  cases hc
  simp [LoggedCall.arguments, someInput] at harguments

end Draht.Providers
