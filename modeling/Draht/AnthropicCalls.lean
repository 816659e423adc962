import Draht.AnthropicStream
import Draht.StreamedCalls

/-!
# Calls of an Anthropic message

What the events say of each block: the index that it still has, and for a tool call its input and
its text so far. The message follows the events block by block.
-/

namespace Draht.Providers
open List Option

structure StreamedBlock where
  index : Option ℕ
  call : Option StreamedCall
deriving DecidableEq

/-- What an event says to the first block that has an index. -/
def atIndex (index : ℕ) (f : StreamedBlock → StreamedBlock) (blocks : List StreamedBlock) :
    List StreamedBlock :=
  match blocks.findIdx? (·.index = some index) with
  | none => blocks
  | some i => blocks.modify i f

def StreamedBlock.extend (delta : JsText) (b : StreamedBlock) : StreamedBlock :=
  { b with call := b.call.map fun c => { c with text := c.text ++ delta } }

def readEvent (blocks : List StreamedBlock) : AnthropicEvent → List StreamedBlock
  | .contentBlockStart index .text => blocks ++ [⟨some index, none⟩]
  | .contentBlockStart index .thinking => blocks ++ [⟨some index, none⟩]
  | .contentBlockStart index (.redactedThinking _) => blocks ++ [⟨some index, none⟩]
  | .contentBlockStart index (.toolUse _ _ input) =>
    blocks ++ [⟨some index, some ⟨orEmpty input, []⟩⟩]
  | .contentBlockDelta index (.inputJson delta) => atIndex index (.extend delta) blocks
  | .contentBlockStop index => atIndex index (fun b => { b with index := none }) blocks
  | _ => blocks

def readStopReason (reason : StopReason) : AnthropicEvent → StopReason
  | .messageDelta stopReason _ =>
    match stopReason.filter (· ≠ "") with
    | none => reason
    | some stopReason =>
      match Anthropic.mapStopReason stopReason with
      | .ok reason => reason
      | .error _ => reason
  | _ => reason

/-- An event with a stop reason that is not known ends in an exception. -/
def KnownReason : AnthropicEvent → Prop
  | .messageDelta stopReason _ =>
    ∀ reason ∈ stopReason.filter (· ≠ ""), (Anthropic.mapStopReason reason).toOption.isSome
  | _ => True

namespace AnthropicSource

variable (source : AnthropicSource)

def calls : List StreamedCall := (source.events.foldl readEvent []).filterMap (·.call)

def finalStopReason : StopReason := source.events.foldl readStopReason .stop

/-- Nothing is thrown, and the last stop reason is none of an error. -/
def Succeeds : Prop :=
  (∀ event ∈ source.events, KnownReason event) ∧ source.thrown = none ∧
    source.finalStopReason ≠ .error

end AnthropicSource

def modifyFirst {α : Type*} (p : α → Bool) (f : α → α) (xs : List α) : List α :=
  match xs.findIdx? p with
  | none => xs
  | some i => xs.modify i f

variable {α : Type*} {i : ℕ} {block : Block}

theorem modifyFirst_id (p : α → Bool) (xs : List α) : modifyFirst p id xs = xs := by
  unfold modifyFirst
  cases xs.findIdx? p <;> simp

variable {f : α → α} {β : Type*} {xs : List α} {delta : ContentBlockDelta} {ys : List β}
  {R : α → β → Prop} {p : α → Bool} {q : β → Bool}

theorem findIdx?_of_forall₂ (h : List.Forall₂ R xs ys) (hpq : ∀ x y, R x y → p x = q y) :
    xs.findIdx? p = ys.findIdx? q := by
  induction h with
  | nil => rfl
  | cons hxy hrest ih => simp only [findIdx?_cons, hpq _ _ hxy, ih]

theorem getElem?_of_findIdx? (h : xs.findIdx? p = some i) : ∃ x, xs[i]? = some x ∧ p x = true := by
  obtain ⟨hi, hp, _⟩ := findIdx?_eq_some_iff_getElem.mp h
  exact ⟨xs[i], getElem?_eq_getElem hi, hp⟩

theorem forall₂_modifyFirst {g : β → β} (h : List.Forall₂ R xs ys) (hpq : ∀ x y, R x y → p x = q y)
    (hfg : ∀ x y, R x y → q y = true → R (f x) (g y)) :
    List.Forall₂ R (modifyFirst p f xs) (modifyFirst q g ys) := by
  unfold modifyFirst
  rw [findIdx?_of_forall₂ h hpq]
  cases hfind : ys.findIdx? q with
  | none => exact h
  | some i =>
    obtain ⟨y, hy, hqy⟩ := getElem?_of_findIdx? hfind
    refine forall₂_modify h i fun x y' _ hy' hxy => hfg x y' hxy ?_
    rwa [← some.inj (hy.symm.trans hy')]

theorem modify_congr {x : α} (hx : xs[i]? = some x) {g : α → α} (hfg : f x = g x) :
    xs.modify i f = xs.modify i g := by
  apply ext_getElem?
  intro j
  by_cases hij : i = j
  · subst hij
    simp [hx, hfg]
  · simp [hij]

def startedBlock? (N : ToolNames) (index : ℕ) : ContentBlockStart → Option IndexedBlock
  | .text => some ⟨.text [] none, false, some index⟩
  | .thinking => some ⟨.thinking [] (some ""), false, some index⟩
  | .redactedThinking data =>
    some ⟨.thinking (utf16 "[Reasoning redacted]") (some data), true, some index⟩
  | .toolUse id name input =>
    some ⟨.toolCall ⟨id, N.nameOf name, orEmpty input, none, some []⟩, false, some index⟩
  | .other => none

def extendedBlock (P : JsonParser) (delta : ContentBlockDelta) (block : Block) : Block :=
  match delta, block with
  | .text delta, .text text signature => .text (text ++ delta) signature
  | .thinking delta, .thinking thinking signature => .thinking (thinking ++ delta) signature
  | .inputJson delta, .toolCall call =>
    let partialJson := call.partialArgs.getD [] ++ delta
    .toolCall { call with
      arguments := P.parseStreamingJson partialJson, partialArgs := some partialJson }
  | .signature delta, .thinking thinking signature =>
    .thinking thinking (some (signature.getD "" ++ delta))
  | _, block => block

def stoppedBlock (P : JsonParser) : Block → Block
  | .toolCall call =>
    .toolCall { call with
      arguments := P.parseStreamingJson (call.partialArgs.getD []), partialArgs := none }
  | block => block

def extended (P : JsonParser) (delta : ContentBlockDelta) (found : IndexedBlock) : IndexedBlock :=
  { found with block := extendedBlock P delta found.block }

def stopped (P : JsonParser) (found : IndexedBlock) : IndexedBlock :=
  { found with index := none, block := stoppedBlock P found.block }

/-- An event appends a block, or changes the first one that has its index. -/
def nextContent (P : JsonParser) (N : ToolNames) (content : List IndexedBlock) :
    AnthropicEvent → List IndexedBlock
  | .contentBlockStart index contentBlock =>
    content ++ (startedBlock? N index contentBlock).toList
  | .contentBlockDelta index delta =>
    modifyFirst (·.index = some index) (extended P delta) content
  | .contentBlockStop index => modifyFirst (·.index = some index) (stopped P) content
  | _ => content

theorem toolCall?_extendedBlock (P : JsonParser) (delta : ContentBlockDelta)
    (h : toolCall? block = none) : toolCall? (extendedBlock P delta block) = none := by
  cases block with
  | toolCall call => cases h
  | _ => cases delta <;> rfl

theorem extendedBlock_toolCall (P : JsonParser) (hdelta : ∀ text, delta ≠ .inputJson text)
    (call : ToolCall) : extendedBlock P delta (.toolCall call) = .toolCall call := by
  cases delta with
  | inputJson delta => exact absurd rfl (hdelta delta)
  | _ => rfl

theorem toolCall?_stoppedBlock (P : JsonParser) (h : toolCall? block = none) :
    toolCall? (stoppedBlock P block) = none := by
  cases block with
  | toolCall call => cases h
  | _ => rfl

namespace AnthropicStreaming

variable {P : JsonParser} {N : ToolNames} {s : AnthropicStreaming}

theorem setBlock_content {found : IndexedBlock}
    (hfound : s.output.content[i]? = some found) {f : IndexedBlock → IndexedBlock}
    (hf : f found = { found with block }) :
    (s.setBlock i block).output.content = s.output.content.modify i f :=
  modify_congr hfound hf.symm

theorem extendBlock_content {found : IndexedBlock}
    (hfound : s.output.content[i]? = some found) (delta : ContentBlockDelta) :
    (extendBlock P s i delta found.block).output.content =
      s.output.content.modify i (extended P delta) := by
  have hset : ∀ block, extendedBlock P delta found.block = block →
      (s.setBlock i block).output.content = s.output.content.modify i (extended P delta) := by
    rintro block rfl
    exact setBlock_content hfound rfl
  have hsame : extendedBlock P delta found.block = found.block →
      s.output.content = s.output.content.modify i (extended P delta) := by
    intro hsame
    have hfound' : extended P delta found = id found := by rw [extended, hsame, id_eq]
    rw [modify_congr hfound hfound', modify_id]
  obtain ⟨block, redacted, index⟩ := found
  cases block with
  | text text signature =>
    cases delta with
    | text delta => exact hset _ rfl
    | _ => exact hsame rfl
  | thinking thinking signature =>
    cases delta with
    | thinking delta => exact hset _ rfl
    | signature delta => exact hset _ rfl
    | _ => exact hsame rfl
  | toolCall call =>
    cases delta with
    | inputJson delta => exact hset _ rfl
    | _ => exact hsame rfl

theorem stopBlock_content {found : IndexedBlock}
    (hfound : s.output.content[i]? = some found) :
    (stopBlock P s i found.block).output.content =
      s.output.content.modify i (stopped P) := by
  obtain ⟨block, redacted, index⟩ := found
  cases block with
  | toolCall call =>
    simp only [stopBlock, setBlock, updateBlock, setContent, push, modify_modify_eq]
    exact modify_congr hfound rfl
  | _ => exact modify_congr hfound rfl

theorem handleEvent_content (event : AnthropicEvent) :
    (handleEvent P N s event).1.output.content = nextContent P N s.output.content event := by
  cases event with
  | contentBlockStart index contentBlock =>
    cases contentBlock with
    | other => exact (append_nil _).symm
    | _ => rfl
  | contentBlockDelta index delta =>
    simp only [handleEvent, contentBlockDelta, findBlock, nextContent, modifyFirst]
    cases hfind : s.output.content.findIdx? (·.index = some index) with
    | none => rfl
    | some i =>
      obtain ⟨found, hfound, _⟩ := getElem?_of_findIdx? hfind
      simp only [hfound]
      exact extendBlock_content hfound delta
  | contentBlockStop index =>
    simp only [handleEvent, contentBlockStop, findBlock, nextContent, modifyFirst]
    cases hfind : s.output.content.findIdx? (·.index = some index) with
    | none => rfl
    | some i =>
      obtain ⟨found, hfound, _⟩ := getElem?_of_findIdx? hfind
      simp only [hfound]
      exact stopBlock_content hfound
  | messageDelta stopReason usage =>
    simp only [handleEvent, messageDelta, nextContent]
    split
    · rfl
    · split <;> rfl
  | messageStart id usage => rfl
  | other => rfl

end AnthropicStreaming

structure Follows (P : JsonParser) (b : StreamedBlock) (found : IndexedBlock) : Prop where
  index_eq : b.index = found.index
  other : toolCall? found.block = none → b.call = none
  call : ∀ call, toolCall? found.block = some call → ∃ c, b.call = some c ∧
    c.Reads P call.arguments ∧ (found.index.isSome → call.partialArgs = some c.text)

variable {P : JsonParser} {N : ToolNames} {blocks : List StreamedBlock}
  {content : List IndexedBlock}

namespace Follows

variable {b : StreamedBlock} {found : IndexedBlock}

theorem of_other (h : b.index = found.index) (hcall : b.call = none)
    (hblock : toolCall? found.block = none) : Follows P b found :=
  ⟨h, fun _ => hcall, fun call hsome => by rw [hblock] at hsome; cases hsome⟩

theorem of_call (h : b.index = found.index) {c : StreamedCall} (hcall : b.call = some c)
    {call : ToolCall} (hblock : found.block = .toolCall call) (hreads : c.Reads P call.arguments)
    (htext : found.index.isSome → call.partialArgs = some c.text) : Follows P b found := by
  refine ⟨h, fun hnone => ?_, fun call' hsome => ?_⟩
  · rw [hblock] at hnone
    cases hnone
  · rw [hblock] at hsome
    cases hsome
    exact ⟨c, hcall, hreads, htext⟩

end Follows

theorem follows_append (h : List.Forall₂ (Follows P) blocks content) {b : StreamedBlock}
    {found : IndexedBlock} (hb : Follows P b found) :
    List.Forall₂ (Follows P) (blocks ++ [b]) (content ++ [found]) :=
  rel_append h (.cons hb .nil)

theorem block_of_toolCall? {call : ToolCall} (h : toolCall? block = some call) :
    block = .toolCall call := by
  cases block with
  | text text signature => cases h
  | thinking thinking signature => cases h
  | toolCall call' => rw [some.inj h]

theorem Follows.extended {b : StreamedBlock} {found : IndexedBlock} (h : Follows P b found)
    (hindex : found.index.isSome) (delta : JsText) :
    Follows P (b.extend delta) (extended P (.inputJson delta) found) := by
  cases hblock : toolCall? found.block with
  | none =>
    exact .of_other h.index_eq (by simp [StreamedBlock.extend, h.other hblock])
      (toolCall?_extendedBlock P _ hblock)
  | some call =>
    obtain ⟨c, hc, hreads, htext⟩ := h.call call hblock
    have hwritten := htext hindex
    refine .of_call h.index_eq (by rw [StreamedBlock.extend, hc]; rfl)
      (congrArg (extendedBlock P _) (block_of_toolCall? hblock)) (.inl ?_) fun _ => ?_
    · simp [hwritten]
    · simp [hwritten]

theorem Follows.extended_other {b : StreamedBlock} {found : IndexedBlock} (h : Follows P b found)
    (hdelta : ∀ text, delta ≠ .inputJson text) : Follows P b (Providers.extended P delta found) := by
  cases hblock : toolCall? found.block with
  | none => exact .of_other h.index_eq (h.other hblock) (toolCall?_extendedBlock P _ hblock)
  | some call =>
    have hsame : Providers.extended P delta found = found := by
      rw [Providers.extended, block_of_toolCall? hblock, extendedBlock_toolCall P hdelta,
        ← block_of_toolCall? hblock]
    rw [hsame]
    exact h

theorem Follows.stopped {b : StreamedBlock} {found : IndexedBlock} (h : Follows P b found)
    (hindex : found.index.isSome) : Follows P { b with index := none } (stopped P found) := by
  cases hblock : toolCall? found.block with
  | none => exact .of_other rfl (h.other hblock) (toolCall?_stoppedBlock P hblock)
  | some call =>
    obtain ⟨c, hc, hreads, htext⟩ := h.call call hblock
    refine .of_call rfl hc (congrArg (stoppedBlock P) (block_of_toolCall? hblock)) (.inl ?_) nofun
    simp [htext hindex]

namespace AnthropicStreaming

variable {s : AnthropicStreaming}

theorem handleEvent_follows (h : List.Forall₂ (Follows P) blocks s.output.content)
    (event : AnthropicEvent) :
    List.Forall₂ (Follows P) (readEvent blocks event)
      (handleEvent P N s event).1.output.content := by
  have hindex : ∀ index b found, Follows P b found →
      decide (b.index = some index) = decide (found.index = some index) := by
    intro index b found hb
    rw [hb.index_eq]
  have hopen : ∀ {index} {found : IndexedBlock}, decide (found.index = some index) = true →
      found.index.isSome := by
    intro index found hfound
    rw [of_decide_eq_true hfound]
    rfl
  rw [handleEvent_content]
  cases event with
  | contentBlockStart index contentBlock =>
    cases contentBlock with
    | text => exact follows_append h (.of_other rfl rfl rfl)
    | thinking => exact follows_append h (.of_other rfl rfl rfl)
    | redactedThinking data => exact follows_append h (.of_other rfl rfl rfl)
    | toolUse id name input =>
      exact follows_append h (.of_call rfl rfl rfl (.inr ⟨rfl, rfl⟩) fun _ => rfl)
    | other => simpa [readEvent, nextContent, startedBlock?] using h
  | contentBlockDelta index delta =>
    have hother : (∀ text, delta ≠ .inputJson text) → List.Forall₂ (Follows P) blocks
        (modifyFirst (·.index = some index) (extended P delta) s.output.content) := by
      intro hdelta
      rw [← modifyFirst_id (·.index = some index) blocks]
      exact forall₂_modifyFirst h (hindex index) fun _ _ hb _ => hb.extended_other hdelta
    cases delta with
    | inputJson delta =>
      exact forall₂_modifyFirst h (hindex index) fun _ _ hb hfound =>
        hb.extended (hopen hfound) delta
    | text text => exact hother (by simp)
    | thinking thinking => exact hother (by simp)
    | signature signature => exact hother (by simp)
    | other => exact hother (by simp)
  | contentBlockStop index =>
    exact forall₂_modifyFirst h (hindex index) fun _ _ hb hfound => hb.stopped (hopen hfound)
  | messageStart id usage => exact h
  | messageDelta stopReason usage => exact h
  | other => exact h

theorem contentBlockStart_stopReason (index : ℕ) (contentBlock : ContentBlockStart) :
    (contentBlockStart N s index contentBlock).output.stopReason = s.output.stopReason := by
  cases contentBlock <;> rfl

theorem contentBlockDelta_stopReason (index : ℕ) (delta : ContentBlockDelta) :
    (contentBlockDelta P s index delta).output.stopReason = s.output.stopReason := by
  unfold contentBlockDelta
  split
  · rfl
  · split
    · rfl
    · unfold extendBlock
      split <;> rfl

theorem contentBlockStop_stopReason (index : ℕ) :
    (contentBlockStop P s index).output.stopReason = s.output.stopReason := by
  unfold contentBlockStop
  split
  · rfl
  · split
    · rfl
    · unfold stopBlock
      split <;> rfl

theorem handleEvent_stopReason (event : AnthropicEvent) :
    (handleEvent P N s event).1.output.stopReason = readStopReason s.output.stopReason event := by
  cases event with
  | messageStart id usage => rfl
  | contentBlockStart index contentBlock => exact contentBlockStart_stopReason index contentBlock
  | contentBlockDelta index delta => exact contentBlockDelta_stopReason index delta
  | contentBlockStop index => exact contentBlockStop_stopReason index
  | messageDelta stopReason usage =>
    simp only [handleEvent, messageDelta, readStopReason]
    cases stopReason.filter (· ≠ "") with
    | none => rfl
    | some reason =>
      dsimp only
      cases Anthropic.mapStopReason reason <;> rfl
  | other => rfl

theorem fail_failed (s : AnthropicStreaming) (aborted : Bool) (message : JsText) :
    (s.fail aborted message).output.stopReason.failed = true := by
  cases aborted <;> rfl

theorem handleEvent_thrown (s : AnthropicStreaming) (event : AnthropicEvent) :
    (handleEvent P N s event).2 = none ↔ KnownReason event := by
  cases event with
  | messageDelta stopReason usage =>
    simp only [handleEvent, messageDelta, KnownReason]
    cases stopReason.filter (· ≠ "") with
    | none => simp
    | some reason =>
      cases hreason : Anthropic.mapStopReason reason with
      | error message => simp [hreason, Except.toOption]
      | ok stopReason => simp [hreason, Except.toOption]
  | _ => simp [handleEvent, KnownReason]

end AnthropicStreaming

theorem mapStopReason_ne_aborted {reason : String} {stopReason : StopReason}
    (h : Anthropic.mapStopReason reason = .ok stopReason) : stopReason ≠ .aborted := by
  rintro rfl
  unfold Anthropic.mapStopReason at h
  split_ifs at h <;> simp at h

theorem readStopReason_ne_aborted {reason : StopReason} (h : reason ≠ .aborted)
    (event : AnthropicEvent) : readStopReason reason event ≠ .aborted := by
  unfold readStopReason
  split
  · split
    · exact h
    · split
      · next hreason => exact mapStopReason_ne_aborted hreason
      · exact h
  · exact h

theorem AnthropicSource.finalStopReason_ne_aborted (source : AnthropicSource) :
    source.finalStopReason ≠ .aborted :=
  List.foldlRecOn (motive := fun reason => reason ≠ StopReason.aborted) source.events
    readStopReason (by decide) fun _ h event _ => readStopReason_ne_aborted h event

theorem callsRead_of_follows (h : List.Forall₂ (Follows P) blocks content) :
    CallsRead P (blocks.filterMap (·.call)) (content.map (·.block)) := by
  unfold CallsRead toolCallsOf
  induction h with
  | nil => exact .nil
  | @cons b found blocks content hb hrest ih =>
    rw [map_cons]
    cases hblock : toolCall? found.block with
    | none => rwa [filterMap_cons_none (hb.other hblock), filterMap_cons_none hblock]
    | some call =>
      obtain ⟨c, hc, hreads, _⟩ := hb.call call hblock
      rw [filterMap_cons_some hc, filterMap_cons_some hblock]
      exact .cons hreads ih

theorem AnthropicSource.follows (source : AnthropicSource) {s : AnthropicStreaming}
    (h : foldUntil (AnthropicStreaming.handleEvent P N) (AnthropicStreaming.initial.push .start)
      source.events = (s, none)) :
    List.Forall₂ (Follows P) (source.events.foldl readEvent []) s.output.content ∧
      s.output.stopReason = source.finalStopReason := by
  have hnone := congrArg Prod.snd h
  have hblocks := foldUntil_simulates
    (R := fun s blocks => List.Forall₂ (Follows P) blocks s.output.content)
    (fun s blocks event hs _ => AnthropicStreaming.handleEvent_follows (N := N) hs event)
    (s := AnthropicStreaming.initial.push .start) .nil source.events hnone
  have hreason := foldUntil_simulates (R := fun s reason => s.output.stopReason = reason)
    (fun s reason event hs _ => by
      rw [AnthropicStreaming.handleEvent_stopReason (P := P) (N := N) event, hs])
    (s := AnthropicStreaming.initial.push .start) rfl source.events hnone
  rw [h] at hblocks hreason
  exact ⟨hblocks, hreason⟩

theorem streamAnthropic_succeeds {source : AnthropicSource} (h : source.Succeeds) :
    (streamAnthropic P N (.ok source) false).output.stopReason = source.finalStopReason ∧
      CallsRead P source.calls
        ((streamAnthropic P N (.ok source) false).output.content.map (·.block)) := by
  obtain ⟨hknown, hthrown, hfinal⟩ := h
  have hnone := (foldUntil_thrown (AnthropicStreaming.handleEvent_thrown (P := P) (N := N))
    (AnthropicStreaming.initial.push .start) source.events).mpr hknown
  cases hrun : foldUntil (AnthropicStreaming.handleEvent P N)
      (AnthropicStreaming.initial.push .start) source.events with
  | mk s thrown =>
    rw [hrun] at hnone
    obtain rfl : thrown = none := hnone
    obtain ⟨hfollows, hreason⟩ := source.follows hrun
    have hgood : ¬ (s.output.stopReason = .aborted ∨ s.output.stopReason = .error) := by
      rw [hreason]
      exact not_or.mpr ⟨source.finalStopReason_ne_aborted, hfinal⟩
    have hstream : streamAnthropic P N (.ok source) false = s.succeed := by
      simp [streamAnthropic, hrun, hthrown, if_neg hgood]
    rw [hstream]
    exact ⟨hreason, callsRead_of_follows hfollows⟩

theorem streamAnthropic_fails {opened : Except JsText AnthropicSource} {aborted : Bool}
    (h : ∀ source, opened = .ok source → aborted = false → ¬ source.Succeeds) :
    (streamAnthropic P N opened aborted).output.stopReason.failed = true := by
  cases opened with
  | error message => exact AnthropicStreaming.fail_failed _ aborted message
  | ok source =>
    unfold streamAnthropic
    dsimp only
    split
    · exact AnthropicStreaming.fail_failed _ aborted _
    · next s hrun =>
        split
        · exact AnthropicStreaming.fail_failed _ aborted _
        · next hthrown =>
            split_ifs with haborted hreason
            · exact AnthropicStreaming.fail_failed _ _ _
            · exact AnthropicStreaming.fail_failed _ _ _
            · have hknown := (foldUntil_thrown
                (AnthropicStreaming.handleEvent_thrown (P := P) (N := N))
                (AnthropicStreaming.initial.push .start) source.events).mp (by rw [hrun])
              refine absurd ⟨hknown, hthrown, fun hfinal => hreason (.inr ?_)⟩
                (h source rfl (by simpa using haborted))
              rw [(source.follows hrun).2, hfinal]

end Draht.Providers
