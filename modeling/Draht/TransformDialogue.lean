import Mathlib.Logic.Equiv.Basic
import Draht.ToolDialogue
import Draht.TransformMessages

/-!
# Prepared messages are a tool dialogue

Whatever the target model, the prepared list answers every call once before the next user or
assistant message, has no other results and no failed message, and without the results made up
it is the given list less the failed messages.
-/

namespace Draht
open List

namespace TransformMessages

def callIds : Message → List String
  | .assistant m => m.toolCalls.map ToolCall.id
  | _ => []

def event : Message → DialogueEvent String
  | .user _ => .prompt
  | .assistant m => .calls (if m.failed then [] else m.toolCalls.map ToolCall.id)
  | .toolResult m => .result m.toolCallId

def isToolResult : Message → Bool
  | .toolResult _ => true
  | _ => false

def isFailed : Message → Bool
  | .assistant m => m.failed
  | _ => false

theorem event_user (u : UserMessage) : event (.user u) = .prompt := rfl

theorem event_toolResult (r : ToolResultMessage) : event (.toolResult r) = .result r.toolCallId :=
  rfl

theorem event_assistant (a : AssistantMessage) :
    event (.assistant a) = .calls (if a.failed then [] else a.toolCalls.map ToolCall.id) := rfl

theorem isResult_event (m : Message) : (event m).isResult = isToolResult m := by
  cases m <;> rfl

variable {m : Message} {pending : List ToolCall}

theorem event_eq_result_iff {id : String} :
    event m = .result id ↔ ∃ r, m = .toolResult r ∧ r.toolCallId = id := by
  cases m with
  | user u => simp [event]
  | assistant a => simp [event]
  | toolResult r => simp [event]

def EndsWithUser (ms : List Message) : Prop := ∃ before u, ms = before ++ [.user u]

variable {ms out : List Message}

theorem EndsWithUser.of_cons (h : EndsWithUser (m :: ms)) :
    (ms = [] ∧ ∃ u, m = .user u) ∨ EndsWithUser ms := by
  obtain ⟨before, u, hms⟩ := h
  cases before with
  | nil =>
    cases hms
    exact .inl ⟨rfl, u, rfl⟩
  | cons x before =>
    cases hms
    exact .inr ⟨before, u, rfl⟩

def openCalls (pendingToolCalls : List ToolCall) (existingToolResultIds : List String) :
    List String :=
  (pendingToolCalls.map ToolCall.id).filter (fun id => id ∉ existingToolResultIds)

theorem openCalls_cons (pending : List ToolCall) (existing : List String) (id : String) :
    openCalls pending (id :: existing) = (openCalls pending existing).filter (· ≠ id) := by
  rw [openCalls, openCalls, filter_filter]
  apply filter_congr
  intro x _
  simp [not_or]

theorem openCalls_nil (pending : List ToolCall) :
    openCalls pending [] = pending.map ToolCall.id := by
  simp [openCalls]

theorem events_syntheticResults (now : ToolCall → ℕ) (pending : List ToolCall)
    (existing : List String) :
    (syntheticResults now pending existing).map event =
      (openCalls pending existing).map .result := by
  rw [syntheticResults, openCalls, filter_map, map_map, map_map]
  rfl

theorem complete_syntheticResults (now : ToolCall → ℕ) (existing : List String)
    (hpending : (pending.map ToolCall.id).Nodup) (h : Dialogue.Complete event [] ms) :
    Dialogue.Complete event (openCalls pending existing)
      (syntheticResults now pending existing ++ ms) :=
  Dialogue.complete_results h (events_syntheticResults now pending existing)
    (hpending.filter _)

theorem complete_secondPass (now : ℕ → ToolCall → ℕ) {existing : List String}
    (hexpected : Dialogue.Expected event (openCalls pending existing) ms)
    (hends : openCalls pending existing = [] ∧ ms = [] ∨ EndsWithUser ms)
    (hpending : (pending.map ToolCall.id).Nodup) (hdistinct : ∀ m ∈ ms, (callIds m).Nodup) :
    Dialogue.Complete event (openCalls pending existing) (secondPass now pending existing ms) := by
  induction ms generalizing pending existing with
  | nil =>
    obtain ⟨hopen, _⟩ | ⟨before, u, hms⟩ := hends
    · exact hopen
    · simp at hms
  | cons m ms ih =>
    have hrest := fun x hx => hdistinct x (mem_cons_of_mem m hx)
    have hsplit : (ms = [] ∧ ∃ u, m = .user u) ∨ EndsWithUser ms := by
      obtain ⟨_, hms⟩ | hends := hends
      · simp at hms
      · exact hends.of_cons
    cases m with
    | user u =>
      have hnext : Dialogue.Complete event (openCalls [] (existingAfterFlush pending existing))
          (secondPass now [] (existingAfterFlush pending existing) ms) := by
        refine ih ?_ ?_ (by simp) hrest
        · exact (Dialogue.expected_prompt (event_user u)).mp hexpected
        · exact hsplit.imp (fun h => ⟨rfl, h.1⟩) id
      exact complete_syntheticResults _ existing hpending
        ((Dialogue.complete_prompt (event_user u)).mpr ⟨rfl, hnext⟩)
    | toolResult r =>
      obtain ⟨hid, hafter⟩ := (Dialogue.expected_result (event_toolResult r)).mp hexpected
      rw [← openCalls_cons] at hafter
      have hends' : EndsWithUser ms := hsplit.resolve_left (by simp)
      have hnext := ih hafter (.inr hends') hpending hrest
      rw [openCalls_cons] at hnext
      exact (Dialogue.complete_result (event_toolResult r)).mpr ⟨hid, hnext⟩
    | assistant a =>
      have hends' : EndsWithUser ms := hsplit.resolve_left (by simp)
      have hafter := (Dialogue.expected_calls (event_assistant a)).mp hexpected
      have hnone : ∀ ex, Dialogue.Expected event (openCalls [] ex) ms →
          Dialogue.Complete event (openCalls [] ex) (secondPass now [] ex ms) :=
        fun ex he => ih he (.inr hends') (by simp) hrest
      refine complete_syntheticResults _ existing hpending ?_
      by_cases hfailed : a.failed = true
      · rw [if_pos hfailed] at hafter
        simp only [if_pos hfailed]
        exact hnone _ hafter
      · rw [if_neg hfailed] at hafter
        simp only [if_neg hfailed]
        have hevent : event (.assistant a) = .calls (a.toolCalls.map ToolCall.id) := by
          rw [event, if_neg hfailed]
        by_cases hcalls : 0 < a.toolCalls.length
        · rw [if_pos hcalls]
          refine (Dialogue.complete_calls hevent).mpr ⟨rfl, ?_⟩
          rw [← openCalls_nil] at hafter ⊢
          exact ih hafter (.inr hends') (hdistinct _ mem_cons_self) hrest
        · have hnil : a.toolCalls = [] := length_eq_zero_iff.mp (by omega)
          rw [if_neg hcalls]
          rw [hnil] at hafter hevent
          exact (Dialogue.complete_calls hevent).mpr ⟨rfl, hnone _ hafter⟩

inductive WithSynthetic : List Message → List Message → Prop
  | nil : WithSynthetic [] []
  | keep (m : Message) {ms out : List Message} (h : WithSynthetic ms out) :
      WithSynthetic (m :: ms) (m :: out)
  | synthetic (tc : ToolCall) (timestamp : ℕ) {ms out : List Message} (h : WithSynthetic ms out) :
      WithSynthetic ms (.toolResult (syntheticResult tc timestamp) :: out)

theorem WithSynthetic.syntheticResults_append (h : WithSynthetic ms out)
    (now : ToolCall → ℕ) (pending : List ToolCall) (existing : List String) :
    WithSynthetic ms (syntheticResults now pending existing ++ out) := by
  rw [syntheticResults]
  induction pending.filter (fun tc => tc.id ∉ existing) with
  | nil => exact h
  | cons tc pending ih => exact .synthetic tc (now tc) ih

theorem withSynthetic_secondPass (now : ℕ → ToolCall → ℕ) (ms : List Message)
    (pending : List ToolCall) (existing : List String) :
    WithSynthetic (ms.filter (fun m => !isFailed m)) (secondPass now pending existing ms) := by
  induction ms generalizing pending existing with
  | nil => exact .nil
  | cons m ms ih =>
    cases m with
    | user u => exact (WithSynthetic.keep _ (ih _ _)).syntheticResults_append _ _ _
    | toolResult r => exact .keep _ (ih _ _)
    | assistant a =>
      refine WithSynthetic.syntheticResults_append ?_ _ _ _
      by_cases hfailed : a.failed = true
      · rw [filter_cons_of_neg (by simp [isFailed, hfailed])]
        simp only [if_pos hfailed]
        exact ih _ _
      · rw [filter_cons_of_pos (by simp [isFailed, hfailed])]
        simp only [if_neg hfailed]
        split
        · exact .keep _ (ih _ _)
        · exact .keep _ (ih _ _)

theorem WithSynthetic.not_failed (h : WithSynthetic ms out)
    (hms : ∀ m ∈ ms, isFailed m = false) : ∀ m ∈ out, isFailed m = false := by
  induction h with
  | nil => simp
  | keep m _ ih =>
    intro x hx
    obtain rfl | hx := mem_cons.mp hx
    · exact hms _ mem_cons_self
    · exact ih (fun y hy => hms y (mem_cons_of_mem _ hy)) x hx
  | synthetic tc timestamp _ ih =>
    intro x hx
    obtain rfl | hx := mem_cons.mp hx
    · rfl
    · exact ih hms x hx

theorem WithSynthetic.assistant_mem_iff (h : WithSynthetic ms out)
    {a : AssistantMessage} : .assistant a ∈ out ↔ .assistant a ∈ ms := by
  induction h with
  | nil => simp
  | keep m _ ih => rw [mem_cons, mem_cons, ih]
  | synthetic tc timestamp _ ih => simp [ih]

theorem WithSynthetic.flatMap_eq (h : WithSynthetic ms out) {β : Type*}
    {f : Message → List β} (hf : ∀ r, f (.toolResult r) = []) : out.flatMap f = ms.flatMap f := by
  induction h with
  | nil => rfl
  | keep m _ ih => rw [flatMap_cons, flatMap_cons, ih]
  | synthetic tc timestamp _ ih => rw [flatMap_cons, hf, nil_append, ih]

section

variable (model : Model) (normalizeToolCallId : Option NormalizeToolCallId)

def outputId (normalize : Option (String → String)) (id : String) : String :=
  match normalize with
  | none => id
  | some normalize => normalize id

def mappedId (toolCallIdMap : OrderedMap String String) (id : String) : String :=
  match toolCallIdMap.get id with
  | some normalizedId => if normalizedId ≠ "" && normalizedId ≠ id then normalizedId else id
  | none => id

def rewriteToolCall (isSameModel : Bool) (normalize : Option (String → String)) (tc : ToolCall) :
    ToolCall :=
  { dropThoughtSignature isSameModel tc with id := outputId normalize tc.id }

def rewriteBlock (isSameModel : Bool) (normalize : Option (String → String)) :
    AssistantContent → List AssistantContent
  | .thinking block => transformThinking isSameModel block
  | .text block => [transformText isSameModel block]
  | .toolCall tc => [.toolCall (rewriteToolCall isSameModel normalize tc)]

def rewriteAssistant (m : AssistantMessage) : AssistantMessage :=
  { m with
    content := m.content.flatMap (rewriteBlock (isSameModel model m)
      (normalizeFor model normalizeToolCallId m)) }

variable {model normalizeToolCallId}

theorem dropThoughtSignature_id (isSameModel : Bool) (tc : ToolCall) :
    (dropThoughtSignature isSameModel tc).id = tc.id := by
  rw [dropThoughtSignature]
  split_ifs <;> rfl

theorem transformToolCall_fst (isSameModel : Bool) (normalize : Option (String → String))
    (idMap : OrderedMap String String) (tc : ToolCall) :
    (transformToolCall isSameModel normalize idMap tc).1 =
      rewriteToolCall isSameModel normalize tc := by
  have hsame : rewriteToolCall isSameModel none tc = dropThoughtSignature isSameModel tc := by
    rw [rewriteToolCall, outputId, ← dropThoughtSignature_id isSameModel tc]
  cases normalize with
  | none => exact hsame.symm
  | some normalize =>
    rw [transformToolCall]
    by_cases hid : normalize tc.id = tc.id
    · simp only [ne_eq, hid, not_true_eq_false, if_false]
      rw [← hsame, rewriteToolCall, rewriteToolCall, outputId, outputId, hid]
    · simp only [ne_eq, hid, not_false_eq_true, if_true]
      rfl

theorem transformToolCall_get (isSameModel : Bool) (normalize : Option (String → String))
    (idMap : OrderedMap String String) (tc : ToolCall) (id : String) :
    (transformToolCall isSameModel normalize idMap tc).2.get id =
      if tc.id = id ∧ outputId normalize id ≠ id then some (outputId normalize id)
      else idMap.get id := by
  cases normalize with
  | none => simp [transformToolCall, outputId]
  | some normalize =>
    rw [transformToolCall]
    by_cases hid : normalize tc.id = tc.id
    · simp only [ne_eq, hid, not_true_eq_false, if_false]
      rw [if_neg]
      rintro ⟨rfl, hne⟩
      exact hne hid
    · simp only [ne_eq, hid, not_false_eq_true, if_true, OrderedMap.get_set]
      by_cases heq : tc.id = id
      · subst heq
        rw [if_pos rfl, if_pos ⟨rfl, hid⟩]
        rfl
      · rw [if_neg heq, if_neg (fun h => heq h.1)]

theorem transformContent_fst (isSameModel : Bool) (normalize : Option (String → String))
    (idMap : OrderedMap String String) (content : List AssistantContent) :
    (transformContent isSameModel normalize idMap content).1 =
      content.flatMap (rewriteBlock isSameModel normalize) := by
  induction content generalizing idMap with
  | nil => rfl
  | cons block content ih =>
    cases block with
    | text block => simp only [transformContent, flatMap_cons, ih]; rfl
    | thinking block => simp only [transformContent, flatMap_cons, ih]; rfl
    | toolCall tc =>
      simp only [transformContent, flatMap_cons, ih, transformToolCall_fst]
      rfl

theorem transformContent_get (isSameModel : Bool) (normalize : Option (String → String))
    (idMap : OrderedMap String String) (content : List AssistantContent) (id : String) :
    (transformContent isSameModel normalize idMap content).2.get id =
      if id ∈ (content.filterMap AssistantContent.toolCall?).map ToolCall.id ∧
          outputId normalize id ≠ id then
        some (outputId normalize id)
      else idMap.get id := by
  induction content generalizing idMap with
  | nil => simp [transformContent]
  | cons block content ih =>
    cases block with
    | text block => exact ih idMap
    | thinking block => exact ih idMap
    | toolCall tc =>
      have hcalls : (AssistantContent.toolCall tc :: content).filterMap
          AssistantContent.toolCall? = tc :: content.filterMap AssistantContent.toolCall? := rfl
      simp only [transformContent, ih, transformToolCall_get, hcalls, map_cons, mem_cons]
      by_cases hne : outputId normalize id = id
      · simp [hne]
      · by_cases htc : tc.id = id
        · simp [hne, htc]
        · have htc' : id ≠ tc.id := fun he => htc he.symm
          by_cases hmem : id ∈ (content.filterMap AssistantContent.toolCall?).map ToolCall.id
          · rw [if_pos ⟨hmem, hne⟩, if_pos ⟨.inr hmem, hne⟩]
          · rw [if_neg (fun h => hmem h.1), if_neg (fun h => htc h.1),
              if_neg (fun h => h.1.elim htc' hmem)]

theorem toolCalls_rewriteAssistant (m : AssistantMessage) :
    (rewriteAssistant model normalizeToolCallId m).toolCalls = m.toolCalls.map
      (rewriteToolCall (isSameModel model m) (normalizeFor model normalizeToolCallId m)) := by
  rw [AssistantMessage.toolCalls, AssistantMessage.toolCalls, rewriteAssistant]
  induction m.content with
  | nil => rfl
  | cons block content ih =>
    rw [flatMap_cons, filterMap_append, ih]
    cases block with
    | text block =>
      rw [rewriteBlock, transformText]
      split_ifs <;> rfl
    | thinking block =>
      have hnone : (transformThinking (isSameModel model m) block).filterMap
          AssistantContent.toolCall? = [] := by
        rw [transformThinking]
        split_ifs <;> rfl
      rw [rewriteBlock, hnone]
      rfl
    | toolCall tc => rfl

theorem ids_rewriteAssistant (m : AssistantMessage) :
    (rewriteAssistant model normalizeToolCallId m).toolCalls.map ToolCall.id =
      (m.toolCalls.map ToolCall.id).map (outputId (normalizeFor model normalizeToolCallId m)) := by
  rw [toolCalls_rewriteAssistant, map_map, map_map]
  rfl

theorem transformAssistant_fst (idMap : OrderedMap String String) (m : AssistantMessage) :
    (transformAssistant model normalizeToolCallId idMap m).1 =
      rewriteAssistant model normalizeToolCallId m := by
  rw [transformAssistant, rewriteAssistant, ← transformContent_fst]

theorem firstPass_assistant (idMap : OrderedMap String String) (m : AssistantMessage)
    (rest : List Message) :
    firstPass model normalizeToolCallId idMap (.assistant m :: rest) =
      .assistant (rewriteAssistant model normalizeToolCallId m) :: firstPass model
        normalizeToolCallId (transformAssistant model normalizeToolCallId idMap m).2 rest := by
  rw [← transformAssistant_fst idMap]
  rfl

variable {a : AssistantMessage}

theorem assistant_mem_firstPass (idMap : OrderedMap String String) {messages : List Message} :
    .assistant a ∈ firstPass model normalizeToolCallId idMap messages ↔
      ∃ m, .assistant m ∈ messages ∧ a = rewriteAssistant model normalizeToolCallId m := by
  induction messages generalizing idMap with
  | nil => simp [firstPass]
  | cons x messages ih =>
    cases x with
    | user u => simp [firstPass, ih]
    | toolResult r => simp [firstPass, ih]
    | assistant m =>
      rw [firstPass_assistant, mem_cons, ih]
      constructor
      · rintro (h | ⟨m', hm', rfl⟩)
        · exact ⟨m, mem_cons_self, Message.assistant.inj h⟩
        · exact ⟨m', mem_cons_of_mem _ hm', rfl⟩
      · rintro ⟨m', hm', rfl⟩
        obtain h | h := mem_cons.mp hm'
        · exact .inl (by rw [Message.assistant.inj h])
        · exact .inr ⟨m', h, rfl⟩

theorem assistant_mem_transformMessages (now : ℕ → ToolCall → ℕ) {messages : List Message} :
    .assistant a ∈ transformMessages now messages model normalizeToolCallId ↔
      ∃ m, .assistant m ∈ messages ∧ m.failed = false ∧
        a = rewriteAssistant model normalizeToolCallId m := by
  rw [transformMessages, (withSynthetic_secondPass now _ [] []).assistant_mem_iff, mem_filter,
    assistant_mem_firstPass]
  constructor
  · rintro ⟨⟨m, hm, rfl⟩, hfailed⟩
    exact ⟨m, hm, (Bool.not_eq_true' _).mp hfailed, rfl⟩
  · rintro ⟨m, hm, hfailed, rfl⟩
    exact ⟨⟨m, hm, rfl⟩, (Bool.not_eq_true' _).mpr hfailed⟩

theorem transformToolResult_eq (idMap : OrderedMap String String) (r : ToolResultMessage) :
    transformToolResult idMap r = { r with toolCallId := mappedId idMap r.toolCallId } := by
  rw [transformToolResult, mappedId]
  cases idMap.get r.toolCallId with
  | none => rfl
  | some normalizedId =>
    simp only
    split_ifs <;> rfl

end

/-- A message and what becomes of it. The result of a call is given the call's new identifier. -/
inductive Rewritten (messages : List Message) (model : Model)
    (normalizeToolCallId : Option NormalizeToolCallId) : Message → Message → Prop
  | user (u : UserMessage) : Rewritten messages model normalizeToolCallId (.user u) (.user u)
  | assistant (m : AssistantMessage) : Rewritten messages model normalizeToolCallId (.assistant m)
      (.assistant (rewriteAssistant model normalizeToolCallId m))
  | toolResult (r : ToolResultMessage) {m : AssistantMessage} {tc : ToolCall}
      (hm : .assistant m ∈ messages) (htc : tc ∈ m.toolCalls) (hid : tc.id = r.toolCallId) :
      Rewritten messages model normalizeToolCallId (.toolResult r) (.toolResult { r with
        toolCallId := outputId (normalizeFor model normalizeToolCallId m) r.toolCallId })

/-- The result belongs to a call of the nearest message, which has not failed. -/
def BelongsToCall (before : List Message) (r : ToolResultMessage) : Prop :=
  ∃ earlier m results, before = earlier ++ .assistant m :: results ∧ m.failed = false ∧
    (∃ tc ∈ m.toolCalls, tc.id = r.toolCallId) ∧ ∀ x ∈ results, isToolResult x

/-- A history as it is given: results may be missing, but none is out of place. -/
structure ToolHistory (messages : List Message) : Prop where
  endsWithUser : EndsWithUser messages
  distinctCalls : (messages.flatMap callIds).Nodup
  oneResult : (messages.filterMap (Dialogue.resultId? event)).Nodup
  belongs : ∀ before r after, messages = before ++ .toolResult r :: after → BelongsToCall before r

/-- A history as the provider accepts it. -/
structure ToolDialogue (messages : List Message) : Prop where
  answered : ∀ before m after, messages = before ++ .assistant m :: after → ∀ tc ∈ m.toolCalls,
    (after.takeWhile isToolResult).countP (fun x => event x = .result tc.id) = 1
  belongs : ∀ before r after, messages = before ++ .toolResult r :: after → BelongsToCall before r
  noFailed : ∀ m, .assistant m ∈ messages → m.failed = false

theorem calledFor_iff {before : List Message} {r : ToolResultMessage} :
    Dialogue.CalledFor event before r.toolCallId ↔ BelongsToCall before r := by
  constructor
  · rintro ⟨earlier, m, results, ids, rfl, hm, hid, hresults⟩
    cases m with
    | user u => simp [event] at hm
    | toolResult r => simp [event] at hm
    | assistant a =>
      cases hm
      by_cases hfailed : a.failed = true
      · simp [hfailed] at hid
      · rw [if_neg hfailed] at hid
        refine ⟨earlier, a, results, rfl, by simpa using hfailed, mem_map.mp hid, ?_⟩
        simpa only [isResult_event] using hresults
  · rintro ⟨earlier, m, results, rfl, hfailed, htc, hresults⟩
    refine ⟨earlier, _, results, _, rfl, event_assistant m, ?_, ?_⟩
    · rw [hfailed, if_neg (by simp)]
      exact mem_map.mpr htc
    · simpa only [isResult_event] using hresults

theorem resultsCalledFor_of_belongs {messages : List Message}
    (h : ∀ before r after, messages = before ++ .toolResult r :: after → BelongsToCall before r) :
    Dialogue.ResultsCalledFor event messages := by
  intro before m after id hms hm
  obtain ⟨r, rfl, rfl⟩ := event_eq_result_iff.mp hm
  exact calledFor_iff.mpr (h before r after hms)

theorem toolDialogue_of_complete {messages : List Message}
    (h : Dialogue.Complete event [] messages)
    (hfailed : ∀ m ∈ messages, isFailed m = false) : ToolDialogue messages := by
  refine ⟨?_, ?_, fun m hm => hfailed _ hm⟩
  · rintro before m after rfl tc htc
    have hm : m.failed = false := hfailed (.assistant m) (by simp)
    have hcount := h.callsAnswered before _ after _ rfl (event_assistant m) tc.id
      (by simpa [hm] using ⟨tc, htc, rfl⟩)
    simpa only [isResult_event] using hcount
  · rintro before r after rfl
    exact calledFor_iff.mp (h.resultsCalledFor before _ after _ rfl (event_toolResult r))

section

variable {model : Model} {normalizeToolCallId : Option NormalizeToolCallId}

theorem mappedId_transformAssistant {idMap : OrderedMap String String} {m : AssistantMessage}
    (hempty : ∀ id, outputId (normalizeFor model normalizeToolCallId m) id = "" → id = "")
    {id : String} (hid : id ∈ m.toolCalls.map ToolCall.id) (hfresh : idMap.get id = none) :
    mappedId (transformAssistant model normalizeToolCallId idMap m).2 id =
      outputId (normalizeFor model normalizeToolCallId m) id := by
  have hget := transformContent_get (isSameModel model m)
    (normalizeFor model normalizeToolCallId m) idMap m.content id
  change (match (transformContent (isSameModel model m)
    (normalizeFor model normalizeToolCallId m) idMap m.content).2.get id with
      | some normalizedId => if normalizedId ≠ "" && normalizedId ≠ id then normalizedId else id
      | none => id) = _
  rw [hget]
  by_cases hsame : outputId (normalizeFor model normalizeToolCallId m) id = id
  · rw [if_neg (fun h => h.2 hsame), hfresh]
    exact hsame.symm
  · have hne : outputId (normalizeFor model normalizeToolCallId m) id ≠ "" := by
      intro he
      exact hsame (he.trans (hempty id he).symm)
    rw [if_pos ⟨hid, hsame⟩]
    simp [hne, hsame]

/-- The open calls are those of one message, and the map has their new identifiers. -/
def Tracked (model : Model) (normalizeToolCallId : Option NormalizeToolCallId)
    (messages : List Message) (idMap : OrderedMap String String) (opened : List String) : Prop :=
  opened = [] ∨ ∃ m, .assistant m ∈ messages ∧ ∀ id ∈ opened,
    id ∈ m.toolCalls.map ToolCall.id ∧
      mappedId idMap id = outputId (normalizeFor model normalizeToolCallId m) id

variable {messages : List Message} {idMap : OrderedMap String String} {opened : List String}

theorem Tracked.filter (h : Tracked model normalizeToolCallId messages idMap opened)
    (p : String → Bool) : Tracked model normalizeToolCallId messages idMap (opened.filter p) := by
  obtain rfl | ⟨m, hm, hids⟩ := h
  · exact .inl rfl
  · exact .inr ⟨m, hm, fun id hid => hids id (mem_filter.mp hid).1⟩

theorem Tracked.map_filter (h : Tracked model normalizeToolCallId messages idMap opened)
    (hinj : ∀ m, Function.Injective (outputId (normalizeFor model normalizeToolCallId m)))
    {id : String} (hid : id ∈ opened) :
    (opened.filter (· ≠ id)).map (mappedId idMap) =
      (opened.map (mappedId idMap)).filter (· ≠ mappedId idMap id) := by
  obtain rfl | ⟨m, _, hids⟩ := h
  · simp at hid
  · rw [filter_map]
    congr 1
    apply filter_congr
    intro x hx
    have hiff : mappedId idMap x = mappedId idMap id ↔ x = id := by
      rw [(hids x hx).2, (hids id hid).2]
      exact (hinj m).eq_iff
    simp [hiff]

theorem expected_firstPass
    (hinj : ∀ m, Function.Injective (outputId (normalizeFor model normalizeToolCallId m)))
    (hempty : ∀ m id, outputId (normalizeFor model normalizeToolCallId m) id = "" → id = "")
    (hms : ∀ m ∈ ms, m ∈ messages)
    (hexpected : Dialogue.Expected event opened ms)
    (htracked : Tracked model normalizeToolCallId messages idMap opened)
    (hdistinct : (ms.flatMap callIds).Nodup)
    (hfresh : ∀ id ∈ ms.flatMap callIds, idMap.get id = none) :
    Dialogue.Expected event (opened.map (mappedId idMap))
        (firstPass model normalizeToolCallId idMap ms) ∧
      List.Forall₂ (Rewritten messages model normalizeToolCallId) ms
        (firstPass model normalizeToolCallId idMap ms) := by
  induction ms generalizing idMap opened with
  | nil => exact ⟨trivial, .nil⟩
  | cons m ms ih =>
    have hrest := fun x hx => hms x (mem_cons_of_mem m hx)
    have hdistinct' := (nodup_append.mp hdistinct).2.1
    cases m with
    | user u =>
      obtain ⟨hexp, hall⟩ := ih hrest ((Dialogue.expected_prompt (event_user u)).mp hexpected)
        (.inl rfl) hdistinct' hfresh
      exact ⟨(Dialogue.expected_prompt (event_user u)).mpr hexp, .cons (.user u) hall⟩
    | toolResult r =>
      obtain ⟨hid, hafter⟩ := (Dialogue.expected_result (event_toolResult r)).mp hexpected
      obtain ⟨hexp, hall⟩ := ih hrest hafter (htracked.filter _) hdistinct' hfresh
      have hresult : event (.toolResult (transformToolResult idMap r)) =
          .result (mappedId idMap r.toolCallId) := by
        rw [transformToolResult_eq, event_toolResult]
      refine ⟨(Dialogue.expected_result hresult).mpr ⟨mem_map_of_mem hid, ?_⟩, ?_⟩
      · rw [← htracked.map_filter hinj hid]
        exact hexp
      · refine .cons ?_ hall
        obtain rfl | ⟨a, ha, hids⟩ := htracked
        · simp at hid
        · obtain ⟨hcall, hmapped⟩ := hids _ hid
          obtain ⟨tc, htc, htcid⟩ := mem_map.mp hcall
          rw [transformToolResult_eq, hmapped]
          exact .toolResult r ha htc htcid
    | assistant a =>
      have hmapped : ∀ id ∈ a.toolCalls.map ToolCall.id,
          mappedId (transformAssistant model normalizeToolCallId idMap a).2 id =
            outputId (normalizeFor model normalizeToolCallId a) id :=
        fun id hid => mappedId_transformAssistant (hempty a) hid (hfresh id (mem_append_left _ hid))
      have hfresh' : ∀ id ∈ ms.flatMap callIds,
          (transformAssistant model normalizeToolCallId idMap a).2.get id = none := by
        intro id hid
        have hget := transformContent_get (isSameModel model a)
          (normalizeFor model normalizeToolCallId a) idMap a.content id
        rw [if_neg] at hget
        · exact hget.trans (hfresh id (mem_append_right _ hid))
        · rintro ⟨hcall, _⟩
          exact (nodup_append.mp hdistinct).2.2 id hcall id hid rfl
      have hafter := (Dialogue.expected_calls (event_assistant a)).mp hexpected
      obtain ⟨hexp, hall⟩ := ih hrest hafter
        (by
          refine .inr ⟨a, hms _ mem_cons_self, ?_⟩
          intro id hid
          split_ifs at hid
          · simp at hid
          · exact ⟨hid, hmapped id hid⟩)
        hdistinct' hfresh'
      rw [firstPass_assistant]
      refine ⟨?_, .cons (.assistant a) hall⟩
      · refine (Dialogue.expected_calls (event_assistant _)).mpr ?_
        rw [ids_rewriteAssistant]
        have hfailed : (rewriteAssistant model normalizeToolCallId a).failed = a.failed := rfl
        rw [hfailed]
        have hids : (if a.failed = true then [] else a.toolCalls.map ToolCall.id).map
            (mappedId (transformAssistant model normalizeToolCallId idMap a).2) =
              if a.failed = true then [] else (a.toolCalls.map ToolCall.id).map
                (outputId (normalizeFor model normalizeToolCallId a)) := by
          split_ifs
          · rfl
          · exact map_congr_left hmapped
        rw [← hids]
        exact hexp

theorem Rewritten.isFailed_eq {m m' : Message}
    (h : Rewritten messages model normalizeToolCallId m m') : isFailed m' = isFailed m := by
  cases h <;> rfl

theorem endsWithUser_of_rewritten (hends : EndsWithUser ms)
    (hall : List.Forall₂ (Rewritten messages model normalizeToolCallId) ms out) :
    EndsWithUser out := by
  obtain ⟨before, u, rfl⟩ := hends
  have hdrop := forall₂_drop_append out before [.user u] hall.flip
  obtain ⟨m, rest, hm, hrest, hsplit⟩ := forall₂_cons_right_iff.mp hdrop
  obtain rfl := forall₂_nil_right_iff.mp hrest
  cases hm
  exact ⟨out.take before.length, u, by rw [← hsplit, take_append_drop]⟩

theorem distinct_of_rewritten
    (hinj : ∀ m, Function.Injective (outputId (normalizeFor model normalizeToolCallId m)))
    (hdistinct : (ms.flatMap callIds).Nodup)
    (hall : List.Forall₂ (Rewritten messages model normalizeToolCallId) ms out) :
    ∀ m ∈ out, (callIds m).Nodup := by
  induction hall with
  | nil => simp
  | cons h _ ih =>
    rw [flatMap_cons, nodup_append] at hdistinct
    intro x hx
    obtain rfl | hx := mem_cons.mp hx
    · cases h with
      | user u => simp [callIds]
      | toolResult r => simp [callIds]
      | assistant a =>
        rw [callIds, ids_rewriteAssistant]
        exact hdistinct.1.map (hinj a)
    · exact ih hdistinct.2.1 x hx

theorem outputId_injective
    (h : ∀ normalize ∈ normalizeToolCallId, ∀ m,
      Function.Injective (fun id => normalize id model m)) (m : AssistantMessage) :
    Function.Injective (outputId (normalizeFor model normalizeToolCallId m)) := by
  rw [normalizeFor]
  by_cases hsame : isSameModel model m = true
  · rw [if_pos hsame]
    exact Function.injective_id
  · rw [if_neg hsame]
    cases hnormalize : normalizeToolCallId with
    | none => exact Function.injective_id
    | some normalize => exact h normalize hnormalize m

theorem outputId_eq_empty
    (h : ∀ normalize ∈ normalizeToolCallId, ∀ id m, normalize id model m = "" → id = "")
    (m : AssistantMessage) (id : String)
    (hid : outputId (normalizeFor model normalizeToolCallId m) id = "") : id = "" := by
  rw [normalizeFor] at hid
  by_cases hsame : isSameModel model m = true
  · rw [if_pos hsame] at hid
    exact hid
  · rw [if_neg hsame] at hid
    cases hnormalize : normalizeToolCallId with
    | none =>
      rw [hnormalize] at hid
      exact hid
    | some normalize =>
      rw [hnormalize] at hid
      exact h normalize hnormalize id m hid

/-- The messages of the given list, rewritten and without the failed ones. -/
def KeptMessages (messages : List Message) (model : Model)
    (normalizeToolCallId : Option NormalizeToolCallId) (kept : List Message) : Prop :=
  List.Forall₂ (Rewritten messages model normalizeToolCallId)
    (messages.filter (fun m => !isFailed m)) kept

/-- The prepared list is a tool dialogue, and without the results made up it is the given list
less the failed messages, when the normaliser leaves no identifier empty. -/
theorem transformMessages_toolDialogue (now : ℕ → ToolCall → ℕ) (messages : List Message)
    (model : Model) (normalizeToolCallId : Option NormalizeToolCallId)
    (hhistory : ToolHistory messages)
    (hinj : ∀ normalize ∈ normalizeToolCallId, ∀ m,
      Function.Injective (fun id => normalize id model m))
    (hempty : ∀ normalize ∈ normalizeToolCallId, ∀ id m, normalize id model m = "" → id = "") :
    ToolDialogue (transformMessages now messages model normalizeToolCallId) ∧
      ∃ kept, KeptMessages messages model normalizeToolCallId kept ∧
        WithSynthetic kept (transformMessages now messages model normalizeToolCallId) := by
  have hexpected : Dialogue.Expected event [] messages :=
    (resultsCalledFor_of_belongs hhistory.belongs).expected hhistory.oneResult
  have hinj' := outputId_injective hinj
  have htracked : Tracked model normalizeToolCallId messages OrderedMap.empty [] := .inl rfl
  obtain ⟨hexp, hall⟩ := expected_firstPass hinj' (outputId_eq_empty hempty)
    (fun m hm => hm) hexpected htracked hhistory.distinctCalls (fun _ _ => rfl)
  have hcomplete : Dialogue.Complete event (openCalls [] []) (secondPass now [] []
      (firstPass model normalizeToolCallId OrderedMap.empty messages)) :=
    complete_secondPass now hexp
      (.inr (endsWithUser_of_rewritten hhistory.endsWithUser hall)) (by simp)
      (distinct_of_rewritten hinj' hhistory.distinctCalls hall)
  have hkept := withSynthetic_secondPass now
    (firstPass model normalizeToolCallId OrderedMap.empty messages) [] []
  refine ⟨toolDialogue_of_complete hcomplete ?_, _, ?_, hkept⟩
  · refine hkept.not_failed ?_
    intro m hm
    simpa using (mem_filter.mp hm).2
  · refine rel_filter ?_ hall
    intro m m' h
    simp [h.isFailed_eq]

end

def targetModel : Model := { id := "target", api := "a", provider := "p" }

def userAgain : UserMessage := { content := .string "go on", timestamp := 3 }

def firstCall : ToolCall :=
  { id := "x", name := "read", arguments := .nil, thoughtSignature := none }

def secondCall : ToolCall := { firstCall with id := "z" }

def foreignMessage (toolCalls : List ToolCall) : AssistantMessage :=
  { content := toolCalls.map .toolCall, api := "b", provider := "q", model := "source"
    usage := { input := 0, output := 0, cacheRead := 0, cacheWrite := 0, totalTokens := 0 }
    stopReason := .toolUse, errorMessage := none, timestamp := 1 }

def firstResult : ToolResultMessage :=
  { toolCallId := "x", toolName := "read", content := [], details := none, isError := false
    timestamp := 2 }

def resumedHistory (toolCalls : List ToolCall) : List Message :=
  [.assistant (foreignMessage toolCalls), .toolResult firstResult, .user userAgain]

def exchange (a b : String) : NormalizeToolCallId := fun id _ _ => Equiv.swap a b id

theorem resumedHistory_toolHistory {toolCalls : List ToolCall} (hx : firstCall ∈ toolCalls)
    (hcalls : (foreignMessage toolCalls).toolCalls = toolCalls)
    (hdistinct : (toolCalls.map ToolCall.id).Nodup) : ToolHistory (resumedHistory toolCalls) := by
  refine ⟨⟨[_, _], userAgain, rfl⟩, ?_, ?_, ?_⟩
  · simpa [resumedHistory, callIds, hcalls] using hdistinct
  · have hresults : (resumedHistory toolCalls).filterMap (Dialogue.resultId? event) = ["x"] := rfl
    simp [hresults]
  · intro before r after hsplit
    obtain _ | ⟨m, _ | ⟨m', _ | ⟨m'', before⟩⟩⟩ := before
    · simp [resumedHistory] at hsplit
    · obtain ⟨rfl, rfl, _⟩ := hsplit
      refine ⟨[], foreignMessage toolCalls, [], rfl, rfl, ⟨firstCall, ?_, rfl⟩, by simp⟩
      rw [hcalls]
      exact hx
    · simp [resumedHistory] at hsplit
    · simp [resumedHistory] at hsplit

/-- The call whose identifier becomes empty loses its result. -/
theorem emptyId_not_toolDialogue :
    ToolHistory (resumedHistory [firstCall]) ∧
      (∀ m, Function.Injective (fun id => exchange "x" "" id targetModel m)) ∧
      ¬ ToolDialogue (transformMessages (fun _ _ => 4) (resumedHistory [firstCall]) targetModel
        (some (exchange "x" ""))) := by
  refine ⟨resumedHistory_toolHistory (by simp) rfl (by decide), fun _ => Equiv.injective _, ?_⟩
  intro h
  have hexpected : Dialogue.Expected event [] (transformMessages (fun _ _ => 4)
      (resumedHistory [firstCall]) targetModel (some (exchange "x" ""))) :=
    (resultsCalledFor_of_belongs h.belongs).expected (by decide +kernel)
  exact absurd hexpected.1 (by decide)

/-- The second call is given a result, both under their new identifiers. -/
theorem resumedHistory_toolDialogue :
    ToolHistory (resumedHistory [firstCall, secondCall]) ∧
      ToolDialogue (transformMessages (fun _ _ => 4) (resumedHistory [firstCall, secondCall])
        targetModel (some (exchange "x" "y"))) := by
  have hhistory : ToolHistory (resumedHistory [firstCall, secondCall]) :=
    resumedHistory_toolHistory (by simp) rfl (by decide)
  refine ⟨hhistory, (transformMessages_toolDialogue (fun _ _ => 4)
    (resumedHistory [firstCall, secondCall]) targetModel (some (exchange "x" "y")) hhistory
    ?_ ?_).1⟩
  · rintro _ ⟨rfl⟩ m
    exact Equiv.injective _
  · rintro _ ⟨rfl⟩ id m hid
    rw [exchange, Equiv.swap_apply_def] at hid
    split_ifs at hid
    · simp at hid
    · simp at hid
    · exact hid

end TransformMessages

end Draht
