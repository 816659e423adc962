import Mathlib.Data.List.Flatten
import Draht.ToolCallIds
import Draht.TransformDialogue

/-!
# Calls and results after the ids are rewritten

The first pass gives every call its new id and finds the new id of a result by the old one. The
calls stay apart and the results stay with their calls exactly when no two ids become the same and
no answered call loses its id. The provider that remembers its ids always keeps them so.
-/

namespace Draht.ToolCallIds
open List Option

open TransformMessages

def OtherModels (model : Model) (messages : List Message) : Prop :=
  ∀ m, .assistant m ∈ messages → m.toolCalls ≠ [] → isSameModel model m = false

/-- The normaliser as `transformMessages` is given it. -/
def giving (given : String → String) : Option NormalizeToolCallId := some fun id _ _ => given id

def Answers (messages before : List Message) (r : ToolResultMessage) : Prop :=
  ∃ after, messages = before ++ .toolResult r :: after ∧ r.toolCallId ∈ before.flatMap callIds

/-- The calls are distinct, and a result has the id that its call was given: the results of the list
in their places, and those that were made up. -/
structure IdsKept (now : ℕ → ToolCall → ℕ) (messages : List Message) (model : Model)
    (given : String → String) : Prop where
  distinct : ((transformMessages now messages model (giving given)).flatMap callIds).Nodup
  calls : (firstPass model (giving given) OrderedMap.empty messages).map callIds =
    messages.map fun m => (callIds m).map given
  results : ∀ before r, Answers messages before r →
    (firstPass model (giving given) OrderedMap.empty messages)[before.length]? =
      some (.toolResult { r with toolCallId := given r.toolCallId })
  kept : WithSynthetic
    ((firstPass model (giving given) OrderedMap.empty messages).filter fun m => !isFailed m)
    (transformMessages now messages model (giving given))
  synthetic : ∀ r, .toolResult r ∈ transformMessages now messages model (giving given) →
    .toolResult r ∈ firstPass model (giving given) OrderedMap.empty messages ∨
      r.toolCallId ∈ (transformMessages now messages model (giving given)).flatMap callIds

def SameId (model : Model) : WireApi → String → String → Prop
  | .anthropicMessages, a, b => List.Forall₂ Alike ((utf16 a).take 64) ((utf16 b).take 64)
  | .openaiCompletions, a, b => SameCompletionsId model a b
  | .mistralConversations, _, _ => False

/-- No two calls of messages that have not failed are given the same id, and none whose result is
there loses its id. -/
structure IdsSeparate (api : WireApi) (model : Model) (messages : List Message) : Prop where
  apart : ((messages.filter fun m => !isFailed m).flatMap callIds).Pairwise
    fun a b => ¬ SameId model api a b
  named : api = .openaiCompletions → ∀ before r, Answers messages before r →
    (utf16 r.toolCallId).head? ≠ some 0x7C

section Given

variable {attempts : ℕ} {model : Model} {messages : List Message} {api : WireApi}
variable {given : String → String}

theorem idsToNormalize_eq (hother : OtherModels model messages) :
    idsToNormalize model messages = messages.flatMap callIds := by
  apply flatMap_congr
  intro m hm
  cases m with
  | user u => rfl
  | toolResult r => rfl
  | assistant a =>
    rw [callIds]
    by_cases hcalls : a.toolCalls = []
    · simp [hcalls]
    · simp [hother a hm hcalls]

theorem mistral_spec (hids : ∀ id ∈ idsToNormalize model messages, id ≠ "")
    (h : givenId attempts model messages .mistralConversations = some given) :
    ∃ s : MistralIds, s.Owned ∧
      ∀ id ∈ idsToNormalize model messages, s.idMap.get id = some (given id) := by
  obtain ⟨s, hs, rfl⟩ := map_eq_some_iff.mp h
  obtain ⟨howned, hall, _⟩ := MistralIds.normalizeAll_spec MistralIds.Owned.empty hids hs
  refine ⟨s, howned, ?_⟩
  intro id hid
  obtain ⟨c, hc⟩ := hall id hid
  simp [hc]

theorem given_eq_iff (hids : ∀ id ∈ idsToNormalize model messages, id ≠ "")
    (h : givenId attempts model messages api = some given) {a b : String}
    (ha : a ∈ idsToNormalize model messages) (hb : b ∈ idsToNormalize model messages)
    (hab : a ≠ b) : given a = given b ↔ SameId model api a b := by
  cases api with
  | anthropicMessages =>
    obtain rfl := some.inj h
    exact sanitize_take_eq_iff _ _ _
  | openaiCompletions =>
    obtain rfl := some.inj h
    exact completionsToolCallId_eq_iff model a b
  | mistralConversations =>
    obtain ⟨s, howned, hget⟩ := mistral_spec hids h
    simp only [SameId, iff_false]
    intro heq
    exact hab (howned.injective (hget a ha) (heq ▸ hget b hb))

theorem given_eq_empty_iff (hids : ∀ id ∈ idsToNormalize model messages, id ≠ "")
    (h : givenId attempts model messages api = some given) {id : String}
    (hid : id ∈ idsToNormalize model messages) :
    given id = "" ↔ api = .openaiCompletions ∧ (utf16 id).head? = some 0x7C := by
  have hne := hids id hid
  cases api with
  | anthropicMessages =>
    obtain rfl := some.inj h
    simp only [reduceCtorEq, false_and, iff_false]
    exact fun hempty => hne (anthropicToolCallId_eq_empty hempty)
  | openaiCompletions =>
    obtain rfl := some.inj h
    simp only [true_and]
    exact completionsToolCallId_eq_empty_iff model hne
  | mistralConversations =>
    obtain ⟨s, howned, hget⟩ := mistral_spec hids h
    simp only [reduceCtorEq, false_and, iff_false]
    exact (howned id _ (hget id hid)).2.1

end Given

section FirstPass

variable {model : Model} {given : String → String}

theorem normalizeFor_giving (m : AssistantMessage) :
    normalizeFor model (giving given) m = if isSameModel model m then none else some given := by
  rfl

def Renamed (given : String → String) (m m' : Message) : Prop :=
  callIds m' = (callIds m).map given ∧ isFailed m' = isFailed m

variable {ms out : List Message}

theorem OtherModels.of_cons {m : Message} (h : OtherModels model (m :: ms)) :
    OtherModels model ms := fun a ha => h a (mem_cons_of_mem m ha)

theorem renamed_firstPass (hother : OtherModels model ms) (idMap : OrderedMap String String) :
    List.Forall₂ (Renamed given) ms (firstPass model (giving given) idMap ms) := by
  induction ms generalizing idMap with
  | nil => exact .nil
  | cons m ms ih =>
    cases m with
    | user u => exact .cons ⟨rfl, rfl⟩ (ih hother.of_cons _)
    | toolResult r => exact .cons ⟨rfl, rfl⟩ (ih hother.of_cons _)
    | assistant a =>
      rw [firstPass_assistant]
      refine .cons ⟨?_, rfl⟩ (ih hother.of_cons _)
      rw [callIds, callIds, ids_rewriteAssistant, normalizeFor_giving]
      by_cases hcalls : a.toolCalls = []
      · simp [hcalls]
      · rw [hother a mem_cons_self hcalls]
        rfl

theorem callIds_of_renamed (h : List.Forall₂ (Renamed given) ms out) :
    out.map callIds = ms.map fun m => (callIds m).map given := by
  induction h with
  | nil => rfl
  | cons hm _ ih => rw [map_cons, map_cons, hm.1, ih]

theorem flatMap_callIds_of_renamed (h : List.Forall₂ (Renamed given) ms out) :
    out.flatMap callIds = (ms.flatMap callIds).map given := by
  induction h with
  | nil => rfl
  | cons hm _ ih => rw [flatMap_cons, flatMap_cons, map_append, hm.1, ih]

def idMapAfter (model : Model) (normalizeToolCallId : Option NormalizeToolCallId)
    (idMap : OrderedMap String String) : List Message → OrderedMap String String
  | [] => idMap
  | .assistant m :: rest =>
    idMapAfter model normalizeToolCallId
      (transformAssistant model normalizeToolCallId idMap m).2 rest
  | .user _ :: rest => idMapAfter model normalizeToolCallId idMap rest
  | .toolResult _ :: rest => idMapAfter model normalizeToolCallId idMap rest

variable (normalizeToolCallId : Option NormalizeToolCallId) (idMap : OrderedMap String String)
  (before after : List Message)

theorem firstPass_append :
    firstPass model normalizeToolCallId idMap (before ++ after) =
      firstPass model normalizeToolCallId idMap before ++
        firstPass model normalizeToolCallId
          (idMapAfter model normalizeToolCallId idMap before) after := by
  induction before generalizing idMap with
  | nil => rfl
  | cons m before ih =>
    cases m with
    | user u => exact congrArg _ (ih idMap)
    | toolResult r => exact congrArg _ (ih idMap)
    | assistant a =>
      rw [cons_append, firstPass_assistant, firstPass_assistant, ih]
      rfl

theorem get_idMapAfter (hother : OtherModels model ms) (idMap : OrderedMap String String)
    (id : String) :
    (idMapAfter model (giving given) idMap ms).get id =
      if id ∈ ms.flatMap callIds ∧ given id ≠ id then some (given id) else idMap.get id := by
  induction ms generalizing idMap with
  | nil => simp [idMapAfter]
  | cons m ms ih =>
    cases m with
    | user u => exact ih hother.of_cons idMap
    | toolResult r => exact ih hother.of_cons idMap
    | assistant a =>
      have hone : (transformAssistant model (giving given) idMap a).2.get id =
          if id ∈ callIds (.assistant a) ∧ given id ≠ id then some (given id)
          else idMap.get id := by
        have hget := transformContent_get (isSameModel model a)
          (normalizeFor model (giving given) a) idMap a.content id
        rw [← AssistantMessage.toolCalls] at hget
        rw [transformAssistant, hget, callIds, normalizeFor_giving]
        by_cases hcalls : a.toolCalls = []
        · simp [hcalls]
        · rw [hother a mem_cons_self hcalls]
          rfl
      rw [idMapAfter, ih hother.of_cons, hone, flatMap_cons]
      by_cases hlater : id ∈ ms.flatMap callIds ∧ given id ≠ id
      · rw [if_pos hlater, if_pos ⟨mem_append_right _ hlater.1, hlater.2⟩]
      · rw [if_neg hlater]
        congr 1
        rw [eq_iff_iff, mem_append]
        constructor
        · exact fun h => ⟨.inl h.1, h.2⟩
        · exact fun h => ⟨h.1.resolve_right fun hmem => hlater ⟨hmem, h.2⟩, h.2⟩

theorem firstPass_result (r : ToolResultMessage) :
    (firstPass model normalizeToolCallId OrderedMap.empty
        (before ++ .toolResult r :: after))[before.length]? =
      some (.toolResult { r with
        toolCallId := mappedId (idMapAfter model normalizeToolCallId OrderedMap.empty before)
          r.toolCallId }) := by
  have hlength : ∀ (ms : List Message) (idMap : OrderedMap String String),
      (firstPass model normalizeToolCallId idMap ms).length = ms.length := by
    intro ms
    induction ms with
    | nil => intro idMap; rfl
    | cons m ms ih => intro idMap; cases m <;> exact congrArg (· + 1) (ih _)
  rw [firstPass_append, getElem?_append_right (by rw [hlength]), hlength, Nat.sub_self,
    ← transformToolResult_eq]
  rfl

theorem mappedId_eq_given_iff {before : List Message} (hother : OtherModels model before)
    {id : String} (hcall : id ∈ before.flatMap callIds) (hid : id ≠ "") :
    mappedId (idMapAfter model (giving given) OrderedMap.empty before) id = given id ↔
      given id ≠ "" := by
  rw [mappedId, get_idMapAfter hother]
  by_cases hsame : given id = id
  · simp [hsame, hid]
  · rw [if_pos ⟨hcall, hsame⟩]
    by_cases hempty : given id = ""
    · simp [hempty, hid]
    · simp [hempty, hsame]

end FirstPass

variable {existing : List String} {pending : List ToolCall} {ms : List Message}
  {r : ToolResultMessage}

theorem callIds_withSynthetic {out : List Message} (h : WithSynthetic ms out) :
    out.flatMap callIds = ms.flatMap callIds := by
  induction h with
  | nil => rfl
  | keep m _ ih => rw [flatMap_cons, flatMap_cons, ih]
  | synthetic tc timestamp _ ih => exact ih

theorem mem_syntheticResults {now : ToolCall → ℕ}
    (h : .toolResult r ∈ syntheticResults now pending existing) :
    r.toolCallId ∈ pending.map ToolCall.id := by
  obtain ⟨tc, htc, heq⟩ := mem_map.mp h
  obtain rfl := Message.toolResult.inj heq
  exact mem_map_of_mem (mem_filter.mp htc).1

theorem result_secondPass {now : ℕ → ToolCall → ℕ}
    (h : .toolResult r ∈ secondPass now pending existing ms) :
    .toolResult r ∈ ms ∨ r.toolCallId ∈ pending.map ToolCall.id ∨
      r.toolCallId ∈ (secondPass now pending existing ms).flatMap callIds := by
  induction ms generalizing pending existing with
  | nil => simp [secondPass] at h
  | cons m ms ih =>
    cases m with
    | user u =>
      rw [secondPass, mem_append] at h
      obtain h | h := h
      · exact .inr (.inl (mem_syntheticResults h))
      · obtain h | h | h := ih ((mem_cons.mp h).resolve_left (by simp))
        · exact .inl (mem_cons_of_mem _ h)
        · simp at h
        · refine .inr (.inr ?_)
          rw [secondPass, flatMap_append, flatMap_cons]
          exact mem_append_right _ (mem_append_right _ h)
    | toolResult result =>
      rw [secondPass, mem_cons] at h
      obtain h | h := h
      · exact .inl (h ▸ mem_cons_self)
      · obtain h | h | h := ih h
        · exact .inl (mem_cons_of_mem _ h)
        · exact .inr (.inl h)
        · refine .inr (.inr ?_)
          exact mem_append_right _ h
    | assistant a =>
      rw [secondPass, mem_append] at h
      obtain h | h := h
      · exact .inr (.inl (mem_syntheticResults h))
      · rw [secondPass, flatMap_append, mem_append]
        by_cases hfailed : a.failed = true
        · simp only [if_pos hfailed] at h ⊢
          obtain h | h | h := ih h
          · exact .inl (mem_cons_of_mem _ h)
          · simp at h
          · exact .inr (.inr (.inr h))
        · simp only [if_neg hfailed] at h ⊢
          by_cases hcalls : 0 < a.toolCalls.length
          · rw [if_pos hcalls] at h ⊢
            rw [flatMap_cons, mem_append]
            obtain h | h | h := ih ((mem_cons.mp h).resolve_left (by simp))
            · exact .inl (mem_cons_of_mem _ h)
            · exact .inr (.inr (.inr (.inl h)))
            · exact .inr (.inr (.inr (.inr h)))
          · rw [if_neg hcalls] at h ⊢
            rw [flatMap_cons, mem_append]
            obtain h | h | h := ih ((mem_cons.mp h).resolve_left (by simp))
            · exact .inl (mem_cons_of_mem _ h)
            · simp at h
            · exact .inr (.inr (.inr (.inr h)))

theorem nodup_map_iff {ids : List String} (hnodup : ids.Nodup) {given : String → String}
    {same : String → String → Prop}
    (h : ∀ a ∈ ids, ∀ b ∈ ids, a ≠ b → (given a = given b ↔ same a b)) :
    (ids.map given).Nodup ↔ ids.Pairwise fun a b => ¬ same a b := by
  rw [List.Nodup, pairwise_map]
  constructor
  · intro hgiven
    apply (hgiven.and hnodup).imp_of_mem
    exact fun ha hb hne hsame => hne.1 ((h _ ha _ hb hne.2).mpr hsame)
  · intro hsame
    apply (hsame.and hnodup).imp_of_mem
    exact fun ha hb hne hgiven => hne.1 ((h _ ha _ hb hne.2).mp hgiven)

theorem callIds_transformMessages {model : Model} {messages : List Message}
    (hother : OtherModels model messages) (now : ℕ → ToolCall → ℕ) (given : String → String) :
    (transformMessages now messages model (giving given)).flatMap callIds =
      ((messages.filter fun m => !isFailed m).flatMap callIds).map given := by
  rw [transformMessages, callIds_withSynthetic (withSynthetic_secondPass now _ [] [])]
  apply flatMap_callIds_of_renamed
  refine rel_filter ?_ (renamed_firstPass hother OrderedMap.empty)
  intro m m' hm
  simp [hm.2]

/-- The ids of the calls stay distinct and the results stay with their calls exactly when the
provider gives no two of them the same id and leaves none of them empty. -/
theorem idsKept_iff (now : ℕ → ToolCall → ℕ) (attempts : ℕ) (model : Model) (api : WireApi)
    (messages : List Message) (given : String → String) (hother : OtherModels model messages)
    (hdistinct : (messages.flatMap callIds).Nodup)
    (hnonempty : ∀ id ∈ messages.flatMap callIds, id ≠ "")
    (hgiven : givenId attempts model messages api = some given) :
    IdsKept now messages model given ↔ IdsSeparate api model messages := by
  have hids := idsToNormalize_eq hother
  have hnonempty' : ∀ id ∈ idsToNormalize model messages, id ≠ "" := hids ▸ hnonempty
  have hsublist : ((messages.filter fun m => !isFailed m).flatMap callIds).Sublist
      (messages.flatMap callIds) := filter_sublist.flatMap callIds
  have happart : ((transformMessages now messages model (giving given)).flatMap callIds).Nodup ↔
      ((messages.filter fun m => !isFailed m).flatMap callIds).Pairwise
        fun a b => ¬ SameId model api a b := by
    rw [callIds_transformMessages hother now given]
    apply nodup_map_iff (hdistinct.sublist hsublist)
    intro a ha b hb hab
    exact given_eq_iff hnonempty' hgiven (hids ▸ hsublist.subset ha) (hids ▸ hsublist.subset hb) hab
  have hnamed : ∀ before r, Answers messages before r →
      ((firstPass model (giving given) OrderedMap.empty messages)[before.length]? =
        some (.toolResult { r with toolCallId := given r.toolCallId }) ↔
      ¬ (api = .openaiCompletions ∧ (utf16 r.toolCallId).head? = some 0x7C)) := by
    rintro before r ⟨after, rfl, hcall⟩
    have hmem : r.toolCallId ∈ (before ++ .toolResult r :: after).flatMap callIds := by
      rw [flatMap_append]
      exact mem_append_left _ hcall
    have hbefore : OtherModels model before := fun m hm => hother m (mem_append_left _ hm)
    rw [← given_eq_empty_iff hnonempty' hgiven (hids ▸ hmem), firstPass_result]
    rw [← Ne, ← mappedId_eq_given_iff hbefore hcall (hnonempty _ hmem)]
    constructor
    · intro h
      exact congrArg ToolResultMessage.toolCallId (Message.toolResult.inj (some.inj h))
    · exact fun h => by rw [h]
  constructor
  · intro h
    refine ⟨happart.mp h.distinct, ?_⟩
    intro hapi before r hanswers hhead
    exact (hnamed before r hanswers).mp (h.results before r hanswers) ⟨hapi, hhead⟩
  · intro h
    refine ⟨happart.mpr h.apart, callIds_of_renamed (renamed_firstPass hother _), ?_,
      withSynthetic_secondPass now _ [] [], ?_⟩
    · intro before r hanswers
      exact (hnamed before r hanswers).mpr fun hhead => h.named hhead.1 before r hanswers hhead.2
    · intro r hr
      exact (result_secondPass hr).imp_right fun h => h.resolve_left (by simp)

/-- Two searches in one answer of a Google model, with their results. -/
def searches (first second : String) : List Message :=
  let call (id : String) : AssistantContent :=
    .toolCall ⟨id, "search_issues_in_the_repository", .nil, none⟩
  let result (id : String) : Message :=
    .toolResult ⟨id, "search_issues_in_the_repository", [.text ⟨"none", none⟩], none, false, 0⟩
  [.user ⟨.string "search", 0⟩,
    .assistant ⟨[call first, call second], "google-generative-ai", "google", "gemini-2.5-pro",
      ⟨0, 0, 0, 0, 0⟩, .toolUse, none, 0⟩,
    result first, result second]

def claude : Model := ⟨"claude-sonnet-4-5", "anthropic-messages", "anthropic"⟩

theorem idsKept_iff_searches :
    IdsKept (fun _ _ => 0) (searches "search|1" "search|2") claude anthropicToolCallId := by
  have hcalls : (searches "search|1" "search|2").flatMap callIds = ["search|1", "search|2"] := rfl
  refine (idsKept_iff (fun _ _ => 0) 0 claude .anthropicMessages (searches "search|1" "search|2")
    anthropicToolCallId ?_ ?_ ?_ rfl).mpr ⟨?_, by simp⟩
  · intro m hm _
    obtain rfl : m = _ := by simpa [searches] using hm
    decide +kernel
  · rw [hcalls]
    simp
  · decide +kernel
  · have hfilter : ((searches "search|1" "search|2").filter fun m => !isFailed m).flatMap callIds =
        ["search|1", "search|2"] := rfl
    have hapart : ¬ SameId claude .anthropicMessages "search|1" "search|2" := by
      rw [SameId, ← sanitize_take_eq_iff, utf16_ofList, utf16_ofList, String.ofList_inj]
      decide +kernel
    rw [hfilter]
    simpa using hapart

/-- The number at the end of an id is cut off, and the two searches get one id. -/
theorem numbered_ids_become_one :
    ∃ now attempts model api messages given, OtherModels model messages ∧
      (messages.flatMap callIds).Nodup ∧ (∀ id ∈ messages.flatMap callIds, id ≠ "") ∧
      givenId attempts model messages api = some given ∧ ¬ IdsKept now messages model given := by
  let first := "search_issues_in_the_repository_1712345678901_1"
  let second := "search_issues_in_the_repository_1712345678901_2"
  let gpt : Model := ⟨"gpt-4o", "openai-completions", "openai"⟩
  have hcalls : (searches first second).flatMap callIds = [first, second] := rfl
  have hother : OtherModels gpt (searches first second) := by
    intro m hm _
    obtain rfl : m = _ := by simpa [searches] using hm
    decide +kernel
  have hdistinct : ((searches first second).flatMap callIds).Nodup := by
    rw [hcalls]
    simp [first, second]
  have hnonempty : ∀ id ∈ (searches first second).flatMap callIds, id ≠ "" := by
    rw [hcalls]
    simp [first, second]
  have hsame : completionsToolCallId gpt first = completionsToolCallId gpt second := by
    have hfirst : 0x7C ∉ utf16 first := by
      decide +kernel
    have hsecond : 0x7C ∉ utf16 second := by
      decide +kernel
    rw [completionsToolCallId_eq_iff, SameCompletionsId, if_neg hfirst, if_neg hsecond, wholePart,
      wholePart, if_pos rfl, if_pos rfl, utf16_ofList, utf16_ofList]
    rfl
  refine ⟨fun _ _ => 0, 0, gpt, .openaiCompletions, searches first second,
    completionsToolCallId gpt, hother, hdistinct, hnonempty, rfl, ?_⟩
  intro h
  have hnodup := h.distinct
  rw [callIds_transformMessages hother] at hnodup
  have hmap : ((searches first second).filter fun m => !isFailed m).flatMap callIds =
      [first, second] := rfl
  rw [hmap, map_cons, map_cons, hsame] at hnodup
  simp at hnodup

end Draht.ToolCallIds
