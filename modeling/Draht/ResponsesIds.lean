import Draht.PreparedCalls
import Draht.ResponsesInput

/-!
# Ids of the items of a Responses request

An item is named by the id that its block brings along, or by the number of its message. Numbers
grow with the messages, so only texts of one message can share one. Results are sent with the call
ids of their calls.
-/

namespace Draht.ResponsesInput
open List Option

open TransformMessages Providers AskedKeys

def reasoningId : Json → Option Json
  | .object fields => fields.get "id"
  | _ => none

namespace InputItem

def id? : InputItem → Option Json
  | .reasoning item => reasoningId item
  | .message _ id _ => some (.string id)
  | .functionCall id _ _ _ => id.map .string
  | _ => none

def callIds : InputItem → List String
  | .functionCall _ callId _ _ => [callId]
  | _ => []

def outputCallId? : InputItem → Option String
  | .functionCallOutput callId _ => some callId
  | _ => none

end InputItem

/-- No two items have the same id, and every result is that of one call before it. -/
structure IdsAgree (request : List InputItem) : Prop where
  distinct : (request.filterMap InputItem.id?).Nodup
  answered : ∀ before callId output after,
    request = before ++ .functionCallOutput callId output :: after →
      (before.flatMap InputItem.callIds).count callId = 1

/-- How an item with an id is named. -/
inductive Label where
  | own (id : Json)
  | numbered
deriving DecidableEq

def Label.own? : Label → Option Json
  | .own id => some id
  | .numbered => none

@[simp] theorem Label.own?_own (id : Json) : (Label.own id).own? = some id := rfl

@[simp] theorem Label.own?_numbered : Label.numbered.own? = none := rfl

def Label.name (msgIndex : ℕ) : Label → Json
  | .own id => id
  | .numbered => .string (numberedId msgIndex)

@[simp] theorem Label.name_own (msgIndex : ℕ) (id : Json) : (Label.own id).name msgIndex = id := rfl

@[simp] theorem Label.name_numbered (msgIndex : ℕ) :
    Label.numbered.name msgIndex = .string (numberedId msgIndex) := rfl

def blockLabel (parse : String → Option Json) (isDifferentModel : Bool) :
    AssistantContent → Option Label
  | .thinking block =>
    if jsTrim block.thinking = "" then none
    else
      match block.thinkingSignature with
      | none => none
      | some signature =>
        if signature = "" then none else ((parse signature).bind reasoningId).map .own
  | .text block =>
    match textId? parse block with
    | some id => some (.own (.string id))
    | none => some .numbered
  | .toolCall toolCall => (itemId isDifferentModel toolCall.id).map fun id => .own (.string id)

def labels (parse : String → Option Json) (model : TargetModel) : Message → List Label
  | .assistant m => m.content.filterMap (blockLabel parse (isDifferentModel model.toModel m))
  | _ => []

def isPushedBlock : AssistantContent → Bool
  | .thinking block =>
    jsTrim block.thinking ≠ "" && TransformMessages.isTruthy block.thinkingSignature
  | _ => true

def isPushed (model : TargetModel) : Message → Bool
  | .user m => 0 < (userContent model m).length
  | .assistant m => m.content.any isPushedBlock
  | .toolResult _ => true

def labelled (parse : String → Option Json) (model : TargetModel) (msgIndex : ℕ) :
    List Message → List (ℕ × Label)
  | [] => []
  | m :: rest =>
    (labels parse model m).map (fun l => (msgIndex, l)) ++
      labelled parse model (if isPushed model m then msgIndex + 1 else msgIndex) rest

section

variable {parse : String → Option Json} {model : TargetModel} {msgIndex : ℕ} {d : Bool}
  {items : List InputItem}

variable {m : Message} {ls : List (ℕ × Label)} {ms : List Message} {content : List AssistantContent}
  {block : AssistantContent}

theorem ids_convertBlock (h : convertBlock parse d msgIndex block = some items) :
    items.filterMap InputItem.id? =
        (blockLabel parse d block).toList.map (Label.name msgIndex) ∧
      (items.length = 0 ↔ isPushedBlock block = false) := by
  cases block with
  | toolCall tc =>
    cases h
    refine ⟨?_, by simp [isPushedBlock]⟩
    rw [blockLabel]
    cases hid : itemId d tc.id <;> simp [InputItem.id?, Label.name]
  | text block =>
    cases h
    refine ⟨?_, by simp [isPushedBlock]⟩
    rw [blockLabel]
    cases hid : textId? parse block <;> simp [InputItem.id?, Label.name]
  | thinking block =>
    rw [convertBlock] at h
    rw [blockLabel, isPushedBlock]
    by_cases hblank : jsTrim block.thinking = ""
    · rw [if_pos hblank] at h
      cases h
      simp [hblank]
    · rw [if_neg hblank] at h ⊢
      cases hsignature : block.thinkingSignature with
      | none =>
        rw [hsignature] at h
        cases h
        simp [TransformMessages.isTruthy]
      | some signature =>
        rw [hsignature] at h
        by_cases hempty : signature = ""
        · simp only [if_pos hempty, some.injEq] at h
          subst h
          simp [hempty, TransformMessages.isTruthy]
        · simp only [if_neg hempty] at h
          obtain ⟨item, hitem, rfl⟩ := map_eq_some_iff.mp h
          refine ⟨?_, by simp [TransformMessages.isTruthy, hempty, hblank]⟩
          cases hid : reasoningId item <;> simp [hempty, hitem, hid, InputItem.id?, Label.name]

theorem ids_convertBlocks (h : convertBlocks parse d msgIndex content = some items) :
    items.filterMap InputItem.id? =
        (content.filterMap (blockLabel parse d)).map (Label.name msgIndex) ∧
      (items.length = 0 ↔ content.any isPushedBlock = false) := by
  induction content generalizing items with
  | nil =>
    cases h
    simp
  | cons block content ih =>
    obtain ⟨first, hfirst, hrest⟩ := bind_eq_some_iff.mp h
    obtain ⟨after, hafter, hitems⟩ := bind_eq_some_iff.mp hrest
    cases hitems
    obtain ⟨hids, hpushed⟩ := ids_convertBlock hfirst
    obtain ⟨hids', hpushed'⟩ := ih hafter
    refine ⟨?_, ?_⟩
    · rw [filterMap_append, hids, hids', filterMap_cons]
      cases blockLabel parse d block <;> rfl
    · rw [length_append, Nat.add_eq_zero_iff, hpushed, hpushed', any_cons,
        Bool.or_eq_false_iff]

theorem ids_convertMessage (h : convertMessage parse model msgIndex m = some items) :
    items.filterMap InputItem.id? = (labels parse model m).map (Label.name msgIndex) ∧
      (items.length = 0 ↔ isPushed model m = false) := by
  cases m with
  | assistant a => exact ids_convertBlocks h
  | toolResult r =>
    cases h
    simp [labels, isPushed, InputItem.id?]
  | user u =>
    cases h
    by_cases hcontent : (userContent model u).length = 0
    · simp [labels, isPushed, hcontent]
    · simp [labels, isPushed, InputItem.id?, hcontent, Nat.pos_of_ne_zero hcontent]

theorem ids_convertFrom (h : convertFrom parse model msgIndex ms = some items) :
    items.filterMap InputItem.id? =
      (labelled parse model msgIndex ms).map fun p => p.2.name p.1 := by
  induction ms generalizing items msgIndex with
  | nil =>
    cases h
    rfl
  | cons m ms ih =>
    obtain ⟨first, hfirst, hrest⟩ := bind_eq_some_iff.mp h
    obtain ⟨after, hafter, hitems⟩ := bind_eq_some_iff.mp hrest
    cases hitems
    obtain ⟨hids, hpushed⟩ := ids_convertMessage hfirst
    have hindex : (if first.length = 0 then msgIndex else msgIndex + 1) =
        if isPushed model m then msgIndex + 1 else msgIndex := by
      cases hm : isPushed model m <;> simp [hpushed, hm]
    rw [hindex] at hafter
    rw [labelled, List.filterMap_append, hids, ih hafter, List.map_append, List.map_map]
    rfl

def number? (p : ℕ × Label) : Option ℕ :=
  match p.2 with
  | .own _ => none
  | .numbered => some p.1

@[simp] theorem number?_own (k : ℕ) (id : Json) : number? (k, .own id) = none := rfl

@[simp] theorem number?_numbered (k : ℕ) : number? (k, .numbered) = some k := rfl

theorem numberedId_injective : Function.Injective numberedId := by
  intro a b h
  have hrepr : Nat.repr a = Nat.repr b := by simpa [numberedId] using h
  have hdigits : Nat.toDigits 10 a = Nat.toDigits 10 b := by
    rw [← Nat.toList_repr, ← Nat.toList_repr, hrepr]
  rw [← Nat.ofDigitChars_toDigits (n := a) (by omega : 1 < 10) (by omega), hdigits,
    Nat.ofDigitChars_toDigits (by omega) (by omega)]

theorem mem_names_iff {id : Json} :
    id ∈ ls.map (fun p => p.2.name p.1) ↔ id ∈ ls.filterMap (fun p => p.2.own?) ∨
      ∃ n ∈ ls.filterMap number?, id = .string (numberedId n) := by
  induction ls with
  | nil => simp
  | cons p ls ih =>
    obtain ⟨k, l⟩ := p
    rw [map_cons, mem_cons, ih, filterMap_cons, filterMap_cons]
    cases l with
    | own id' =>
      simp only [Label.own?_own, Label.name_own, number?_own, mem_cons]
      tauto
    | numbered =>
      simp only [Label.own?_numbered, Label.name_numbered, number?_numbered, mem_cons,
        exists_eq_or_imp]
      tauto

theorem nodup_names_iff :
    (ls.map fun p => p.2.name p.1).Nodup ↔ (ls.filterMap fun p => p.2.own?).Nodup ∧
      (ls.filterMap number?).Nodup ∧ ∀ n ∈ ls.filterMap number?,
        Json.string (numberedId n) ∉ ls.filterMap fun p => p.2.own? := by
  induction ls with
  | nil => simp
  | cons p ls ih =>
    rw [map_cons, nodup_cons, mem_names_iff, ih]
    obtain ⟨k, l⟩ := p
    cases l with
    | own id' =>
      simp only [Label.name_own, Label.own?_own, number?_own, filterMap_cons,
        nodup_cons, mem_cons, not_or, not_exists, not_and]
      constructor
      · rintro ⟨⟨hid, hnum⟩, hown, hnumbers, hapart⟩
        exact ⟨⟨hid, hown⟩, hnumbers, fun n hn => ⟨fun h => hnum n hn h.symm, hapart n hn⟩⟩
      · rintro ⟨⟨hid, hown⟩, hnumbers, hapart⟩
        exact ⟨⟨hid, fun n hn h => (hapart n hn).1 h.symm⟩, hown, hnumbers,
          fun n hn => (hapart n hn).2⟩
    | numbered =>
      simp only [Label.name_numbered, Label.own?_numbered, number?_numbered,
        filterMap_cons, nodup_cons, forall_mem_cons, not_or]
      constructor
      · rintro ⟨⟨hid, hnum⟩, hown, hnumbers, hapart⟩
        exact ⟨hown, ⟨fun hk => hnum ⟨k, hk, rfl⟩, hnumbers⟩, hid, hapart⟩
      · rintro ⟨hown, ⟨hk, hnumbers⟩, hid, hapart⟩
        refine ⟨⟨hid, ?_⟩, hown, hnumbers, hapart⟩
        rintro ⟨n, hn, h⟩
        obtain rfl := numberedId_injective (Json.string.inj h)
        exact hk hn

theorem own_labelled (ms : List Message) :
    (labelled parse model msgIndex ms).filterMap (fun p => p.2.own?) =
      (ms.flatMap (labels parse model)).filterMap Label.own? := by
  induction ms generalizing msgIndex with
  | nil => rfl
  | cons m ms ih =>
    rw [labelled, flatMap_cons, filterMap_append, filterMap_append, ih, filterMap_map]
    rfl

theorem numbers_map (ls : List Label) :
    (ls.map fun l => (msgIndex, l)).filterMap number? =
      List.replicate (ls.count .numbered) msgIndex := by
  induction ls with
  | nil => rfl
  | cons l ls ih =>
    rw [map_cons, filterMap_cons, ih]
    cases l with
    | own id => simp
    | numbered => simp [replicate_succ]

theorem isPushed_of_numbered (h : .numbered ∈ labels parse model m) : isPushed model m = true := by
  cases m with
  | user u => cases h
  | toolResult r => rfl
  | assistant a =>
    obtain ⟨block, hblock, hlabel⟩ := mem_filterMap.mp h
    refine any_eq_true.mpr ⟨block, hblock, ?_⟩
    cases block with
    | text block => rfl
    | toolCall tc => rfl
    | thinking block =>
      rw [blockLabel] at hlabel
      split_ifs at hlabel
      cases hsignature : block.thinkingSignature with
      | none => simp [hsignature] at hlabel
      | some signature =>
        simp only [hsignature] at hlabel
        split_ifs at hlabel
        obtain ⟨id, _, hid⟩ := map_eq_some_iff.mp hlabel
        cases hid

theorem mem_numbers_iff {n : ℕ} :
    n ∈ (labelled parse model msgIndex ms).filterMap number? ↔
      ∃ before m after, ms = before ++ m :: after ∧ .numbered ∈ labels parse model m ∧
        n = msgIndex + before.countP (isPushed model) := by
  induction ms generalizing msgIndex with
  | nil => simp [labelled]
  | cons m ms ih =>
    rw [labelled, filterMap_append, mem_append, numbers_map, mem_replicate, ih]
    constructor
    · rintro (⟨hcount, rfl⟩ | ⟨before, x, after, rfl, hx, rfl⟩)
      · exact ⟨[], m, ms, rfl, count_pos_iff.mp (Nat.pos_of_ne_zero hcount), by simp⟩
      · refine ⟨m :: before, x, after, rfl, hx, ?_⟩
        rw [countP_cons]
        split_ifs <;> omega
    · rintro ⟨before, x, after, hms, hx, rfl⟩
      cases before with
      | nil =>
        cases hms
        exact .inl ⟨Nat.pos_iff_ne_zero.mp (count_pos_iff.mpr hx), by simp⟩
      | cons y before =>
        cases hms
        refine .inr ⟨before, x, after, rfl, hx, ?_⟩
        rw [countP_cons]
        split_ifs <;> omega

theorem nodup_numbers_iff :
    ((labelled parse model msgIndex ms).filterMap number?).Nodup ↔
      ∀ m ∈ ms, (labels parse model m).count .numbered ≤ 1 := by
  induction ms generalizing msgIndex with
  | nil => simp [labelled]
  | cons m ms ih =>
    rw [labelled, filterMap_append, nodup_append, numbers_map, nodup_replicate, ih, forall_mem_cons]
    constructor
    · exact fun h => ⟨h.1, h.2.1⟩
    · rintro ⟨hm, hms⟩
      refine ⟨hm, hms, ?_⟩
      rintro a ha b hb rfl
      obtain ⟨hcount, rfl⟩ := mem_replicate.mp ha
      obtain ⟨before, x, after, _, _, hn⟩ := mem_numbers_iff.mp hb
      rw [if_pos (isPushed_of_numbered (count_pos_iff.mp (Nat.pos_of_ne_zero hcount)))] at hn
      omega

theorem calls_convertBlock (h : convertBlock parse d msgIndex block = some items) :
    items.flatMap InputItem.callIds = (block.toolCall?.toList.map fun tc => callId tc.id) ∧
      ∀ item ∈ items, item.outputCallId? = none := by
  cases block with
  | toolCall tc =>
    cases h
    exact ⟨rfl, by simp [InputItem.outputCallId?]⟩
  | text block =>
    cases h
    exact ⟨rfl, by simp [InputItem.outputCallId?]⟩
  | thinking block =>
    have hitems : items = [] ∨ ∃ item, items = [.reasoning item] := by
      rw [convertBlock] at h
      split_ifs at h
      · exact .inl (some.inj h).symm
      · cases hsignature : block.thinkingSignature with
        | none =>
          rw [hsignature] at h
          exact .inl (some.inj h).symm
        | some signature =>
          simp only [hsignature] at h
          split_ifs at h
          · exact .inl (some.inj h).symm
          · obtain ⟨item, _, rfl⟩ := map_eq_some_iff.mp h
            exact .inr ⟨item, rfl⟩
    obtain rfl | ⟨item, rfl⟩ := hitems
    · exact ⟨rfl, nofun⟩
    · exact ⟨rfl, by simp [InputItem.outputCallId?]⟩

theorem calls_convertBlocks (h : convertBlocks parse d msgIndex content = some items) :
    items.flatMap InputItem.callIds =
        ((content.filterMap AssistantContent.toolCall?).map fun tc => callId tc.id) ∧
      ∀ item ∈ items, item.outputCallId? = none := by
  induction content generalizing items with
  | nil =>
    cases h
    exact ⟨rfl, nofun⟩
  | cons block content ih =>
    obtain ⟨first, hfirst, hrest⟩ := bind_eq_some_iff.mp h
    obtain ⟨after, hafter, hitems⟩ := bind_eq_some_iff.mp hrest
    cases hitems
    obtain ⟨hcalls, hnone⟩ := calls_convertBlock hfirst
    obtain ⟨hcalls', hnone'⟩ := ih hafter
    refine ⟨?_, forall_mem_append.mpr ⟨hnone, hnone'⟩⟩
    rw [flatMap_append, hcalls, hcalls', filterMap_cons]
    cases block.toolCall? <;> rfl

theorem openedOnce_convertFrom {earlier : List String} (hfailed : ∀ m ∈ ms, isFailed m = false)
    (h : convertFrom parse model msgIndex ms = some items) :
    OpenedOnce InputItem.callIds InputItem.outputCallId? earlier items ↔
      OpenedOnce (callKeys callId) (resultKey callId) earlier ms := by
  induction ms generalizing items msgIndex earlier with
  | nil =>
    cases h
    rfl
  | cons m ms ih =>
    obtain ⟨first, hfirst, hrest⟩ := bind_eq_some_iff.mp h
    obtain ⟨after, hafter, hitems⟩ := bind_eq_some_iff.mp hrest
    cases hitems
    obtain ⟨hm, hms⟩ := forall_mem_cons.mp hfailed
    rw [openedOnce_append, ih hms hafter, OpenedOnce]
    cases m with
    | user u =>
      have hnone : first.flatMap InputItem.callIds = [] ∧
          ∀ item ∈ first, item.outputCallId? = none := by
        cases hfirst
        split_ifs <;> simp [InputItem.callIds, InputItem.outputCallId?]
      rw [hnone.1, callKeys_user]
      exact and_congr_left fun _ => iff_of_true (openedOnce_of_asks_none hnone.2)
        (by simp [resultKey, event])
    | toolResult r =>
      cases hfirst
      simp [OpenedOnce, InputItem.callIds, InputItem.outputCallId?, callKeys_toolResult,
        resultKey, event]
    | assistant a =>
      obtain ⟨hcalls, hnone⟩ := calls_convertBlocks hfirst
      rw [hcalls, callKeys_assistant (by simpa [isFailed] using hm)]
      exact and_congr_left fun _ => iff_of_true (openedOnce_of_asks_none hnone)
        (by simp [resultKey, event])

end

abbrev normalizer (model : TargetModel) (allowedToolCallProviders : List String) :
    Option NormalizeToolCallId :=
  some (normalizeToolCallId allowedToolCallProviders model.toModel)

def sentLabels (parse : String → Option Json) (model : TargetModel)
    (allowedToolCallProviders : List String) : Message → List Label
  | .assistant m =>
    if m.failed then []
    else labels parse model
      (.assistant (rewriteAssistant model.toModel (normalizer model allowedToolCallProviders) m))
  | _ => []

def carriedIds (parse : String → Option Json) (model : TargetModel)
    (allowedToolCallProviders : List String) (messages : List Message) : List Json :=
  (messages.flatMap (sentLabels parse model allowedToolCallProviders)).filterMap Label.own?

/-- No message has two texts without an id; the ids that are brought along are distinct, and none
is the number of a message; results are sent with the call id of a call, and calls that share one
come last. -/
structure IdsApart (now : ℕ → ToolCall → ℕ) (parse : String → Option Json) (model : TargetModel)
    (context : Context) (allowedToolCallProviders : List String) : Prop where
  oneNumbered : ∀ m ∈ context.messages,
    (sentLabels parse model allowedToolCallProviders m).count .numbered ≤ 1
  carried : (carriedIds parse model allowedToolCallProviders context.messages).Nodup
  apart : ∀ before m after,
    preparedMessages now model context allowedToolCallProviders = before ++ m :: after →
      .numbered ∈ labels parse model m →
        Json.string (numberedId (before.countP (isPushed model))) ∉
          carriedIds parse model allowedToolCallProviders context.messages
  resultsOpened : ResultsOpened callId model.toModel (normalizer model allowedToolCallProviders)
    context.messages
  sharedLast : SharedCallsLast callId model.toModel (normalizer model allowedToolCallProviders)
    context.messages

section

variable {parse : String → Option Json} {model : TargetModel}
  {allowedToolCallProviders : List String}

theorem mem_systemItems {context : Context} {includeSystemPrompt : Option Bool} {item : InputItem}
    (h : item ∈ systemItems model context includeSystemPrompt) :
    ∃ role content, item = .system role content := by
  rw [systemItems] at h
  cases hprompt : context.systemPrompt with
  | none =>
    rw [hprompt] at h
    cases h
  | some prompt =>
    simp only [hprompt, mem_ite_nil_right, mem_singleton] at h
    exact ⟨_, _, h.2⟩

theorem answered_iff {request : List InputItem} :
    (∀ before callId output after, request = before ++ .functionCallOutput callId output :: after →
        (before.flatMap InputItem.callIds).count callId = 1) ↔
      OpenedOnce InputItem.callIds InputItem.outputCallId? [] request := by
  rw [openedOnce_iff]
  constructor
  · intro h before item after k hsplit hk
    cases item with
    | functionCallOutput callId output =>
      obtain rfl := some.inj hk
      exact h before callId output after hsplit
    | system role content => cases hk
    | user content => cases hk
    | reasoning item => cases hk
    | message text id phase => cases hk
    | functionCall id callId name arguments => cases hk
  · intro h before callId output after hsplit
    exact h before _ after callId hsplit rfl

theorem labels_firstPass {idMap : OrderedMap String String} (ms : List Message) :
    ((firstPass model.toModel (normalizer model allowedToolCallProviders) idMap ms).filter
        fun m => !isFailed m).flatMap (labels parse model) =
      ms.flatMap (sentLabels parse model allowedToolCallProviders) := by
  induction ms generalizing idMap with
  | nil => rfl
  | cons m ms ih =>
    rw [firstPass_cons, filter_cons, isFailed_rewriteMessage, flatMap_cons]
    cases m with
    | user u => exact ih
    | toolResult r => exact ih
    | assistant a =>
      have hm : isFailed (.assistant a) = a.failed := rfl
      rw [hm]
      cases hfailed : a.failed with
      | true => simp [sentLabels, hfailed, ih]
      | false => simp [sentLabels, hfailed, ih, rewriteMessage]

theorem labels_prepared (now : ℕ → ToolCall → ℕ) (context : Context) :
    (preparedMessages now model context allowedToolCallProviders).flatMap (labels parse model) =
      context.messages.flatMap (sentLabels parse model allowedToolCallProviders) := by
  rw [preparedMessages, transformMessages,
    (withSynthetic_secondPass now _ [] []).flatMap_eq (fun _ => rfl)]
  exact labels_firstPass _

theorem oneNumbered_prepared (now : ℕ → ToolCall → ℕ) (context : Context) :
    (∀ m ∈ preparedMessages now model context allowedToolCallProviders,
        (labels parse model m).count .numbered ≤ 1) ↔
      ∀ m ∈ context.messages,
        (sentLabels parse model allowedToolCallProviders m).count .numbered ≤ 1 := by
  constructor
  · intro h m hm
    cases m with
    | user u => exact Nat.zero_le _
    | toolResult r => exact Nat.zero_le _
    | assistant a =>
      rw [sentLabels]
      split_ifs with hfailed
      · exact Nat.zero_le _
      · refine h _ ((assistant_mem_transformMessages now).mpr ⟨a, hm, ?_, rfl⟩)
        simpa using hfailed
  · intro h m hm
    cases m with
    | user u => exact Nat.zero_le _
    | toolResult r => exact Nat.zero_le _
    | assistant a =>
      obtain ⟨a, ha, hfailed, rfl⟩ := (assistant_mem_transformMessages now).mp hm
      have hone := h _ ha
      rwa [sentLabels, if_neg (by simpa using hfailed)] at hone

end

/-- The ids of a request agree exactly if those of its context are apart. -/
theorem convertResponsesMessages_idsAgree_iff (now : ℕ → ToolCall → ℕ)
    (parse : String → Option Json) (model : TargetModel) (context : Context)
    (allowedToolCallProviders : List String) (includeSystemPrompt : Option Bool)
    {request : List InputItem} (h : convertResponsesMessages now parse model context
      allowedToolCallProviders includeSystemPrompt = some request) :
    IdsAgree request ↔ IdsApart now parse model context allowedToolCallProviders := by
  obtain ⟨items, hitems, rfl⟩ := map_eq_some_iff.mp h
  have hfailed : ∀ m ∈ preparedMessages now model context allowedToolCallProviders,
      isFailed m = false :=
    (withSynthetic_secondPass now _ [] []).not_failed fun m hm => by
      simpa using (mem_filter.mp hm).2
  have hids : (systemItems model context includeSystemPrompt ++ items).filterMap InputItem.id? =
      (labelled parse model 0 (preparedMessages now model context allowedToolCallProviders)).map
        fun p => p.2.name p.1 := by
    have hsystem : (systemItems model context includeSystemPrompt).filterMap InputItem.id? = [] :=
      filterMap_eq_nil_iff.mpr fun item hitem => by
        obtain ⟨role, content, rfl⟩ := mem_systemItems hitem
        rfl
    rw [filterMap_append, hsystem, nil_append, ids_convertFrom hitems]
  have hcalls : OpenedOnce InputItem.callIds InputItem.outputCallId? []
        (systemItems model context includeSystemPrompt ++ items) ↔
      OpenedOnce (callKeys callId) (resultKey callId) []
        (preparedMessages now model context allowedToolCallProviders) := by
    have hsystem : (systemItems model context includeSystemPrompt).flatMap InputItem.callIds = [] :=
      flatMap_eq_nil_iff.mpr fun item hitem => by
        obtain ⟨role, content, rfl⟩ := mem_systemItems hitem
        rfl
    have hnone : OpenedOnce InputItem.callIds InputItem.outputCallId? []
        (systemItems model context includeSystemPrompt) :=
      openedOnce_of_asks_none fun item hitem => by
        obtain ⟨role, content, rfl⟩ := mem_systemItems hitem
        rfl
    rw [openedOnce_append, hsystem, append_nil, openedOnce_convertFrom hfailed hitems]
    exact and_iff_right hnone
  have hparts : IdsAgree (systemItems model context includeSystemPrompt ++ items) ↔ _ ∧ _ :=
    ⟨fun h => ⟨h.distinct, h.answered⟩, fun h => ⟨h.1, h.2⟩⟩
  rw [hparts, hids, answered_iff, hcalls, nodup_names_iff, own_labelled, labels_prepared,
    nodup_numbers_iff, oneNumbered_prepared, preparedMessages, openedOnce_transformMessages_iff]
  constructor
  · rintro ⟨⟨hown, hone, hapart⟩, hopened, hshared⟩
    exact ⟨hone, hown, fun before m after hsplit hm => hapart _
      (mem_numbers_iff.mpr ⟨before, m, after, hsplit, hm, (Nat.zero_add _).symm⟩), hopened, hshared⟩
  · rintro ⟨hone, hown, hapart, hopened, hshared⟩
    refine ⟨⟨hown, hone, fun n hn => ?_⟩, hopened, hshared⟩
    obtain ⟨before, m, after, hsplit, hm, rfl⟩ := mem_numbers_iff.mp hn
    rw [Nat.zero_add]
    exact hapart before m after hsplit hm

def responsesModel : TargetModel :=
  { id := "m", api := "openai-responses", provider := "openai", reasoning := true
    input := ["text"] }

/-- An answer from a provider, with reasoning before its text. -/
def reasonedAnswer (api provider : String) : AssistantMessage :=
  { content := [.thinking { thinking := "why", thinkingSignature := none, redacted := false },
      .text { text := "so", textSignature := none }]
    api, provider, model := "m"
    usage := { input := 0, output := 0, cacheRead := 0, cacheWrite := 0, totalTokens := 0 }
    stopReason := .stop, errorMessage := none, timestamp := 1 }

/-- Reasoning of the target model without signature is left out. -/
theorem convertResponsesMessages_idsAgree_iff_own :
    IdsAgree [.message (utf16 "so") "msg_0" none] ↔
      IdsApart (fun _ _ => 0) (fun _ => none) responsesModel
        { systemPrompt := none
          messages := [.assistant (reasonedAnswer "openai-responses" "openai")] } ["openai"] :=
  convertResponsesMessages_idsAgree_iff _ _ _ _ _ none rfl

/-- Reasoning of another model is a text without id, in the message of another one. -/
theorem foreignAnswer_not_idsAgree :
    let context : Context :=
      { systemPrompt := none
        messages := [.assistant (reasonedAnswer "anthropic-messages" "anthropic")] }
    (context.messages.flatMap TransformMessages.callIds).Nodup ∧
      ∃ request, convertResponsesMessages (fun _ _ => 0) (fun _ => none) responsesModel context
        ["openai"] none = some request ∧ ¬ IdsAgree request := by
  refine ⟨nodup_nil, [.message (utf16 "why") "msg_0" none, .message (utf16 "so") "msg_0" none],
    rfl, fun h => ?_⟩
  have hdistinct : [Json.string "msg_0", Json.string "msg_0"].Nodup := h.distinct
  simp at hdistinct

end Draht.ResponsesInput
