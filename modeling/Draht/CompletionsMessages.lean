import Draht.RequestContext
import Draht.SplitOn
import Draht.ToolCallIds
import Draht.TransformDialogue

/-!
# The messages of a completions request

Each assistant message becomes an object whose fields are written one after the other: the text,
the reasoning as text or under the name of its signature, the calls. What is written later can
overwrite the text, and a string has no `unshift`.
-/

namespace Draht.Completions
open List Option

open TransformMessages Providers ToolCallIds

structure OpenAICompletionsCompat where
  supportsDeveloperRole : Bool
  requiresAssistantAfterToolResult : Bool
  requiresThinkingAsText : Bool
  requiresToolResultName : Bool
deriving DecidableEq

inductive ContentPart where
  | text (text : JsText)
  | imageUrl (url : JsText)
deriving DecidableEq

structure ToolCallParam where
  id : String
  name : String
  arguments : JsText
deriving DecidableEq

/-- The content of an assistant message: `null`, a string, or text parts. -/
inductive Content where
  | null
  | string (text : JsText)
  | parts (texts : List JsText)
deriving DecidableEq

inductive Field where
  | content (value : Content)
  | toolCalls (calls : List ToolCallParam)
  | details (values : List Json)

abbrev AssistantParam := OrderedMap String Field

inductive MessageParam where
  | system (role : String) (content : JsText)
  | user (content : JsText)
  | userParts (content : List ContentPart)
  | assistant (fields : AssistantParam)
  | tool (content : JsText) (toolCallId : String) (name : Option String)

def text? : AssistantContent → Option TextContent
  | .text block => some block
  | _ => none

def thinking? : AssistantContent → Option ThinkingContent
  | .thinking block => some block
  | _ => none

def textBlocks (m : AssistantMessage) : List TextContent := m.content.filterMap text?

def thinkingBlocks (m : AssistantMessage) : List ThinkingContent := m.content.filterMap thinking?

/-- `s && s.trim().length > 0`. -/
def isNonEmpty (s : String) : Bool := s ≠ "" && jsTrim s ≠ ""

def nonEmptyTextBlocks (m : AssistantMessage) : List TextContent :=
  (textBlocks m).filter fun b => isNonEmpty b.text

def nonEmptyThinkingBlocks (m : AssistantMessage) : List ThinkingContent :=
  (thinkingBlocks m).filter fun b => isNonEmpty b.thinking

def thinkingText (m : AssistantMessage) : JsText :=
  [10, 10].intercalate ((nonEmptyThinkingBlocks m).map fun b => utf16 b.thinking)

def textContent (compat : OpenAICompletionsCompat) (m : AssistantMessage) : Content :=
  if 0 < (nonEmptyTextBlocks m).length then .string ((nonEmptyTextBlocks m).flatMap sentText)
  else if compat.requiresAssistantAfterToolResult then .string []
  else .null

/-- `textContent.unshift(…)`, or a new list where the content is falsy. -/
def Content.unshift (thinkingText : JsText) : Content → Except String Content
  | .null => .ok (.parts [thinkingText])
  | .string [] => .ok (.parts [thinkingText])
  | .string (_ :: _) => .error "textContent.unshift is not a function"
  | .parts texts => .ok (.parts (thinkingText :: texts))

def contentOf (compat : OpenAICompletionsCompat) (m : AssistantMessage) : Except String Content :=
  if compat.requiresThinkingAsText && decide (0 < (nonEmptyThinkingBlocks m).length) then
    (textContent compat m).unshift (thinkingText m)
  else .ok (textContent compat m)

def replaySignature (m : AssistantMessage) : Option String :=
  ((thinkingBlocks m).find? fun b => TransformMessages.isTruthy b.thinkingSignature).bind
    ThinkingContent.thinkingSignature

def replayedText (m : AssistantMessage) (signature : String) : JsText :=
  [10].intercalate (((thinkingBlocks m).filter fun b => b.thinkingSignature = some signature).map
    fun b => utf16 b.thinking)

/-- `assistantMsg[key] = text`. The prototype of an object is never a string. -/
def assign (message : AssistantParam) (key : String) (text : JsText) : AssistantParam :=
  if key = "__proto__" then message else message.set key (.content (.string text))

def withReasoning (compat : OpenAICompletionsCompat) (m : AssistantMessage)
    (message : AssistantParam) : AssistantParam :=
  if compat.requiresThinkingAsText then message
  else
    match replaySignature m with
    | some signature => assign message signature (replayedText m signature)
    | none => message

def isTruthyJson : Json → Bool
  | .null => false
  | .bool b => b
  | .number text => text ≠ "0"
  | .string s => s ≠ ""
  | _ => true

/-- The signatures of the calls that `JSON.parse` reads as something truthy. -/
def reasoningDetails (parse : String → Option Json) (toolCalls : List ToolCall) : List Json :=
  ((toolCalls.filter fun tc => TransformMessages.isTruthy tc.thoughtSignature).filterMap fun tc =>
    tc.thoughtSignature.bind parse).filter isTruthyJson

def toolCallParam (tc : ToolCall) : ToolCallParam :=
  { id := tc.id
    name := tc.name
    arguments := utf16Chars (Json.object tc.arguments).stringify }

def withToolCalls (parse : String → Option Json) (m : AssistantMessage) (message : AssistantParam) :
    AssistantParam :=
  if 0 < m.toolCalls.length then
    let message := message.set "tool_calls" (.toolCalls (m.toolCalls.map toolCallParam))
    let details := reasoningDetails parse m.toolCalls
    if 0 < details.length then message.set "reasoning_details" (.details details) else message
  else message

def Field.isTruthy : Field → Bool
  | .content .null => false
  | .content (.string text) => 0 < text.length
  | _ => true

/-- Not `null`, and of a length over 0. -/
def Field.hasLength : Field → Bool
  | .content .null => false
  | .content (.string text) => 0 < text.length
  | .content (.parts texts) => 0 < texts.length
  | .toolCalls calls => 0 < calls.length
  | .details values => 0 < values.length

def initialMessage (content : Content) : AssistantParam :=
  (OrderedMap.empty.set "role" (.content (.string (utf16 "assistant")))).set "content"
    (.content content)

/-- The object of an assistant message; none where it is left out. -/
def convertAssistant (compat : OpenAICompletionsCompat) (parse : String → Option Json)
    (m : AssistantMessage) : Except String (Option AssistantParam) := do
  let content ← contentOf compat m
  let message := withToolCalls parse m (withReasoning compat m (initialMessage content))
  let hasContent := (message.get "content").any Field.hasLength
  let hasReasoning := (thinkingBlocks m).any fun b => TransformMessages.isTruthy b.thinkingSignature
  if !hasContent && !hasReasoning && !(message.get "tool_calls").any Field.isTruthy then
    return none
  return some message

inductive Role where
  | user
  | assistant
  | toolResult
deriving DecidableEq

/-- A message, or tool results in a row. -/
inductive Turn where
  | user (message : UserMessage)
  | assistant (message : AssistantMessage)
  | toolResults (messages : List ToolResultMessage)

def turns : List Message → List Turn
  | [] => []
  | .user m :: rest => .user m :: turns rest
  | .assistant m :: rest => .assistant m :: turns rest
  | .toolResult m :: rest =>
    match turns rest with
    | .toolResults ms :: after => .toolResults (m :: ms) :: after
    | after => .toolResults [m] :: after

/-- A message of the request with the assistant message that it stands for. -/
structure Pushed where
  message : Option AssistantMessage
  param : MessageParam

def contentPart : ContentBlock → ContentPart
  | .text block => .text (sanitizeSurrogates false (utf16 block.text))
  | .image block => .imageUrl (dataUrl block)

def ContentPart.isImage : ContentPart → Bool
  | .imageUrl _ => true
  | .text _ => false

/-- The message of the user; none where no part is left. -/
def convertUser (model : TargetModel) (m : UserMessage) : Option MessageParam :=
  match m.content with
  | .string s => some (.user (sanitizeSurrogates false (utf16 s)))
  | .blocks bs =>
    let content := bs.map contentPart
    let filteredContent :=
      if "image" ∉ model.input then content.filter (fun c => !c.isImage) else content
    if filteredContent.length = 0 then none else some (.userParts filteredContent)

def bridge : Pushed :=
  { message := none
    param := .assistant (initialMessage (.string (utf16 "I have processed the tool results."))) }

def resultImage? : ContentBlock → Option ContentPart
  | .image block => some (.imageUrl (dataUrl block))
  | .text _ => none

def toolResultParam (compat : OpenAICompletionsCompat) (m : ToolResultMessage) : Pushed :=
  let textResult := [10].intercalate (m.content.filterMap resultText?)
  { message := none
    param := .tool
      (sanitizeSurrogates false
        (if 0 < textResult.length then textResult else utf16 "(see attached image)"))
      m.toolCallId
      (if compat.requiresToolResultName && m.toolName ≠ "" then some m.toolName else none) }

def imageBlocks (model : TargetModel) (ms : List ToolResultMessage) : List ContentPart :=
  ms.flatMap fun m => if "image" ∈ model.input then m.content.filterMap resultImage? else []

/-- What is pushed for a turn, with the role that is remembered. A message that is left out leaves
the role as it was. -/
def pushTurn (compat : OpenAICompletionsCompat) (parse : String → Option Json)
    (model : TargetModel) (lastRole : Option Role) :
    Turn → Except String (List Pushed × Option Role)
  | .user m =>
    let bridges :=
      if compat.requiresAssistantAfterToolResult && lastRole = some .toolResult then [bridge]
      else []
    match convertUser model m with
    | none => .ok (bridges, lastRole)
    | some param => .ok (bridges ++ [⟨none, param⟩], some .user)
  | .assistant m => do
      match ← convertAssistant compat parse m with
      | none => return ([], lastRole)
      | some fields => return ([⟨some m, .assistant fields⟩], some .assistant)
  | .toolResults ms =>
    let results := ms.map (toolResultParam compat)
    let images := imageBlocks model ms
    if 0 < images.length then
      .ok (results ++ (if compat.requiresAssistantAfterToolResult then [bridge] else []) ++
        [⟨none, .userParts (.text (utf16 "Attached image(s) from tool result:") :: images)⟩],
        some .user)
    else .ok (results, some .toolResult)

def pushTurns (compat : OpenAICompletionsCompat) (parse : String → Option Json)
    (model : TargetModel) : Option Role → List Turn → Except String (List Pushed)
  | _, [] => .ok []
  | lastRole, turn :: rest => do
      let (pushed, lastRole) ← pushTurn compat parse model lastRole turn
      let after ← pushTurns compat parse model lastRole rest
      return pushed ++ after

def systemMessages (compat : OpenAICompletionsCompat) (model : TargetModel) (context : Context) :
    List Pushed :=
  match context.systemPrompt with
  | some prompt =>
    if prompt = "" then []
    else
      let useDeveloperRole := model.reasoning && compat.supportsDeveloperRole
      [⟨none, .system (if useDeveloperRole then "developer" else "system")
        (sanitizeSurrogates false (utf16 prompt))⟩]
  | none => []

def preparedMessages (now : ℕ → ToolCall → ℕ) (model : TargetModel) (context : Context) :
    List Message :=
  transformMessages now context.messages model.toModel
    (some fun id _ _ => completionsToolCallId model.toModel id)

/-- The messages of the request, each with the message that it stands for. -/
def pushMessages (now : ℕ → ToolCall → ℕ) (parse : String → Option Json) (model : TargetModel)
    (context : Context) (compat : OpenAICompletionsCompat) : Except String (List Pushed) := do
  let pushed ← pushTurns compat parse model none (turns (preparedMessages now model context))
  return systemMessages compat model context ++ pushed

def convertMessages (now : ℕ → ToolCall → ℕ) (parse : String → Option Json) (model : TargetModel)
    (context : Context) (compat : OpenAICompletionsCompat) : Except String (List MessageParam) :=
  (pushMessages now parse model context compat).map (List.map Pushed.param)

def Content.Contains (text : JsText) : Content → Prop
  | .null => False
  | .string s => text <:+: s
  | .parts texts => ∃ s ∈ texts, text <:+: s

def MessageParam.Contains (text : JsText) : MessageParam → Prop
  | .assistant fields => ∃ content, fields.get "content" = some (.content content) ∧
      content.Contains text
  | _ => False

def textsOf (compat : OpenAICompletionsCompat) (m : AssistantMessage) : List JsText :=
  (nonEmptyTextBlocks m).map sentText ++
    if compat.requiresThinkingAsText then (nonEmptyThinkingBlocks m).map fun b => utf16 b.thinking
    else []

/-- Each assistant message of the request has its texts in its content. -/
def KeepsPushed (compat : OpenAICompletionsCompat) (pushed : List Pushed) : Prop :=
  ∀ p ∈ pushed, ∀ m, p.message = some m → ∀ text ∈ textsOf compat m, p.param.Contains text

def KeepsText (now : ℕ → ToolCall → ℕ) (parse : String → Option Json) (model : TargetModel)
    (context : Context) (compat : OpenAICompletionsCompat) : Prop :=
  ∃ pushed, pushMessages now parse model context compat = .ok pushed ∧
    convertMessages now parse model context compat = .ok (pushed.map Pushed.param) ∧
    KeepsPushed compat pushed

/-- Reasoning that becomes text has no text beside it; reasoning that is replayed as `content` has
the text in it. -/
def Replayable (compat : OpenAICompletionsCompat) (m : AssistantMessage) : Prop :=
  if compat.requiresThinkingAsText then nonEmptyTextBlocks m = [] ∨ nonEmptyThinkingBlocks m = []
  else replaySignature m = some "content" →
    ∀ b ∈ nonEmptyTextBlocks m, sentText b <:+: replayedText m "content"

section

variable {compat : OpenAICompletionsCompat} {parse : String → Option Json} {m : AssistantMessage}

theorem isNonEmpty_ne {s : String} (h : isNonEmpty s = true) : utf16 s ≠ [] := by
  intro hnil
  rw [utf16_eq_nil_iff.mp hnil] at h
  simp [isNonEmpty] at h

theorem infix_flatMap {α β : Type*} {f : α → List β} {x : α} {xs : List α} (h : x ∈ xs) :
    f x <:+: xs.flatMap f := by
  obtain ⟨before, after, rfl⟩ := append_of_mem h
  exact ⟨before.flatMap f, after.flatMap f, by simp⟩

variable (compat) in
theorem textContent_of_ne_nil (h : nonEmptyTextBlocks m ≠ []) :
    ∃ u rest, textContent compat m = .string (u :: rest) ∧
      ∀ b ∈ nonEmptyTextBlocks m, sentText b <:+: u :: rest := by
  have htext : (nonEmptyTextBlocks m).flatMap sentText ≠ [] := by
    obtain ⟨b, hb⟩ := exists_mem_of_ne_nil _ h
    have hne := isNonEmpty_ne (mem_filter.mp hb).2
    rw [← sentText_eq] at hne
    exact fun hnil => hne (flatMap_eq_nil_iff.mp hnil b hb)
  obtain ⟨u, rest, hcons⟩ := exists_cons_of_ne_nil htext
  refine ⟨u, rest, by rw [textContent, if_pos (length_pos_iff.mpr h), hcons], fun b hb => ?_⟩
  exact hcons ▸ infix_flatMap hb

theorem textContent_contains {b : TextContent} (hb : b ∈ nonEmptyTextBlocks m) :
    (textContent compat m).Contains (sentText b) := by
  obtain ⟨u, rest, htext, hcontains⟩ :=
    textContent_of_ne_nil compat (ne_nil_of_mem hb)
  rw [htext]
  exact hcontains b hb

theorem textContent_unshift (h : nonEmptyTextBlocks m = []) (text : JsText) :
    (textContent compat m).unshift text = .ok (.parts [text]) := by
  rw [textContent, h, if_neg (by simp)]
  split <;> rfl

theorem contentOf_ok_iff : (∃ content, contentOf compat m = .ok content) ↔
    (compat.requiresThinkingAsText = true →
      nonEmptyTextBlocks m = [] ∨ nonEmptyThinkingBlocks m = []) := by
  by_cases hthinking : compat.requiresThinkingAsText = true ∧ nonEmptyThinkingBlocks m ≠ []
  · rw [contentOf, if_pos (by simpa [length_pos_iff] using hthinking)]
    by_cases htext : nonEmptyTextBlocks m = []
    · simp [textContent_unshift htext, htext]
    · obtain ⟨u, rest, hstring, _⟩ := textContent_of_ne_nil compat htext
      simp [hstring, Content.unshift, htext, hthinking.1, hthinking.2]
  · rw [contentOf, if_neg (by simpa [length_pos_iff] using hthinking)]
    refine ⟨fun _ hcompat => .inr ?_, fun _ => ⟨_, rfl⟩⟩
    by_contra hne
    exact hthinking ⟨hcompat, hne⟩

theorem contentOf_contains (hcompat : compat.requiresThinkingAsText = true) {content : Content}
    (h : contentOf compat m = .ok content) : ∀ text ∈ textsOf compat m, content.Contains text := by
  intro text htext
  rw [textsOf, if_pos hcompat, List.mem_append, List.mem_map, List.mem_map] at htext
  have hone := contentOf_ok_iff.mp ⟨content, h⟩ hcompat
  by_cases hthinking : nonEmptyThinkingBlocks m = []
  · rw [contentOf, if_neg (by simp [hthinking])] at h
    cases h
    obtain ⟨b, hb, rfl⟩ | ⟨b, hb, rfl⟩ := htext
    · exact textContent_contains hb
    · exact absurd hb (by simp [hthinking])
  · have hnone := hone.resolve_right hthinking
    rw [contentOf, if_pos (by simp [hcompat, length_pos_iff, hthinking]),
      textContent_unshift hnone] at h
    cases h
    obtain ⟨b, hb, rfl⟩ | ⟨b, hb, rfl⟩ := htext
    · exact absurd hb (by simp [hnone])
    · exact ⟨_, mem_singleton_self _, infix_intercalate _ (mem_map_of_mem hb)⟩

theorem get_withToolCalls (message : AssistantParam) :
    (withToolCalls parse m message).get "content" = message.get "content" := by
  simp only [withToolCalls]
  split_ifs <;> simp

theorem get_assign (message : AssistantParam) (key : String) (text : JsText) :
    (assign message key text).get "content" =
      if key = "content" then some (.content (.string text)) else message.get "content" := by
  by_cases hproto : key = "__proto__"
  · subst hproto
    simp [assign]
  · rw [assign, if_neg hproto, OrderedMap.get_set]

theorem get_initialMessage (content : Content) :
    (initialMessage content).get "content" = some (.content content) := by
  simp [initialMessage]

/-- The content of the object before the calls are written. -/
def finalContent (compat : OpenAICompletionsCompat) (m : AssistantMessage) (content : Content) :
    Content :=
  if compat.requiresThinkingAsText = false ∧ replaySignature m = some "content" then
    .string (replayedText m "content")
  else content

theorem get_withReasoning (content : Content) :
    (withReasoning compat m (initialMessage content)).get "content" =
      some (.content (finalContent compat m content)) := by
  rw [withReasoning, finalContent]
  cases hcompat : compat.requiresThinkingAsText with
  | true => simp [get_initialMessage]
  | false =>
    cases hsignature : replaySignature m with
    | none => simp [get_initialMessage]
    | some signature =>
      by_cases hcontent : signature = "content"
      · simp [get_assign, hcontent]
      · simp [get_assign, hcontent, get_initialMessage]

theorem convertAssistant_isOk_iff : (∃ out, convertAssistant compat parse m = .ok out) ↔
    ∃ content, contentOf compat m = .ok content := by
  rw [convertAssistant]
  cases contentOf compat m with
  | error e => exact ⟨nofun, nofun⟩
  | ok content =>
    refine ⟨fun _ => ⟨content, rfl⟩, fun _ => ?_⟩
    simp only [bind, Except.bind]
    split_ifs <;> exact ⟨_, rfl⟩

theorem get_convertAssistant {fields : AssistantParam}
    (h : convertAssistant compat parse m = .ok (some fields)) :
    ∃ content, contentOf compat m = .ok content ∧
      fields.get "content" = some (.content (finalContent compat m content)) := by
  rw [convertAssistant] at h
  cases hcontent : contentOf compat m with
  | error e => rw [hcontent] at h; cases h
  | ok content =>
    rw [hcontent] at h
    simp only [bind, Except.bind] at h
    split_ifs at h
    · cases h
    · obtain rfl := some.inj (Except.ok.inj h)
      exact ⟨content, rfl, by rw [get_withToolCalls, get_withReasoning]⟩

theorem convertAssistant_of_signature {signature : String}
    (hsignature : replaySignature m = some signature) {content : Content}
    (hcontent : contentOf compat m = .ok content) :
    ∃ fields, convertAssistant compat parse m = .ok (some fields) := by
  have hreasoning : (thinkingBlocks m).any (fun b =>
      TransformMessages.isTruthy b.thinkingSignature) = true := by
    obtain ⟨b, hfind, _⟩ := bind_eq_some_iff.mp hsignature
    have htruthy := find?_some hfind
    exact any_eq_true.mpr ⟨b, mem_of_find?_eq_some hfind, htruthy⟩
  rw [convertAssistant, hcontent]
  simp [bind, Except.bind, hreasoning, pure, Except.pure]

/-- The message is converted, and its object has its texts in its content. -/
def Keeps (compat : OpenAICompletionsCompat) (parse : String → Option Json)
    (m : AssistantMessage) : Prop :=
  ∃ out, convertAssistant compat parse m = .ok out ∧ ∀ fields, out = some fields →
    ∀ text ∈ textsOf compat m, (MessageParam.assistant fields).Contains text

variable (parse) in
theorem keeps_iff : Keeps compat parse m ↔ Replayable compat m := by
  constructor
  · rintro ⟨out, hout, hkeeps⟩
    have hok := convertAssistant_isOk_iff.mp ⟨out, hout⟩
    rw [Replayable]
    split_ifs with hcompat
    · exact contentOf_ok_iff.mp hok hcompat
    · intro hsignature b hb
      obtain ⟨fields, hfields⟩ := convertAssistant_of_signature hsignature hok.choose_spec
      obtain ⟨content, _, hget⟩ := get_convertAssistant hfields
      have hsome : out = some fields := Except.ok.inj (hout.symm.trans hfields)
      obtain ⟨c, hc, hcontains⟩ := hkeeps fields hsome (sentText b)
        (mem_append_left _ (mem_map_of_mem hb))
      rw [hget, finalContent, if_pos ⟨by simpa using hcompat, hsignature⟩] at hc
      obtain rfl := Field.content.inj (some.inj hc)
      exact hcontains
  · intro h
    have hok : ∃ content, contentOf compat m = .ok content := contentOf_ok_iff.mpr fun hcompat => by
      rwa [Replayable, if_pos hcompat] at h
    obtain ⟨out, hout⟩ : ∃ out, convertAssistant compat parse m = .ok out :=
      convertAssistant_isOk_iff.mpr hok
    refine ⟨out, hout, fun fields hsome text htext => ?_⟩
    obtain ⟨content, hcontent, hget⟩ := get_convertAssistant (hsome ▸ hout)
    refine ⟨_, hget, ?_⟩
    rw [finalContent]
    by_cases hcompat : compat.requiresThinkingAsText = true
    · rw [if_neg (by simp [hcompat])]
      exact contentOf_contains hcompat hcontent text htext
    · rw [textsOf, if_neg hcompat, List.append_nil, List.mem_map] at htext
      obtain ⟨b, hb, rfl⟩ := htext
      rw [Replayable, if_neg hcompat] at h
      split_ifs with hfinal
      · exact h hfinal.2 b hb
      · rw [contentOf, if_neg (by simp [hcompat])] at hcontent
        cases hcontent
        exact textContent_contains hb

end

section

variable {compat : OpenAICompletionsCompat} {parse : String → Option Json} {model : TargetModel}

theorem assistant_mem_turns {m : AssistantMessage} {ms : List Message} :
    .assistant m ∈ turns ms ↔ .assistant m ∈ ms := by
  induction ms with
  | nil => simp [turns]
  | cons x ms ih =>
    cases x with
    | user u => simp [turns, ih]
    | assistant a => simp [turns, ih]
    | toolResult r =>
      rw [mem_cons, ← ih, turns]
      split <;> simp_all

theorem keepsPushed_append {xs ys : List Pushed} :
    KeepsPushed compat (xs ++ ys) ↔ KeepsPushed compat xs ∧ KeepsPushed compat ys :=
  forall_mem_append

theorem keepsPushed_of_other {pushed : List Pushed} (h : ∀ p ∈ pushed, p.message = none) :
    KeepsPushed compat pushed := by
  intro p hp m hm
  rw [h p hp] at hm
  cases hm

theorem results_message (ms : List ToolResultMessage) :
    ∀ p ∈ ms.map (toolResultParam compat), p.message = none := by
  intro p hp
  obtain ⟨m, _, rfl⟩ := mem_map.mp hp
  rfl

theorem bridges_message (condition : Prop) [Decidable condition] :
    ∀ p ∈ if condition then [bridge] else [], p.message = none := by
  split_ifs
  · simp [bridge]
  · simp

variable (compat parse model) in
theorem pushTurn_other (lastRole : Option Role) {turn : Turn} (hturn : ∀ m, turn ≠ .assistant m) :
    ∃ pushed role, pushTurn compat parse model lastRole turn = .ok (pushed, role) ∧
      ∀ p ∈ pushed, p.message = none := by
  cases turn with
  | assistant m => exact absurd rfl (hturn m)
  | user m =>
    rw [pushTurn]
    cases convertUser model m with
    | none => exact ⟨_, _, rfl, bridges_message _⟩
    | some param =>
      exact ⟨_, _, rfl, forall_mem_append.mpr ⟨bridges_message _, by simp⟩⟩
  | toolResults ms =>
    by_cases himages : 0 < (imageBlocks model ms).length
    · refine ⟨_, _, if_pos himages, ?_⟩
      simp only [forall_mem_append]
      exact ⟨⟨results_message ms, bridges_message _⟩, by simp⟩
    · exact ⟨_, _, if_neg himages, results_message ms⟩

variable (compat parse model) in
theorem pushTurn_keeps_iff (lastRole : Option Role) (turn : Turn) :
    (∃ pushed role, pushTurn compat parse model lastRole turn = .ok (pushed, role) ∧
        KeepsPushed compat pushed) ↔
      ∀ m, turn = .assistant m → Keeps compat parse m := by
  by_cases hturn : ∀ m, turn ≠ .assistant m
  · obtain ⟨pushed, role, hpush, hother⟩ := pushTurn_other compat parse model lastRole hturn
    exact ⟨fun _ m h => absurd h (hturn m),
      fun _ => ⟨pushed, role, hpush, keepsPushed_of_other hother⟩⟩
  · push Not at hturn
    obtain ⟨m, rfl⟩ := hturn
    simp only [Turn.assistant.injEq, forall_eq']
    rw [pushTurn, Keeps]
    cases convertAssistant compat parse m with
    | error e => exact ⟨nofun, nofun⟩
    | ok out =>
      cases out with
      | none => exact ⟨fun _ => ⟨none, rfl, nofun⟩, fun _ => ⟨[], _, rfl, nofun⟩⟩
      | some fields =>
        constructor
        · rintro ⟨pushed, role, hpush, hkeeps⟩
          obtain ⟨rfl, rfl⟩ := Prod.mk.inj (Except.ok.inj hpush)
          refine ⟨_, rfl, fun fields' hfields => ?_⟩
          cases hfields
          exact hkeeps _ (mem_singleton_self _) m rfl
        · rintro ⟨out, hout, hkeeps⟩
          refine ⟨_, _, rfl, fun p hp m' hm' => ?_⟩
          obtain rfl := mem_singleton.mp hp
          cases hm'
          exact hkeeps fields (Except.ok.inj hout).symm

variable (model) in
theorem pushTurns_keeps_iff (lastRole : Option Role) (ts : List Turn) :
    (∃ pushed, pushTurns compat parse model lastRole ts = .ok pushed ∧
        KeepsPushed compat pushed) ↔
      ∀ m, .assistant m ∈ ts → Keeps compat parse m := by
  induction ts generalizing lastRole with
  | nil => exact ⟨nofun, fun _ => ⟨[], rfl, nofun⟩⟩
  | cons turn ts ih =>
    have hstep := pushTurn_keeps_iff compat parse model lastRole turn
    simp only [mem_cons, or_imp, forall_and, eq_comm (b := turn), ← hstep]
    rw [pushTurns]
    constructor
    · rintro ⟨pushed, hpush, hkeeps⟩
      rcases hturn : pushTurn compat parse model lastRole turn with e | ⟨first, role⟩
      · rw [hturn] at hpush; cases hpush
      · rcases hrest : pushTurns compat parse model role ts with e | after
        · simp [hturn, hrest, bind, Except.bind] at hpush
        · simp only [hturn, hrest, bind, Except.bind] at hpush
          cases hpush
          obtain ⟨hfirst, hafter⟩ := keepsPushed_append.mp hkeeps
          exact ⟨⟨first, role, rfl, hfirst⟩, (ih role).mp ⟨after, hrest, hafter⟩⟩
    · rintro ⟨⟨first, role, hturn, hfirst⟩, hrest⟩
      obtain ⟨after, hafter, hkeeps⟩ := (ih role).mpr hrest
      exact ⟨first ++ after, by simp [hturn, hafter, bind, Except.bind, pure, Except.pure],
        keepsPushed_append.mpr ⟨hfirst, hkeeps⟩⟩

end

section

variable {model : Model} {normalizeToolCallId : Option NormalizeToolCallId}

theorem textBlocks_rewriteAssistant {m : AssistantMessage} (hsame : isSameModel model m = true) :
    textBlocks (rewriteAssistant model normalizeToolCallId m) = textBlocks m := by
  rw [textBlocks, textBlocks, rewriteAssistant, hsame, filterMap_flatMap]
  induction m.content with
  | nil => rfl
  | cons block content ih =>
    rw [flatMap_cons, ih]
    cases block with
    | text block => rfl
    | toolCall tc => rfl
    | thinking block =>
      have hnone : (transformThinking true block).filterMap text? = [] := by
        rw [transformThinking]
        split_ifs <;> first | rfl | simp_all
      rw [rewriteBlock, hnone]
      rfl

/-- A block of the target model is left out where it holds neither text nor a signature. -/
def isKept (b : ThinkingContent) : Bool :=
  b.redacted || TransformMessages.isTruthy b.thinkingSignature || isNonEmpty b.thinking

theorem thinkingBlocks_rewriteAssistant {m : AssistantMessage}
    (hsame : isSameModel model m = true) :
    thinkingBlocks (rewriteAssistant model normalizeToolCallId m) =
      (thinkingBlocks m).filter isKept := by
  rw [thinkingBlocks, thinkingBlocks, rewriteAssistant, hsame, filterMap_flatMap]
  induction m.content with
  | nil => rfl
  | cons block content ih =>
    rw [flatMap_cons, ih]
    cases block with
    | text block => rfl
    | toolCall tc => rfl
    | thinking block =>
      have hblock : (transformThinking true block).filterMap thinking? =
          [block].filter isKept := by
        cases hredacted : block.redacted <;>
          cases htruthy : TransformMessages.isTruthy block.thinkingSignature <;>
          by_cases hempty : block.thinking = "" <;>
          by_cases hblank : jsTrim block.thinking = "" <;>
          simp_all [transformThinking, isKept, isNonEmpty, thinking?]
      rw [rewriteBlock, hblock, ← filter_append]
      rfl

theorem thinkingBlocks_foreign {m : AssistantMessage} (hsame : ¬ isSameModel model m = true) :
    thinkingBlocks (rewriteAssistant model normalizeToolCallId m) = [] := by
  have hfalse : isSameModel model m = false := by simpa using hsame
  rw [thinkingBlocks, rewriteAssistant, hfalse, filterMap_flatMap, flatMap_eq_nil_iff]
  intro block _
  cases block with
  | text block => rfl
  | toolCall tc => rfl
  | thinking block =>
    rw [rewriteBlock, transformThinking]
    split_ifs <;> simp_all [thinking?]

theorem replayable_rewriteAssistant (compat : OpenAICompletionsCompat) (m : AssistantMessage) :
    Replayable compat (rewriteAssistant model normalizeToolCallId m) ↔
      (isSameModel model m = true → Replayable compat m) := by
  by_cases hsame : isSameModel model m = true
  · have htext : nonEmptyTextBlocks (rewriteAssistant model normalizeToolCallId m) =
        nonEmptyTextBlocks m := by
      rw [nonEmptyTextBlocks, textBlocks_rewriteAssistant hsame]
      rfl
    have hthinking : nonEmptyThinkingBlocks (rewriteAssistant model normalizeToolCallId m) =
        nonEmptyThinkingBlocks m := by
      rw [nonEmptyThinkingBlocks, thinkingBlocks_rewriteAssistant hsame, List.filter_filter]
      exact filter_congr fun b _ => by cases hb : isNonEmpty b.thinking <;> simp [isKept, hb]
    have hsignature : replaySignature (rewriteAssistant model normalizeToolCallId m) =
        replaySignature m := by
      have hkept : (fun b => decide (isKept b = true ∧
            TransformMessages.isTruthy b.thinkingSignature = true)) =
          fun b => TransformMessages.isTruthy b.thinkingSignature := by
        funext b
        cases hb : TransformMessages.isTruthy b.thinkingSignature <;> simp [isKept, hb]
      rw [replaySignature, thinkingBlocks_rewriteAssistant hsame, find?_filter, hkept]
      rfl
    have hreplayed : replayedText (rewriteAssistant model normalizeToolCallId m) "content" =
        replayedText m "content" := by
      rw [replayedText, thinkingBlocks_rewriteAssistant hsame, List.filter_filter, replayedText]
      refine congrArg _ (congrArg _ (filter_congr fun b _ => ?_))
      by_cases hb : b.thinkingSignature = some "content" <;>
        simp [isKept, hb, TransformMessages.isTruthy]
    rw [Replayable, htext, hthinking, hsignature, hreplayed]
    simp [hsame, Replayable]
  · have hnone : thinkingBlocks (rewriteAssistant model normalizeToolCallId m) = [] :=
      thinkingBlocks_foreign hsame
    simp [Replayable, hsame, nonEmptyThinkingBlocks, replaySignature, hnone]

end

/-- A request keeps its texts exactly if no message of the target model that has not failed has
reasoning put before its text as text, or replayed over it. -/
theorem convertMessages_keepsText_iff (now : ℕ → ToolCall → ℕ) (parse : String → Option Json)
    (model : TargetModel) (context : Context) (compat : OpenAICompletionsCompat) :
    KeepsText now parse model context compat ↔
      ∀ m, .assistant m ∈ context.messages → m.failed = false →
        isSameModel model.toModel m = true → Replayable compat m := by
  have hrun : KeepsText now parse model context compat ↔
      ∀ m, .assistant m ∈ preparedMessages now model context → Replayable compat m := by
    simp only [← keeps_iff parse, ← assistant_mem_turns]
    rw [← pushTurns_keeps_iff model none, KeepsText, convertMessages, pushMessages]
    constructor
    · rintro ⟨pushed, hpush, _, hkeeps⟩
      cases hturns : pushTurns compat parse model none
          (turns (preparedMessages now model context)) with
      | error e => rw [hturns] at hpush; cases hpush
      | ok after =>
        rw [hturns] at hpush
        cases hpush
        exact ⟨after, rfl, (keepsPushed_append.mp hkeeps).2⟩
    · rintro ⟨after, hafter, hkeeps⟩
      rw [hafter]
      refine ⟨_, rfl, rfl, keepsPushed_append.mpr ⟨keepsPushed_of_other ?_, hkeeps⟩⟩
      rw [systemMessages]
      cases context.systemPrompt with
      | none => exact nofun
      | some prompt =>
        by_cases hprompt : prompt = ""
        · simp [hprompt]
        · simp [hprompt]
  rw [hrun, preparedMessages]
  simp only [assistant_mem_transformMessages]
  constructor
  · intro h m hm hfailed
    exact (replayable_rewriteAssistant compat m).mp (h _ ⟨m, hm, hfailed, rfl⟩)
  · rintro h _ ⟨m, hm, hfailed, rfl⟩
    exact (replayable_rewriteAssistant compat m).mpr (h m hm hfailed)

def thinkingAsText : OpenAICompletionsCompat :=
  { supportsDeveloperRole := false
    requiresAssistantAfterToolResult := false
    requiresThinkingAsText := true
    requiresToolResultName := false }

def textModel : TargetModel :=
  { id := "m", api := "openai-completions", provider := "p", reasoning := true, input := ["text"] }

def reasonedAnswer : AssistantMessage :=
  { content := [.thinking { thinking := "why", thinkingSignature := none, redacted := false },
      .text { text := "so", textSignature := none }]
    api := "openai-completions", provider := "p", model := "m"
    usage := { input := 0, output := 0, cacheRead := 0, cacheWrite := 0, totalTokens := 0 }
    stopReason := .stop, errorMessage := none, timestamp := 1 }

theorem reasonedAnswer_refused :
    ¬ KeepsText (fun _ _ => 0) (fun _ => none) textModel
      { systemPrompt := none, messages := [.assistant reasonedAnswer] } thinkingAsText := by
  rintro ⟨pushed, hpush, _⟩
  cases hpush

end Draht.Completions
