import Draht.EventStream
import Draht.Messages
import Draht.Text

/-!
# Streaming an answer

What a provider pushes while it streams an answer, and the parser of JSON of which the end may be
missing.
-/

namespace Draht

/-- What parses JSON, and JSON of which the end is missing. -/
structure JsonParser where
  parse : JsText → Option Json
  partialParse : JsText → Option Json

def JsonParser.parseStreamingJson (P : JsonParser) (partialJson : JsText) : Json :=
  if trim (fun c => isWhiteSpaceCode c.toNat) partialJson = [] then .object .nil
  else
    match P.parse partialJson with
    | some value => value
    | none =>
      match P.partialParse partialJson with
      | some .null => .object .nil
      | some value => value
      | none => .object .nil

/-- Each event also refers to the message, which is one for all of them. The index of a block is
`blocks.length - 1`. -/
inductive AssistantMessageEvent (τ : Type*) where
  | start
  | textStart (contentIndex : ℤ)
  | textDelta (contentIndex : ℤ) (delta : JsText)
  | textEnd (contentIndex : ℤ) (content : JsText)
  | thinkingStart (contentIndex : ℤ)
  | thinkingDelta (contentIndex : ℤ) (delta : JsText)
  | thinkingEnd (contentIndex : ℤ) (content : JsText)
  | toolcallStart (contentIndex : ℤ)
  | toolcallDelta (contentIndex : ℤ) (delta : JsText)
  | toolcallEnd (contentIndex : ℤ) (toolCall : τ)
  | done (reason : StopReason)
  | error (reason : StopReason)
deriving DecidableEq

namespace AssistantMessageEvent

variable {τ : Type*}

def isTerminal : AssistantMessageEvent τ → Bool
  | .done _ => true
  | .error _ => true
  | _ => false

/-- What is done to a stream that ends with an event: some content before it, and the end. -/
def EndsWith (ops : List (Produced (AssistantMessageEvent τ) Unit))
    (last : AssistantMessageEvent τ) : Prop :=
  ∃ content : List (AssistantMessageEvent τ),
    ops = content.map .push ++ [.push last, .ended none] ∧
      (∀ event ∈ content, event.isTerminal = false) ∧ last.isTerminal = true

theorem EndsWith.unique {ops : List (Produced (AssistantMessageEvent τ) Unit)}
    {last last' : AssistantMessageEvent τ} (h : EndsWith ops last) (h' : EndsWith ops last') :
    last = last' := by
  obtain ⟨content, rfl, _⟩ := h
  obtain ⟨content', hops, _⟩ := h'
  have hlast := (List.append_inj' hops rfl).2
  simpa using hlast

end AssistantMessageEvent

end Draht
