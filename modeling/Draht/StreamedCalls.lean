import Draht.ProviderStream
import Mathlib.Data.List.Forall2

/-!
# Calls as they are streamed

A tool call is streamed as a text, in pieces, perhaps after an input. What the call gets as its
arguments is a reading of that text, even if the text is cut off.
-/

namespace Draht

theorem forall₂_modify {α β : Type*} {R : α → β → Prop} {xs : List α} {ys : List β}
    (h : List.Forall₂ R xs ys) (i : ℕ) {f : α → α} {g : β → β}
    (hfg : ∀ x y, xs[i]? = some x → ys[i]? = some y → R x y → R (f x) (g y)) :
    List.Forall₂ R (xs.modify i f) (ys.modify i g) := by
  induction h generalizing i with
  | nil => simp
  | cons hxy hrest ih =>
    cases i with
    | zero => exact .cons (hfg _ _ rfl rfl hxy) hrest
    | succ i => exact .cons hxy (ih i hfg)

/-- `stopReason === "error" || stopReason === "aborted"`. -/
def StopReason.failed (reason : StopReason) : Bool := reason = .error || reason = .aborted

namespace Providers

/-- A call with the input that it starts with and its whole text. -/
structure StreamedCall where
  input : Json
  text : JsText
deriving DecidableEq

/-- `JSON.parse` takes no text that is only white space. -/
def RejectsBlank (P : JsonParser) : Prop :=
  ∀ text, trim (fun c => isWhiteSpaceCode c.toNat) text = [] → P.parse text = none

namespace StreamedCall

variable (P : JsonParser) (c : StreamedCall)

/-- The arguments are the lenient reading of the text, or the input if there is no text. -/
def Reads (arguments : Json) : Prop :=
  arguments = P.parseStreamingJson c.text ∨ (c.text = [] ∧ arguments = c.input)

/-- The arguments are all of the text, or there is none. -/
def Whole (arguments : Json) : Prop :=
  P.parse c.text = some arguments ∨
    (c.text = [] ∧ (arguments = c.input ∨ arguments = .object .nil))

def Complete : Prop := c.text = [] ∨ (P.parse c.text).isSome

variable {P c} {arguments : Json}

theorem parseStreamingJson_nil : P.parseStreamingJson [] = .object .nil := rfl

theorem parseStreamingJson_of_parse (hblank : RejectsBlank P) {text : JsText} {value : Json}
    (h : P.parse text = some value) : P.parseStreamingJson text = value := by
  unfold JsonParser.parseStreamingJson
  split_ifs with hempty
  · rw [hblank text hempty] at h
    cases h
  · rw [h]

theorem Reads.whole (h : c.Reads P arguments) (hblank : RejectsBlank P) (hc : c.Complete P) :
    c.Whole P arguments := by
  obtain htext | hparse := hc
  · refine .inr ⟨htext, ?_⟩
    obtain hread | ⟨_, hinput⟩ := h
    · right
      rw [hread, htext, parseStreamingJson_nil]
    · exact .inl hinput
  · obtain ⟨value, hvalue⟩ := Option.isSome_iff_exists.mp hparse
    obtain hread | ⟨htext, hinput⟩ := h
    · left
      rw [hread, parseStreamingJson_of_parse hblank hvalue, hvalue]
    · exact .inr ⟨htext, .inl hinput⟩

theorem Whole.complete (h : c.Whole P arguments) : c.Complete P := by
  obtain hparse | ⟨htext, _⟩ := h
  · right
    rw [hparse]
    rfl
  · exact .inl htext

end StreamedCall

def toolCall? : Block → Option ToolCall
  | .toolCall call => some call
  | _ => none

def toolCallsOf (content : List Block) : List ToolCall := content.filterMap toolCall?

/-- Each call of a message reads the text that was streamed for it. -/
def CallsRead (P : JsonParser) (calls : List StreamedCall) (content : List Block) : Prop :=
  List.Forall₂ (fun c call => c.Reads P call.arguments) calls (toolCallsOf content)

end Providers

end Draht
