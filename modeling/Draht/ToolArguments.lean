import Draht.AnthropicCalls
import Draht.CompletionCalls

/-!
# Tools run on what was streamed

The agent loop runs the tools of the calls of a message that has not failed. A text that was cut off
is read all the same, so that a tool runs on the arguments that the reading makes up.
-/

namespace Draht.Providers
open List Option

/-- What decides whether the tool of a call runs: the tools, the check of the arguments, which gives
those that the tool gets, and the hook before the call. -/
structure Tooling where
  tools : List String
  validateToolArguments : ToolCall → Option Json
  beforeToolCall : ToolCall → Json → Bool

/-- `prepareToolCall` finds a tool, and neither an error nor the hook stops the call. -/
def Tooling.prepares (T : Tooling) (toolCall : ToolCall) : Bool :=
  T.tools.contains toolCall.name &&
    (T.validateToolArguments toolCall).any fun args => !T.beforeToolCall toolCall args

/-- The turn of a message goes on to its tool calls unless it has failed. -/
def Tooling.executes (T : Tooling) (stopReason : StopReason) (toolCall : ToolCall) : Bool :=
  !stopReason.failed && T.prepares toolCall

def Tooling.anyArguments (tools : List String) : Tooling where
  tools := tools
  validateToolArguments := fun toolCall => some toolCall.arguments
  beforeToolCall := fun _ _ => false

inductive ToolRun where
  | openAICompletions (opened : Except CompletionError CompletionSource) (aborted : Bool)
  | anthropic (N : ToolNames) (opened : Except JsText AnthropicSource) (aborted : Bool)

namespace ToolRun

def stopReason (P : JsonParser) : ToolRun → StopReason
  | openAICompletions opened aborted =>
    (streamOpenAICompletions P opened aborted).output.stopReason
  | anthropic N opened aborted => (streamAnthropic P N opened aborted).output.stopReason

def toolCalls (P : JsonParser) : ToolRun → List ToolCall
  | openAICompletions opened aborted =>
    toolCallsOf (streamOpenAICompletions P opened aborted).output.content
  | anthropic N opened aborted =>
    toolCallsOf ((streamAnthropic P N opened aborted).output.content.map (·.block))

def calls : ToolRun → List StreamedCall
  | openAICompletions (.ok source) _ => source.calls
  | anthropic _ (.ok source) _ => source.calls
  | _ => []

/-- The request is answered, all of the answer comes, and it is none of an error. -/
def Succeeds : ToolRun → Prop
  | openAICompletions (.ok source) aborted => aborted = false ∧ source.Succeeds
  | anthropic _ (.ok source) aborted => aborted = false ∧ source.Succeeds
  | _ => False

/-- Whichever tools there are, each call that is executed has the arguments that its whole text
says. -/
def ExecutesWhole (P : JsonParser) (run : ToolRun) : Prop :=
  ∀ (T : Tooling) (k : ℕ) toolCall, (run.toolCalls P)[k]? = some toolCall →
    T.executes (run.stopReason P) toolCall = true →
    ∃ c : StreamedCall, run.calls[k]? = some c ∧ c.Whole P toolCall.arguments

variable {P : JsonParser} {run : ToolRun}

theorem failed_of_not_succeeds (h : ¬ run.Succeeds) : (run.stopReason P).failed = true := by
  cases run with
  | openAICompletions opened aborted =>
    exact streamOpenAICompletions_fails fun source hopened haborted hsource =>
      h (by subst hopened; exact ⟨haborted, hsource⟩)
  | anthropic N opened aborted =>
    exact streamAnthropic_fails fun source hopened haborted hsource =>
      h (by subst hopened; exact ⟨haborted, hsource⟩)

theorem read_of_succeeds (h : run.Succeeds) :
    (run.stopReason P).failed = false ∧
      List.Forall₂ (fun c toolCall => c.Reads P toolCall.arguments) run.calls
        (run.toolCalls P) := by
  cases run with
  | openAICompletions opened aborted =>
    cases opened with
    | error error => cases h
    | ok source =>
      obtain ⟨rfl, hsource⟩ := h
      have hrun := streamOpenAICompletions_succeeds (P := P) hsource
      refine ⟨?_, hrun.2⟩
      simp only [stopReason, hrun.1, StopReason.failed, hsource.2.2,
        source.finalStopReason_ne_aborted]
      rfl
  | anthropic N opened aborted =>
    cases opened with
    | error message => cases h
    | ok source =>
      obtain ⟨rfl, hsource⟩ := h
      have hrun := streamAnthropic_succeeds (P := P) (N := N) hsource
      refine ⟨?_, hrun.2⟩
      simp only [stopReason, hrun.1, StopReason.failed, hsource.2.2,
        source.finalStopReason_ne_aborted]
      rfl

theorem executes_anyArguments (h : (run.stopReason P).failed = false) {toolCall : ToolCall}
    (hcall : toolCall ∈ run.toolCalls P) :
    (Tooling.anyArguments ((run.toolCalls P).map (·.name))).executes (run.stopReason P) toolCall =
      true := by
  have hname : toolCall.name ∈ (run.toolCalls P).map (·.name) := mem_map_of_mem hcall
  simp [Tooling.executes, Tooling.prepares, Tooling.anyArguments, h, hname]

/-- `{"a":"b`, of which the end is missing. -/
def cutText : JsText := utf16 "\x7b\"a\":\"b"

def cutParser : JsonParser where
  parse := fun _ => none
  partialParse := fun text =>
    if text = cutText then some (.object (.cons "a" (.string "b") .nil)) else none

def cutDelta : Delta where
  content := none
  reasoningContent := none
  reasoning := none
  reasoningText := none
  toolCalls := [some ⟨some "1", some "write", some cutText⟩]
  reasoningDetails := []

/-- The limit is reached inside of a call: the finish reason is `length`. -/
def cutRun : ToolRun :=
  .openAICompletions (.ok ⟨[some ⟨none, none, some ⟨none, none, some cutDelta⟩⟩,
    some ⟨none, none, some ⟨none, some "length", none⟩⟩], none⟩) false

end ToolRun

end Draht.Providers
