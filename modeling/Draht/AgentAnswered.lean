import Draht.AgentRun

/-!
# Every tool call is answered

Validation, `beforeToolCall`, the tools and the provider may fail, runs may be aborted, and
listeners may throw outside of the tool phase: the transcript is answered at the end of every
run and at every `agent_end`. An error of `afterToolCall` is not caught and leaves calls without
an answer.
-/

namespace Draht

open Machine (Serves)

/-- `afterToolCall` does not throw, and listeners do not while calls are answered. The calls of a
message have distinct ids, and the messages that are queued are neither assistant messages nor
tool results. -/
def answeringRules : Rules agentMachine where
  choice := fun op _ c =>
    match op, c with
    | .emit event, .throws _ => event.inToolPhase = false
    | .callLlm _, .stream s => ∀ m, s.result = .ok m → (m.toolCalls.map ToolCall.id).Nodup
    | .afterToolCall _ _ _ _ _ _, .throws _ => False
    | _, _ => True
  action := fun _ a =>
    match a with
    | .steer m => m.isPlain = true
    | .followUp m => m.isPlain = true
    | .toolUpdate _ _ listenerError => listenerError = none
    | _ => True

/-- The same with any outcome of `afterToolCall` and without errors of listeners. -/
def hookRules : Rules agentMachine where
  choice := fun op _ c =>
    match op, c with
    | .emit _, .throws _ => False
    | .callLlm _, .stream s => ∀ m, s.result = .ok m → (m.toolCalls.map ToolCall.id).Nodup
    | _, _ => True
  action := answeringRules.action

/-- Prompts whose messages are neither assistant messages nor tool results. -/
def plainCall (c : {c : AgentCall // c.IsPlain}) : AgentProgram Unit := c.1.program

def RunScope.answering : RunScope :=
  { strict := False, plain := True, listenersThrow := True, providerThrows := True }

theorem answeringRules_within : answeringRules.Within RunScope.answering.rules := by
  refine ⟨?_, ?_⟩
  · intro op w c hc
    cases op with
    | emit e =>
      cases c with
      | throws err => exact ⟨trivial, hc⟩
      | _ => trivial
    | callLlm context =>
      cases c with
      | throws err => trivial
      | stream s => exact ⟨fun h => h.elim, fun m hm _ => hc m hm, fun _ _ => trivial⟩
      | _ => trivial
    | afterToolCall _ _ _ _ _ _ =>
      cases c with
      | throws err => exact hc.elim
      | _ => trivial
    | _ => trivial
  · intro w a ha
    cases a with
    | steer m => exact fun _ => ha
    | followUp m => exact fun _ => ha
    | toolUpdate i partialResult listenerError => exact ⟨ha, fun h => h.elim⟩
    | _ => trivial

/-- Nothing is thrown but by hooks, tools settle, and nothing else is done. -/
def hookGuard : Machine.Guard agentMachine where
  choice := fun op _ c =>
    match op, c with
    | .emit _, .throws _ => false
    | .callLlm _, .stream s =>
      match s.result with
      | .ok m => decide (m.toolCalls.map ToolCall.id).Nodup
      | .error _ => false
    | _, _ => true
  action := fun _ a =>
    match a with
    | .toolSettle _ _ => true
    | _ => false

def answeringGuard : Machine.Guard agentMachine where
  choice := fun op w c => hookGuard.choice op w c &&
    match c with
    | .throws _ => false
    | _ => true
  action := hookGuard.action

theorem hookGuard_within : hookGuard.Within hookRules := by
  refine ⟨?_, ?_⟩
  · intro op w c h
    cases op with
    | emit e =>
      cases c with
      | throws err => cases h
      | _ => trivial
    | callLlm context =>
      cases c with
      | stream s =>
        intro m hm
        simpa [hookGuard, hm] using h
      | _ => trivial
    | _ => trivial
  · intro w a h
    cases a with
    | toolSettle i outcome => trivial
    | _ => cases h

theorem answeringGuard_within : answeringGuard.Within answeringRules := by
  refine ⟨?_, hookGuard_within.action⟩
  intro op w c h
  obtain ⟨hhook, hthrows⟩ := Bool.and_eq_true_iff.mp h
  cases c with
  | throws e => cases hthrows
  | stream s =>
    cases op with
    | callLlm context => exact hookGuard_within.choice (.callLlm context) w (.stream s) hhook
    | _ => trivial
  | _ => cases op <;> trivial

theorem toolCalls_answered {w₀ : AgentWorld} {s : Option (AgentProgram Unit) × AgentWorld}
    (hfresh : w₀.Fresh) (hanswered : Answered w₀.state.messages)
    (h : Serves answeringRules plainCall (fun w => w = w₀) s) :
    s.2.state.messages = w₀.state.messages ++ transcriptOf s.2.trace ∧
      (s.1 = none → Answered s.2.state.messages) ∧
        ∀ before ms after, s.2.trace = before ++ .event (.agentEnd ms) :: after →
          Answered (w₀.state.messages ++ transcriptOf before) := by
  have hcalls : ∀ c, ∃ call : AgentCall, plainCall c = call.program ∧
      (RunScope.answering.plain → call.IsPlain) := fun c => ⟨c.1, rfl, fun _ => c.2⟩
  obtain ⟨hidle, hinv⟩ := served_inv hfresh (fun _ => hanswered) hcalls
    (h.mono answeringRules_within)
  refine ⟨hinv.shared.transcript, ?_, hinv.shared.agentEnds trivial⟩
  exact fun hnone => (hidle hnone).answered trivial

/-- A prompt without assistant messages and tool results. -/
def goPrompt : {c : AgentCall // c.IsPlain} :=
  ⟨.prompt 3 [plainText "go"], by
    intro m hm
    obtain rfl := List.mem_singleton.mp hm
    rfl⟩

theorem oneCall_answered :
    ∃ c', Machine.play answeringGuard oneCallScript
        (plainCall goPrompt, newAgent [] .parallel) = some c' ∧
      c'.1.returned = true ∧ Answered c'.2.state.messages := by
  have hplay : (Machine.play answeringGuard oneCallScript
      (plainCall goPrompt, newAgent [] .parallel)).map (fun c => c.1.returned) = some true := by
    decide +kernel
  obtain ⟨c', hc', hreturned⟩ := Option.map_eq_some_iff.mp hplay
  have hserved : Serves answeringRules plainCall (fun w => w = newAgent [] .parallel)
      (none, c'.2) :=
    Serves.of_play_returned answeringGuard_within (.init rfl) hc' hreturned
  exact ⟨c', hc', hreturned,
    (toolCalls_answered (newAgent_fresh rfl .parallel) answered_nil hserved).2.1 rfl⟩

/-- `afterToolCall` throws for the only call of a message. -/
def hookErrorScript : Script :=
  steps 10 ++ reply (replyWith [callNamed "1"] .toolUse) ++ steps 2 ++ prepareCall ++ steps 1 ++
    settleCall 0 ++ steps 1 ++ [.inl (.throws "hook failed"), .inl (.clock 7)] ++ steps 2

theorem hookError_unanswered : ¬ ∀ (w₀ : AgentWorld) (s : Option (AgentProgram Unit) × AgentWorld),
    w₀.Fresh → Answered w₀.state.messages → Serves hookRules plainCall (fun w => w = w₀) s →
      s.1 = none → Answered s.2.state.messages := by
  intro h
  have hplay : (Machine.play hookGuard hookErrorScript
      (plainCall goPrompt, newAgent [] .parallel)).map
        (fun c => (c.1.returned, c.2.state.messages)) =
      some (true, [⟨none, plainText "go"⟩, .assistant (replyWith [callNamed "1"] .toolUse),
        (newAgent [] .parallel).failureMessage "hook failed" 7]) := by
    decide +kernel
  obtain ⟨c', hc', hrest⟩ := Option.map_eq_some_iff.mp hplay
  obtain ⟨hreturned, hmessages⟩ := Prod.mk.inj hrest
  have hserved : Serves hookRules plainCall (fun w => w = newAgent [] .parallel) (none, c'.2) :=
    Serves.of_play_returned hookGuard_within (.init rfl) hc' hreturned
  have hanswered := h _ _ (newAgent_fresh rfl .parallel) answered_nil hserved rfl
  have hcount := hanswered [⟨none, plainText "go"⟩]
    (.assistant (replyWith [callNamed "1"] .toolUse)) _ _ hmessages rfl rfl (callNamed "1")
    (by decide)
  cases hcount

end Draht
