import Draht.AgentRun

/-!
# Events, transcript and contexts of a run agree

In every run in which nothing is thrown and streams obey the protocol, the events parse, the
messages that ended are the ones appended to the transcript and the ones `agent_end` reports,
each request to the provider has the transcript so far, and the pending calls are the open ones.
-/

namespace Draht
open Option

open Machine (Serves Runs)

/-- Hooks and listeners do not throw, streams obey the protocol, tools report before they settle. -/
def protocolRules : Rules agentMachine where
  choice := fun op _ c =>
    match op, c with
    | .emit _, .throws _ => False
    | .callLlm _, .throws _ => False
    | .callLlm _, .stream s => s.obeysProtocol = true ∧ ∃ m, s.result = .ok m
    | .afterToolCall _ _ _ _ _ _, .throws _ => False
    | _, _ => True
  action := fun (w : AgentWorld) a =>
    match a with
    | .toolUpdate execution _ listenerError =>
      listenerError = none ∧ ∃ e, w.executions[execution]? = some e ∧ e.settlement = none
    | _ => True

/-- Besides, calls that are executed in parallel have distinct ids. -/
def distinctCallRules : Rules agentMachine where
  choice := fun op (w : AgentWorld) c => protocolRules.choice op w c ∧
    ∀ context s m, op = .callLlm context → c = .stream s → s.result = .ok m →
      w.toolExecution = .parallel → (m.toolCalls.map ToolCall.id).Nodup
  action := protocolRules.action

def RunScope.clean : RunScope :=
  { strict := True, plain := False, listenersThrow := False, providerThrows := False }

theorem distinctCallRules_within : distinctCallRules.Within RunScope.clean.rules := by
  refine ⟨?_, ?_⟩
  · rintro op w c ⟨hc, hdistinct⟩
    cases op with
    | emit e =>
      cases c with
      | throws err => exact hc.elim
      | _ => trivial
    | callLlm context =>
      cases c with
      | throws err => exact hc.elim
      | stream s =>
        obtain ⟨hprotocol, m, hm⟩ := hc
        refine ⟨fun _ => hprotocol, ?_, ?_⟩
        · rintro m' hm' (hplain | ⟨_, hmode⟩)
          · exact hplain.elim
          · exact hdistinct context s m' rfl rfl hm' hmode
        · intro e he
          rw [hm] at he
          cases he
      | _ => trivial
    | afterToolCall _ _ _ _ _ _ =>
      cases c with
      | throws err => exact hc.elim
      | _ => trivial
    | _ => trivial
  · intro w a ha
    cases a with
    | steer m => exact fun h => h.elim
    | followUp m => exact fun h => h.elim
    | toolUpdate i partialResult listenerError => exact ⟨ha.1, fun _ => ha.2⟩
    | _ => trivial

/-- How the events of a run, the transcript, the contexts and the pending calls agree. -/
structure RunAgrees (before after : AgentWorld) (run : List TraceItem) (state : ParseState) :
    Prop where
  parse : parse (eventsOf run) = some state
  messages : after.state.messages = before.state.messages ++ endedMessages run
  agentEnd : ∀ t ms t', run = t ++ .event (.agentEnd ms) :: t' → ms = endedMessages t
  contexts : ∀ t context t', run = t ++ .llmCall context :: t' →
    context.messages = before.state.messages ++ endedMessages t
  pending : after.state.pendingToolCalls = state.running
  turnEnd : ∀ m results, (eventsOf run).getLast? = some (.turnEnd m results) →
    after.state.pendingToolCalls = []

variable {after before : AgentWorld} {r : RunStart} {state : ParseState} {events : List AgentEvent}

theorem step_phase_ne_start {s : ParseState} {e : AgentEvent} (h : s.step e = some state) :
    state.phase ≠ .start := by
  cases e with
  | messageUpdate m type =>
    simp only [ParseState.step] at h
    split at h
    · split_ifs at h
      cases h
      simp
    · cases h
  | messageEnd m =>
    simp only [ParseState.step] at h
    split at h
    · split_ifs at h
      cases h
      simp
    · cases h
  | toolExecutionUpdate id name args partialResult =>
    simp only [ParseState.step] at h
    split_ifs at h with hturn
    cases h
    intro hstart
    rw [hstart] at hturn
    cases hturn.1
  | toolExecutionStart id name args =>
    simp only [ParseState.step] at h
    split_ifs at h with hturn
    cases h
    rw [hturn.1]
    simp
  | toolExecutionEnd id name result isError =>
    simp only [ParseState.step] at h
    split_ifs at h with hturn
    cases h
    rw [hturn.1]
    simp
  | _ =>
    simp only [ParseState.step] at h
    split_ifs at h
    cases h
    simp

theorem eq_nil_of_parse_start {running : List String} (h : parse events = some ⟨.start, running⟩) :
    events = [] := by
  obtain hnil | ⟨before, e, rfl⟩ := List.eq_nil_or_concat events
  · exact hnil
  · rw [List.concat_eq_append, parse_concat] at h
    obtain ⟨s, _, hstep⟩ := bind_eq_some_iff.mp h
    exact (step_phase_ne_start hstep rfl).elim

theorem parse_turnEnd {m : TranscriptMessage} {results : List ToolResultMessage}
    (h : parse (events ++ [.turnEnd m results]) = some state) : state.running = [] := by
  rw [parse_concat] at h
  obtain ⟨s, _, hstep⟩ := bind_eq_some_iff.mp h
  simp only [ParseState.step] at hstep
  split_ifs at hstep with hturn
  cases hstep
  exact hturn.2

theorem View.runAgrees {pt : Point} (hmessages : r.messages = before.state.messages)
    (h : View RunScope.clean r pt after) :
    ∃ run, after.trace = r.trace ++ run ∧ RunAgrees before after run pt.state := by
  obtain ⟨run, htrace, hrun⟩ := h.run
  refine ⟨run, htrace, hrun.parse trivial, ?_, hrun.ends, ?_, h.pending, ?_⟩
  · rw [h.messages, hmessages, hrun.ended]
  · rw [← hmessages]
    exact hrun.contexts trivial
  · intro m results hlast
    obtain ⟨events, hevents⟩ := List.getLast?_eq_some_iff.mp hlast
    have hparse := hrun.parse trivial
    rw [hevents] at hparse
    exact h.pending.trans (parse_turnEnd hparse)

theorem Outcome.runAgrees {active : Bool} {phase : Phase}
    (hmessages : r.messages = before.state.messages)
    (h : Outcome RunScope.clean r active phase after) :
    ∃ run, after.trace = r.trace ++ run ∧ RunAgrees before after run ⟨phase, []⟩ := by
  obtain ⟨pt, hover, hview⟩ | ⟨hfault, _⟩ := h
  · rw [← hover.state]
    exact hview.runAgrees hmessages
  · exact (hfault.elim id id).elim

/-- Every call of an idle agent leads only to points at which its run agrees: a call that
returned has had a complete run, one that threw has had none. -/
theorem agentRun_agrees {w₀ w : AgentWorld} {c : AgentCall} {p : AgentProgram Unit}
    (hserved : Serves distinctCallRules AgentCall.program AgentWorld.Fresh (none, w₀))
    (hruns : Runs distinctCallRules (c.program, w₀) (p, w)) :
    ∃ run state, w.trace = w₀.trace ++ run ∧ RunAgrees w₀ w run state ∧
      (p = .pure () → state.phase = .finished) ∧ (∀ e, p = .throw e → eventsOf run = []) := by
  obtain ⟨w₁, hfresh, hserved'⟩ := (hserved.mono distinctCallRules_within).from_init
  have hplain : ∀ {P : Prop}, RunScope.clean.plain → P := fun h => False.elim h
  have hquiet := (served_inv hfresh hplain (fun call => ⟨call, rfl, hplain⟩) hserved').1 rfl
  have hsafe := Machine.Triple.runs (c.program_spec hplain hplain) hquiet.view
    (hruns.mono distinctCallRules_within)
  cases p with
  | pure a =>
    obtain ⟨run, htrace, hrun⟩ := hsafe.of_pure.runAgrees rfl
    exact ⟨run, _, htrace, hrun, fun _ => rfl, by rintro e ⟨⟩⟩
  | throw e =>
    obtain ⟨run, htrace, hrun⟩ := hsafe.of_throw.runAgrees rfl
    refine ⟨run, _, htrace, hrun, by rintro ⟨⟩, ?_⟩
    exact fun _ _ => eq_nil_of_parse_start hrun.parse
  | _ =>
    obtain ⟨pt, hview⟩ | ⟨hfault, _⟩ := hsafe.invariant
    · obtain ⟨run, htrace, hrun⟩ := hview.runAgrees rfl
      exact ⟨run, _, htrace, hrun, by rintro ⟨⟩, by rintro e ⟨⟩⟩
    · exact (hfault.elim id id).elim

def protocolGuard : Machine.Guard agentMachine where
  choice := fun _ _ c =>
    match c with
    | .throws _ => false
    | .stream s => s.obeysProtocol && match s.result with | .ok _ => true | .error _ => false
    | _ => true
  action := fun _ a =>
    match a with
    | .toolUpdate _ _ _ => false
    | _ => true

def distinctCallGuard : Machine.Guard agentMachine where
  choice := fun op w c => protocolGuard.choice op w c &&
    match c with
    | .stream s =>
      match s.result with
      | .ok m => decide (m.toolCalls.map ToolCall.id).Nodup
      | .error _ => true
    | _ => true
  action := protocolGuard.action

theorem protocolGuard_within : protocolGuard.Within protocolRules := by
  refine ⟨?_, ?_⟩
  · intro op w c h
    cases c with
    | throws e => cases h
    | stream s =>
      cases op with
      | callLlm context =>
        obtain ⟨hprotocol, hresult⟩ := Bool.and_eq_true_iff.mp h
        refine ⟨hprotocol, ?_⟩
        cases hs : s.result with
        | ok m => exact ⟨m, rfl⟩
        | error e => simp [hs] at hresult
      | _ => trivial
    | _ => cases op <;> trivial
  · intro w a h
    cases a with
    | toolUpdate _ _ _ => cases h
    | _ => trivial

theorem distinctCallGuard_within : distinctCallGuard.Within distinctCallRules := by
  refine ⟨?_, protocolGuard_within.action⟩
  intro op w c h
  obtain ⟨hprotocol, hdistinct⟩ := Bool.and_eq_true_iff.mp h
  refine ⟨protocolGuard_within.choice op w c hprotocol, ?_⟩
  rintro context s m rfl rfl hm _
  simpa [hm] using hdistinct

theorem oneCall_agrees :
    ∃ c', Machine.play distinctCallGuard oneCallScript
        ((AgentCall.prompt 3 [plainText "go"]).program, newAgent [] .parallel) = some c' ∧
      ∃ run state, c'.2.trace = [] ++ run ∧ RunAgrees (newAgent [] .parallel) c'.2 run state ∧
        (c'.1 = .pure () → state.phase = .finished) ∧
          (∀ e, c'.1 = .throw e → eventsOf run = []) := by
  have hplay : (Machine.play distinctCallGuard oneCallScript
      ((AgentCall.prompt 3 [plainText "go"]).program, newAgent [] .parallel)).isSome = true := by
    decide +kernel
  obtain ⟨⟨p, w⟩, hc'⟩ := isSome_iff_exists.mp hplay
  have hruns := Runs.of_play distinctCallGuard_within hc'
  exact ⟨(p, w), hc', agentRun_agrees (.init (newAgent_fresh rfl .parallel)) hruns⟩

def startedId : AgentEvent → Option String
  | .toolExecutionStart id _ _ => some id
  | _ => none

def endedId : AgentEvent → Option String
  | .toolExecutionEnd id _ _ _ => some id
  | _ => none

/-- Two calls with one id in parallel, the first of which has ended. -/
def repeatedIdScript : Script :=
  steps 10 ++ reply (replyWith [callNamed "1", callNamed "1"] .toolUse) ++ steps 2 ++
    prepareCall ++ prepareCall ++ steps 2 ++ settleCall 0 ++ steps 1 ++ [.inl (.after none)] ++
      steps 1

/-- Without distinct ids the events do not parse, and the set of pending calls is empty although
one of two started calls has not ended. -/
theorem repeatedId_disagrees :
    (¬ ∀ (w₀ w : AgentWorld) (c : AgentCall) (p : AgentProgram Unit),
      Serves protocolRules AgentCall.program AgentWorld.Fresh (none, w₀) →
      Runs protocolRules (c.program, w₀) (p, w) →
        ∃ run state, w.trace = w₀.trace ++ run ∧ RunAgrees w₀ w run state) ∧
    ∃ p w, Runs protocolRules
        ((AgentCall.prompt 3 [plainText "go"]).program, newAgent [] .parallel) (p, w) ∧
      (eventsOf w.trace).filterMap startedId = ["1", "1"] ∧
        (eventsOf w.trace).filterMap endedId = ["1"] ∧ w.state.pendingToolCalls = [] := by
  have hplay : (Machine.play protocolGuard repeatedIdScript
      ((AgentCall.prompt 3 [plainText "go"]).program, newAgent [] .parallel)).map
        (fun c => (parse (eventsOf c.2.trace), (eventsOf c.2.trace).filterMap startedId,
          (eventsOf c.2.trace).filterMap endedId, c.2.state.pendingToolCalls)) =
      some (none, ["1", "1"], ["1"], []) := by
    decide +kernel
  obtain ⟨⟨p, w⟩, hc', hw⟩ := map_eq_some_iff.mp hplay
  simp only [Prod.mk.injEq] at hw
  obtain ⟨hparse, hstarted, hended, hpending⟩ := hw
  have hruns := Runs.of_play protocolGuard_within hc'
  refine ⟨?_, p, w, hruns, hstarted, hended, hpending⟩
  intro h
  obtain ⟨run, state, htrace, hrun⟩ := h _ w _ p (.init (newAgent_fresh rfl .parallel)) hruns
  have hempty : w.trace = run := htrace
  rw [← hempty] at hrun
  rw [hrun.parse] at hparse
  cases hparse

end Draht
