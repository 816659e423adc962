import Draht.AgentRun

/-!
# The order of tool results

Both modes of executing the tool calls of a message, when the tools and the hooks answer a call
whatever is done for the others. The sequential mode returns the results in the order of the calls;
the parallel mode puts those of the calls that fail in their preparation first.
-/

namespace Draht
open List Option

open AgentProgram
open Machine (Runs Stable Triple)

/-- What the tools and the hooks answer: each answer depends on its call alone. -/
structure ToolAnswers where
  arguments : AgentTool → ToolCall → Except String Json
  before : AssistantMessage → ToolCall → Json → AgentContext →
    Except String (Option BeforeToolCallResult)
  execute : ToolCall → Except String AgentToolResult
  after : AssistantMessage → ToolCall → Json → AgentToolResult → Bool → AgentContext →
    Option AfterToolCallResult

namespace ToolAnswers

variable (A : ToolAnswers)

/-- The answers are given as they are asked for, and the tools end in any order. Clocks, listeners
that throw, an error of `afterToolCall` and what others do are not restricted. -/
def rules : Rules agentMachine where
  choice := fun op _ c =>
    match op, c with
    | .validateArguments tool toolCall, .arguments args => A.arguments tool toolCall = .ok args
    | .validateArguments tool toolCall, .throws e => A.arguments tool toolCall = .error e
    | .beforeToolCall m toolCall args context, .before r =>
      A.before m toolCall args context = .ok r
    | .beforeToolCall m toolCall args context, .throws e =>
      A.before m toolCall args context = .error e
    | .afterToolCall m toolCall args result isError context, .after r =>
      A.after m toolCall args result isError context = r
    | _, _ => True
  action := fun w a =>
    match a with
    | .toolSettle execution outcome =>
      ∀ e, w.executions[execution]? = some e → outcome = A.execute e.toolCall
    | _ => True

/-- What `beforeToolCall` makes of a call whose arguments are valid. -/
def admitted (tool : AgentTool) (toolCall : ToolCall) (args : Json) :
    Except String (Option BeforeToolCallResult) → Preparation
  | .ok (some { block := true, reason := reason }) =>
    .immediate (createErrorToolResult (blockedText reason)) true
  | .ok _ => .prepared { toolCall, tool, args }
  | .error e => .immediate (createErrorToolResult e) true

def preparation (context : AgentContext) (m : AssistantMessage) (toolCall : ToolCall) :
    Preparation :=
  match context.tools.find? (fun t => t.name = toolCall.name) with
  | none => .immediate (createErrorToolResult (toolNotFound toolCall.name)) true
  | some tool =>
    match A.arguments tool toolCall with
    | .ok args => admitted tool toolCall args (A.before m toolCall args context)
    | .error e => .immediate (createErrorToolResult e) true

def executed (toolCall : ToolCall) : ExecutedToolCallOutcome :=
  match A.execute toolCall with
  | .ok result => { result, isError := false }
  | .error error => { result := createErrorToolResult error, isError := true }

/-- The outcome of a prepared call after `afterToolCall`. -/
def finalized (context : AgentContext) (m : AssistantMessage) (prepared : PreparedToolCall) :
    ExecutedToolCallOutcome :=
  let executed := A.executed prepared.toolCall
  applyAfterResult executed
    (A.after m prepared.toolCall prepared.args executed.result executed.isError context)

end ToolAnswers

def ToolResultMessage.untimed (m : ToolResultMessage) : ToolResultMessage :=
  { m with timestamp := 0 }

def untimedResult (toolCall : ToolCall) (outcome : ExecutedToolCallOutcome) : ToolResultMessage :=
  { toolCallId := toolCall.id, toolName := toolCall.name, content := outcome.result.content
    details := outcome.result.details, isError := outcome.isError, timestamp := 0 }

namespace ToolAnswers

variable (A : ToolAnswers) (context : AgentContext) (m : AssistantMessage)

def runnable (toolCall : ToolCall) : Bool :=
  match A.preparation context m toolCall with
  | .immediate _ _ => false
  | .prepared _ => true

def answer (toolCall : ToolCall) : ToolResultMessage :=
  match A.preparation context m toolCall with
  | .immediate result isError => untimedResult toolCall { result, isError }
  | .prepared prepared => untimedResult toolCall (A.finalized context m prepared)

def InOrder (toolCalls : List ToolCall) (results : List ToolResultMessage) : Prop :=
  results.map ToolResultMessage.untimed = toolCalls.map (A.answer context m)

/-- The results of the parallel mode are in order, and those that the sequential mode returns. -/
structure ParallelRight (toolCalls : List ToolCall) (results : List ToolResultMessage) : Prop where
  inOrder : A.InOrder context m toolCalls results
  same : ∀ w w' sequential,
    Runs A.rules (executeToolCallsSequential context m toolCalls [], w) (.pure sequential, w') →
      results.map ToolResultMessage.untimed = sequential.map ToolResultMessage.untimed

/-- No call that fails in its preparation comes after a runnable one. -/
def FailuresFirst (toolCalls : List ToolCall) : Prop :=
  toolCalls.Pairwise fun a b => A.runnable context m a = true → A.runnable context m b = true

end ToolAnswers

@[simp] theorem AgentWorld.executions_processEvents (w : AgentWorld) (event : AgentEvent)
    (listenerError : Option String) :
    (w.processEvents event listenerError).2.executions = w.executions := by
  unfold AgentWorld.processEvents
  cases w.activeRun with
  | none => rfl
  | some _ => cases listenerError <;> rfl

/-- Each of the calls is executed under its number, and ends as the tool answers. -/
def Executing (A : ToolAnswers) (running : List (PreparedToolCall × ℕ)) (w : AgentWorld) : Prop :=
  ∀ p ∈ running, ∃ e, w.executions[p.2]? = some e ∧ e.toolCall = p.1.toolCall ∧
    ∀ outcome, e.settlement = some outcome → outcome = A.execute p.1.toolCall

section Executions

variable {A : ToolAnswers} {running : List (PreparedToolCall × ℕ)} {w w' : AgentWorld}

theorem Executing.of_eq (h : Executing A running w) (heq : w'.executions = w.executions) :
    Executing A running w' := by
  intro p hp
  rw [heq]
  exact h p hp

theorem Executing.set (h : Executing A running w) {n : ℕ} {e e' : ToolExecution}
    (hw : w'.executions = w.executions.set n e') (hn : w.executions[n]? = some e)
    (hcall : e'.toolCall = e.toolCall)
    (hsettled : ∀ outcome, e'.settlement = some outcome →
      e.settlement = some outcome ∨ outcome = A.execute e.toolCall) : Executing A running w' := by
  intro p hp
  obtain ⟨e₀, he₀, hcall₀, hend₀⟩ := h p hp
  rw [hw, getElem?_set]
  split_ifs with heq hlt
  · subst heq
    obtain rfl := some.inj (hn.symm.trans he₀)
    refine ⟨e', rfl, hcall.trans hcall₀, fun outcome hend => ?_⟩
    obtain hend | hend := hsettled outcome hend
    · exact hend₀ outcome hend
    · rw [hend, hcall₀]
  · subst heq
    rw [getElem?_eq_none (Nat.le_of_not_lt hlt)] at he₀
    cases he₀
  · exact ⟨e₀, he₀, hcall₀, hend₀⟩

theorem executing_stable (A : ToolAnswers) (running : List (PreparedToolCall × ℕ)) :
    Stable A.rules (fun _ => True) (Executing A running) where
  invariant := fun _ _ => trivial
  action := by
    intro w a w' hw ha hact
    cases a with
    | toolUpdate n partialResult listenerError =>
      obtain ⟨e, he, rfl⟩ := map_eq_some_iff.mp hact
      unfold AgentWorld.toolUpdate
      dsimp only
      split
      · next error _ _ _ =>
          exact hw.set (congrArg (fun executions : List ToolExecution =>
            executions.set n { e with updateFailure := some error })
              (AgentWorld.executions_processEvents w _ _)) he rfl fun _ h => .inl h
      · exact hw.of_eq (AgentWorld.executions_processEvents w _ _)
    | toolSettle n outcome =>
      cases hn : w.executions[n]? with
      | none =>
        simp only [agentMachine, AgentWorld.act, hn] at hact
        cases hact
      | some e =>
        obtain ⟨toolCall, updateFailure, settlement⟩ := e
        simp only [agentMachine, AgentWorld.act, hn] at hact
        cases settlement with
        | some _ => cases hact
        | none =>
          cases hact
          refine hw.set rfl hn rfl fun outcome' h => .inr ?_
          cases h
          exact ha _ hn
    | steer message =>
      cases hact
      exact hw.of_eq (AgentWorld.executions_setQueue _ _ _)
    | followUp message =>
      cases hact
      exact hw.of_eq (AgentWorld.executions_setQueue _ _ _)
    | setQueueMode name mode =>
      cases hact
      exact hw.of_eq (AgentWorld.executions_setQueue _ _ _)
    | _ =>
      cases hact
      exact hw.of_eq rfl

end Executions

def Gives {α : Type} (A : ToolAnswers) (P : AgentWorld → Prop) (p : AgentProgram α)
    (Q : α → AgentWorld → Prop) : Prop :=
  Triple A.rules (fun _ => True) P p Q fun _ _ => True

section Calls

variable {A : ToolAnswers} {running : List (PreparedToolCall × ℕ)} {context : AgentContext}
  {m : AssistantMessage}

theorem thrown_stable : Stable A.rules (fun _ => True) fun _ : AgentWorld => True :=
  ⟨fun _ _ => trivial, fun _ _ _ _ _ _ => trivial⟩

variable {op : AgentOp} {α : Type} {p : AgentProgram α} {Q : α → AgentWorld → Prop}

theorem Gives.bind {β : Type} {P : AgentWorld → Prop} {f : α → AgentProgram β}
    {Q' : β → AgentWorld → Prop} (hp : Gives A P p Q) (hf : ∀ a, Gives A (Q a) (f a) Q') :
    Gives A P (p >>= f) Q' :=
  Triple.bind hp hf

theorem Gives.pure {φ : α → Prop} {a : α} (h : φ a) :
    Gives A (Executing A running) (pure a) fun a w => φ a ∧ Executing A running w :=
  Triple.pure ((executing_stable A running).and_const _) fun _ hw => ⟨h, hw⟩

theorem Gives.known {φ : Prop} (h : φ → Gives A (Executing A running) p Q) :
    Gives A (fun w => φ ∧ Executing A running w) p Q :=
  Triple.and_const h

theorem effect_spec {φ : op.Answer → Prop} {ψ : String → Prop}
    (hsame : ∀ w c r w', agentMachine.respond op w c = some (r, w') →
      w'.executions = w.executions) (hok : ∀ w c a w', A.rules.choice op w c →
      agentMachine.respond op w c = some (.ok a, w') → φ a)
    (herror : ∀ w c e w', A.rules.choice op w c →
      agentMachine.respond op w c = some (.error e, w') → ψ e) :
    Triple A.rules (fun _ => True) (Executing A running) (call op)
      (fun a w => φ a ∧ Executing A running w) (fun e w => ψ e ∧ Executing A running w) := by
  have hstable := executing_stable A running
  refine Triple.effect hstable (fun a => hstable.and_const (φ a))
    (fun e => hstable.and_const (ψ e)) ?_ ?_
  · exact fun w c a w' hw hc hr => ⟨hok w c a w' hc hr, hw.of_eq (hsame _ _ _ _ hr)⟩
  · exact fun w c e w' hw hc hr => ⟨herror w c e w' hc hr, hw.of_eq (hsame _ _ _ _ hr)⟩

theorem answer_spec {answer : Except String op.Answer}
    (hsame : ∀ w c r w', agentMachine.respond op w c = some (r, w') →
      w'.executions = w.executions) (hanswer : ∀ w c r w', A.rules.choice op w c →
      agentMachine.respond op w c = some (r, w') → answer = r) :
    Triple A.rules (fun _ => True) (Executing A running) (call op)
      (fun a w => answer = .ok a ∧ Executing A running w)
      (fun e w => answer = .error e ∧ Executing A running w) :=
  effect_spec hsame (fun w c a => hanswer w c (.ok a)) fun w c e => hanswer w c (.error e)

theorem validate_spec (tool : AgentTool) (toolCall : ToolCall) :
    Triple A.rules (fun _ => True) (Executing A running) (call (.validateArguments tool toolCall))
      (fun args w => A.arguments tool toolCall = .ok args ∧ Executing A running w)
      (fun e w => A.arguments tool toolCall = .error e ∧ Executing A running w) := by
  refine answer_spec ?_ ?_
  · intro w c r w' hr
    cases c <;> cases hr <;> rfl
  · intro w c r w' hc hr
    cases c <;> cases hr <;> exact hc

variable (toolCall : ToolCall) (prepared : PreparedToolCall) (runnableCalls : List PreparedToolCall)

theorem before_spec (args : Json) :
    Triple A.rules (fun _ => True) (Executing A running)
      (call (.beforeToolCall m toolCall args context))
      (fun r w => A.before m toolCall args context = .ok r ∧ Executing A running w)
      (fun e w => A.before m toolCall args context = .error e ∧ Executing A running w) := by
  refine answer_spec ?_ ?_
  · intro w c r w' hr
    cases c <;> cases hr <;> rfl
  · intro w c r w' hc hr
    cases c <;> cases hr <;> exact hc

theorem prepareToolCall_gives :
    Gives A (Executing A running) (prepareToolCall context m toolCall)
      fun p w => p = A.preparation context m toolCall ∧ Executing A running w := by
  unfold prepareToolCall
  cases hfind : context.tools.find? (fun t => t.name = toolCall.name) with
  | none => exact Gives.pure (by rw [ToolAnswers.preparation, hfind])
  | some tool =>
    have hinvalid (e : String) (he : A.arguments tool toolCall = .error e) :
        A.preparation context m toolCall = .immediate (createErrorToolResult e) true := by
      simp [ToolAnswers.preparation, hfind, he]
    have hvalid (args : Json) (hargs : A.arguments tool toolCall = .ok args) :
        A.preparation context m toolCall =
          ToolAnswers.admitted tool toolCall args (A.before m toolCall args context) := by
      simp [ToolAnswers.preparation, hfind, hargs]
    refine Triple.tryCatch (E := fun e w => A.preparation context m toolCall =
      .immediate (createErrorToolResult e) true ∧ Executing A running w) ?_
      fun e => Triple.and_const fun he => Gives.pure he.symm
    refine Triple.bind (Triple.conseq (validate_spec tool toolCall) (fun _ hw => hw)
      (fun _ _ hw => hw) fun e w he => ⟨hinvalid e he.1, he.2⟩) fun args => ?_
    refine Triple.and_const fun hargs => ?_
    refine Triple.bind (Triple.conseq (before_spec toolCall args) (fun _ hw => hw)
      (fun _ _ hw => hw) fun e w he => ⟨?_, he.2⟩) fun before => ?_
    · rw [hvalid args hargs, he.1]
      rfl
    refine Triple.and_const fun hbefore => ?_
    have hpreparation := hvalid args hargs
    rw [hbefore] at hpreparation
    have hgiven {p : Preparation} (hp : p = A.preparation context m toolCall) :
        Triple A.rules (fun _ => True) (Executing A running) (pure p)
          (fun p w => p = A.preparation context m toolCall ∧ Executing A running w)
          (fun e w => A.preparation context m toolCall =
            .immediate (createErrorToolResult e) true ∧ Executing A running w) :=
      Triple.pure ((executing_stable A running).and_const _) fun _ hw => ⟨hp, hw⟩
    cases before with
    | none => exact hgiven hpreparation.symm
    | some result =>
      obtain ⟨block, reason⟩ := result
      cases block with
      | false => exact hgiven hpreparation.symm
      | true => exact hgiven hpreparation.symm

theorem quiet_gives (hsame : ∀ w c r w', agentMachine.respond op w c = some (r, w') →
      w'.executions = w.executions) :
    Gives A (Executing A running) (call op) fun _ => Executing A running := by
  have hstable := executing_stable A running
  exact Triple.effect hstable (fun _ => hstable) (fun _ => thrown_stable)
    (fun w c a w' hw _ hr => hw.of_eq (hsame w c _ w' hr)) fun _ _ _ _ _ _ _ => trivial

theorem emit_gives (event : AgentEvent) :
    Gives A (Executing A running) (emit event) fun _ => Executing A running := by
  refine quiet_gives fun w c r w' hr => ?_
  cases c with
  | nothing =>
    obtain rfl := congrArg Prod.snd (some.inj hr)
    exact AgentWorld.executions_processEvents w event none
  | throws e =>
    obtain rfl := congrArg Prod.snd (some.inj hr)
    exact AgentWorld.executions_processEvents w event (some e)
  | _ => cases hr

theorem now_gives :
    Gives A (Executing A running) (call .now) fun _ => Executing A running := by
  refine quiet_gives fun w c r w' hr => ?_
  cases c with
  | clock now => exact (congrArg (fun out => out.2.executions) (some.inj hr)).symm
  | _ => cases hr

theorem emitToolCallOutcome_gives (outcome : ExecutedToolCallOutcome) :
    Gives A (Executing A running) (emitToolCallOutcome toolCall outcome.result outcome.isError)
      fun result w => result.untimed = untimedResult toolCall outcome ∧
        Executing A running w := by
  refine Gives.bind (emit_gives _) fun _ => Gives.bind now_gives fun timestamp => ?_
  exact Gives.bind (emit_gives _) fun _ => Gives.bind (emit_gives _) fun _ => Gives.pure rfl

theorem execute_gives :
    Gives A (Executing A running)
      (call (.execute prepared.tool prepared.toolCall prepared.args))
      fun execution => Executing A (running ++ [(prepared, execution)]) := by
  refine Triple.effect (executing_stable A running) (fun _ => executing_stable A _)
    (fun _ => thrown_stable) ?_ fun _ _ _ _ _ _ _ => trivial
  intro w c execution w' hw _ hr
  cases c with
  | nothing =>
    obtain ⟨hexecution, rfl⟩ := Prod.mk.inj (some.inj hr)
    cases hexecution
    intro p hp
    obtain hp | hp := mem_append.mp hp
    · obtain ⟨e, he, hrest⟩ := hw p hp
      have hlt : p.2 < w.executions.length := (List.getElem?_eq_some_iff.mp he).1
      exact ⟨e, (getElem?_append_left hlt).trans he, hrest⟩
    · obtain rfl := mem_singleton.mp hp
      exact ⟨_, getElem?_concat_length, rfl, fun _ h => nomatch h⟩
  | _ => cases hr

theorem awaitExecution_gives {prepared : PreparedToolCall} {execution : ℕ}
    (hp : (prepared, execution) ∈ running) :
    Gives A (Executing A running) (awaitExecution execution)
      fun executed w => executed = A.executed prepared.toolCall ∧ Executing A running w := by
  have hstable := executing_stable A running
  refine Gives.bind (Q := fun settled w => settled.2 = A.execute prepared.toolCall ∧
    Executing A running w) ?_ ?_
  · refine Triple.effect hstable (fun _ => hstable.and_const _) (fun _ => thrown_stable) ?_
      fun _ _ _ _ _ _ _ => trivial
    intro w c settled w' hw _ hr
    obtain ⟨e, he, -, hend⟩ := hw _ hp
    cases c with
    | nothing =>
      obtain ⟨toolCall, updateFailure, settlement⟩ := e
      simp only [agentMachine, AgentWorld.respond, he] at hr
      cases settlement with
      | none => cases hr
      | some outcome =>
        obtain ⟨hsettled, rfl⟩ := Prod.mk.inj (some.inj hr)
        cases hsettled
        exact ⟨hend outcome rfl, hw⟩
    | _ => cases hr
  · rintro ⟨updateFailure, outcome⟩
    refine Gives.known fun houtcome => ?_
    cases updateFailure with
    | some error => exact Triple.throw thrown_stable fun _ _ => trivial
    | none =>
      unfold ToolAnswers.executed
      rw [← houtcome]
      cases outcome with
      | ok result => exact Gives.pure rfl
      | error error => exact Gives.pure rfl

theorem after_spec (executed : ExecutedToolCallOutcome) :
    Gives A (Executing A running)
      (call (.afterToolCall m prepared.toolCall prepared.args executed.result executed.isError
        context))
      fun after w => A.after m prepared.toolCall prepared.args executed.result executed.isError
        context = after ∧ Executing A running w := by
  refine Triple.conseq (effect_spec (ψ := fun _ => True) ?_ ?_ fun _ _ _ _ _ _ => trivial)
    (fun _ hw => hw) (fun _ _ hw => hw) fun _ _ _ => trivial
  · intro w c r w' hr
    cases c <;> cases hr <;> rfl
  · intro w c a w' hc hr
    cases c <;> cases hr
    exact hc

theorem finalizeExecutedToolCall_gives :
    Gives A (Executing A running)
      (finalizeExecutedToolCall context m prepared (A.executed prepared.toolCall))
      fun result w => result.untimed =
        untimedResult prepared.toolCall (A.finalized context m prepared) ∧
          Executing A running w := by
  refine Gives.bind (after_spec prepared _) fun after => Gives.known fun h => ?_
  rw [ToolAnswers.finalized, h]
  exact emitToolCallOutcome_gives prepared.toolCall (applyAfterResult _ after)

namespace ToolAnswers

variable (A context m)

def prepared? (toolCall : ToolCall) : Option PreparedToolCall :=
  match A.preparation context m toolCall with
  | .immediate _ _ => none
  | .prepared prepared => some prepared

theorem toolCall_of_prepared {toolCall : ToolCall} {prepared : PreparedToolCall}
    (h : A.preparation context m toolCall = .prepared prepared) :
    prepared.toolCall = toolCall := by
  unfold preparation admitted at h
  repeat' split at h
  all_goals cases h
  all_goals rfl

theorem answer_toolCallId (toolCall : ToolCall) :
    (A.answer context m toolCall).toolCallId = toolCall.id := by
  unfold answer
  split <;> rfl

theorem answers_of_prepared (toolCalls : List ToolCall) :
    (toolCalls.filterMap (A.prepared? context m)).map
        (fun prepared => untimedResult prepared.toolCall (A.finalized context m prepared)) =
      (toolCalls.filter (A.runnable context m)).map (A.answer context m) := by
  induction toolCalls with
  | nil => rfl
  | cons toolCall toolCalls ih =>
    cases hpreparation : A.preparation context m toolCall with
    | immediate result isError =>
      rw [filterMap_cons_none (by rw [prepared?, hpreparation]),
        filter_cons_of_neg (by simp [runnable, hpreparation]), ih]
    | prepared prepared =>
      rw [filterMap_cons_some (by rw [prepared?, hpreparation]),
        filter_cons_of_pos (by simp [runnable, hpreparation]), map_cons,
        map_cons, ih, answer, hpreparation,
        toolCall_of_prepared A context m hpreparation]

end ToolAnswers

theorem prepareToolCalls_gives (toolCalls : List ToolCall) (results : List ToolResultMessage)
    (runnableCalls : List PreparedToolCall) :
    Gives A (Executing A running) (prepareToolCalls context m toolCalls results runnableCalls)
      fun out w => (out.1.map ToolResultMessage.untimed = results.map ToolResultMessage.untimed ++
          (toolCalls.filter fun toolCall => !A.runnable context m toolCall).map
            (A.answer context m) ∧
        out.2 = runnableCalls ++ toolCalls.filterMap (A.prepared? context m)) ∧
          Executing A running w := by
  induction toolCalls generalizing results runnableCalls with
  | nil => exact Gives.pure ⟨by simp, by simp⟩
  | cons toolCall toolCalls ih =>
    refine Gives.bind (emit_gives _) fun _ => Gives.bind (prepareToolCall_gives toolCall) ?_
    rintro preparation
    refine Gives.known fun hpreparation => ?_
    cases preparation with
    | immediate result isError =>
      refine Gives.bind (emitToolCallOutcome_gives toolCall ⟨result, isError⟩) fun message => ?_
      refine Gives.known fun hmessage => ?_
      refine Triple.conseq (ih (results ++ [message]) runnableCalls) (fun _ hw => hw) ?_
        fun _ _ he => he
      rintro out w ⟨⟨hresults, hrunnable⟩, hw⟩
      refine ⟨⟨?_, ?_⟩, hw⟩
      · rw [hresults, filter_cons_of_pos
          (by simp [ToolAnswers.runnable, ← hpreparation]), map_append, map_cons,
          map_cons, append_assoc, hmessage, ToolAnswers.answer, ← hpreparation]
        rfl
      · rw [hrunnable, filterMap_cons_none
          (by rw [ToolAnswers.prepared?, ← hpreparation])]
    | prepared prepared =>
      refine Triple.conseq (ih results (runnableCalls ++ [prepared])) (fun _ hw => hw) ?_
        fun _ _ he => he
      rintro out w ⟨⟨hresults, hrunnable⟩, hw⟩
      refine ⟨⟨?_, ?_⟩, hw⟩
      · rw [hresults, filter_cons_of_neg
          (by simp [ToolAnswers.runnable, ← hpreparation])]
      · rw [hrunnable, filterMap_cons_some
          (by rw [ToolAnswers.prepared?, ← hpreparation]), append_assoc,
          singleton_append]

theorem startExecutions_gives (running : List (PreparedToolCall × ℕ)) :
    Gives A (Executing A running) (startExecutions runnableCalls)
      fun out w => out.map Prod.fst = runnableCalls ∧ Executing A (running ++ out) w := by
  induction runnableCalls generalizing running with
  | nil =>
    exact Triple.pure ((executing_stable A _).and_const _) fun w hw =>
      ⟨rfl, by rwa [append_nil]⟩
  | cons prepared runnableCalls ih =>
    refine Gives.bind (execute_gives prepared) fun execution => ?_
    refine Gives.bind (ih (running ++ [(prepared, execution)])) fun out => ?_
    refine Triple.pure ((executing_stable A _).and_const _) fun w hw => ?_
    refine ⟨by rw [map_cons, hw.1], ?_⟩
    rw [← singleton_append, ← append_assoc]
    exact hw.2

theorem finalizeExecutions_gives {todo : List (PreparedToolCall × ℕ)}
    (htodo : ∀ p ∈ todo, p ∈ running) (results : List ToolResultMessage) :
    Gives A (Executing A running) (finalizeExecutions context m todo results)
      fun out w => out.map ToolResultMessage.untimed = results.map ToolResultMessage.untimed ++
        (todo.map Prod.fst).map (fun prepared =>
          untimedResult prepared.toolCall (A.finalized context m prepared)) ∧
            Executing A running w := by
  induction todo generalizing results with
  | nil => exact Gives.pure (by simp)
  | cons p todo ih =>
    obtain ⟨prepared, execution⟩ := p
    refine Gives.bind (awaitExecution_gives (htodo _ mem_cons_self)) fun executed => ?_
    refine Gives.known fun hexecuted => ?_
    rw [hexecuted]
    refine Gives.bind (finalizeExecutedToolCall_gives prepared) fun result => ?_
    refine Gives.known fun hresult => ?_
    refine Triple.conseq
      (ih (fun p hp => htodo p (mem_cons_of_mem _ hp)) (results ++ [result]))
      (fun _ hw => hw) ?_ fun _ _ he => he
    rintro out w ⟨hout, hw⟩
    refine ⟨?_, hw⟩
    rw [hout, map_append, append_assoc, map_singleton, hresult]
    rfl

theorem executeToolCallsParallel_gives (toolCalls : List ToolCall) :
    Gives A (fun _ => True) (executeToolCallsParallel context m toolCalls)
      fun out _ => out.map ToolResultMessage.untimed =
        (toolCalls.filter fun toolCall => !A.runnable context m toolCall).map
            (A.answer context m) ++
          (toolCalls.filter (A.runnable context m)).map (A.answer context m) := by
  have hnone (w : AgentWorld) : Executing A [] w := nofun
  refine Triple.pre ?_ fun w _ => hnone w
  refine Gives.bind (prepareToolCalls_gives toolCalls [] []) ?_
  rintro ⟨results, runnableCalls⟩
  refine Gives.known fun ⟨hresults, hrunnable⟩ => ?_
  simp only [map_nil, nil_append] at hresults hrunnable
  refine Gives.bind (startExecutions_gives runnableCalls []) fun executions => ?_
  refine Gives.known fun hexecutions => ?_
  refine Triple.conseq (finalizeExecutions_gives (fun p hp => hp) results) (fun _ hw => hw) ?_
    fun _ _ he => he
  rintro out w ⟨hout, -⟩
  rw [hout, hexecutions, hrunnable, hresults, ToolAnswers.answers_of_prepared]

theorem executeToolCall_gives :
    Gives A (Executing A []) (executeToolCall context m toolCall
        (A.preparation context m toolCall))
      fun result w => result.untimed = A.answer context m toolCall ∧ Executing A [] w := by
  unfold ToolAnswers.answer
  cases hpreparation : A.preparation context m toolCall with
  | immediate result isError => exact emitToolCallOutcome_gives toolCall ⟨result, isError⟩
  | prepared prepared =>
    refine Gives.bind (execute_gives prepared) fun execution => ?_
    refine Gives.bind (awaitExecution_gives mem_cons_self) fun executed => ?_
    refine Gives.known fun hexecuted => ?_
    rw [hexecuted, ← ToolAnswers.toolCall_of_prepared A context m hpreparation]
    exact Triple.conseq (finalizeExecutedToolCall_gives prepared) (fun _ hw => hw)
      (fun _ _ hw => ⟨hw.1, nofun⟩) fun _ _ he => he

theorem executeToolCallsSequential_gives (toolCalls : List ToolCall)
    (results : List ToolResultMessage) :
    Gives A (Executing A []) (executeToolCallsSequential context m toolCalls results)
      fun out w => out.map ToolResultMessage.untimed = results.map ToolResultMessage.untimed ++
        toolCalls.map (A.answer context m) ∧ Executing A [] w := by
  induction toolCalls generalizing results with
  | nil => exact Gives.pure (by simp)
  | cons toolCall toolCalls ih =>
    refine Gives.bind (emit_gives _) fun _ => Gives.bind (prepareToolCall_gives toolCall) ?_
    rintro preparation
    refine Gives.known fun hpreparation => ?_
    rw [hpreparation]
    refine Gives.bind (executeToolCall_gives toolCall) fun result => Gives.known fun hresult => ?_
    refine Triple.conseq (ih (results ++ [result])) (fun _ hw => hw) ?_ fun _ _ he => he
    rintro out w ⟨hout, hw⟩
    refine ⟨?_, hw⟩
    rw [hout, map_append, append_assoc, map_singleton, hresult]
    rfl

end Calls

theorem filter_not_append_filter_iff {α : Type*} {p : α → Bool} {l : List α} :
    l.filter (fun a => !p a) ++ l.filter p = l ↔
      l.Pairwise fun a b => p a = true → p b = true := by
  constructor
  · intro h
    rw [← h, pairwise_append]
    refine ⟨?_, ?_, fun a _ b hb _ => (mem_filter.mp hb).2⟩
    · refine pairwise_of_forall_mem_list fun a ha b _ hp => ?_
      simp [hp] at ha
    · exact pairwise_of_forall_mem_list fun a _ b hb _ => (mem_filter.mp hb).2
  · intro h
    induction l with
    | nil => rfl
    | cons a l ih =>
      obtain ⟨ha, hl⟩ := pairwise_cons.mp h
      cases hp : p a with
      | false =>
        rw [filter_cons_of_pos (by simp [hp]), filter_cons_of_neg (by simp [hp]),
          cons_append, ih hl]
      | true =>
        have hall : ∀ b ∈ l, p b = true := fun b hb => ha b hb hp
        have hnone : l.filter (fun b => !p b) = [] := by
          simpa [filter_eq_nil_iff] using hall
        rw [filter_cons_of_neg (by simp [hp]), hnone, filter_cons_of_pos hp,
          filter_eq_self.mpr hall, nil_append]

theorem eq_of_map_eq {α β : Type*} {f : α → β} {l l' : List α} (h : l.map f = l'.map f)
    (hinj : ∀ a ∈ l, ∀ b ∈ l', f a = f b → a = b) : l = l' := by
  induction l generalizing l' with
  | nil => exact (map_eq_nil_iff.mp h.symm).symm
  | cons a l ih =>
    cases l' with
    | nil => cases h
    | cons b l' =>
      obtain ⟨hab, hl⟩ := cons.inj h
      rw [hinj a mem_cons_self b mem_cons_self hab, ih hl fun c hc d hd =>
        hinj c (mem_cons_of_mem _ hc) d (mem_cons_of_mem _ hd)]

namespace ToolAnswers

variable {A : ToolAnswers} {context : AgentContext} {m : AssistantMessage}
  {toolCalls : List ToolCall} {results : List ToolResultMessage} {w w' : AgentWorld}

theorem parallel_results
    (h : Runs A.rules (executeToolCallsParallel context m toolCalls, w) (.pure results, w')) :
    results.map ToolResultMessage.untimed =
      (toolCalls.filter (fun toolCall => !A.runnable context m toolCall) ++
        toolCalls.filter (A.runnable context m)).map (A.answer context m) := by
  rw [map_append]
  exact (Triple.runs (executeToolCallsParallel_gives toolCalls) trivial h).of_pure

theorem sequential_inOrder
    (h : Runs A.rules (executeToolCallsSequential context m toolCalls [], w) (.pure results, w')) :
    A.InOrder context m toolCalls results := by
  have hnone : Executing A [] w := nofun
  exact (Triple.runs (executeToolCallsSequential_gives toolCalls []) hnone h).of_pure.1

theorem parallelRight_of_failuresFirst
    (h : Runs A.rules (executeToolCallsParallel context m toolCalls, w) (.pure results, w'))
    (hfirst : A.FailuresFirst context m toolCalls) :
    A.ParallelRight context m toolCalls results := by
  have hresults := parallel_results h
  rw [filter_not_append_filter_iff.mpr hfirst] at hresults
  exact ⟨hresults, fun _ _ _ hsequential => hresults.trans (sequential_inOrder hsequential).symm⟩

theorem failuresFirst_of_inOrder
    (h : Runs A.rules (executeToolCallsParallel context m toolCalls, w) (.pure results, w'))
    (hids : (toolCalls.map ToolCall.id).Nodup)
    (hright : A.InOrder context m toolCalls results) : A.FailuresFirst context m toolCalls := by
  have hanswers := (parallel_results h).symm.trans hright
  have hcalls := congrArg (List.map ToolResultMessage.toolCallId) hanswers
  simp only [List.map_map, Function.comp_def, answer_toolCallId] at hcalls
  refine filter_not_append_filter_iff.mp (eq_of_map_eq hcalls fun a ha b hb hid => ?_)
  have ha' : a ∈ toolCalls := by
    obtain ha | ha := mem_append.mp ha
    · exact mem_of_mem_filter ha
    · exact mem_of_mem_filter ha
  exact inj_on_of_nodup_map hids ha' hb hid

/-- In every run in which the tools and hooks answer each call whatever the others do: if no failing
call comes after a runnable one, the results of the parallel mode are in the order of the calls and
those of the sequential mode; and only then, when the calls have distinct ids. -/
theorem parallelRight_iff (A : ToolAnswers) (context : AgentContext) (m : AssistantMessage)
    (toolCalls : List ToolCall) {w w' : AgentWorld} {results : List ToolResultMessage}
    (h : Runs A.rules (executeToolCallsParallel context m toolCalls, w) (.pure results, w')) :
    (A.FailuresFirst context m toolCalls → A.ParallelRight context m toolCalls results) ∧
      ((toolCalls.map ToolCall.id).Nodup →
        (A.ParallelRight context m toolCalls results ↔ A.FailuresFirst context m toolCalls)) :=
  ⟨parallelRight_of_failuresFirst h, fun hids =>
    ⟨fun hright => failuresFirst_of_inOrder h hids hright.inOrder,
      parallelRight_of_failuresFirst h⟩⟩

end ToolAnswers

/-- All calls are valid and admitted, and all tools end with an empty result. -/
def emptyAnswers : ToolAnswers where
  arguments _ _ := .ok .null
  before _ _ _ _ := .ok none
  execute _ := .ok ⟨[], none⟩
  after _ _ _ _ _ _ := none

def emptyGuard : Machine.Guard agentMachine where
  choice := fun op _ c =>
    match op, c with
    | .validateArguments _ _, .arguments args => decide (args = .null)
    | .validateArguments _ _, .throws _ => false
    | .beforeToolCall _ _ _ _, .before r => r.isNone
    | .beforeToolCall _ _ _ _, .throws _ => false
    | .afterToolCall _ _ _ _ _ _, .after r => r.isNone
    | _, _ => true
  action := fun _ a =>
    match a with
    | .toolSettle _ (.ok result) => decide (result = ⟨[], none⟩)
    | .toolSettle _ (.error _) => false
    | _ => true

theorem emptyGuard_within : emptyGuard.Within emptyAnswers.rules := by
  refine ⟨fun op w c h => ?_, fun w a h => ?_⟩
  · cases op with
    | validateArguments tool toolCall =>
      cases c with
      | arguments args => exact congrArg Except.ok (of_decide_eq_true h).symm
      | throws e => cases h
      | _ => trivial
    | beforeToolCall m toolCall args context =>
      cases c with
      | before r => exact congrArg Except.ok (isNone_iff_eq_none.mp h).symm
      | throws e => cases h
      | _ => trivial
    | afterToolCall m toolCall args result isError context =>
      cases c with
      | after r => exact (isNone_iff_eq_none.mp h).symm
      | _ => trivial
    | _ => cases c <;> trivial
  · cases a with
    | toolSettle execution outcome =>
      cases outcome with
      | ok result => exact fun e _ => congrArg Except.ok (of_decide_eq_true h)
      | error e => cases h
    | _ => trivial

def readContext : AgentContext := { systemPrompt := "", messages := [], tools := [⟨"read"⟩] }

/-- A call of a tool that the context has, then one of a tool that it does not have. -/
def knownThenUnknown : List ToolCall := [callNamed "1", { callNamed "2" with name := "write" }]

def returnedIds : AgentProgram (List ToolResultMessage) → Option (List String)
  | .pure results => some (results.map ToolResultMessage.toolCallId)
  | _ => none

def runningAgent : AgentWorld := { newAgent [] .parallel with activeRun := some ⟨false⟩ }

theorem knownThenUnknown_run :
    ∃ results w', Runs emptyAnswers.rules
        (executeToolCallsParallel readContext (replyWith knownThenUnknown .toolUse)
          knownThenUnknown, runningAgent) (.pure results, w') ∧
      results.map ToolResultMessage.toolCallId = ["2", "1"] := by
  have hplay : (Machine.play emptyGuard
      (prepareCall ++ steps 2 ++ [.inl (.clock 7)] ++ steps 3 ++ settleCall 0 ++ steps 1 ++
        [.inl (.after none)] ++ steps 1 ++ [.inl (.clock 8)] ++ steps 2)
      (executeToolCallsParallel readContext (replyWith knownThenUnknown .toolUse)
        knownThenUnknown, runningAgent)).map (fun c => returnedIds c.1) =
      some (some ["2", "1"]) := by
    decide +kernel
  obtain ⟨⟨p, w⟩, hc, hp⟩ := map_eq_some_iff.mp hplay
  cases p with
  | pure results => exact ⟨results, w, Runs.of_play emptyGuard_within hc, some.inj hp⟩
  | _ => cases hp

/-- The result of the call that fails comes first, although it is the second call. -/
theorem knownThenUnknown_reordered :
    ∃ results w', Runs emptyAnswers.rules
        (executeToolCallsParallel readContext (replyWith knownThenUnknown .toolUse)
          knownThenUnknown, runningAgent) (.pure results, w') ∧
      ¬emptyAnswers.ParallelRight readContext (replyWith knownThenUnknown .toolUse)
        knownThenUnknown results := by
  obtain ⟨results, w', hrun, hids⟩ := knownThenUnknown_run
  refine ⟨results, w', hrun, fun hright => ?_⟩
  have horder := congrArg (List.map ToolResultMessage.toolCallId) hright.inOrder
  simp only [List.map_map, Function.comp_def, ToolAnswers.answer_toolCallId] at horder
  have huntimed (result : ToolResultMessage) : result.untimed.toolCallId = result.toolCallId := rfl
  simp only [huntimed] at horder
  rw [hids] at horder
  exact absurd horder (by decide)

theorem knownThenUnknown_right_iff :
    ∃ results w', Runs emptyAnswers.rules
        (executeToolCallsParallel readContext (replyWith knownThenUnknown .toolUse)
          knownThenUnknown, runningAgent) (.pure results, w') ∧
      (emptyAnswers.ParallelRight readContext (replyWith knownThenUnknown .toolUse)
          knownThenUnknown results ↔
        emptyAnswers.FailuresFirst readContext (replyWith knownThenUnknown .toolUse)
          knownThenUnknown) := by
  obtain ⟨results, w', hrun, -⟩ := knownThenUnknown_run
  exact ⟨results, w', hrun, (ToolAnswers.parallelRight_iff emptyAnswers readContext
    (replyWith knownThenUnknown .toolUse) knownThenUnknown hrun).2 (by decide)⟩

end Draht
