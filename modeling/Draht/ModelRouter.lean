import Mathlib.Data.Rat.Defs
import Draht.GitSource

/-!
# Streaming with fallback models

The router calls the models of a role in turn. The events of a call are kept back until its
stream is done, and a failure that may pass leads on to the next model.
-/

namespace Draht.ModelRouter
open List

structure ModelRef where
  provider : JsText
  model : JsText

structure RoleConfig where
  primary : ModelRef
  fallbacks : List ModelRef

/-- An `Error`. Its property `status` counts where it is a number. -/
structure JsError where
  message : JsText
  status : Option ℚ

/-- A thrown value that is no `Error` has the text that `String` gives it. -/
inductive Thrown where
  | error (e : JsError)
  | value (text : JsText)

def Thrown.toError : Thrown → JsError
  | .error e => e
  | .value text => ⟨text, none⟩

inductive Event (ε : Type*) where
  | done (payload : ε)
  | error (errorMessage : Option JsText) (payload : ε)
  | other (payload : ε)

/-- What iterating over a stream gives: events, and then its end or an exception. -/
inductive ModelStream (ε : Type*) where
  | ended
  | throws (thrown : Thrown)
  | next (event : Event ε) (rest : ModelStream ε)

/-- What the router calls. `streamFn` is given the number of the calls before. -/
structure Backend (M P ε : Type*) where
  getModel : ModelRef → Except Thrown (Option M)
  getApiProvider : M → Option P
  streamFn : ℕ → P → M → ModelStream ε

/-- What the generator yields, and what it throws then, if anything. -/
structure Outcome (ε : Type*) where
  yielded : List (Event ε)
  thrown : Option JsError

variable {M P ε : Type*}

def retryableTexts : List String :=
  ["rate limit", "429", "timeout", "timed out", "etimedout", "500", "502", "503", "504",
    "server error", "internal error", "overloaded", "capacity"]

/-- Only ASCII letters have a lower case that these texts contain. -/
def isRetryableError (e : JsError) : Bool :=
  let msg := e.message.map GitSource.toLowerUnit
  (retryableTexts.any fun text => decide (utf16 text <:+: msg)) ||
    e.status.any fun status => status = 429 || (500 ≤ status && status < 600)

/-- The loop over the events of one stream. -/
def readEvents (bufferedEvents : List (Event ε)) :
    ModelStream ε → Except JsError (List (Event ε))
  | .ended => .error ⟨utf16 "Stream ended without completion", none⟩
  | .throws thrown => .error thrown.toError
  | .next (.error errorMessage _) _ => .error ⟨errorMessage.getD (utf16 "Stream error"), none⟩
  | .next (.done payload) _ => .ok (bufferedEvents ++ [.done payload])
  | .next (.other payload) rest => readEvents (bufferedEvents ++ [.other payload]) rest

def resolveModel (B : Backend M P ε) (ref : ModelRef) : Option M :=
  match B.getModel ref with
  | .ok model => model
  | .error _ => none

/-- The stream of a model; a model that is unknown or has no provider is passed over. -/
def openStream (B : Backend M P ε) (calls : ℕ) (ref : ModelRef) : Option (ModelStream ε) :=
  (resolveModel B ref).bind fun model =>
    (B.getApiProvider model).map fun provider => B.streamFn calls provider model

def tryModels (B : Backend M P ε) (role : JsText) (calls : ℕ) (lastError : Option JsError) :
    List ModelRef → Outcome ε
  | [] => ⟨[], some (lastError.getD ⟨utf16 "No available model for role: " ++ role, none⟩)⟩
  | ref :: models =>
    match openStream B calls ref with
    | none => tryModels B role calls lastError models
    | some stream =>
      match readEvents [] stream with
      | .ok events => ⟨events, none⟩
      | .error streamError =>
        if isRetryableError streamError then
          tryModels B role (calls + 1) (some streamError) models
        else ⟨[], some streamError⟩

/-- `[roleConfig.primary, ...roleConfig.fallbacks]`. -/
def resolveWithFallbacks (config : JsText → Option RoleConfig) (role : JsText) :
    Except JsError (List ModelRef) :=
  match config role with
  | none => .error ⟨utf16 "Unknown role: " ++ role, none⟩
  | some roleConfig => .ok (roleConfig.primary :: roleConfig.fallbacks)

def streamWithFallback (B : Backend M P ε) (config : JsText → Option RoleConfig)
    (role : JsText) : Outcome ε :=
  match resolveWithFallbacks config role with
  | .error e => ⟨[], some e⟩
  | .ok models => tryModels B role 0 none models

/-- The stream reaches `done`, with these events up to there. -/
inductive Completes : ModelStream ε → List (Event ε) → Prop
  | done (payload : ε) (rest : ModelStream ε) :
      Completes (.next (.done payload) rest) [.done payload]
  | other (payload : ε) {rest : ModelStream ε} {events : List (Event ε)}
      (h : Completes rest events) :
      Completes (.next (.other payload) rest) (.other payload :: events)

/-- The stream fails before it reaches `done`. -/
inductive Fails : ModelStream ε → JsError → Prop
  | ended : Fails .ended ⟨utf16 "Stream ended without completion", none⟩
  | throws (thrown : Thrown) : Fails (.throws thrown) thrown.toError
  | error (errorMessage : Option JsText) (payload : ε) (rest : ModelStream ε) :
      Fails (.next (.error errorMessage payload) rest)
        ⟨errorMessage.getD (utf16 "Stream error"), none⟩
  | other (payload : ε) {rest : ModelStream ε} {e : JsError} (h : Fails rest e) :
      Fails (.next (.other payload) rest) e

def FailsForNow (s : ModelStream ε) : Prop := ∃ e, Fails s e ∧ isRetryableError e = true

variable {models : List ModelRef} {B : Backend M P ε} {calls : ℕ} {after : List (ModelStream ε)}
  {s : ModelStream ε}

theorem Completes.readEvents_eq {events : List (Event ε)} (h : Completes s events)
    (buffered : List (Event ε)) : readEvents buffered s = .ok (buffered ++ events) := by
  induction h generalizing buffered with
  | done payload rest => rfl
  | other payload h ih => rw [readEvents, ih, append_assoc, singleton_append]

theorem Fails.readEvents_eq {e : JsError} (h : Fails s e) (buffered : List (Event ε)) :
    readEvents buffered s = .error e := by
  induction h generalizing buffered with
  | ended => rfl
  | throws thrown => rfl
  | error errorMessage payload rest => rfl
  | other payload h ih => rw [readEvents, ih]

/-- The streams of the models of a chain that are called, in order. -/
def streamsFrom (B : Backend M P ε) (calls : ℕ) : List ModelRef → List (ModelStream ε)
  | [] => []
  | ref :: models =>
    match openStream B calls ref with
    | none => streamsFrom B calls models
    | some stream => stream :: streamsFrom B (calls + 1) models

def chainStreams (B : Backend M P ε) (config : JsText → Option RoleConfig) (role : JsText) :
    List (ModelStream ε) :=
  match resolveWithFallbacks config role with
  | .error _ => []
  | .ok models => streamsFrom B 0 models

variable (role : JsText) (lastError : Option JsError)

/-- After failures that may pass, the loop goes on with the models that are left. -/
theorem tryModels_skip {before : List (ModelStream ε)} (hbefore : ∀ t ∈ before, FailsForNow t)
    (h : streamsFrom B calls models = before ++ after) :
    ∃ calls' lastError' models', streamsFrom B calls' models' = after ∧
      tryModels B role calls lastError models = tryModels B role calls' lastError' models' := by
  induction models generalizing calls lastError before with
  | nil =>
    obtain ⟨rfl, rfl⟩ := append_eq_nil_iff.mp h.symm
    exact ⟨calls, lastError, [], rfl, rfl⟩
  | cons ref models ih =>
    cases before with
    | nil => exact ⟨calls, lastError, ref :: models, h, rfl⟩
    | cons t before =>
      rw [streamsFrom] at h
      rw [tryModels]
      cases hopen : openStream B calls ref with
      | none =>
        rw [hopen] at h
        exact ih lastError hbefore h
      | some stream =>
        rw [hopen] at h
        obtain ⟨rfl, hrest⟩ := cons.inj h
        obtain ⟨e, hfails, hretry⟩ := hbefore stream mem_cons_self
        obtain ⟨calls', lastError', models', hstreams, htry⟩ :=
          ih (some e) (fun t ht => hbefore t (mem_cons_of_mem _ ht)) hrest
        refine ⟨calls', lastError', models', hstreams, ?_⟩
        rw [← htry]
        simp [hfails.readEvents_eq, if_pos hretry]

/-- The next call is that of the first stream which is left. -/
theorem tryModels_first {role : JsText} {lastError : Option JsError}
    (h : streamsFrom B calls models = s :: after) :
    (∀ events, Completes s events → tryModels B role calls lastError models = ⟨events, none⟩) ∧
      ∀ e, Fails s e → isRetryableError e = false →
        tryModels B role calls lastError models = ⟨[], some e⟩ := by
  induction models with
  | nil => exact absurd h (cons_ne_nil s after).symm
  | cons ref models ih =>
    rw [streamsFrom] at h
    rw [tryModels]
    cases hopen : openStream B calls ref with
    | none =>
      rw [hopen] at h
      exact ih h
    | some stream =>
      rw [hopen] at h
      obtain ⟨rfl, -⟩ := cons.inj h
      constructor
      · intro events hcompletes
        simp [hcompletes.readEvents_eq]
      · intro e hfails hretry
        simp only [hfails.readEvents_eq, hretry]
        rfl

theorem tryModels_none (h : streamsFrom B calls models = []) :
    ∃ e, tryModels B role calls lastError models = ⟨[], some e⟩ := by
  induction models with
  | nil => exact ⟨_, rfl⟩
  | cons ref models ih =>
    rw [streamsFrom] at h
    rw [tryModels]
    cases hopen : openStream B calls ref with
    | none =>
      rw [hopen] at h
      exact ih h
    | some stream =>
      rw [hopen] at h
      exact absurd h (cons_ne_nil _ _)

/-- The generator yields the whole of the first stream that reaches `done`, when those before it
fail in a way that may pass, and nothing of these; otherwise it only throws. -/
theorem streamWithFallback_allOrNothing (B : Backend M P ε) (config : JsText → Option RoleConfig)
    (role : JsText) :
    (∀ before s after events, chainStreams B config role = before ++ s :: after →
        (∀ t ∈ before, FailsForNow t) → Completes s events →
          streamWithFallback B config role = ⟨events, none⟩) ∧
      (∀ before s after e, chainStreams B config role = before ++ s :: after →
        (∀ t ∈ before, FailsForNow t) → Fails s e → isRetryableError e = false →
          streamWithFallback B config role = ⟨[], some e⟩) ∧
      ((∀ t ∈ chainStreams B config role, FailsForNow t) →
        ∃ e, streamWithFallback B config role = ⟨[], some e⟩) := by
  rw [chainStreams, streamWithFallback]
  cases resolveWithFallbacks config role with
  | error e =>
    refine ⟨?_, ?_, fun _ => ⟨e, rfl⟩⟩
    · intro before s after events h
      simp at h
    · intro before s after e h
      simp at h
  | ok models =>
    refine ⟨?_, ?_, ?_⟩
    · intro before s after events h hbefore hcompletes
      obtain ⟨calls, lastError, rest, hstreams, htry⟩ :=
        tryModels_skip role none hbefore h
      exact htry.trans ((tryModels_first hstreams).1 events hcompletes)
    · intro before s after e h hbefore hfails hretry
      obtain ⟨calls, lastError, rest, hstreams, htry⟩ :=
        tryModels_skip role none hbefore h
      exact htry.trans ((tryModels_first hstreams).2 e hfails hretry)
    · intro hall
      obtain ⟨calls, lastError, rest, hstreams, htry⟩ :=
        tryModels_skip role none hall (append_nil _).symm
      obtain ⟨e, he⟩ := tryModels_none role lastError hstreams
      exact ⟨e, htry.trans he⟩

end Draht.ModelRouter
