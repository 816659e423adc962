import Draht.AskedKeys
import Draht.TransformDialogue

/-!
# Keys of calls in a prepared list

A provider may tell calls apart by a key of their ids. Preparing a list makes up results, which ask
for keys as well. Every result of the prepared list asks for the key of one call before it if every
given result asks for the key of some call, and a call that shares its key with a call before it is
followed by nothing but results with other keys.
-/

namespace Draht
open List

namespace TransformMessages

open AskedKeys

variable {κ : Type*} (key : String → κ)

def callKeys (m : Message) : List κ :=
  match event m with
  | .calls ids => ids.map key
  | _ => []

def resultKey (m : Message) : Option κ :=
  match event m with
  | .result id => some (key id)
  | _ => none

variable {key} {m : Message} {k : κ}

theorem callKeys_user (u : UserMessage) : callKeys key (.user u) = [] := rfl

theorem callKeys_toolResult (r : ToolResultMessage) : callKeys key (.toolResult r) = [] := rfl

variable {a : AssistantMessage}

theorem callKeys_failed (h : a.failed = true) : callKeys key (.assistant a) = [] := by
  rw [callKeys, event_assistant, if_pos h]
  rfl

theorem callKeys_assistant (h : ¬ a.failed = true) :
    callKeys key (.assistant a) = a.toolCalls.map fun tc => key tc.id := by
  rw [callKeys, event_assistant, if_neg h]
  exact map_map

theorem callKeys_no_calls (h : ¬ 0 < a.toolCalls.length) : callKeys key (.assistant a) = [] := by
  by_cases hfailed : a.failed = true
  · exact callKeys_failed hfailed
  · rw [callKeys_assistant hfailed, length_eq_zero_iff.mp (Nat.eq_zero_of_not_pos h)]
    rfl

theorem resultKey_eq_some_iff : resultKey key m = some k ↔
    ∃ r, m = .toolResult r ∧ key r.toolCallId = k := by
  cases m <;> simp [resultKey, event]

theorem callKeys_of_result (h : isToolResult m = true) : callKeys key m = [] := by
  cases m with
  | toolResult r => rfl
  | user u => cases h
  | assistant a => cases h

theorem exists_of_mem_callKeys (h : k ∈ callKeys key m) : ∃ a, m = .assistant a ∧
    ¬ a.failed = true ∧ ∃ tc ∈ a.toolCalls, key tc.id = k := by
  cases m with
  | user u => cases h
  | toolResult r => cases h
  | assistant a =>
    by_cases hfailed : a.failed = true
    · rw [callKeys_failed hfailed] at h
      cases h
    · rw [callKeys_assistant hfailed] at h
      exact ⟨a, rfl, hfailed, mem_map.mp h⟩

theorem syntheticResults_keys (now : ToolCall → ℕ) (pending : List ToolCall)
    (existing : List String) :
    (syntheticResults now pending existing).flatMap (callKeys key) = [] := by
  rw [flatMap_eq_nil_iff]
  intro m hm
  obtain ⟨tc, _, rfl⟩ := mem_map.mp hm
  rfl

/-- The pending calls are those of a message with only results after it. -/
def Pending (key : String → κ) (before : List Message) (pending : List ToolCall) : Prop :=
  ∀ tc ∈ pending, ∃ first m mid, before = first ++ m :: mid ∧ key tc.id ∈ callKeys key m ∧
    ∀ x ∈ mid, isToolResult x = true

theorem Pending.result {before : List Message} {pending : List ToolCall}
    (h : Pending key before pending) (r : ToolResultMessage) :
    Pending key (before ++ [.toolResult r]) pending := by
  intro tc htc
  obtain ⟨first, m, mid, rfl, hm, hmid⟩ := h tc htc
  refine ⟨first, m, mid ++ [.toolResult r], by simp, hm, ?_⟩
  exact forall_mem_append.mpr ⟨hmid, by simp [isToolResult]⟩

theorem Pending.nil (before : List Message) : Pending key before [] := nofun

theorem Pending.calls {before : List Message} (hfailed : ¬ a.failed = true) :
    Pending key (before ++ [.assistant a]) a.toolCalls := by
  intro tc htc
  refine ⟨before, .assistant a, [], rfl, ?_, nofun⟩
  rw [callKeys_assistant hfailed]
  exact mem_map_of_mem htc

section

variable [DecidableEq κ] (key)

def FlushedOnce (earlier : List κ) (pending : List ToolCall) (existing : List String) : Prop :=
  ∀ tc ∈ pending, tc.id ∉ existing → earlier.count (key tc.id) = 1

def Flushed (earlier : List κ) (pending : List ToolCall) (existing : List String) :
    List Message → Prop
  | [] => True
  | .toolResult m :: rest => Flushed earlier pending (m.toolCallId :: existing) rest
  | .user _ :: rest =>
    FlushedOnce key earlier pending existing ∧
      Flushed earlier [] (existingAfterFlush pending existing) rest
  | .assistant m :: rest =>
    FlushedOnce key earlier pending existing ∧
      if m.failed then Flushed earlier [] (existingAfterFlush pending existing) rest
      else if 0 < m.toolCalls.length then
        Flushed (earlier ++ callKeys key (.assistant m)) m.toolCalls [] rest
      else Flushed earlier [] (existingAfterFlush pending existing) rest

variable {key} {earlier : List κ} {pending : List ToolCall} {existing : List String}
  {ms before after : List Message}

theorem openedOnce_syntheticResults (now : ToolCall → ℕ) :
    OpenedOnce (callKeys key) (resultKey key) earlier (syntheticResults now pending existing) ↔
      FlushedOnce key earlier pending existing := by
  rw [openedOnce_of_opens_nil]
  · constructor
    · intro h tc htc hid
      refine h _ (mem_map.mpr ⟨tc, mem_filter.mpr ⟨htc, by simpa using hid⟩, rfl⟩) _ rfl
    · intro h m hm k hk
      obtain ⟨tc, htc, rfl⟩ := mem_map.mp hm
      obtain ⟨htc, hid⟩ := mem_filter.mp htc
      obtain rfl : key tc.id = k := Option.some.inj hk
      exact h tc htc (by simpa using hid)
  · intro m hm
    obtain ⟨tc, _, rfl⟩ := mem_map.mp hm
    rfl

theorem openedOnce_secondPass (now : ℕ → ToolCall → ℕ) :
    OpenedOnce (callKeys key) (resultKey key) earlier (secondPass now pending existing ms) ↔
      OpenedOnce (callKeys key) (resultKey key) earlier ms ∧
        Flushed key earlier pending existing ms := by
  induction ms generalizing earlier pending existing with
  | nil => simp [secondPass, OpenedOnce, Flushed]
  | cons m ms ih =>
    cases m with
    | toolResult r =>
      rw [secondPass, OpenedOnce, OpenedOnce, callKeys_toolResult, append_nil, ih,
        Flushed, and_assoc]
    | user u =>
      rw [secondPass, openedOnce_append, openedOnce_syntheticResults, syntheticResults_keys,
        append_nil, OpenedOnce, OpenedOnce, callKeys_user, append_nil, ih, Flushed]
      tauto
    | assistant a =>
      rw [secondPass, openedOnce_append, openedOnce_syntheticResults, syntheticResults_keys,
        append_nil, Flushed, OpenedOnce]
      by_cases hfailed : a.failed = true
      · simp only [if_pos hfailed, ih, callKeys_failed hfailed, append_nil]
        tauto
      · simp only [if_neg hfailed]
        by_cases hcalls : 0 < a.toolCalls.length
        · simp only [if_pos hcalls, OpenedOnce, ih]
          tauto
        · simp only [if_neg hcalls, OpenedOnce, ih, callKeys_no_calls hcalls, append_nil]
          tauto

/-- A call that shares its key with a call before it, or of its message, is followed by nothing but
results with other keys. -/
def SharedLast (key : String → κ) (ms : List Message) : Prop :=
  ∀ before m after k, ms = before ++ m :: after → k ∈ callKeys key m →
    ((before ++ [m]).flatMap (callKeys key)).count k ≠ 1 →
      ∀ x ∈ after, ∃ r, x = .toolResult r ∧ key r.toolCallId ≠ k

theorem SharedLast.notAgain (h : SharedLast key ms) :
    NotAgain (callKeys key) (resultKey key) ms := by
  intro before m after k hms hm htwice x hx hask
  obtain ⟨r, rfl, hne⟩ := h before m after k hms hm htwice x hx
  obtain ⟨r', hr, hk⟩ := resultKey_eq_some_iff.mp hask
  cases hr
  exact hne hk

theorem Pending.flushedOnce (h : Pending key before pending)
    (hshared : SharedLast key (before ++ m :: after)) (hm : isToolResult m = false) :
    FlushedOnce key (before.flatMap (callKeys key)) pending existing := by
  intro tc htc _
  obtain ⟨first, x, mid, rfl, hx, hmid⟩ := h tc htc
  have hnone : mid.flatMap (callKeys key) = [] :=
    flatMap_eq_nil_iff.mpr fun y hy => callKeys_of_result (hmid y hy)
  by_contra htwice
  rw [show first ++ x :: mid = (first ++ [x]) ++ mid by simp, flatMap_append, hnone,
    append_nil] at htwice
  obtain ⟨r, rfl, _⟩ := hshared first x (mid ++ m :: after) (key tc.id) (by simp) hx htwice m
    (by simp)
  cases hm

theorem SharedLast.flushed (h : SharedLast key (before ++ ms))
    (hpending : Pending key before pending) (existing : List String) :
    Flushed key (before.flatMap (callKeys key)) pending existing ms := by
  induction ms generalizing before pending existing with
  | nil => trivial
  | cons m ms ih =>
    have hnext : SharedLast key ((before ++ [m]) ++ ms) := by simpa using h
    cases m with
    | toolResult r =>
      have hrest := ih hnext (hpending.result r) (r.toolCallId :: existing)
      rwa [flatMap_append, flatMap_singleton, callKeys_toolResult, append_nil] at hrest
    | user u =>
      have hrest := ih hnext (.nil _) (existingAfterFlush pending existing)
      rw [flatMap_append, flatMap_singleton, callKeys_user, append_nil] at hrest
      exact ⟨hpending.flushedOnce h rfl, hrest⟩
    | assistant a =>
      refine ⟨hpending.flushedOnce h rfl, ?_⟩
      have hnone := ih hnext (.nil _) (existingAfterFlush pending existing)
      rw [flatMap_append, flatMap_singleton] at hnone
      by_cases hfailed : a.failed = true
      · rw [callKeys_failed hfailed, append_nil] at hnone
        rw [if_pos hfailed]
        exact hnone
      · rw [if_neg hfailed]
        by_cases hcalls : 0 < a.toolCalls.length
        · have hrest := ih hnext (.calls hfailed) []
          rw [flatMap_append, flatMap_singleton] at hrest
          rw [if_pos hcalls]
          exact hrest
        · rw [callKeys_no_calls hcalls, append_nil] at hnone
          rw [if_neg hcalls]
          exact hnone

theorem Flushed.append (h : Flushed key earlier pending existing (before ++ after)) :
    ∃ pending existing,
      Flushed key (earlier ++ before.flatMap (callKeys key)) pending existing after := by
  induction before generalizing earlier pending existing with
  | nil => exact ⟨pending, existing, by simpa using h⟩
  | cons m before ih =>
    rw [flatMap_cons, ← append_assoc]
    cases m with
    | toolResult r =>
      rw [callKeys_toolResult, append_nil]
      exact ih h
    | user u =>
      rw [callKeys_user, append_nil]
      exact ih h.2
    | assistant a =>
      have hrest := h.2
      split_ifs at hrest with hfailed hcalls
      · rw [callKeys_failed hfailed, append_nil]
        exact ih hrest
      · exact ih hrest
      · rw [callKeys_no_calls hcalls, append_nil]
        exact ih hrest

theorem Flushed.once {results : List Message} (h : Flushed key earlier pending existing
      (results ++ m :: after)) (hresults : ∀ x ∈ results, isToolResult x = true)
    (hm : isToolResult m = false) {tc : ToolCall} (htc : tc ∈ pending) (hid : tc.id ∉ existing)
    (hnone : ∀ r, .toolResult r ∈ results → r.toolCallId ≠ tc.id) :
    earlier.count (key tc.id) = 1 := by
  induction results generalizing existing with
  | nil =>
    cases m with
    | toolResult r => cases hm
    | user u => exact h.1 tc htc hid
    | assistant a => exact h.1 tc htc hid
  | cons x results ih =>
    obtain ⟨hx, hrest⟩ := forall_mem_cons.mp hresults
    cases x with
    | user u => cases hx
    | assistant a => cases hx
    | toolResult r =>
      refine ih h hrest ?_ fun r' hr' => hnone r' (mem_cons_of_mem _ hr')
      have hne := hnone r mem_cons_self
      simp [hid, hne.symm]

theorem sharedLast_of_flushed (honce : OpenedOnce (callKeys key) (resultKey key) [] ms)
    (hflushed : Flushed key [] [] [] ms) : SharedLast key ms := by
  rintro before m after k rfl hk htwice x hx
  obtain ⟨_, hnot⟩ := openedOnce_nil_iff.mp honce
  have hother : ∀ y ∈ after, resultKey key y ≠ some k := hnot before m after k rfl hk htwice
  obtain ⟨a, rfl, hfailed, tc, htc, rfl⟩ := exists_of_mem_callKeys hk
  obtain ⟨pending, existing, hrest⟩ := hflushed.append
  have hcalls := hrest.2
  rw [if_neg hfailed, if_pos (length_pos_of_mem htc), nil_append] at hcalls
  have hresults : ∀ y ∈ after, isToolResult y = true := by
    by_contra hsome
    have hne : after.dropWhile isToolResult ≠ [] := by rwa [Ne, dropWhile_eq_nil_iff]
    obtain ⟨y, rest, hdrop⟩ := exists_cons_of_ne_nil hne
    have hy : isToolResult y = false := by
      have hhead := head_dropWhile_not isToolResult hne
      simpa [hdrop] using hhead
    rw [← takeWhile_append_dropWhile (p := isToolResult) (l := after), hdrop] at hcalls
    refine htwice ?_
    rw [flatMap_append, flatMap_singleton]
    refine hcalls.once (fun x hx => mem_takeWhile_imp hx) hy htc not_mem_nil ?_
    intro r hr hid
    exact hother _ (takeWhile_subset _ hr) (resultKey_eq_some_iff.mpr ⟨r, rfl, by rw [hid]⟩)
  cases x with
  | user u => exact absurd (hresults _ hx) (by simp [isToolResult])
  | assistant a => exact absurd (hresults _ hx) (by simp [isToolResult])
  | toolResult r => exact ⟨r, rfl, fun hr => hother _ hx (resultKey_eq_some_iff.mpr ⟨r, rfl, hr⟩)⟩

theorem openedOnce_prepared_iff (now : ℕ → ToolCall → ℕ) :
    OpenedOnce (callKeys key) (resultKey key) [] (secondPass now [] [] ms) ↔
      Opened (callKeys key) (resultKey key) ms ∧ SharedLast key ms := by
  rw [openedOnce_secondPass]
  constructor
  · rintro ⟨honce, hflushed⟩
    exact ⟨(openedOnce_nil_iff.mp honce).1, sharedLast_of_flushed honce hflushed⟩
  · rintro ⟨hopened, hshared⟩
    exact ⟨openedOnce_nil_iff.mpr ⟨hopened, hshared.notAgain⟩, hshared.flushed (.nil []) []⟩

end

section

variable (model : Model) (normalizeToolCallId : Option NormalizeToolCallId)

/-- `toolCallIdMap` after these messages. -/
def idMapAfter : OrderedMap String String → List Message → OrderedMap String String
  | idMap, [] => idMap
  | idMap, .assistant m :: rest =>
    idMapAfter (transformAssistant model normalizeToolCallId idMap m).2 rest
  | idMap, .user _ :: rest => idMapAfter idMap rest
  | idMap, .toolResult _ :: rest => idMapAfter idMap rest

def rewriteMessage (idMap : OrderedMap String String) : Message → Message
  | .user m => .user m
  | .assistant m => .assistant (rewriteAssistant model normalizeToolCallId m)
  | .toolResult m => .toolResult (transformToolResult idMap m)

variable (key)

def sentCallKeys : Message → List κ
  | .assistant m =>
    if m.failed then []
    else m.toolCalls.map fun tc => key (outputId (normalizeFor model normalizeToolCallId m) tc.id)
  | _ => []

def sentResultKey (before : List Message) (r : ToolResultMessage) : κ :=
  key (mappedId (idMapAfter model normalizeToolCallId .empty before) r.toolCallId)

variable {key model normalizeToolCallId} {idMap : OrderedMap String String}

theorem firstPass_cons (x : Message) (ms : List Message) :
    firstPass model normalizeToolCallId idMap (x :: ms) =
      rewriteMessage model normalizeToolCallId idMap x ::
        firstPass model normalizeToolCallId
          (idMapAfter model normalizeToolCallId idMap [x]) ms := by
  cases x with
  | user u => rfl
  | toolResult r => rfl
  | assistant a => exact firstPass_assistant idMap a ms

theorem isFailed_rewriteMessage (m : Message) :
    isFailed (rewriteMessage model normalizeToolCallId idMap m) = isFailed m := by
  cases m <;> rfl

theorem idMapAfter_cons (x : Message) (ms : List Message) :
    idMapAfter model normalizeToolCallId idMap (x :: ms) = idMapAfter model normalizeToolCallId
      (idMapAfter model normalizeToolCallId idMap [x]) ms := by
  cases x <;> rfl

theorem idMapAfter_append (xs ys : List Message) :
    idMapAfter model normalizeToolCallId idMap (xs ++ ys) = idMapAfter model normalizeToolCallId
      (idMapAfter model normalizeToolCallId idMap xs) ys := by
  induction xs generalizing idMap with
  | nil => rfl
  | cons x xs ih => rw [cons_append, idMapAfter_cons, ih, ← idMapAfter_cons]

theorem firstPass_eq_append_cons_iff {ms before' after' : List Message} {x' : Message} :
    firstPass model normalizeToolCallId idMap ms = before' ++ x' :: after' ↔
      ∃ before x after, ms = before ++ x :: after ∧
        before' = firstPass model normalizeToolCallId idMap before ∧
        x' = rewriteMessage model normalizeToolCallId
          (idMapAfter model normalizeToolCallId idMap before) x ∧
        after' = firstPass model normalizeToolCallId
          (idMapAfter model normalizeToolCallId idMap (before ++ [x])) after := by
  induction ms generalizing idMap before' with
  | nil => simp [firstPass]
  | cons m ms ih =>
    rw [firstPass_cons]
    constructor
    · intro h
      cases before' with
      | nil =>
        cases h
        exact ⟨[], m, ms, rfl, rfl, rfl, rfl⟩
      | cons y before' =>
        obtain ⟨rfl, hrest⟩ := cons.inj h
        obtain ⟨before, x, after, rfl, rfl, rfl, rfl⟩ := ih.mp hrest
        refine ⟨m :: before, x, after, rfl, (firstPass_cons m before).symm, ?_, ?_⟩
        · rw [idMapAfter_cons m before]
        · rw [cons_append, idMapAfter_cons m (before ++ [x])]
    · rintro ⟨before, x, after, hms, rfl, rfl, rfl⟩
      cases before with
      | nil =>
        cases hms
        rfl
      | cons y before =>
        cases hms
        rw [firstPass_cons, cons_append, cons.injEq]
        refine ⟨rfl, ih.mpr ⟨before, x, after, rfl, rfl, ?_, ?_⟩⟩
        · rw [idMapAfter_cons m before]
        · rw [cons_append, idMapAfter_cons m (before ++ [x])]

variable (model normalizeToolCallId idMap) in
theorem firstPass_append_cons (before after : List Message) (x : Message) :
    firstPass model normalizeToolCallId idMap (before ++ x :: after) =
      firstPass model normalizeToolCallId idMap before ++
        rewriteMessage model normalizeToolCallId
          (idMapAfter model normalizeToolCallId idMap before) x ::
            firstPass model normalizeToolCallId
              (idMapAfter model normalizeToolCallId idMap (before ++ [x])) after :=
  firstPass_eq_append_cons_iff.mpr ⟨before, x, after, rfl, rfl, rfl, rfl⟩

theorem callKeys_rewriteMessage (x : Message) :
    callKeys key (rewriteMessage model normalizeToolCallId idMap x) =
      sentCallKeys key model normalizeToolCallId x := by
  cases x with
  | user u => rfl
  | toolResult r => rfl
  | assistant a =>
    by_cases hfailed : a.failed = true
    · rw [rewriteMessage, sentCallKeys, if_pos hfailed]
      exact callKeys_failed hfailed
    · have hkeys : callKeys key (.assistant (rewriteAssistant model normalizeToolCallId a)) = _ :=
        callKeys_assistant hfailed
      rw [rewriteMessage, sentCallKeys, if_neg hfailed, hkeys]
      have hids : (rewriteAssistant model normalizeToolCallId a).toolCalls.map ToolCall.id = _ :=
        ids_rewriteAssistant a
      replace hids := congrArg (List.map key) hids
      rwa [map_map, map_map, map_map] at hids

theorem callKeys_firstPass (ms : List Message) :
    (firstPass model normalizeToolCallId idMap ms).flatMap (callKeys key) =
      ms.flatMap (sentCallKeys key model normalizeToolCallId) := by
  induction ms generalizing idMap with
  | nil => rfl
  | cons m ms ih =>
    rw [firstPass_cons, flatMap_cons, flatMap_cons, callKeys_rewriteMessage, ih]

variable {ms : List Message}

variable (key model normalizeToolCallId) in
def ResultsOpened (messages : List Message) : Prop :=
  ∀ before r after, messages = before ++ .toolResult r :: after →
    sentResultKey key model normalizeToolCallId before r ∈
      before.flatMap (sentCallKeys key model normalizeToolCallId)

theorem opened_firstPass_iff :
    Opened (callKeys key) (resultKey key) (firstPass model normalizeToolCallId .empty ms) ↔
      ResultsOpened key model normalizeToolCallId ms := by
  constructor
  · rintro h before r after rfl
    have hsent := h _ _ _ _ (firstPass_append_cons _ _ _ before after _)
      (resultKey_eq_some_iff.mpr ⟨_, rfl, rfl⟩)
    rwa [callKeys_firstPass, transformToolResult_eq] at hsent
  · intro h before' x' after' k hms hk
    obtain ⟨before, x, after, rfl, rfl, rfl, rfl⟩ := firstPass_eq_append_cons_iff.mp hms
    obtain ⟨r', hr', rfl⟩ := resultKey_eq_some_iff.mp hk
    cases x with
    | user u => cases hr'
    | assistant a => cases hr'
    | toolResult r =>
      cases hr'
      rw [callKeys_firstPass, transformToolResult_eq]
      exact h before r after rfl

variable [DecidableEq κ]

variable (key model normalizeToolCallId) in
/-- A call that is sent with the key of a call before it, or of its message, is followed by nothing
but results that are sent with other keys. -/
def SharedCallsLast (messages : List Message) : Prop :=
  ∀ before m mid x after k, messages = before ++ m :: (mid ++ x :: after) →
    k ∈ sentCallKeys key model normalizeToolCallId m →
    ((before ++ [m]).flatMap (sentCallKeys key model normalizeToolCallId)).count k ≠ 1 →
      ∃ r, x = .toolResult r ∧
        sentResultKey key model normalizeToolCallId (before ++ m :: mid) r ≠ k

theorem sharedLast_firstPass_iff :
    SharedLast key (firstPass model normalizeToolCallId .empty ms) ↔
      SharedCallsLast key model normalizeToolCallId ms := by
  constructor
  · rintro h before m mid x after k rfl hk htwice
    have hsplit := firstPass_append_cons model normalizeToolCallId .empty before
      (mid ++ x :: after) m
    rw [firstPass_append_cons _ _ _ mid] at hsplit
    obtain ⟨r', hr', hne⟩ := h _ _ _ k hsplit (by rwa [callKeys_rewriteMessage])
      (by rwa [flatMap_append, flatMap_singleton, callKeys_firstPass,
        callKeys_rewriteMessage, ← flatMap_singleton (sentCallKeys _ _ _),
        ← flatMap_append]) _ (mem_append_right _ mem_cons_self)
    cases x with
    | user u => cases hr'
    | assistant a => cases hr'
    | toolResult r =>
      cases hr'
      refine ⟨r, rfl, ?_⟩
      rw [transformToolResult_eq, ← idMapAfter_append] at hne
      simpa [sentResultKey] using hne
  · intro h before' m' after' k hms hk htwice x' hx'
    obtain ⟨before, m, after, rfl, rfl, rfl, rfl⟩ := firstPass_eq_append_cons_iff.mp hms
    obtain ⟨mid', rest', hrest⟩ := append_of_mem hx'
    obtain ⟨mid, x, rest, rfl, rfl, rfl, rfl⟩ := firstPass_eq_append_cons_iff.mp hrest
    rw [callKeys_rewriteMessage] at hk
    rw [flatMap_append, flatMap_singleton, callKeys_firstPass, callKeys_rewriteMessage] at htwice
    obtain ⟨r, rfl, hne⟩ := h before m mid x rest k rfl hk (by simpa using htwice)
    refine ⟨_, rfl, ?_⟩
    rw [transformToolResult_eq, ← idMapAfter_append]
    simpa [sentResultKey] using hne

/-- The results of the prepared list each ask for the key of one call before them exactly if the
given results are sent with keys of calls, and calls that share a key come last. -/
theorem openedOnce_transformMessages_iff (now : ℕ → ToolCall → ℕ) :
    OpenedOnce (callKeys key) (resultKey key) []
        (transformMessages now ms model normalizeToolCallId) ↔
      ResultsOpened key model normalizeToolCallId ms ∧
        SharedCallsLast key model normalizeToolCallId ms := by
  rw [transformMessages, openedOnce_prepared_iff, opened_firstPass_iff, sharedLast_firstPass_iff]

end

end TransformMessages

end Draht
