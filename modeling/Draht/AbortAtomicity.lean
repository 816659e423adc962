import Draht.GuardedRun
import Draht.FileTools

/-!
# Aborts of the file tools

A call that is rejected because its signal has fired has not changed a file, and none of its
operations is under way when a later call for the file has its turn, as long as the signal does
not fire while it writes, or at another operation that a later call does not wait for.
-/

namespace Draht.FileTools
open List Option

open FileMutationQueue (FileSystem)

variable {nfkc : JsText → JsText} {s s' : State} {c c' : ToolCall}

theorem queue_fs {q q' : FileMutationQueue.State} {e : FileMutationQueue.Event}
    (h : FileMutationQueue.step q e = some q') :
    q'.fs = match e with
      | .changeFiles fs => fs
      | _ => q.fs := by
  rcases FileMutationQueue.step_cases h with ⟨filePath, rfl, rfl⟩ | ⟨id, c, rfl, -, -, -, rfl⟩ |
    ⟨id, c, rfl, -, -, rfl⟩ | ⟨id, c, rfl, -, -, -, rfl⟩ | ⟨fs, rfl, rfl⟩
  · rfl
  · rfl
  · unfold FileMutationQueue.finish
    split_ifs <;> rfl
  · rfl
  · rfl

def ToolCall.new (tool : Tool) (path resolvedPath : String) : ToolCall :=
  { tool, path, resolvedPath, aborted := false, progress := .queued, outcome := none }

inductive Stepped (nfkc : JsText → JsText) (s : State) : Event → State → Prop
  | execute (tool : Tool) (path absolutePath : String) (queue : FileMutationQueue.State) :
      queue.fs = s.queue.fs →
      Stepped nfkc s (.execute tool path absolutePath)
        { s with
          queue
          tools := s.tools ++ [.new tool path (s.queue.fs.resolve absolutePath)] }
  | start (id : ℕ) (c : ToolCall) (queue : FileMutationQueue.State) : queue.fs = s.queue.fs →
      s.tools[id]? = some c → c.progress = .queued →
      Stepped nfkc s (.start id) ({ s with queue }.update id ToolCall.start)
  | perform (id : ℕ) (message : Option String) (c : ToolCall) (op : FileOperation)
      (files : String → Option JsText) (result : Except String JsText) :
      s.tools[id]? = some c → c.progress = .inFlight op →
      performed s c.resolvedPath op message = some (files, result) →
      Stepped nfkc s (.perform id message)
        ({ s with files }.update id fun c => { c with progress := .performed op result })
  | resume (id : ℕ) (c : ToolCall) (op : FileOperation) (result : Except String JsText) :
      s.tools[id]? = some c → c.progress = .performed op result →
      Stepped nfkc s (.resume id) (s.update id fun c => c.resume nfkc op result)
  | abort (id : ℕ) (c : ToolCall) : s.tools[id]? = some c →
      Stepped nfkc s (.abort id) (s.update id ToolCall.onAbort)
  | settle (id : ℕ) (queue : FileMutationQueue.State) : queue.fs = s.queue.fs →
      Stepped nfkc s (.settle id) { s with queue }
  | resolveChained (id : ℕ) (queue : FileMutationQueue.State) : queue.fs = s.queue.fs →
      Stepped nfkc s (.resolveChained id) { s with queue }
  | changeFiles (fs : FileSystem) (files : String → Option JsText)
      (queue : FileMutationQueue.State) : queue.fs = fs →
      Stepped nfkc s (.changeFiles fs files) { s with queue, files }

variable {e : Event} {op : FileOperation} {outcome : Option Outcome} {f : ToolCall → ToolCall}
  {result : Except String JsText}

theorem stepped (hs : step nfkc s e = some s') : Stepped nfkc s e s' := by
  cases e with
  | execute tool path absolutePath =>
    simp only [step, map_eq_some_iff] at hs
    obtain ⟨queue, hqueue, rfl⟩ := hs
    exact .execute tool path absolutePath queue (queue_fs hqueue)
  | start id =>
    obtain ⟨c, hc, hs⟩ := bind_eq_some_iff.mp hs
    unfold startStep at hs
    split at hs
    · rename_i hprogress
      obtain ⟨queue, hqueue, rfl⟩ := map_eq_some_iff.mp hs
      exact .start id c queue (queue_fs hqueue) hc hprogress
    · cases hs
  | perform id message =>
    obtain ⟨c, hc, hs⟩ := bind_eq_some_iff.mp hs
    unfold performStep at hs
    split at hs
    · rename_i op hprogress
      obtain ⟨⟨files, result⟩, hdone, rfl⟩ := map_eq_some_iff.mp hs
      exact .perform id message c op files result hc hprogress hdone
    · cases hs
  | resume id =>
    obtain ⟨c, hc, hs⟩ := bind_eq_some_iff.mp hs
    unfold resumeStep at hs
    split at hs
    · rename_i op result hprogress
      cases hs
      exact .resume id c op result hc hprogress
    · cases hs
  | abort id =>
    obtain ⟨c, hc, rfl⟩ := map_eq_some_iff.mp hs
    exact .abort id c hc
  | settle id =>
    simp only [step] at hs
    split_ifs at hs
    obtain ⟨queue, hqueue, rfl⟩ := map_eq_some_iff.mp hs
    exact .settle id queue (queue_fs hqueue)
  | resolveChained id =>
    obtain ⟨queue, hqueue, rfl⟩ := map_eq_some_iff.mp hs
    exact .resolveChained id queue (queue_fs hqueue)
  | changeFiles fs files =>
    simp only [step, map_eq_some_iff] at hs
    obtain ⟨queue, hqueue, rfl⟩ := hs
    exact .changeFiles fs files queue (queue_fs hqueue)

def ToolCall.isQueued (c : ToolCall) : Bool :=
  match c.progress with
  | .queued => true
  | _ => false

def ToolCall.busy (c : ToolCall) : Bool :=
  match c.progress with
  | .inFlight _ => true
  | _ => false

/-- The call writes the file, or has written it and does not know yet. -/
def ToolCall.writing (c : ToolCall) : Bool :=
  match c.progress with
  | .inFlight (.writeFile _) | .performed (.writeFile _) (.ok _) => true
  | _ => false

def Outcome.isResolved : Outcome → Bool
  | .resolved _ => true
  | _ => false

/-- The call has written the file, and is at the end of that operation. -/
def ToolCall.justWrote (c : ToolCall) : Bool :=
  match c.progress with
  | .performed (.writeFile _) (.ok _) => true
  | _ => false

def ToolCall.wrote (c : ToolCall) : Bool := c.justWrote || c.outcome.any Outcome.isResolved

/-- An operation of a call whose signal has fired is under way. -/
def ToolCall.stray (c : ToolCall) : Bool := c.aborted && c.busy

/-- The promise of a call is open before and during its operations, unless the signal has fired. -/
def ToolCall.Sound (c : ToolCall) : Prop :=
  match c.progress with
  | .queued => c.outcome = none
  | .inFlight _ | .performed .. =>
    c.outcome = (if c.aborted then some .aborted else none) ∧
      (c.aborted = true → c.writing = false)
  | .finished => True

structure Kept (c c' : ToolCall) : Prop where
  path : c'.resolvedPath = c.resolvedPath
  queued : c'.isQueued = true → c.isQueued = true
  sound : c'.Sound
  wrote : c.wrote = true → c'.wrote = true

theorem Kept.refl (h : c.Sound) : Kept c c := ⟨rfl, id, h, id⟩

theorem kept_start (hprogress : c.progress = .queued) (h : c.Sound) : Kept c c.start := by
  have hnone : c.outcome = none := by simpa only [ToolCall.Sound, hprogress] using h
  have hqueued : c.isQueued = true := by simp only [ToolCall.isQueued, hprogress]
  have hwrote : c.wrote = false := by simp [ToolCall.wrote, ToolCall.justWrote, hprogress, hnone]
  unfold ToolCall.start
  split_ifs with haborted
  · exact ⟨rfl, fun _ => hqueued, trivial, fun hw => absurd (hwrote.symm.trans hw) (by simp)⟩
  · refine ⟨rfl, fun _ => hqueued, ⟨?_, ?_⟩, fun hw => absurd (hwrote.symm.trans hw) (by simp)⟩
    · simp [hnone, haborted]
    · exact fun h => absurd h haborted

theorem stray_start : c.start.stray = false := by
  unfold ToolCall.start
  split_ifs with haborted
  · simp [ToolCall.stray, ToolCall.busy]
  · simp [ToolCall.stray, haborted]

theorem not_wrote_of_outcome (houtcome : c.outcome = if c.aborted then some .aborted else none) :
    c.wrote = c.justWrote := by
  unfold ToolCall.wrote
  rw [houtcome]
  cases c.aborted <;> simp [Outcome.isResolved]

theorem kept_perform (hprogress : c.progress = .inFlight op) (h : c.Sound) :
    Kept c { c with progress := .performed op result } := by
  simp only [ToolCall.Sound, hprogress] at h
  obtain ⟨houtcome, hwriting⟩ := h
  refine ⟨rfl, fun hq => by simp [ToolCall.isQueued] at hq, ⟨houtcome, ?_⟩, ?_⟩
  · intro haborted
    have hbefore := hwriting haborted
    cases op with
    | writeFile content => simp [ToolCall.writing, hprogress] at hbefore
    | _ => rfl
  · intro hw
    rw [not_wrote_of_outcome houtcome, ToolCall.justWrote, hprogress] at hw
    cases hw

theorem justWrote_of_not_writing (hwriting : c.writing = false) : c.justWrote = false := by
  unfold ToolCall.writing at hwriting
  unfold ToolCall.justWrote
  split at hwriting
  · cases hwriting
  · cases hwriting
  · rename_i hnot
    split
    · exact absurd ‹_› (hnot _ _)
    · rfl

theorem kept_onAbort (h : c.Sound) (hwriting : c.writing = false) : Kept c c.onAbort := by
  refine ⟨rfl, fun hq => hq, ?_, ?_⟩
  · unfold ToolCall.Sound at h ⊢
    simp only [ToolCall.onAbort]
    split at h <;> rename_i hprogress <;> simp only [hprogress]
    · exact h
    · refine ⟨by rw [h.1]; cases c.aborted <;> rfl, fun _ => ?_⟩
      simpa only [ToolCall.writing, hprogress] using hwriting
    · refine ⟨by rw [h.1]; cases c.aborted <;> rfl, fun _ => ?_⟩
      simpa only [ToolCall.writing, hprogress] using hwriting
  · intro hw
    have hresolved : c.outcome.any Outcome.isResolved = true := by
      simpa [ToolCall.wrote, justWrote_of_not_writing hwriting] using hw
    obtain ⟨outcome, houtcome, hres⟩ := (any_eq_true _ _).mp hresolved
    unfold ToolCall.wrote
    simp only [ToolCall.onAbort, houtcome]
    split <;> simp [hres]

theorem kept_finished (hw : c.wrote = true → outcome.any Outcome.isResolved = true) :
    Kept c { c with progress := .finished, outcome } :=
  ⟨rfl, fun hq => by simp [ToolCall.isQueued] at hq, trivial, fun hwrote => by
    simp [ToolCall.wrote, hw hwrote]⟩

/-- What a step does not leave behind: an operation of a call whose signal has fired. -/
structure Settled (c c' : ToolCall) : Prop where
  kept : Kept c c'
  notStray : c'.stray = false

theorem settled_finished (hw : c.wrote = true → outcome.any Outcome.isResolved = true) :
    Settled c { c with progress := .finished, outcome } :=
  ⟨kept_finished hw, by simp [ToolCall.stray, ToolCall.busy]⟩

theorem settled_next (houtcome : c.outcome = if c.aborted then some .aborted else none)
    (hwrote : c.wrote = false) : Settled c (c.next op) := by
  have hnot : c.wrote = true → False := fun hw => by simp [hwrote] at hw
  unfold ToolCall.next
  split_ifs with haborted
  · exact settled_finished fun hw => (hnot hw).elim
  · refine ⟨⟨rfl, fun hq => by simp [ToolCall.isQueued] at hq, ⟨houtcome, ?_⟩,
      fun hw => (hnot hw).elim⟩, by simp [ToolCall.stray, haborted]⟩
    exact fun h => absurd h haborted

theorem settled_caught {message : String} (hwrote : c.wrote = false) :
    Settled c (c.caught message) := by
  have hnot : c.wrote = true → False := fun hw => by simp [hwrote] at hw
  unfold ToolCall.caught
  split_ifs
  · exact settled_finished fun hw => (hnot hw).elim
  · exact settled_finished fun hw => (hnot hw).elim

theorem settled_resume (hprogress : c.progress = .performed op result) (h : c.Sound) :
    Settled c (c.resume nfkc op result) := by
  have hsame : Settled c c :=
    ⟨.refl h, by simp [ToolCall.stray, ToolCall.busy, hprogress]⟩
  simp only [ToolCall.Sound, hprogress] at h
  obtain ⟨houtcome, hwriting⟩ := h
  have hwrote : c.wrote = c.justWrote := not_wrote_of_outcome houtcome
  simp only [ToolCall.justWrote, hprogress] at hwrote
  cases result with
  | error message =>
    have hnot : c.wrote = false := by cases op <;> exact hwrote
    cases op with
    | access => exact settled_finished fun hw => by simp [hnot] at hw
    | readFile | mkdir | writeFile content => exact settled_caught hnot
  | ok content =>
    cases op with
    | access => exact settled_next houtcome hwrote
    | readFile =>
      cases htool : c.tool with
      | edit edits =>
        simp only [ToolCall.resume, htool]
        split_ifs with haborted
        · exact settled_finished fun hw => by simp [hwrote] at hw
        · split
          · exact settled_caught hwrote
          · exact settled_next houtcome hwrote
      | write =>
        simp only [ToolCall.resume, htool]
        exact hsame
    | mkdir =>
      cases htool : c.tool with
      | edit =>
        simp only [ToolCall.resume, htool]
        exact hsame
      | write =>
        simp only [ToolCall.resume, htool]
        exact settled_next houtcome hwrote
    | writeFile text =>
      have haborted : c.aborted = false := by
        by_contra h
        have := hwriting (by simpa using h)
        simp [ToolCall.writing, hprogress] at this
      simp only [ToolCall.resume, haborted, Bool.false_eq_true, if_false]
      refine settled_finished fun _ => ?_
      rw [houtcome, haborted]
      rfl

instance (fs : FileSystem) (path path' : String) : Decidable (fs.SameFile path path') :=
  decidable_of_iff (path = path' ∨ (fs.realpath path).isSome = true ∧
      fs.realpath path = fs.realpath path') <| by
    unfold FileSystem.SameFile
    refine or_congr_right ⟨?_, ?_⟩
    · rintro ⟨hsome, heq⟩
      obtain ⟨real, hreal⟩ := Option.isSome_iff_exists.mp hsome
      exact ⟨real, hreal, heq.symm.trans hreal⟩
    · rintro ⟨real, hreal, hreal'⟩
      exact ⟨by rw [hreal]; rfl, hreal.trans hreal'.symm⟩

/-- Of two calls for one file, a stray operation of the first is not under way while the second
is queued. -/
def Apart (fs : FileSystem) (tools : List ToolCall) : Prop :=
  ∀ c ∈ tools, c.stray = true → ∀ d ∈ tools, d.isQueued = true →
    ¬fs.SameFile c.resolvedPath d.resolvedPath

/-- The condition on a step: the signal of a call does not fire while it writes, or while it does
not know yet that it has written; and when it fires at another operation, no other call for the
file is queued before that operation is done. -/
def AbortsInTime (s : State) : Event → Prop
  | .abort id => ∀ c ∈ s.tools[id]?, c.writing = false ∧
      (c.busy = true → ∀ d ∈ s.tools, d.isQueued = true →
        ¬s.queue.fs.SameFile c.resolvedPath d.resolvedPath)
  | .execute _ _ absolutePath => ∀ c ∈ s.tools, c.stray = true →
      ¬s.queue.fs.SameFile c.resolvedPath (s.queue.fs.resolve absolutePath)
  | .changeFiles fs _ => Apart fs s.tools
  | .start _ | .perform .. | .resume _ | .settle _ | .resolveChained _ => True

instance (s : State) : ∀ e, Decidable (AbortsInTime s e)
  | .abort id => inferInstanceAs (Decidable (∀ c ∈ s.tools[id]?, c.writing = false ∧
      (c.busy = true → ∀ d ∈ s.tools, d.isQueued = true →
        ¬s.queue.fs.SameFile c.resolvedPath d.resolvedPath)))
  | .execute _ _ absolutePath => inferInstanceAs (Decidable (∀ c ∈ s.tools, c.stray = true →
      ¬s.queue.fs.SameFile c.resolvedPath (s.queue.fs.resolve absolutePath)))
  | .changeFiles fs _ => inferInstanceAs (Decidable (∀ c ∈ s.tools, c.stray = true →
      ∀ d ∈ s.tools, d.isQueued = true → ¬fs.SameFile c.resolvedPath d.resolvedPath))
  | .start _ | .perform .. | .resume _ | .settle _ | .resolveChained _ => instDecidableTrue

def Event.caller : Event → Option ℕ
  | .start id | .perform id _ | .resume id | .abort id | .settle id | .resolveChained id => some id
  | .execute .. | .changeFiles .. => none

/-- A call that is rejected with an abort has not changed a file. -/
def LeavesFiles (steps : List (Transition State Event)) (s : State) : Prop :=
  ∀ t ∈ steps, ∀ id c, t.action.caller = some id → s.tools[id]? = some c →
    c.outcome = some .aborted → t.after.files = t.before.files

/-- When a call has its turn, no operation of an earlier call for the file that is rejected with
an abort is under way. -/
def TakesTurns (steps : List (Transition State Event)) : Prop :=
  ∀ t ∈ steps, ∀ j, t.action = .start j → ∀ i cᵢ cⱼ, i < j → t.before.tools[i]? = some cᵢ →
    t.before.tools[j]? = some cⱼ → cᵢ.outcome = some .aborted → cᵢ.busy = true →
      ¬t.before.queue.fs.SameFile cᵢ.resolvedPath cⱼ.resolvedPath

theorem getElem?_update_eq_some {id j : ℕ} :
    (s.update id f).tools[j]? = some c' ↔
      ∃ c, s.tools[j]? = some c ∧ c' = if id = j then f c else c := by
  unfold State.update
  rw [List.getElem?_modify, Option.map_eq_map, Option.map_eq_some_iff]
  simp [eq_comm]

theorem wrote_of_files (hs : step nfkc s e = some s') {id : ℕ} (hcaller : e.caller = some id)
    (hfiles : s'.files ≠ s.files) : ∃ c', s'.tools[id]? = some c' ∧ c'.wrote = true := by
  cases stepped hs with
  | perform id₀ message c₀ op files result hc₀ hprogress hdone =>
    cases hcaller
    refine ⟨_, getElem?_update_eq_some.mpr ⟨c₀, hc₀, (if_pos rfl).symm⟩, ?_⟩
    have hne : files ≠ s.files := hfiles
    cases message with
    | some message =>
      simp only [performed, some.injEq, Prod.mk.injEq] at hdone
      exact absurd hdone.1.symm hne
    | none =>
      cases op with
      | access | mkdir =>
        simp only [performed, some.injEq, Prod.mk.injEq] at hdone
        exact absurd hdone.1.symm hne
      | readFile =>
        simp only [performed, map_eq_some_iff, Prod.mk.injEq] at hdone
        obtain ⟨raw, -, heq, -⟩ := hdone
        exact absurd heq.symm hne
      | writeFile content =>
        simp only [performed, some.injEq, Prod.mk.injEq] at hdone
        rw [← hdone.2]
        rfl
  | execute | changeFiles => cases hcaller
  | _ => exact absurd rfl hfiles

structure ToolInvariant (s : State) : Prop where
  sound : ∀ c ∈ s.tools, c.Sound
  apart : Apart s.queue.fs s.tools

theorem ToolInvariant.update (h : ToolInvariant s) (queue : FileMutationQueue.State)
    (hfs : queue.fs = s.queue.fs) (files : String → Option JsText) {id : ℕ}
    (hc : s.tools[id]? = some c) (hsettled : Settled c (f c)) :
    ToolInvariant ({ s with queue, files }.update id f) := by
  have hold : ∀ d ∈ ({ s with queue, files }.update id f).tools, d.Sound ∧
      ∃ d₀ ∈ s.tools, d.resolvedPath = d₀.resolvedPath ∧
        (d.isQueued = true → d₀.isQueued = true) ∧ (d.stray = true → d₀.stray = true) := by
    intro d hd
    obtain ⟨j, hj⟩ := mem_iff_getElem?.mp hd
    obtain ⟨d₀, hd₀, rfl⟩ := getElem?_update_eq_some.mp hj
    have hmem : d₀ ∈ s.tools := mem_of_getElem? hd₀
    split_ifs with hid
    · subst hid
      obtain rfl := some.inj (hc.symm.trans hd₀)
      exact ⟨hsettled.kept.sound, c, hmem, hsettled.kept.path, hsettled.kept.queued,
        fun hs => by simp [hsettled.notStray] at hs⟩
    · exact ⟨h.sound d₀ hmem, d₀, hmem, rfl, fun hq => hq, fun hs => hs⟩
  refine ⟨fun d hd => (hold d hd).1, ?_⟩
  intro d hd hstray e he hqueued
  obtain ⟨-, d₀, hd₀, hpath, -, hstray₀⟩ := hold d hd
  obtain ⟨-, e₀, he₀, hpath', hqueued₀, -⟩ := hold e he
  have hapart := h.apart d₀ hd₀ (hstray₀ hstray) e₀ he₀ (hqueued₀ hqueued)
  rw [hpath, hpath']
  show ¬queue.fs.SameFile _ _
  rw [hfs]
  exact hapart

theorem sound_new (tool : Tool) (path resolvedPath : String) :
    (ToolCall.new tool path resolvedPath).Sound := rfl

theorem ToolInvariant.execute (h : ToolInvariant s) {queue : FileMutationQueue.State}
    (hfs : queue.fs = s.queue.fs) {tool : Tool} {path absolutePath : String}
    (hok : AbortsInTime s (.execute tool path absolutePath)) :
    ToolInvariant
      { s with
        queue
        tools := s.tools ++ [.new tool path (s.queue.fs.resolve absolutePath)] } := by
  refine ⟨?_, ?_⟩
  · intro d hd
    obtain hd | hd := mem_append.mp hd
    · exact h.sound d hd
    · rw [mem_singleton.mp hd]
      exact sound_new _ _ _
  · intro d hd hstray e he hqueued
    rw [hfs]
    obtain hd | hd := mem_append.mp hd
    · obtain he | he := mem_append.mp he
      · exact h.apart d hd hstray e he hqueued
      · rw [mem_singleton.mp he]
        exact hok d hd hstray
    · rw [mem_singleton.mp hd] at hstray
      simp [ToolCall.new, ToolCall.stray] at hstray

theorem ToolInvariant.abort (h : ToolInvariant s) {id : ℕ} (hc : s.tools[id]? = some c)
    (hok : AbortsInTime s (.abort id)) : ToolInvariant (s.update id ToolCall.onAbort) := by
  obtain ⟨hwriting, hfree⟩ := hok c hc
  have hkept : Kept c c.onAbort := kept_onAbort (h.sound c (mem_of_getElem? hc)) hwriting
  have hold : ∀ d ∈ (s.update id ToolCall.onAbort).tools, ∃ d₀ ∈ s.tools,
      d.Sound ∧ d.resolvedPath = d₀.resolvedPath ∧ (d.isQueued = true → d₀.isQueued = true) ∧
        (d.stray = true → d₀.stray = true ∨ d₀ = c ∧ c.busy = true) := by
    intro d hd
    obtain ⟨j, hj⟩ := mem_iff_getElem?.mp hd
    obtain ⟨d₀, hd₀, rfl⟩ := getElem?_update_eq_some.mp hj
    refine ⟨d₀, mem_of_getElem? hd₀, ?_⟩
    split_ifs with hid
    · subst hid
      obtain rfl := some.inj (hc.symm.trans hd₀)
      refine ⟨hkept.sound, hkept.path, hkept.queued, fun hstray => .inr ⟨rfl, ?_⟩⟩
      have hbusy : c.onAbort.busy = true := (Bool.and_eq_true_iff.mp hstray).2
      exact hbusy
    · exact ⟨h.sound d₀ (mem_of_getElem? hd₀), rfl, fun hq => hq, fun hs => .inl hs⟩
  refine ⟨?_, ?_⟩
  · intro d hd
    obtain ⟨-, -, hsound, -⟩ := hold d hd
    exact hsound
  · intro d hd hstray e he hqueued
    obtain ⟨d₀, hd₀, -, hpath, -, hstray₀⟩ := hold d hd
    obtain ⟨e₀, he₀, -, hpath', hqueued₀, -⟩ := hold e he
    rw [hpath, hpath']
    obtain hs | ⟨rfl, hbusy⟩ := hstray₀ hstray
    · exact h.apart d₀ hd₀ hs e₀ he₀ (hqueued₀ hqueued)
    · exact hfree hbusy e₀ he₀ (hqueued₀ hqueued)

theorem ToolInvariant.step (h : ToolInvariant s) (hok : AbortsInTime s e)
    (hs : step nfkc s e = some s') : ToolInvariant s' := by
  cases stepped hs with
  | execute tool path absolutePath queue hfs => exact h.execute hfs hok
  | start id c queue hfs hc hprogress =>
    exact h.update queue hfs s.files hc
      ⟨kept_start hprogress (h.sound c (mem_of_getElem? hc)), stray_start⟩
  | perform id message c op files result hc hprogress hdone =>
    refine h.update s.queue rfl files hc ⟨?_, by simp [ToolCall.stray, ToolCall.busy]⟩
    exact kept_perform hprogress (h.sound c (mem_of_getElem? hc))
  | resume id c op result hc hprogress =>
    refine h.update s.queue rfl s.files hc ?_
    exact settled_resume hprogress (h.sound c (mem_of_getElem? hc))
  | abort id c hc => exact h.abort hc hok
  | settle id queue hfs => exact ⟨h.sound, hfs ▸ h.apart⟩
  | resolveChained id queue hfs => exact ⟨h.sound, hfs ▸ h.apart⟩
  | changeFiles fs files queue hfs => exact ⟨h.sound, hfs ▸ hok⟩

theorem wrote_step (h : ToolInvariant s) (hok : AbortsInTime s e) (hs : step nfkc s e = some s')
    {id : ℕ} (hc : s.tools[id]? = some c) (hwrote : c.wrote = true) :
    ∃ c', s'.tools[id]? = some c' ∧ c'.wrote = true := by
  have hupdate {id₀ : ℕ} {c₀ : ToolCall} {f : ToolCall → ToolCall} (hc₀ : s.tools[id₀]? = some c₀)
      (hkept : Kept c₀ (f c₀)) : ∃ c', (s.update id₀ f).tools[id]? = some c' ∧ c'.wrote = true := by
    refine ⟨_, getElem?_update_eq_some.mpr ⟨c, hc, rfl⟩, ?_⟩
    split_ifs with hid
    · subst hid
      obtain rfl := some.inj (hc₀.symm.trans hc)
      exact hkept.wrote hwrote
    · exact hwrote
  cases stepped hs with
  | execute tool path absolutePath queue hfs =>
    exact ⟨c, (List.getElem?_append_left (List.getElem?_eq_some_iff.mp hc).1).trans hc, hwrote⟩
  | start id₀ c₀ queue hfs hc₀ hprogress =>
    exact hupdate hc₀ (kept_start hprogress (h.sound c₀ (mem_of_getElem? hc₀)))
  | perform id₀ message c₀ op files result hc₀ hprogress hdone =>
    exact hupdate (f := fun c => { c with progress := .performed op result }) hc₀
      (kept_perform hprogress (h.sound c₀ (mem_of_getElem? hc₀)))
  | resume id₀ c₀ op result hc₀ hprogress =>
    exact hupdate (f := fun c => c.resume nfkc op result) hc₀
      (settled_resume hprogress (h.sound c₀ (mem_of_getElem? hc₀))).kept
  | abort id₀ c₀ hc₀ =>
    exact hupdate hc₀ (kept_onAbort (h.sound c₀ (mem_of_getElem? hc₀)) (hok c₀ hc₀).1)
  | settle | resolveChained | changeFiles => exact ⟨c, hc, hwrote⟩

theorem not_wrote_of_aborted (h : c.Sound) (houtcome : c.outcome = some .aborted) :
    c.wrote = false := by
  unfold ToolCall.Sound at h
  have hjust : c.justWrote = false := by
    unfold ToolCall.justWrote
    split
    · rename_i content result hprogress
      simp only [hprogress, ToolCall.writing, houtcome] at h
      obtain ⟨haborted, hnot⟩ := h
      cases hflag : c.aborted with
      | true => exact absurd (hnot hflag) (by simp)
      | false =>
        rw [hflag] at haborted
        cases haborted
    · rfl
  rw [ToolCall.wrote, hjust, houtcome]
  rfl

/-- In a run in which every signal fires in time, a call that is rejected with an abort has not
changed a file, and none of its operations is under way when a later call for the file has its
turn. -/
theorem aborts_atomic {fs : FileSystem} {files : String → Option JsText}
    {steps : List (Transition State Event)}
    (h : GuardedRun (step nfkc) AbortsInTime (initial fs files) steps s) :
    LeavesFiles steps s ∧ TakesTurns steps := by
  have hrun := h.induct (P := fun steps s => ToolInvariant s ∧ TakesTurns steps ∧
    ∀ t ∈ steps, ∀ id, t.action.caller = some id → t.after.files ≠ t.before.files →
      ∃ c, s.tools[id]? = some c ∧ c.wrote = true)
    ⟨⟨by simp [initial], by simp [initial, Apart]⟩, by simp [TakesTurns], by simp⟩ ?_
  · obtain ⟨hinvariant, hturns, hwrote⟩ := hrun
    refine ⟨?_, hturns⟩
    intro t ht id c hcaller hc houtcome
    by_contra hfiles
    obtain ⟨c', hc', hw⟩ := hwrote t ht id hcaller hfiles
    obtain rfl := some.inj (hc.symm.trans hc')
    have hnot := not_wrote_of_aborted (hinvariant.sound c (mem_of_getElem? hc)) houtcome
    exact absurd (hnot.symm.trans hw) (by simp)
  intro steps s e s' ⟨hinvariant, hturns, hwrote⟩ hok hs
  refine ⟨hinvariant.step hok hs, ?_, ?_⟩
  · intro t ht j hj i cᵢ cⱼ hij hi hcj houtcome hbusy
    obtain ht | ht := mem_append.mp ht
    · exact hturns t ht j hj i cᵢ cⱼ hij hi hcj houtcome hbusy
    obtain rfl := mem_singleton.mp ht
    subst hj
    have hqueued : cⱼ.isQueued = true := by
      cases stepped hs with
      | start id c queue hfs hc hprogress =>
        obtain rfl := some.inj (hc.symm.trans hcj)
        simp [ToolCall.isQueued, hprogress]
    refine hinvariant.apart cᵢ (mem_of_getElem? hi) ?_ cⱼ (mem_of_getElem? hcj) hqueued
    have hsound := hinvariant.sound cᵢ (mem_of_getElem? hi)
    unfold ToolCall.busy at hbusy
    split at hbusy
    · rename_i op hprogress
      simp only [ToolCall.Sound, hprogress, houtcome] at hsound
      cases hflag : cᵢ.aborted with
      | true => simp [ToolCall.stray, ToolCall.busy, hprogress, hflag]
      | false =>
        rw [hflag] at hsound
        cases hsound.1
    · cases hbusy
  · intro t ht id hcaller hfiles
    obtain ht | ht := mem_append.mp ht
    · obtain ⟨c, hc, hw⟩ := hwrote t ht id hcaller hfiles
      exact wrote_step hinvariant hok hs hc hw
    · obtain rfl := mem_singleton.mp ht
      exact wrote_of_files hs hcaller hfiles

/-- No path has a real path of its own, and one file has a text. -/
def oneFile : State :=
  initial FileMutationQueue.emptyDisk fun path => if path = "/tmp/a" then some [97] else none

/-- Two calls write one file; the signal of the second fires while it waits for its turn. -/
def abortedInQueue : List Event :=
  [.execute (.write [98]) "a" "/tmp/a", .start 0, .execute (.write [99]) "a" "/tmp/a",
    .perform 0 none, .abort 1, .resume 0, .perform 0 none, .resume 0, .settle 0,
    .resolveChained 0, .start 1, .settle 1]

theorem aborts_atomic_inQueue :
    ∃ steps s, (GuardedRun (step id) AbortsInTime oneFile steps s ∧
      s.tools.map ToolCall.outcome =
        [some (.resolved "Successfully wrote 1 bytes to a"), some .aborted] ∧
      s.files "/tmp/a" = some [98]) ∧ (LeavesFiles steps s ∧ TakesTurns steps) := by
  obtain ⟨steps, s, hruns, houtcomes⟩ := GuardedRun.exists_of_play (step id) AbortsInTime oneFile
    abortedInQueue (fun _ s => s.tools.map ToolCall.outcome =
      [some (.resolved "Successfully wrote 1 bytes to a"), some .aborted] ∧
      s.files "/tmp/a" = some [98]) (by decide +kernel)
  exact ⟨steps, s, ⟨hruns, houtcomes⟩, aborts_atomic hruns⟩

/-- The signal fires while the file is written: the call is rejected, and the file is changed. -/
theorem abortedWrite_changes :
    ¬∀ (nfkc : JsText → JsText) (fs : FileSystem) (files : String → Option JsText)
      (steps : List (Transition State Event)) (s : State),
      GuardedRun (step nfkc) (fun _ _ => True) (initial fs files) steps s →
        LeavesFiles steps s ∧ TakesTurns steps := by
  intro h
  obtain ⟨steps, s, hruns, houtcome, hchanged⟩ := GuardedRun.exists_of_play (step id)
    (fun _ _ => True) oneFile
    [.execute (.write [98]) "a" "/tmp/a", .start 0, .perform 0 none, .resume 0, .abort 0,
      .perform 0 none]
    (fun steps s => s.tools.map ToolCall.outcome = [some .aborted] ∧
      ∃ t ∈ steps, t.action.caller = some 0 ∧ t.after.files "/tmp/a" ≠ t.before.files "/tmp/a")
    (by decide +kernel)
  obtain ⟨t, ht, hcaller, hne⟩ := hchanged
  obtain ⟨c, hc⟩ := length_eq_one_iff.mp (by simpa using congrArg List.length houtcome)
  rw [hc] at houtcome
  have hget : s.tools[0]? = some c := by rw [hc]; rfl
  have hsame := (h _ _ _ _ _ hruns).1 t ht 0 c hcaller hget (by simpa using houtcome)
  exact hne (congrFun hsame _)

end Draht.FileTools
