import Draht.OrderedMap
import Mathlib.Data.Nat.Find

/-!
# The file mutation queue

Calls of `withFileMutationQueue` as they start, run and settle in any order that their promises
allow, while the file system changes under them. A call is named by its place in the order in
which the calls were made, and so are the two promises that it creates.
-/

namespace Draht.FileMutationQueue
open List Option

/-- What path resolution and `realpathSync.native` answer at one moment; the latter throws
(`none`) for a path that does not exist. -/
structure FileSystem where
  resolve : String → String
  realpath : String → Option String

def getMutationQueueKey (fs : FileSystem) (filePath : String) : String :=
  let resolvedPath := fs.resolve filePath
  match fs.realpath resolvedPath with
  | some real => real
  | none => resolvedPath

/-- Waiting at `await currentQueue`, inside `fn`, or past the `finally` block. -/
inductive Phase where
  | waiting | running | done
deriving DecidableEq

/-- One call: `currentQueue` is the chained promise of an earlier call or an already resolved
promise; `nextQueue` and `chainedQueue` say whether these promises are resolved. -/
structure Call where
  resolvedPath : String
  key : String
  currentQueue : Option ℕ
  nextQueue : Bool
  chainedQueue : Bool
  phase : Phase
deriving DecidableEq

structure State where
  fs : FileSystem
  calls : List Call
  fileMutationQueues : OrderedMap String ℕ

def initial (fs : FileSystem) : State := { fs, calls := [], fileMutationQueues := .empty }

/-- What happens next: a new call, a call whose `currentQueue` resolves and that runs `fn`, a call
whose `fn` settles (a value and an error leave through the same `finally`), the resolution of
the chained promise of a call, and a change of the file system. -/
inductive Event where
  | call (filePath : String)
  | start (id : ℕ)
  | settle (id : ℕ)
  | resolveChained (id : ℕ)
  | changeFiles (fs : FileSystem)

/-- The synchronous part of `withFileMutationQueue`, up to `await currentQueue`. -/
def withFileMutationQueue (s : State) (filePath : String) : State :=
  let key := getMutationQueueKey s.fs filePath
  { s with
    calls := s.calls ++
      [{ resolvedPath := s.fs.resolve filePath, key := key
         currentQueue := s.fileMutationQueues.get key
         nextQueue := false, chainedQueue := false, phase := .waiting }]
    fileMutationQueues := s.fileMutationQueues.set key s.calls.length }

def State.resolved (s : State) : Option ℕ → Bool
  | none => true
  | some id => s.calls[id]?.any Call.chainedQueue

def State.update (s : State) (id : ℕ) (f : Call → Call) : State :=
  { s with calls := s.calls.modify id f }

/-- The `finally` block: `releaseNext()`, then the entry of the map goes if it is still this
call's. -/
def finish (s : State) (id : ℕ) (c : Call) : State :=
  let released := s.update id fun c => { c with nextQueue := true, phase := .done }
  if s.fileMutationQueues.get c.key = some id then
    { released with fileMutationQueues := s.fileMutationQueues.delete c.key }
  else released

def step (s : State) : Event → Option State
  | .call filePath => some (withFileMutationQueue s filePath)
  | .start id =>
    match s.calls[id]? with
    | some c =>
      if c.phase = .waiting ∧ s.resolved c.currentQueue then
        some (s.update id fun c => { c with phase := .running })
      else none
    | none => none
  | .settle id =>
    match s.calls[id]? with
    | some c => if c.phase = .running then some (finish s id c) else none
    | none => none
  | .resolveChained id =>
    match s.calls[id]? with
    | some c =>
      if s.resolved c.currentQueue ∧ c.nextQueue then
        some (s.update id fun c => { c with chainedQueue := true })
      else none
    | none => none
  | .changeFiles fs => some { s with fs := fs }

/-- The states of the runs from `fs` in which every step meets `ok`. -/
inductive Reaches (ok : State → Event → Prop) (fs : FileSystem) : State → Prop
  | initial : Reaches ok fs (initial fs)
  | step {s s' : State} (e : Event) :
      Reaches ok fs s → ok s e → step s e = some s' → Reaches ok fs s'

theorem State.getElem?_update (s : State) (id j : ℕ) (f : Call → Call) :
    (s.update id f).calls[j]? = s.calls[j]?.map (fun c => if id = j then f c else c) := by
  rw [update, getElem?_modify]
  rfl

variable {f : Call → Call} {s' s : State} {ok : State → Event → Prop} {e : Event} {c : Call}

theorem State.getElem?_update_eq_some {id j : ℕ} :
    (s.update id f).calls[j]? = some c ↔
      ∃ c₀, s.calls[j]? = some c₀ ∧ c = if id = j then f c₀ else c₀ := by
  rw [getElem?_update, map_eq_some_iff]
  simp [eq_comm]

theorem finish_calls (s : State) (id : ℕ) (c : Call) :
    (finish s id c).calls =
      (s.update id fun c => { c with nextQueue := true, phase := .done }).calls := by
  unfold finish
  split <;> rfl

theorem finish_queues (s : State) (id : ℕ) (c : Call) (k : String) :
    (finish s id c).fileMutationQueues.get k =
      if s.fileMutationQueues.get k = some id ∧ c.key = k then none
      else s.fileMutationQueues.get k := by
  unfold finish
  by_cases hown : s.fileMutationQueues.get c.key = some id
  · by_cases hk : c.key = k
    · subst hk
      simp [hown]
    · simp [hown, hk]
  · by_cases hk : c.key = k
    · subst hk
      simp [hown, State.update]
    · simp [hown, hk, State.update]

theorem step_cases (h : step s e = some s') :
    (∃ filePath, e = .call filePath ∧ s' = withFileMutationQueue s filePath) ∨
    (∃ id c, e = .start id ∧ s.calls[id]? = some c ∧ c.phase = .waiting ∧
      s.resolved c.currentQueue = true ∧ s' = s.update id fun c => { c with phase := .running }) ∨
    (∃ id c, e = .settle id ∧ s.calls[id]? = some c ∧ c.phase = .running ∧ s' = finish s id c) ∨
    (∃ id c, e = .resolveChained id ∧ s.calls[id]? = some c ∧
      s.resolved c.currentQueue = true ∧ c.nextQueue = true ∧
      s' = s.update id fun c => { c with chainedQueue := true }) ∨
    (∃ fs, e = .changeFiles fs ∧ s' = { s with fs := fs }) := by
  cases e with
  | call filePath => exact .inl ⟨filePath, rfl, (some.inj h).symm⟩
  | start id =>
    cases hc : s.calls[id]? with
    | none => simp [step, hc] at h
    | some c =>
      simp only [step, hc] at h
      split_ifs at h with hok
      exact .inr (.inl ⟨id, c, rfl, hc, hok.1, hok.2, (some.inj h).symm⟩)
  | settle id =>
    cases hc : s.calls[id]? with
    | none => simp [step, hc] at h
    | some c =>
      simp only [step, hc] at h
      split_ifs at h with hok
      exact .inr (.inr (.inl ⟨id, c, rfl, hc, hok, (some.inj h).symm⟩))
  | resolveChained id =>
    cases hc : s.calls[id]? with
    | none => simp [step, hc] at h
    | some c =>
      simp only [step, hc] at h
      split_ifs at h with hok
      exact .inr (.inr (.inr (.inl ⟨id, c, rfl, hc, hok.1, hok.2, (some.inj h).symm⟩)))
  | changeFiles fs =>
    exact .inr (.inr (.inr (.inr ⟨fs, rfl, (some.inj h).symm⟩)))

/-- Of two calls with one key the earlier is done, or the later still waits, for the earlier one
or for one between them. -/
structure Queued (s : State) (i j : ℕ) (ci cj : Call) : Prop where
  waiting : cj.phase = .waiting
  behind : ∃ w cw, cj.currentQueue = some w ∧ i ≤ w ∧ w < j ∧ s.calls[w]? = some cw ∧
    cw.key = cj.key

structure Invariant (s : State) : Prop where
  earlier : ∀ (i j : ℕ) (ci cj : Call), i < j → s.calls[i]? = some ci → s.calls[j]? = some cj →
    ci.key = cj.key → ci.phase = .done ∨ Queued s i j ci cj
  released : ∀ (i : ℕ) (c : Call), s.calls[i]? = some c →
    c.nextQueue = true ∨ c.chainedQueue = true → c.phase = .done
  entry : ∀ (k : String) (id : ℕ), s.fileMutationQueues.get k = some id →
    ∃ c, s.calls[id]? = some c ∧ c.key = k ∧ c.phase ≠ .done
  newest : ∀ (k : String) (id j : ℕ) (c : Call), s.fileMutationQueues.get k = some id →
    s.calls[j]? = some c → c.key = k → j ≤ id
  noEntry : ∀ (k : String) (i : ℕ) (c : Call), s.fileMutationQueues.get k = none →
    s.calls[i]? = some c → c.key = k → c.phase = .done

theorem initial_invariant (fs : FileSystem) : Invariant (initial fs) := by
  constructor <;> simp [initial]

theorem Invariant.earlier_done (h : Invariant s) {i j : ℕ} {ci cj : Call} (hij : i < j)
    (hi : s.calls[i]? = some ci) (hj : s.calls[j]? = some cj) (hk : ci.key = cj.key)
    (hresolved : s.resolved cj.currentQueue = true) : ci.phase = .done := by
  obtain hdone | ⟨-, w, cw, hw, hiw, hwj, hcw, hkw⟩ := h.earlier i j ci cj hij hi hj hk
  · exact hdone
  · have hchained : cw.chainedQueue = true := by
      simpa [State.resolved, hw, hcw] using hresolved
    have hdone : cw.phase = .done := h.released w cw hcw (.inr hchained)
    obtain hlt | rfl := Nat.lt_or_eq_of_le hiw
    · obtain hci | hqueued := h.earlier i w ci cw hlt hi hcw (hk.trans hkw.symm)
      · exact hci
      · rw [hqueued.waiting] at hdone
        cases hdone
    · rw [hi] at hcw
      cases hcw
      exact hdone

theorem Invariant.call (h : Invariant s) (filePath : String) :
    Invariant (withFileMutationQueue s filePath) := by
  set key := getMutationQueueKey s.fs filePath with hkey
  set new : Call :=
    { resolvedPath := s.fs.resolve filePath, key := key
      currentQueue := s.fileMutationQueues.get key
      nextQueue := false, chainedQueue := false, phase := .waiting } with hnew
  have hcalls : (withFileMutationQueue s filePath).calls = s.calls ++ [new] := rfl
  have hqueues (k : String) : (withFileMutationQueue s filePath).fileMutationQueues.get k =
      if key = k then some s.calls.length else s.fileMutationQueues.get k :=
    OrderedMap.get_set _ _ _ _
  have hlookup (j : ℕ) (c : Call) : (withFileMutationQueue s filePath).calls[j]? = some c ↔
      s.calls[j]? = some c ∨ (j = s.calls.length ∧ c = new) := by
    grind
  have hlt {j : ℕ} {c : Call} (hc : s.calls[j]? = some c) : j < s.calls.length :=
    (List.getElem?_eq_some_iff.mp hc).1
  refine ⟨?_, ?_, ?_, ?_, ?_⟩
  · intro i j ci cj hij hi hj hk
    obtain hj | ⟨rfl, rfl⟩ := (hlookup j cj).mp hj
    · have hold : s.calls[i]? = some ci := by
        obtain hi | ⟨rfl, -⟩ := (hlookup i ci).mp hi
        · exact hi
        · have := hlt hj
          omega
      obtain hdone | ⟨hwait, w, cw, hw, hiw, hwj, hcw, hkw⟩ := h.earlier i j ci cj hij hold hj hk
      · exact .inl hdone
      · exact .inr ⟨hwait, w, cw, hw, hiw, hwj, (hlookup w cw).mpr (.inl hcw), hkw⟩
    · have hold : s.calls[i]? = some ci := by
        obtain hi | ⟨rfl, -⟩ := (hlookup i ci).mp hi
        · exact hi
        · omega
      cases hlast : s.fileMutationQueues.get key with
      | none => exact .inl (h.noEntry key i ci hlast hold hk)
      | some w =>
        obtain ⟨cw, hcw, hkw, -⟩ := h.entry key w hlast
        exact .inr ⟨rfl, w, cw, hlast, h.newest key w i ci hlast hold hk, hlt hcw,
          (hlookup w cw).mpr (.inl hcw), hkw⟩
  · intro i c hc hp
    obtain hc | ⟨-, rfl⟩ := (hlookup i c).mp hc
    · exact h.released i c hc hp
    · simp [hnew] at hp
  · intro k id hid
    rw [hqueues] at hid
    split_ifs at hid with hk
    · cases hid
      exact ⟨new, (hlookup _ _).mpr (.inr ⟨rfl, rfl⟩), hk, by simp [hnew]⟩
    · obtain ⟨c, hc, hck, hphase⟩ := h.entry k id hid
      exact ⟨c, (hlookup _ _).mpr (.inl hc), hck, hphase⟩
  · intro k id j c hid hc hck
    rw [hqueues] at hid
    split_ifs at hid with hk
    · cases hid
      obtain hc | ⟨rfl, -⟩ := (hlookup j c).mp hc
      · exact Nat.le_of_lt (hlt hc)
      · exact Nat.le_refl _
    · obtain hc | ⟨-, rfl⟩ := (hlookup j c).mp hc
      · exact h.newest k id j c hid hc hck
      · exact absurd hck hk
  · intro k i c hid hc hck
    rw [hqueues] at hid
    split_ifs at hid with hk
    obtain hc | ⟨-, rfl⟩ := (hlookup i c).mp hc
    · exact h.noEntry k i c hid hc hck
    · exact absurd hck hk

/-- A change of one call that keeps its key and what it waits for, and that moves it on only
when every earlier call of its key is done. -/
theorem Invariant.earlier_update (h : Invariant s) {id : ℕ} (hc : s.calls[id]? = some c)
    (hcalls : s'.calls = (s.update id f).calls) (hkey : ∀ c, (f c).key = c.key)
    (hqueue : ∀ c, (f c).currentQueue = c.currentQueue)
    (hdone : c.phase = .done → (f c).phase = .done)
    (hmove : (f c).phase = c.phase ∨ ∀ (i : ℕ) (ci : Call), i < id → s.calls[i]? = some ci →
      ci.key = c.key → ci.phase = .done) (i j : ℕ) (ci cj : Call) (hij : i < j)
    (hi : s'.calls[i]? = some ci) (hj : s'.calls[j]? = some cj) (hk : ci.key = cj.key) :
    ci.phase = .done ∨ Queued s' i j ci cj := by
  rw [hcalls, State.getElem?_update_eq_some] at hi hj
  obtain ⟨ci, hi, rfl⟩ := hi
  obtain ⟨cj, hj, rfl⟩ := hj
  have hk' : ci.key = cj.key := by
    split_ifs at hk <;> simpa [hkey] using hk
  by_cases hci : ci.phase = .done
  · left
    split_ifs with hid
    · subst hid
      rw [hc] at hi
      cases hi
      exact hdone hci
    · exact hci
  · have hqueued := (h.earlier i j ci cj hij hi hj hk').resolve_left hci
    obtain ⟨hwait, w, cw, hw, hiw, hwj, hcw, hkw⟩ := hqueued
    right
    refine ⟨?_, w, if id = w then f cw else cw, ?_, hiw, hwj, ?_, ?_⟩
    · split_ifs with hid
      · subst hid
        rw [hc] at hj
        cases hj
        obtain hsame | hearlier := hmove
        · rw [hsame, hwait]
        · exact absurd (hearlier i ci hij hi hk') hci
      · exact hwait
    · split_ifs <;> simp [hqueue, hw]
    · rw [hcalls, State.getElem?_update, hcw]
      rfl
    · split_ifs <;> simp [hkey, hkw]

theorem Invariant.update (h : Invariant s) {id : ℕ} (hc : s.calls[id]? = some c)
    (hkey : ∀ c, (f c).key = c.key) (hqueue : ∀ c, (f c).currentQueue = c.currentQueue)
    (hdone : c.phase = .done → (f c).phase = .done) (hlive : c.phase ≠ .done → (f c).phase ≠ .done)
    (hmove : (f c).phase = c.phase ∨ ∀ (i : ℕ) (ci : Call), i < id → s.calls[i]? = some ci →
      ci.key = c.key → ci.phase = .done)
    (hreleased : (f c).nextQueue = true ∨ (f c).chainedQueue = true → (f c).phase = .done) :
    Invariant (s.update id f) := by
  refine ⟨h.earlier_update hc rfl hkey hqueue hdone hmove, ?_, ?_, ?_, ?_⟩
  · intro i c' hc' hp
    obtain ⟨c₀, hc₀, rfl⟩ := State.getElem?_update_eq_some.mp hc'
    by_cases hid : id = i
    · subst hid
      rw [hc] at hc₀
      cases hc₀
      simp only [if_true] at hp ⊢
      exact hreleased hp
    · simp only [hid, if_false] at hp ⊢
      exact h.released i c₀ hc₀ hp
  · intro k j hj
    obtain ⟨c₀, hc₀, hk, hphase⟩ := h.entry k j hj
    refine ⟨_, State.getElem?_update_eq_some.mpr ⟨c₀, hc₀, rfl⟩, ?_, ?_⟩
    · split_ifs <;> simp [hkey, hk]
    · split_ifs with hid
      · subst hid
        rw [hc] at hc₀
        cases hc₀
        exact hlive hphase
      · exact hphase
  · intro k id' j c' hid' hc' hk
    obtain ⟨c₀, hc₀, rfl⟩ := State.getElem?_update_eq_some.mp hc'
    exact h.newest k id' j c₀ hid' hc₀ (by split_ifs at hk <;> simpa [hkey] using hk)
  · intro k i c' hid' hc' hk
    obtain ⟨c₀, hc₀, rfl⟩ := State.getElem?_update_eq_some.mp hc'
    have hdone₀ := h.noEntry k i c₀ hid' hc₀ (by split_ifs at hk <;> simpa [hkey] using hk)
    split_ifs with hid
    · subst hid
      rw [hc] at hc₀
      cases hc₀
      exact hdone hdone₀
    · exact hdone₀

theorem Invariant.finish (h : Invariant s) {id : ℕ} (hc : s.calls[id]? = some c)
    (hrunning : c.phase = .running) : Invariant (finish s id c) := by
  have hcalls := finish_calls s id c
  have hbefore (i : ℕ) (ci : Call) (hlt : i < id) (hi : s.calls[i]? = some ci)
      (hk : ci.key = c.key) : ci.phase = .done := by
    obtain hdone | hqueued := h.earlier i id ci c hlt hi hc hk
    · exact hdone
    · rw [hqueued.waiting] at hrunning
      cases hrunning
  have hlookup (j : ℕ) (cj : Call) (hj : (FileMutationQueue.finish s id c).calls[j]? = some cj) :
      ∃ c₀, s.calls[j]? = some c₀ ∧ cj.key = c₀.key ∧
        (cj = c₀ ∧ id ≠ j ∨ id = j ∧ cj.phase = .done) := by
    rw [hcalls, State.getElem?_update_eq_some] at hj
    obtain ⟨c₀, hc₀, rfl⟩ := hj
    refine ⟨c₀, hc₀, ?_, ?_⟩ <;> split_ifs <;> simp_all
  refine ⟨h.earlier_update hc hcalls (fun _ => rfl) (fun _ => rfl) (fun _ => rfl)
    (.inr hbefore), ?_, ?_, ?_, ?_⟩
  · intro i c' hc' hp
    obtain ⟨c₀, hc₀, -, ⟨rfl, -⟩ | ⟨-, hdone⟩⟩ := hlookup i c' hc'
    · exact h.released i c' hc₀ hp
    · exact hdone
  · intro k j hj
    rw [finish_queues] at hj
    split_ifs at hj with hown
    obtain ⟨c₀, hc₀, hk, hphase⟩ := h.entry k j hj
    have hne : id ≠ j := by
      rintro rfl
      rw [hc] at hc₀
      cases hc₀
      exact hown ⟨hj, hk⟩
    refine ⟨c₀, ?_, hk, hphase⟩
    rw [hcalls, State.getElem?_update, hc₀]
    simp [hne]
  · intro k id' j c' hid' hc' hk
    rw [finish_queues] at hid'
    split_ifs at hid'
    obtain ⟨c₀, hc₀, hkey, -⟩ := hlookup j c' hc'
    exact h.newest k id' j c₀ hid' hc₀ (hkey.symm.trans hk)
  · intro k i c' hid' hc' hk
    obtain ⟨c₀, hc₀, hkey, hcase⟩ := hlookup i c' hc'
    rw [finish_queues] at hid'
    obtain ⟨rfl, hne⟩ | ⟨-, hdone⟩ := hcase
    · split_ifs at hid' with hown
      · have hle := h.newest k id i c' hown.1 hc₀ hk
        exact hbefore i c' (by omega) hc₀ (hk.trans hown.2.symm)
      · exact h.noEntry k i c' hid' hc₀ hk
    · exact hdone

theorem Invariant.step (h : Invariant s) (hstep : FileMutationQueue.step s e = some s') :
    Invariant s' := by
  rcases step_cases hstep with ⟨filePath, -, rfl⟩ | ⟨id, c, -, hc, hphase, hresolved, rfl⟩ |
    ⟨id, c, -, hc, hphase, rfl⟩ | ⟨id, c, -, hc, -, hnext, rfl⟩ | ⟨fs, -, rfl⟩
  · exact h.call filePath
  · have hwaiting : c.phase ≠ .done := by simp [hphase]
    have hbefore (i : ℕ) (ci : Call) (hlt : i < id) (hi : s.calls[i]? = some ci)
        (hk : ci.key = c.key) : ci.phase = .done := h.earlier_done hlt hi hc hk hresolved
    exact h.update hc (fun _ => rfl) (fun _ => rfl) (fun hd => absurd hd hwaiting) (by simp)
      (.inr hbefore) (fun hp => absurd (h.released id c hc hp) hwaiting)
  · exact h.finish hc hphase
  · have hdone := h.released id c hc (.inl hnext)
    exact h.update hc (fun _ => rfl) (fun _ => rfl) (fun hd => hd) (fun hlive => hlive)
      (.inl rfl) (fun _ => hdone)
  · refine ⟨fun i j ci cj hij hi hj hk => ?_, h.released, h.entry, h.newest, h.noEntry⟩
    exact (h.earlier i j ci cj hij hi hj hk).imp_right fun q => ⟨q.waiting, q.behind⟩

theorem Reaches.invariant {fs : FileSystem} (h : Reaches ok fs s) : Invariant s := by
  induction h with
  | initial => exact initial_invariant fs
  | step e _ _ hstep ih => exact ih.step hstep

def FileSystem.SameFile (fs : FileSystem) (path path' : String) : Prop :=
  path = path' ∨ ∃ real, fs.realpath path = some real ∧ fs.realpath path' = some real

def Call.live (c : Call) : Prop := c.phase ≠ .done

/-- The exclusion that the queue is for, in one state. -/
structure Exclusive (s : State) : Prop where
  exclusion : ∀ (i j : ℕ) (ci cj : Call), i ≠ j → s.calls[i]? = some ci → s.calls[j]? = some cj →
    ci.phase = .running → cj.phase = .running → ¬ s.fs.SameFile ci.resolvedPath cj.resolvedPath
  order : ∀ (i j : ℕ) (ci cj : Call), i < j → s.calls[i]? = some ci → s.calls[j]? = some cj →
    ci.live → cj.phase = .running → ¬ s.fs.SameFile ci.resolvedPath cj.resolvedPath

/-- Every entry of the map belongs to a call with that key that waits or runs. -/
def MapOfLiveCalls (s : State) : Prop :=
  ∀ k ∈ s.fileMutationQueues.keys, ∃ c ∈ s.calls, c.key = k ∧ c.live

/-- Calls that wait or run for one file have one key: a new call gets the key of those before
it, and a change of the file system does not make the files of two calls with different keys
the same. -/
def KeepsKeys (s : State) : Event → Prop
  | .call filePath => ∀ c ∈ s.calls, c.live →
      s.fs.SameFile c.resolvedPath (s.fs.resolve filePath) →
        c.key = getMutationQueueKey s.fs filePath
  | .changeFiles fs => ∀ c ∈ s.calls, ∀ c' ∈ s.calls, c.live → c'.live →
      fs.SameFile c.resolvedPath c'.resolvedPath → c.key = c'.key
  | _ => True

def KeysAgree (s : State) : Prop :=
  ∀ c ∈ s.calls, ∀ c' ∈ s.calls, c.live → c'.live →
    s.fs.SameFile c.resolvedPath c'.resolvedPath → c.key = c'.key

theorem FileSystem.SameFile.symm {fs : FileSystem} {path path' : String}
    (h : fs.SameFile path path') : fs.SameFile path' path := by
  obtain rfl | ⟨real, h, h'⟩ := h
  · exact .inl rfl
  · exact .inr ⟨real, h', h⟩

theorem Invariant.mapOfLiveCalls (h : Invariant s) : MapOfLiveCalls s := by
  intro k hk
  have hne : s.fileMutationQueues.get k ≠ none := by
    rw [ne_eq, OrderedMap.get_eq_none_iff, not_not]
    exact hk
  obtain ⟨id, hid⟩ := ne_none_iff_exists'.mp hne
  obtain ⟨c, hc, hck, hphase⟩ := h.entry k id hid
  exact ⟨c, mem_of_getElem? hc, hck, hphase⟩

theorem Reaches.mapOfLiveCalls {fs : FileSystem} (h : Reaches ok fs s) :
    MapOfLiveCalls s := h.invariant.mapOfLiveCalls

theorem Invariant.exclusive (h : Invariant s) (hkeys : KeysAgree s) : Exclusive s := by
  have order (i j : ℕ) (ci cj : Call) (hij : i < j) (hi : s.calls[i]? = some ci)
      (hj : s.calls[j]? = some cj) (hlive : ci.live) (hrunning : cj.phase = .running) :
      ¬ s.fs.SameFile ci.resolvedPath cj.resolvedPath := by
    intro hsame
    have hlive' : cj.live := by simp [Call.live, hrunning]
    have hk := hkeys ci (mem_of_getElem? hi) cj (mem_of_getElem? hj) hlive hlive' hsame
    obtain hdone | hqueued := h.earlier i j ci cj hij hi hj hk
    · exact hlive hdone
    · rw [hqueued.waiting] at hrunning
      cases hrunning
  refine ⟨fun i j ci cj hij hi hj hri hrj hsame => ?_, order⟩
  obtain hlt | hlt := Nat.lt_or_gt_of_ne hij
  · exact order i j ci cj hlt hi hj (by simp [Call.live, hri]) hrj hsame
  · exact order j i cj ci hlt hj hi (by simp [Call.live, hrj]) hri hsame.symm

theorem live_of_update {id : ℕ} (hf : ∀ c, (f c).key = c.key ∧ (f c).resolvedPath = c.resolvedPath)
    (hlive : ∀ c, s.calls[id]? = some c → (f c).live → c.live) (hc : c ∈ (s.update id f).calls)
    (hcl : c.live) :
    ∃ c₀ ∈ s.calls, c₀.live ∧ c.key = c₀.key ∧ c.resolvedPath = c₀.resolvedPath := by
  obtain ⟨j, hj⟩ := mem_iff_getElem?.mp hc
  obtain ⟨c₀, hc₀, rfl⟩ := State.getElem?_update_eq_some.mp hj
  refine ⟨c₀, mem_of_getElem? hc₀, ?_⟩
  split_ifs at hcl ⊢ with hid
  · subst hid
    exact ⟨hlive c₀ hc₀ hcl, hf c₀⟩
  · exact ⟨hcl, rfl, rfl⟩

theorem KeysAgree.update (h : KeysAgree s) {id : ℕ} (hfs : s'.fs = s.fs)
    (hcalls : s'.calls = (s.update id f).calls)
    (hf : ∀ c, (f c).key = c.key ∧ (f c).resolvedPath = c.resolvedPath)
    (hlive : ∀ c, s.calls[id]? = some c → (f c).live → c.live) : KeysAgree s' := by
  intro c hc c' hc' hcl hcl' hsame
  rw [hcalls] at hc hc'
  obtain ⟨c₀, hmem, hl, hk, hp⟩ := live_of_update hf hlive hc hcl
  obtain ⟨c₀', hmem', hl', hk', hp'⟩ := live_of_update hf hlive hc' hcl'
  rw [hfs, hp, hp'] at hsame
  rw [hk, hk']
  exact h c₀ hmem c₀' hmem' hl hl' hsame

theorem KeysAgree.call (h : KeysAgree s) {filePath : String} (hok : KeepsKeys s (.call filePath)) :
    KeysAgree (withFileMutationQueue s filePath) := by
  intro c hc c' hc' hcl hcl' hsame
  rcases mem_append.mp hc with hc | hc <;> rcases mem_append.mp hc' with hc' | hc'
  · exact h c hc c' hc' hcl hcl' hsame
  · rw [mem_singleton] at hc'
    subst hc'
    exact hok c hc hcl hsame
  · rw [mem_singleton] at hc
    subst hc
    exact (hok c' hc' hcl' hsame.symm).symm
  · rw [mem_singleton] at hc hc'
    rw [hc, hc']

theorem KeysAgree.step (h : KeysAgree s) (hok : KeepsKeys s e)
    (hstep : FileMutationQueue.step s e = some s') : KeysAgree s' := by
  rcases step_cases hstep with ⟨filePath, rfl, rfl⟩ | ⟨id, c, -, hc, hphase, -, rfl⟩ |
    ⟨id, c, -, hc, hphase, rfl⟩ | ⟨id, c, -, hc, -, -, rfl⟩ | ⟨fs, rfl, rfl⟩
  · exact h.call hok
  · refine h.update rfl rfl (fun _ => ⟨rfl, rfl⟩) fun c' hc' _ => ?_
    rw [hc] at hc'
    cases hc'
    simp [Call.live, hphase]
  · have hfs : (finish s id c).fs = s.fs := by
      unfold finish
      split <;> rfl
    exact h.update hfs (finish_calls s id c) (fun _ => ⟨rfl, rfl⟩)
      fun c' _ hlive => absurd rfl hlive
  · exact h.update rfl rfl (fun _ => ⟨rfl, rfl⟩) fun c' _ hlive => hlive
  · exact hok

theorem Reaches.keysAgree {fs : FileSystem} (h : Reaches KeepsKeys fs s) : KeysAgree s := by
  induction h with
  | initial => simp [KeysAgree, FileMutationQueue.initial]
  | step e _ hok hstep ih => exact ih.step hok hstep

/-- In a run whose calls for one file get one key, two of them never run at the same time, they
run in the order in which they were made, and the map has entries for live calls only. -/
theorem fileMutation_exclusive {fs : FileSystem} {s : State} (h : Reaches KeepsKeys fs s) :
    Exclusive s ∧ MapOfLiveCalls s :=
  ⟨h.invariant.exclusive h.keysAgree, h.mapOfLiveCalls⟩

def emptyDisk : FileSystem := { resolve := id, realpath := fun _ => none }

/-- `/tmp` is a link to `/private/tmp`, and `/tmp/a` exists. -/
def linkedDisk : FileSystem :=
  { resolve := id, realpath := fun path => if path = "/tmp/a" then some "/private/tmp/a" else none }

/-- The second call waits for the first. -/
theorem twoCalls_exclusive : ∃ s : State, s.calls.map Call.phase = [.running, .waiting] ∧
    Exclusive s ∧ MapOfLiveCalls s := by
  have h₁ : Reaches KeepsKeys linkedDisk (withFileMutationQueue (initial linkedDisk) "/tmp/a") :=
    .step (.call "/tmp/a") .initial (fun c hc => by cases hc) rfl
  have h₂ := Reaches.step (.call "/tmp/a") h₁ (fun c hc _ _ => by
    obtain rfl : c = _ := mem_singleton.mp hc
    rfl) rfl
  have h₃ := Reaches.step (.start 0) h₂ trivial rfl
  exact ⟨_, by decide, fileMutation_exclusive h₃⟩

/-- The first call, which waits for nothing, creates the file while it runs; the second call then
has the real path for its key, and waits for nothing either. -/
theorem createdFile_not_exclusive :
    ∃ s, Reaches (fun _ _ => True) emptyDisk s ∧ ¬ Exclusive s := by
  have h₁ : Reaches (fun _ _ => True) emptyDisk
      (withFileMutationQueue (initial emptyDisk) "/tmp/a") :=
    .step (.call "/tmp/a") .initial trivial rfl
  have h₂ := Reaches.step (.start 0) h₁ trivial rfl
  have h₃ := Reaches.step (.changeFiles linkedDisk) h₂ trivial rfl
  have h₄ := Reaches.step (.call "/tmp/a") h₃ trivial rfl
  have h₅ := Reaches.step (.start 1) h₄ trivial rfl
  refine ⟨_, h₅, fun h => ?_⟩
  exact h.exclusion 0 1 _ _ (by decide) rfl rfl rfl rfl (.inl rfl)

/-- A call waits for an earlier one only, and a call that is done has released the next. -/
def InLine (s : State) : Prop :=
  ∀ (j : ℕ) (c : Call), s.calls[j]? = some c →
    (∀ w, c.currentQueue = some w → w < j) ∧ (c.phase = .done → c.nextQueue = true)

theorem InLine.update (h : InLine s) {id : ℕ} (hc : s.calls[id]? = some c)
    (hcalls : s'.calls = (s.update id f).calls) (hqueue : (f c).currentQueue = c.currentQueue)
    (hdone : (f c).phase = .done → (f c).nextQueue = true) : InLine s' := by
  intro j c' hc'
  rw [hcalls, State.getElem?_update_eq_some] at hc'
  obtain ⟨c₀, hc₀, rfl⟩ := hc'
  have hold := h j c₀ hc₀
  split_ifs with hid
  · subst hid
    obtain rfl := some.inj (hc.symm.trans hc₀)
    exact ⟨fun w hw => hold.1 w (hqueue ▸ hw), hdone⟩
  · exact hold

theorem Reaches.inLine {fs : FileSystem} (h : Reaches ok fs s) : InLine s := by
  induction h with
  | initial => exact fun j c hc => by simp [FileMutationQueue.initial] at hc
  | @step s s' e h _ hstep ih =>
    rcases step_cases hstep with ⟨filePath, -, rfl⟩ | ⟨id, c, -, hc, hphase, -, rfl⟩ |
      ⟨id, c, -, hc, hphase, rfl⟩ | ⟨id, c, -, hc, -, hnext, rfl⟩ | ⟨fs, -, rfl⟩
    · intro j c hc
      change (s.calls ++ [_])[j]? = some c at hc
      rw [getElem?_append] at hc
      split_ifs at hc with hj
      · exact ih j c hc
      · obtain rfl := mem_singleton.mp (mem_of_getElem? hc)
        refine ⟨fun w hw => ?_, nofun⟩
        obtain ⟨cw, hcw, -⟩ := h.invariant.entry _ w hw
        have hlt := (List.getElem?_eq_some_iff.mp hcw).1
        omega
    · exact ih.update hc rfl rfl nofun
    · exact ih.update hc (finish_calls s id c) rfl fun _ => rfl
    · exact ih.update hc rfl rfl fun _ => hnext
    · exact ih

/-- How many events of its own a call is away from the resolution of its chained promise. -/
def Call.remaining (c : Call) : ℕ :=
  if c.chainedQueue then 0
  else match c.phase with
    | .waiting => 3
    | .running => 2
    | .done => 1

def State.remaining (s : State) : ℕ := s.calls.foldr (fun c n => c.remaining + n) 0

theorem remaining_update {id : ℕ} (hc : s.calls[id]? = some c)
    (hless : (f c).remaining < c.remaining) : (s.update id f).remaining < s.remaining := by
  unfold State.remaining State.update
  generalize s.calls = calls at hc ⊢
  induction calls generalizing id with
  | nil => cases hc
  | cons d calls ih =>
    cases id with
    | zero =>
      obtain rfl := some.inj hc
      simpa using hless
    | succ id => simpa using ih hc

def Event.isOwn : Event → Bool
  | .call _ | .changeFiles _ => false
  | _ => true

/-- The earliest call whose chained promise is open can go on. -/
theorem Reaches.progress {fs : FileSystem} (h : Reaches ok fs s)
    (hopen : ∃ (j : ℕ) (c : Call), s.calls[j]? = some c ∧ c.chainedQueue = false) :
    ∃ e s', Event.isOwn e = true ∧ FileMutationQueue.step s e = some s' ∧
      s'.remaining < s.remaining := by
  classical
  obtain ⟨c, hc, hchained⟩ := Nat.find_spec hopen
  set j := Nat.find hopen
  obtain ⟨hearlier, hreleased⟩ := h.inLine j c hc
  have hresolved : s.resolved c.currentQueue = true := by
    cases hw : c.currentQueue with
    | none => rfl
    | some w =>
      have hlt := hearlier w hw
      have hj := (List.getElem?_eq_some_iff.mp hc).1
      have hcw : s.calls[w]? = some s.calls[w] := getElem?_eq_getElem (Nat.lt_trans hlt hj)
      have hdone : s.calls[w].chainedQueue = true := by
        by_contra hnot
        exact Nat.find_min hopen hlt ⟨_, hcw, Bool.eq_false_iff.mpr hnot⟩
      rw [State.resolved, hcw]
      exact hdone
  cases hphase : c.phase with
  | waiting =>
    refine ⟨.start j, _, rfl, ?_,
      remaining_update hc (f := fun c => { c with phase := .running }) ?_⟩
    · simp only [FileMutationQueue.step, hc]
      rw [if_pos ⟨hphase, hresolved⟩]
    · simp [Call.remaining, hchained, hphase]
  | running =>
    refine ⟨.settle j, finish s j c, rfl, ?_, ?_⟩
    · simp only [FileMutationQueue.step, hc]
      rw [if_pos hphase]
    · rw [State.remaining, finish_calls]
      exact remaining_update hc (by simp [Call.remaining, hchained, hphase])
  | done =>
    refine ⟨.resolveChained j, _, rfl, ?_,
      remaining_update hc (f := fun c => { c with chainedQueue := true }) ?_⟩
    · simp only [FileMutationQueue.step, hc]
      rw [if_pos ⟨hresolved, hreleased hphase⟩]
    · simp [Call.remaining, hchained, hphase]

/-- The queue never deadlocks: from every state that is reached it drains, once the functions of its
calls settle, and no entry is left in the map. -/
theorem queue_drains {fs : FileSystem} (h : Reaches (fun _ _ => True) fs s) :
    ∃ (events : List Event) (s' : State), (∀ e ∈ events, e.isOwn) ∧ events.length ≤ s.remaining ∧
      events.foldlM step s = some s' ∧ (∀ c ∈ s'.calls, c.phase = .done) ∧
      s'.fileMutationQueues.keys = [] := by
  generalize hn : s.remaining = n
  induction n using Nat.strong_induction_on generalizing s with
  | h n ih =>
    by_cases hopen : ∃ (j : ℕ) (c : Call), s.calls[j]? = some c ∧ c.chainedQueue = false
    · obtain ⟨e, s₁, hown, hstep, hless⟩ := h.progress hopen
      obtain ⟨events, s', hevents, hlength, hrun, hend⟩ :=
        ih _ (hn ▸ hless) (h.step e trivial hstep) rfl
      refine ⟨e :: events, s', ?_, ?_, ?_, hend⟩
      · exact forall_mem_cons.mpr ⟨hown, hevents⟩
      · rw [length_cons]
        omega
      · rw [foldlM_cons, hstep]
        exact hrun
    · have hdone : ∀ c ∈ s.calls, c.phase = .done := by
        intro c hc
        obtain ⟨j, hj⟩ := mem_iff_getElem?.mp hc
        refine h.invariant.released j c hj (.inr ?_)
        by_contra hnot
        exact hopen ⟨j, c, hj, Bool.eq_false_iff.mpr hnot⟩
      refine ⟨[], s, nofun, Nat.zero_le _, rfl, hdone, eq_nil_iff_forall_not_mem.mpr fun k hk => ?_⟩
      obtain ⟨c, hc, -, hlive⟩ := h.mapOfLiveCalls k hk
      exact hlive (hdone c hc)

theorem queue_drains_twoCalls : ∃ s : State, s.calls.length = 2 ∧
    ∃ (events : List Event) (s' : State), events.foldlM step s = some s' ∧
      ∀ c ∈ s'.calls, c.phase = .done := by
  have h₁ : Reaches (fun _ _ => True) linkedDisk _ := .step (.call "/tmp/a") .initial trivial rfl
  have h₂ := h₁.step (.call "/tmp/a") trivial rfl
  obtain ⟨events, s', -, -, hrun, hdone, -⟩ := queue_drains h₂
  exact ⟨_, rfl, events, s', hrun, hdone⟩

end Draht.FileMutationQueue
