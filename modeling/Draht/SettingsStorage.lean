import Draht.GuardedRun
import Draht.LockedUpdates

/-!
# The settings file

Calls of `withLock` on one settings file, from any number of processes. A call that finds the file
takes the lock before it reads; a call that finds none takes the lock only to write, and what it
writes is made from no file. So a file that another call has created in between is overwritten.
-/

namespace Draht.SettingsStorage
open List Option

variable {τ : Type}

/-- What a caller passes to `withLock`: from the content of the file to what is to be written, if
anything; it may throw. -/
abbrev UpdateFn (τ : Type) := Option τ → Except Unit (Option τ)

/-- Where a call is: before `existsSync`; waiting for the lock (`attempt` counts the tries, `next`
is what it will write if it has found no file); at `readFileSync`; at `writeFileSync`; at
`release`, with or without an error to throw; and at its end. -/
inductive Phase (τ : Type) where
  | called
  | waiting (attempt : ℕ) (next : Option τ)
  | reading
  | writing (next : τ)
  | releasing (threw : Bool)
  | returned
  | threw

structure Call (τ : Type) where
  fn : UpdateFn τ
  phase : Phase τ

/-- `content` is what is in the file, if there is one; nobody writes it without the lock. -/
structure State (τ : Type) where
  content : Option τ
  lock : Option ℕ
  calls : List (Call τ)

def initial (content : Option τ) : State τ := { content, lock := none, calls := [] }

/-- What a call does next. An attempt to lock fails while another call has the lock; `fail` is any
other error of the file system. -/
inductive Operation where
  | existsSync | lockSync | readFileSync | writeFileSync | release | fail

/-- A new call, or the next operation of a call, by its place in the order of the calls. -/
inductive Action (τ : Type) where
  | withLock (fn : UpdateFn τ)
  | run (id : ℕ) (op : Operation)

def maxAttempts : ℕ := 10

def State.move (s : State τ) (id : ℕ) (phase : Phase τ) : State τ :=
  { s with calls := s.calls.modify id (fun c => { c with phase }) }

/-- After `fn` was called under the lock. -/
def Phase.afterRead : Except Unit (Option τ) → Phase τ
  | .ok (some next) => .writing next
  | .ok none => .releasing false
  | .error _ => .releasing true

/-- After `fn` was called without a file, and without the lock. -/
def Phase.afterMissing : Except Unit (Option τ) → Phase τ
  | .ok (some next) => .waiting 1 (some next)
  | .ok none => .returned
  | .error _ => .threw

/-- One attempt of `acquireLockSyncWithRetry`. -/
def tryLock (s : State τ) (id attempt : ℕ) (next : Option τ) : State τ :=
  match s.lock with
  | none =>
    { s with lock := some id }.move id
      (match next with
      | some next => .writing next
      | none => .reading)
  | some _ => s.move id (if attempt = maxAttempts then .threw else .waiting (attempt + 1) next)

def callStep (s : State τ) (id : ℕ) (c : Call τ) (op : Operation) : Option (State τ) :=
  match op, c.phase with
  | .existsSync, .called =>
    match s.content with
    | some _ => some (s.move id (.waiting 1 none))
    | none => some (s.move id (.afterMissing (c.fn none)))
  | .lockSync, .waiting attempt next => some (tryLock s id attempt next)
  | .readFileSync, .reading =>
    match s.content with
    | some text => some (s.move id (.afterRead (c.fn (some text))))
    | none => some (s.move id (.releasing true))
  | .writeFileSync, .writing next =>
    some ({ s with content := some next }.move id (.releasing false))
  | .release, .releasing threw =>
    some ({ s with lock := none }.move id (if threw then .threw else .returned))
  | .fail, .waiting .. => some (s.move id .threw)
  | .fail, .reading | .fail, .writing _ => some (s.move id (.releasing true))
  | _, _ => none

def step (s : State τ) : Action τ → Option (State τ)
  | .withLock fn => some { s with calls := s.calls ++ [{ fn, phase := .called }] }
  | .run id op => s.calls[id]?.bind fun c => callStep s id c op

variable {s s' : State τ}

inductive Stepped (s : State τ) : Action τ → State τ → Prop
  | withLock (fn : UpdateFn τ) :
      Stepped s (.withLock fn) { s with calls := s.calls ++ [{ fn, phase := .called }] }
  | found {id : ℕ} {c : Call τ} : s.calls[id]? = some c → c.phase = .called →
      Stepped s (.run id .existsSync) (s.move id (.waiting 1 none))
  | missing {id : ℕ} {c : Call τ} : s.calls[id]? = some c → c.phase = .called →
      s.content = none →
      Stepped s (.run id .existsSync) (s.move id (.afterMissing (c.fn none)))
  | locked {id attempt : ℕ} {c : Call τ} : s.calls[id]? = some c →
      c.phase = .waiting attempt none → s.lock = none →
      Stepped s (.run id .lockSync) ({ s with lock := some id }.move id .reading)
  | lockedLate {id attempt : ℕ} {c : Call τ} {next : τ} : s.calls[id]? = some c →
      c.phase = .waiting attempt (some next) → s.lock = none →
      Stepped s (.run id .lockSync) ({ s with lock := some id }.move id (.writing next))
  | retried {id attempt attempt' : ℕ} {c : Call τ} {next : Option τ} : s.calls[id]? = some c →
      c.phase = .waiting attempt next →
      Stepped s (.run id .lockSync) (s.move id (.waiting attempt' next))
  | exhausted {id attempt : ℕ} {c : Call τ} {next : Option τ} (op : Operation) :
      s.calls[id]? = some c → c.phase = .waiting attempt next →
      Stepped s (.run id op) (s.move id .threw)
  | read {id : ℕ} {c : Call τ} {text : τ} : s.calls[id]? = some c → c.phase = .reading →
      s.content = some text →
      Stepped s (.run id .readFileSync) (s.move id (.afterRead (c.fn (some text))))
  | wrote {id : ℕ} {c : Call τ} {next : τ} : s.calls[id]? = some c → c.phase = .writing next →
      Stepped s (.run id .writeFileSync)
        ({ s with content := some next }.move id (.releasing false))
  | failed {id : ℕ} {c : Call τ} (op : Operation) : s.calls[id]? = some c →
      (c.phase = .reading ∨ ∃ next, c.phase = .writing next) →
      Stepped s (.run id op) (s.move id (.releasing true))
  | released {id : ℕ} {c : Call τ} {threw : Bool} : s.calls[id]? = some c →
      c.phase = .releasing threw →
      Stepped s (.run id .release)
        ({ s with lock := none }.move id (if threw then .threw else .returned))

variable {first : Option τ} {a : Action τ} {c : Call τ} {id : ℕ}

theorem stepped (hs : step s a = some s') : Stepped s a s' := by
  cases a with
  | withLock fn =>
    cases hs
    exact .withLock fn
  | run id op =>
    obtain ⟨c, hc, hs⟩ := bind_eq_some_iff.mp hs
    cases op with
    | existsSync =>
      cases hphase : c.phase with
      | called =>
        simp only [callStep, hphase] at hs
        split at hs <;> cases hs
        · exact .found hc hphase
        · exact .missing hc hphase ‹_›
      | _ => simp [callStep, hphase] at hs
    | lockSync =>
      cases hphase : c.phase with
      | waiting attempt next =>
        simp only [callStep, hphase, tryLock] at hs
        cases hlock : s.lock with
        | none =>
          simp only [hlock] at hs
          cases next <;> cases hs
          · exact .locked hc hphase hlock
          · exact .lockedLate hc hphase hlock
        | some owner =>
          simp only [hlock] at hs
          split_ifs at hs <;> cases hs
          · exact .exhausted _ hc hphase
          · exact .retried hc hphase
      | _ => simp [callStep, hphase] at hs
    | readFileSync =>
      cases hphase : c.phase with
      | reading =>
        simp only [callStep, hphase] at hs
        split at hs <;> cases hs
        · exact .read hc hphase ‹_›
        · exact .failed _ hc (.inl hphase)
      | _ => simp [callStep, hphase] at hs
    | writeFileSync =>
      cases hphase : c.phase with
      | writing next =>
        simp only [callStep, hphase] at hs
        cases hs
        exact .wrote hc hphase
      | _ => simp [callStep, hphase] at hs
    | release =>
      cases hphase : c.phase with
      | releasing threw =>
        simp only [callStep, hphase] at hs
        cases hs
        exact .released hc hphase
      | _ => simp [callStep, hphase] at hs
    | fail =>
      cases hphase : c.phase with
      | waiting attempt next =>
        simp only [callStep, hphase] at hs
        cases hs
        exact .exhausted _ hc hphase
      | reading =>
        simp only [callStep, hphase] at hs
        cases hs
        exact .failed _ hc (.inl hphase)
      | writing next =>
        simp only [callStep, hphase] at hs
        cases hs
        exact .failed _ hc (.inr ⟨next, hphase⟩)
      | _ => simp [callStep, hphase] at hs

def applyUpdate (content : Option τ) (fn : UpdateFn τ) : Option τ :=
  match fn content with
  | .ok (some next) => some next
  | _ => content

def Phase.holds : Phase τ → Bool
  | .reading | .writing _ | .releasing _ => true
  | _ => false

def Phase.committed : Phase τ → Bool
  | .releasing false | .returned => true
  | _ => false

def Call.holds (c : Call τ) : Bool := c.phase.holds

def Call.committed (c : Call τ) : Bool := c.phase.committed

/-- The content is what the updates of the calls that have returned make of the first content, one
after another in some order. -/
def Serialised (first : Option τ) (s : State τ) : Prop :=
  Serial applyUpdate first (updatesOf Call.committed Call.fn s.calls) s.content

/-- The call has found no file, and is waiting for the lock to write one. -/
def Phase.foundMissing : Phase τ → Bool
  | .waiting _ (some _) => true
  | _ => false

/-- The condition on a step: a call that has found no file gets the lock while there is none. -/
def StillMissing (s : State τ) : Action τ → Prop
  | .run id .lockSync => s.lock = none →
      (s.calls[id]?.any fun c => c.phase.foundMissing) = true → s.content.isNone = true
  | _ => True

instance (s : State τ) : ∀ a, Decidable (StillMissing s a)
  | .withLock _ | .run _ .existsSync | .run _ .readFileSync | .run _ .writeFileSync
  | .run _ .release | .run _ .fail => instDecidableTrue
  | .run id .lockSync => inferInstanceAs (Decidable (s.lock = none →
      (s.calls[id]?.any fun c => c.phase.foundMissing) = true → s.content.isNone = true))

/-- What is going to be written is made from the content that the file has at that time. -/
structure StorageInvariant (first : Option τ) (s : State τ) : Prop where
  lock : LockOwner Call.holds s.calls s.lock
  late : ∀ (id : ℕ) (c : Call τ) attempt next, s.calls[id]? = some c →
    c.phase = .waiting attempt (some next) → c.fn none = .ok (some next)
  fresh : ∀ (id : ℕ) (c : Call τ) next, s.calls[id]? = some c → c.phase = .writing next →
    c.fn s.content = .ok (some next)
  serial : Serialised first s

theorem storageInvariant_initial (content : Option τ) :
    StorageInvariant content (initial content) :=
  ⟨.start, by simp [initial], by simp [initial], .nil⟩

theorem mem_move {phase : Phase τ} {j : ℕ} {d : Call τ} (hd : (s.move id phase).calls[j]? = some d) :
    ∃ d₀, s.calls[j]? = some d₀ ∧ d.fn = d₀.fn ∧
      (id = j ∧ d.phase = phase ∨ id ≠ j ∧ d.phase = d₀.phase) := by
  obtain ⟨d₀, hd₀, rfl⟩ := LockOwner.getElem?_modify_eq_some.mp hd
  refine ⟨d₀, hd₀, ?_⟩
  split_ifs with hid
  · exact ⟨rfl, .inl ⟨hid, rfl⟩⟩
  · exact ⟨rfl, .inr ⟨hid, rfl⟩⟩

theorem StorageInvariant.update {content : Option τ} {lock : Option ℕ}
    (h : StorageInvariant first s) (hc : s.calls[id]? = some c) {phase : Phase τ}
    (hlock : LockOwner Call.holds (s.calls.modify id fun c => { c with phase }) lock)
    (hlate : ∀ attempt next, phase = .waiting attempt (some next) → c.fn none = .ok (some next))
    (hfresh : ∀ next, phase = .writing next → c.fn content = .ok (some next))
    (hcontent : content = s.content ∨ c.phase.holds = true)
    (hserial : Serialised first ({ s with content, lock }.move id phase)) :
    StorageInvariant first ({ s with content, lock }.move id phase) := by
  refine ⟨hlock, ?_, ?_, hserial⟩
  · intro j d attempt next hd hphase
    obtain ⟨d₀, hd₀, hfn, ⟨rfl, hp⟩ | ⟨-, hp⟩⟩ := mem_move hd
    · obtain rfl := some.inj (hc.symm.trans hd₀)
      rw [hfn]
      exact hlate attempt next (hp.symm.trans hphase)
    · rw [hfn]
      exact h.late j d₀ attempt next hd₀ (hp.symm.trans hphase)
  · intro j d next hd hphase
    obtain ⟨d₀, hd₀, hfn, ⟨rfl, hp⟩ | ⟨hne, hp⟩⟩ := mem_move hd
    · obtain rfl := some.inj (hc.symm.trans hd₀)
      rw [hfn]
      exact hfresh next (hp.symm.trans hphase)
    · have hwriting : d₀.phase = .writing next := hp.symm.trans hphase
      obtain rfl | hholds := hcontent
      · rw [hfn]
        exact h.fresh j d₀ next hd₀ hwriting
      · -- only one call is in its critical section
        have hd' : d₀.holds = true := by
          rw [Call.holds, hwriting]
          rfl
        exact absurd (h.lock.unique hc hholds hd₀ hd').symm hne

theorem serialised_move {lock : Option ℕ} (h : Serialised first s) (hc : s.calls[id]? = some c)
    {phase : Phase τ} (hcommitted : phase.committed = c.phase.committed) :
    Serialised first ({ s with lock }.move id phase) := by
  have hsame : updatesOf Call.committed Call.fn (s.calls.modify id fun c => { c with phase }) =
      updatesOf Call.committed Call.fn s.calls :=
    updatesOf_modify hc hcommitted fun _ => rfl
  exact h.perm (Perm.of_eq hsame)

theorem serialised_commit {content : Option τ} {lock : Option ℕ} (h : Serialised first s)
    (hc : s.calls[id]? = some c) {phase : Phase τ} (hbefore : c.phase.committed = false)
    (hafter : phase.committed = true) (hcontent : content = applyUpdate s.content c.fn) :
    Serialised first ({ s with content, lock }.move id phase) := by
  have hperm : (updatesOf Call.committed Call.fn
      (s.calls.modify id fun c => { c with phase })).Perm
        (c.fn :: updatesOf Call.committed Call.fn s.calls) :=
    updatesOf_commit hc hbefore hafter
  have hcommit := h.commit c.fn
  rw [← hcontent] at hcommit
  exact hcommit.perm hperm

theorem StorageInvariant.move (h : StorageInvariant first s) (hc : s.calls[id]? = some c)
    {phase : Phase τ} (hholds : phase.holds = c.phase.holds)
    (hcommitted : phase.committed = c.phase.committed)
    (hlate : ∀ attempt next, phase = .waiting attempt (some next) → c.fn none = .ok (some next))
    (hfresh : ∀ next, phase = .writing next → c.fn s.content = .ok (some next)) :
    StorageInvariant first (s.move id phase) :=
  h.update hc (h.lock.modify hc hholds) hlate hfresh (.inl rfl)
    (serialised_move h.serial hc hcommitted)

theorem applyUpdate_of_ok {content : Option τ} {fn : UpdateFn τ} {next : τ}
    (h : fn content = .ok (some next)) : some next = applyUpdate content fn := by
  rw [applyUpdate, h]

theorem applyUpdate_of_none {content : Option τ} {fn : UpdateFn τ} (h : fn content = .ok none) :
    content = applyUpdate content fn := by
  rw [applyUpdate, h]

theorem StorageInvariant.step (h : StorageInvariant first s) (hok : StillMissing s a)
    (hs : step s a = some s') : StorageInvariant first s' := by
  cases stepped hs with
  | withLock fn =>
    refine ⟨h.lock.append rfl, ?_, ?_, ?_⟩
    · intro j d attempt next hd hphase
      rw [getElem?_append] at hd
      split_ifs at hd
      · exact h.late j d attempt next hd hphase
      · obtain rfl := mem_singleton.mp (mem_of_getElem? hd)
        cases hphase
    · intro j d next hd hphase
      rw [getElem?_append] at hd
      split_ifs at hd
      · exact h.fresh j d next hd hphase
      · obtain rfl := mem_singleton.mp (mem_of_getElem? hd)
        cases hphase
    · have hsame : updatesOf Call.committed Call.fn (s.calls ++ [{ fn, phase := .called }]) =
          updatesOf Call.committed Call.fn s.calls :=
        updatesOf_append rfl
      exact h.serial.perm (Perm.of_eq hsame)
  | found hc hphase =>
    apply h.move hc <;> first | rw [hphase]; rfl | simp
  | @missing id c hc hphase hnone =>
    cases hfn : c.fn none with
    | error e => apply h.move hc <;> first | rw [hphase]; rfl | simp [Phase.afterMissing]
    | ok result =>
      cases result with
      | none =>
        have hcontent : s.content = applyUpdate s.content c.fn := by
          rw [hnone]
          exact applyUpdate_of_none hfn
        refine h.update hc (h.lock.modify hc ?_) (by simp [Phase.afterMissing])
          (by simp [Phase.afterMissing]) (.inl rfl)
          (serialised_commit h.serial hc ?_ rfl hcontent)
        · rw [Call.holds, Call.holds, hphase]
          rfl
        · rw [hphase]
          rfl
      | some next =>
        refine h.move hc ?_ ?_ ?_ (by simp [Phase.afterMissing])
        · rw [hphase]
          rfl
        · rw [hphase]
          rfl
        · intro attempt next' heq
          cases heq
          exact hfn
  | @locked id attempt c hc hphase hnone =>
    refine h.update hc (LockOwner.acquire (hnone ▸ h.lock) hc rfl) (by simp) (by simp)
      (.inl rfl) (serialised_move h.serial hc ?_)
    rw [hphase]
    rfl
  | @lockedLate id attempt c next hc hphase hnone =>
    have hmissing : (s.calls[id]?.any fun c => c.phase.foundMissing) = true := by
      rw [hc, any_some, hphase]
      rfl
    have hcontent : s.content = none := isNone_iff_eq_none.mp (hok hnone hmissing)
    refine h.update hc (LockOwner.acquire (hnone ▸ h.lock) hc rfl) (by simp) ?_
      (.inl rfl) (serialised_move h.serial hc ?_)
    · intro next' heq
      cases heq
      rw [hcontent]
      exact h.late id c attempt next hc hphase
    · rw [hphase]
      rfl
  | @retried id attempt attempt' c next hc hphase =>
    refine h.move hc ?_ ?_ ?_ (by simp)
    · rw [hphase]
      rfl
    · rw [hphase]
      rfl
    · intro attempt'' next' heq
      cases heq
      exact h.late id c attempt next' hc hphase
  | exhausted op hc hphase => apply h.move hc <;> first | rw [hphase]; rfl | simp
  | @read id c text hc hphase hcontent =>
    cases hfn : c.fn (some text) with
    | error e => apply h.move hc <;> first | rw [hphase]; rfl | simp [Phase.afterRead]
    | ok result =>
      rw [← hcontent] at hfn
      cases result with
      | none =>
        refine h.update hc (h.lock.modify hc ?_) (by simp [Phase.afterRead])
          (by simp [Phase.afterRead]) (.inl rfl)
          (serialised_commit h.serial hc ?_ rfl (applyUpdate_of_none hfn))
        · rw [Call.holds, Call.holds, hphase]
          rfl
        · rw [hphase]
          rfl
      | some next =>
        refine h.move hc ?_ ?_ (by simp [Phase.afterRead]) ?_
        · rw [hphase]
          rfl
        · rw [hphase]
          rfl
        · intro next' heq
          cases heq
          exact hfn
  | @wrote id c next hc hphase =>
    have hholds : c.phase.holds = true := by
      rw [hphase]
      rfl
    refine h.update hc (h.lock.modify hc ?_) (by simp) (by simp) (.inr hholds)
      (serialised_commit h.serial hc ?_ rfl (applyUpdate_of_ok (h.fresh id c next hc hphase)))
    · rw [Call.holds, Call.holds, hphase]
      rfl
    · rw [hphase]
      rfl
  | @failed id c op hc hphase =>
    obtain hphase | ⟨next, hphase⟩ := hphase <;> apply h.move hc <;> first | rw [hphase]; rfl | simp
  | @released id c threw hc hphase =>
    refine h.update hc (h.lock.release hc ?_ ?_) ?_ ?_ (.inl rfl) (serialised_move h.serial hc ?_)
    · rw [Call.holds, hphase]
      rfl
    · cases threw <;> rfl
    · cases threw <;> simp
    · cases threw <;> simp
    · rw [hphase]
      cases threw <;> rfl

theorem serial_of_all_committed (h : Serialised first s) (hall : ∀ c ∈ s.calls, c.committed = true) :
    Serial applyUpdate first (s.calls.map Call.fn) s.content := by
  have heq : updatesOf Call.committed Call.fn s.calls = s.calls.map Call.fn := by
    rw [updatesOf, filter_eq_self.mpr hall]
  exact h.perm (Perm.of_eq heq.symm)

/-- In a run in which a call that has found no file gets the lock while there is none, the content
is at every time what the updates of the calls that have returned make of the first content; of all
calls, once they have all returned. -/
theorem settings_serialised {content : Option τ} {steps : List (Transition (State τ) (Action τ))}
    (h : GuardedRun step StillMissing (initial content) steps s) :
    Serialised content s ∧ ((∀ c ∈ s.calls, c.committed = true) →
      Serial applyUpdate content (s.calls.map Call.fn) s.content) := by
  have hinvariant := h.invariant (I := StorageInvariant content) (storageInvariant_initial content)
    fun _ _ _ hI hok hs => hI.step hok hs
  exact ⟨hinvariant.serial, serial_of_all_committed hinvariant.serial⟩

abbrev Fields := List (String × String)

def setField (key value : String) : UpdateFn Fields :=
  fun current => .ok (some ((current.getD []).filter (fun f => f.1 ≠ key) ++ [(key, value)]))

/-- One call after the other: the second one finds the file of the first one. -/
def writeThenWrite : List (Action Fields) :=
  [.withLock (setField "theme" "dark"), .run 0 .existsSync, .run 0 .lockSync,
    .run 0 .writeFileSync, .run 0 .release, .withLock (setField "defaultModel" "opus"),
    .run 1 .existsSync, .run 1 .lockSync, .run 1 .readFileSync, .run 1 .writeFileSync,
    .run 1 .release]

theorem settings_serialised_writeThenWrite :
    ∃ steps s, (GuardedRun step StillMissing (initial none) steps s ∧
      s.content = some [("theme", "dark"), ("defaultModel", "opus")]) ∧
      (Serialised none s ∧ ((∀ c ∈ s.calls, c.committed = true) →
        Serial applyUpdate none (s.calls.map Call.fn) s.content)) := by
  obtain ⟨steps, s, hruns, hcontent⟩ := GuardedRun.exists_of_play step StillMissing
    (initial (none : Option Fields)) writeThenWrite
    (fun _ s => s.content = some [("theme", "dark"), ("defaultModel", "opus")]) (by decide +kernel)
  exact ⟨steps, s, ⟨hruns, hcontent⟩, settings_serialised hruns⟩

/-- Both calls find no file; the second one writes over the first one's. -/
def writeTogether : List (Action Fields) :=
  [.withLock (setField "theme" "dark"), .withLock (setField "defaultModel" "opus"),
    .run 0 .existsSync, .run 1 .existsSync, .run 0 .lockSync, .run 0 .writeFileSync,
    .run 0 .release, .run 1 .lockSync, .run 1 .writeFileSync, .run 1 .release]

theorem firstWrite_lost :
    ¬∀ (content : Option Fields) (steps : List (Transition (State Fields) (Action Fields)))
      (s : State Fields), GuardedRun step (fun _ _ => True) (initial content) steps s →
        (∀ c ∈ s.calls, c.committed = true) →
          Serial applyUpdate content (s.calls.map Call.fn) s.content := by
  intro h
  obtain ⟨steps, s, hruns, hall, hlost⟩ := GuardedRun.exists_of_play step
    (fun _ _ => True) (initial (none : Option Fields)) writeTogether
    (fun _ s => (∀ c ∈ s.calls, c.committed = true) ∧ s.content ∉
      (s.calls.map Call.fn).permutations'.map fun order => order.foldl applyUpdate none)
    (by decide +kernel)
  exact hlost (h _ _ _ hruns hall).mem_permutations'

end Draht.SettingsStorage
