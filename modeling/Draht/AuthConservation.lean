import Draht.GuardedRun
import Draht.LockedUpdates
import Draht.AuthStorage

/-!
# Credentials are not lost

The credentials in the file are those of the updates that are done, one after another in some
order. An update is done when it is written; one of `set` or `remove` also when its call ends
without writing, because nobody is told that it has not.
-/

namespace Draht.AuthStorage
open List Option

variable {s s' : State}

def Phase.holds : Phase → Bool
  | .reading | .refreshing _ | .writing _ | .releasing _ => true
  | _ => false

def Call.holds (c : Call) : Bool := c.phase.holds

def Outcome.committed (persists : Bool) : Outcome → Bool
  | .done | .read _ => true
  | .threw _ => persists

def Phase.committed (persists : Bool) : Phase → Bool
  | .releasing outcome | .ended outcome => outcome.committed persists
  | _ => false

def Call.committed (c : Call) : Bool := c.phase.committed c.request.persists

/-- The credentials in the file, if its text can be parsed. -/
abbrev State.value (s : State) : Except AuthError AuthStorageData := parseStorageData s.content

def applyUpdate (value : Except AuthError AuthStorageData) (u : Option AuthUpdate) :
    Except AuthError AuthStorageData :=
  value.map fun data => u.elim data fun u => u.merge data

theorem applyUpdate_none (value : Except AuthError AuthStorageData) :
    applyUpdate value none = value := by
  cases value <;> rfl

/-- The credentials are what the updates that are done make of the first ones, one after another
in some order. -/
def Serialised (first : Option AuthText) (s : State) : Prop :=
  Serial applyUpdate (parseStorageData first) (updatesOf Call.committed Call.update s.calls) s.value

/-- A call that is about to write the first text of the file does so while there are no credentials
in it; `set` and `remove` are called without a load error, find a text that can be parsed, get the
lock by their last attempt, and meet no error of the file system. -/
def Undisturbed (s : State) : Action → Prop
  | .create => True
  | .call owner request => request.persists = true →
      s.storages[owner]?.all (fun a => a.loadError.isNone) = true
  | .run _ .create => s.value.toOption = some .empty
  | .run id .lock => s.lock.isSome = true → s.calls[id]?.all (fun c => !c.request.persists ||
      match c.phase with
      | .locking attempt => attempt != c.request.maxAttempts
      | _ => true) = true
  | .run id (.read _) => s.value.isOk = false →
      s.calls[id]?.all (fun c => !c.request.persists) = true
  | .run id .fail => s.calls[id]?.all (fun c => !c.request.persists) = true
  | .run _ .existsSync | .run _ (.reply _) | .run _ .write | .run _ .release => True

instance : DecidableEq AuthStorageData := fun a b =>
  decidable_of_iff (a.entries = b.entries)
    ⟨fun h => by cases a; cases b; cases h; rfl, congrArg OrderedMap.entries⟩

instance (s : State) : ∀ a, Decidable (Undisturbed s a)
  | .create | .run _ .existsSync | .run _ (.reply _) | .run _ .write | .run _ .release =>
    instDecidableTrue
  | .call owner request => inferInstanceAs (Decidable (request.persists = true →
      s.storages[owner]?.all (fun a => a.loadError.isNone) = true))
  | .run _ .create => inferInstanceAs (Decidable (s.value.toOption = some OrderedMap.empty))
  | .run id .lock => inferInstanceAs (Decidable (s.lock.isSome = true →
      s.calls[id]?.all (fun c => !c.request.persists ||
        match c.phase with
        | .locking attempt => attempt != c.request.maxAttempts
        | _ => true) = true))
  | .run id (.read _) => inferInstanceAs (Decidable (s.value.isOk = false →
      s.calls[id]?.all (fun c => !c.request.persists) = true))
  | .run id .fail =>
    inferInstanceAs (Decidable (s.calls[id]?.all (fun c => !c.request.persists) = true))

def Phase.early : Phase → Bool
  | .checking | .creating | .locking _ | .reading | .refreshing _ => true
  | _ => false

/-- What the call is going to write is made from the credentials that the file has at that time. -/
def Call.Current (value : Except AuthError AuthStorageData) (c : Call) : Prop :=
  match c.phase with
  | .refreshing currentData => value = .ok currentData
  | .writing merged => applyUpdate value c.update = .ok merged
  | _ => True

structure AuthInvariant (first : Option AuthText) (s : State) : Prop where
  lock : LockOwner Call.holds s.calls s.lock
  early : ∀ (id : ℕ) (c : Call), s.calls[id]? = some c → c.phase.early = true → c.refreshed = none
  current : ∀ (id : ℕ) (c : Call), s.calls[id]? = some c → c.Current s.value
  serial : Serialised first s

theorem authInvariant_initial (content : Option AuthText) :
    AuthInvariant content (initial content) :=
  ⟨.start, by simp [initial], by simp [initial], .nil⟩

variable {c : Call} {first : Option AuthText} {id : ℕ}

theorem Call.current_of_not_holds {value : Except AuthError AuthStorageData}
    (h : c.holds = false) : c.Current value := by
  unfold Call.Current
  cases hphase : c.phase with
  | refreshing | writing =>
    rw [Call.holds, hphase] at h
    cases h
  | _ => trivial

theorem Call.update_of_early (hrefreshed : c.refreshed = none)
    (hpersists : c.request.persists = false) : c.update = none := by
  unfold Call.update
  cases hrequest : c.request with
  | reload => rfl
  | refreshOAuthTokenWithLock providerId =>
    rw [hrefreshed]
    rfl
  | set | remove =>
    rw [hrequest] at hpersists
    cases hpersists

variable {f : Call → Call}

theorem AuthInvariant.modify (h : AuthInvariant first s) (hc : s.calls[id]? = some c)
    (hcalls : s'.calls = s.calls.modify id f)
    (hlock : LockOwner Call.holds (s.calls.modify id f) s'.lock)
    (hearly : (f c).phase.early = true → (f c).refreshed = none) (hcurrent : (f c).Current s'.value)
    (hvalue : s'.value = s.value ∨ c.holds = true) (hserial : Serialised first s') :
    AuthInvariant first s' := by
  refine ⟨hcalls ▸ hlock, ?_, ?_, hserial⟩
  · intro j d hd hd'
    rw [hcalls] at hd
    obtain ⟨d₀, hd₀, rfl⟩ := LockOwner.getElem?_modify_eq_some.mp hd
    split_ifs at hd' ⊢ with hid
    · subst hid
      obtain rfl := some.inj (hc.symm.trans hd₀)
      exact hearly hd'
    · exact h.early j d₀ hd₀ hd'
  · intro j d hd
    rw [hcalls] at hd
    obtain ⟨d₀, hd₀, rfl⟩ := LockOwner.getElem?_modify_eq_some.mp hd
    split_ifs with hid
    · subst hid
      obtain rfl := some.inj (hc.symm.trans hd₀)
      exact hcurrent
    · obtain hvalue | hholds := hvalue
      · rw [hvalue]
        exact h.current j d₀ hd₀
      · -- only one call is in its critical section
        refine Call.current_of_not_holds (Bool.eq_false_iff.mpr fun hd₀' => ?_)
        exact absurd (h.lock.unique hc hholds hd₀ hd₀').symm hid

theorem serialised_move (h : Serialised first s) (hc : s.calls[id]? = some c)
    (hcalls : s'.calls = s.calls.modify id f) (hcommitted : (f c).committed = c.committed)
    (hupdate : c.committed = true → (f c).update = c.update) (hvalue : s'.value = s.value) :
    Serialised first s' := by
  have hsame : updatesOf Call.committed Call.update s'.calls =
      updatesOf Call.committed Call.update s.calls := by
    rw [hcalls]
    exact updatesOf_modify hc hcommitted hupdate
  unfold Serialised
  rw [hvalue]
  exact h.perm (Perm.of_eq hsame)

theorem serialised_commit (h : Serialised first s) (hc : s.calls[id]? = some c)
    (hcalls : s'.calls = s.calls.modify id f) (hbefore : c.committed = false)
    (hafter : (f c).committed = true) (hvalue : s'.value = applyUpdate s.value (f c).update) :
    Serialised first s' := by
  have hperm : (updatesOf Call.committed Call.update s'.calls).Perm
      ((f c).update :: updatesOf Call.committed Call.update s.calls) := by
    rw [hcalls]
    exact updatesOf_commit hc hbefore hafter
  unfold Serialised
  rw [hvalue]
  exact (h.commit (f c).update).perm hperm

section

variable (h : AuthInvariant first s)
include h

variable {content : Option AuthText} {phase : Phase}

theorem AuthInvariant.append (storages : List Storage) (owner : ℕ) (request : Request)
    (hphase : phase.holds = false) (hcommitted : phase.committed request.persists = false) :
    AuthInvariant first ({ s with storages }.append owner request phase) := by
  refine ⟨h.lock.append hphase, ?_, ?_, ?_⟩
  · intro j d hd
    obtain hmem | hmem := mem_append.mp (mem_of_getElem? hd)
    · obtain ⟨k, hk⟩ := mem_iff_getElem?.mp hmem
      exact h.early k d hk
    · obtain rfl := mem_singleton.mp hmem
      exact fun _ => rfl
  · intro j d hd
    obtain hmem | hmem := mem_append.mp (mem_of_getElem? hd)
    · obtain ⟨k, hk⟩ := mem_iff_getElem?.mp hmem
      exact h.current k d hk
    · obtain rfl := mem_singleton.mp hmem
      exact Call.current_of_not_holds hphase
  · have hsame : updatesOf Call.committed Call.update
        (s.calls ++ [{ owner, request, phase, refreshed := none }]) =
        updatesOf Call.committed Call.update s.calls :=
      updatesOf_append hcommitted
    exact h.serial.perm (Perm.of_eq hsame)

theorem AuthInvariant.move (hc : s.calls[id]? = some c) (storages : List Storage) {lock : Option ℕ}
    (hlock : LockOwner Call.holds (s.calls.modify id fun c => { c with phase }) lock)
    (hearly : phase.early = true → c.phase.early = true)
    (hcurrent : { c with phase }.Current (parseStorageData content))
    (hvalue : parseStorageData content = s.value)
    (hcommitted : phase.committed c.request.persists = c.committed) :
    AuthInvariant first ({ s with storages, content, lock }.move id phase) :=
  h.modify hc rfl hlock (fun hnew => h.early id c hc (hearly hnew)) hcurrent (.inl hvalue)
    (serialised_move h.serial hc rfl hcommitted (fun _ => rfl) hvalue)

theorem AuthInvariant.commit (hc : s.calls[id]? = some c) (storages : List Storage)
    {outcome : Outcome} (hholds : c.holds = true) (hbefore : c.committed = false)
    (hafter : outcome.committed c.request.persists = true)
    (hvalue : parseStorageData content = applyUpdate s.value c.update) :
    AuthInvariant first ({ s with storages, content }.move id (.releasing outcome)) :=
  h.modify hc rfl (h.lock.modify hc hholds.symm) (fun hnew => absurd hnew Bool.false_ne_true)
    trivial
    (.inr hholds) (serialised_commit h.serial hc rfl hbefore hafter hvalue)

theorem AuthInvariant.callStep
    {op : Operation} (hc : s.calls[id]? = some c) (hok : Undisturbed s (.run id op))
    (hs : Stepped s id c op s') : AuthInvariant first s' := by
  have hholds : c.holds = c.phase.holds := rfl
  have hcommitted : c.committed = c.phase.committed c.request.persists := rfl
  cases hs with
  | found storages hphase hexists =>
    rw [hphase] at hholds hcommitted
    exact h.move hc storages (h.lock.modify hc hholds.symm) (by simp [hphase, Phase.early])
      trivial rfl hcommitted.symm
  | missing storages hphase =>
    rw [hphase] at hholds hcommitted
    exact h.move hc storages (h.lock.modify hc hholds.symm) (by simp [hphase, Phase.early])
      trivial rfl hcommitted.symm
  | created storages hphase =>
    rw [hphase] at hholds hcommitted
    have hvalue : s.value = .ok .empty := by
      cases hparse : s.value with
      | error e => simp [Undisturbed, hparse, Except.toOption] at hok
      | ok data =>
        simp only [Undisturbed, hparse, Except.toOption, some.injEq] at hok
        rw [hok]
    exact h.move hc storages (h.lock.modify hc hholds.symm) (by simp [hphase, Phase.early])
      trivial
      hvalue.symm hcommitted.symm
  | locked storages hphase hnone =>
    rw [hphase] at hholds hcommitted
    exact h.move hc storages (LockOwner.acquire (hnone ▸ h.lock) hc rfl)
      (by simp [hphase, Phase.early]) trivial rfl hcommitted.symm
  | retried storages hphase =>
    rw [hphase] at hholds hcommitted
    exact h.move hc storages (h.lock.modify hc hholds.symm) (by simp [hphase, Phase.early])
      trivial rfl hcommitted.symm
  | exhausted storages htaken hphase =>
    have hpersists : c.request.persists = false := by
      simpa [Undisturbed, htaken, hc, hphase] using hok
    rw [hphase] at hholds hcommitted
    exact h.move hc storages (h.lock.modify hc hholds.symm) (by simp [Phase.early]) trivial rfl
      (by rw [hcommitted, hpersists]; rfl)
  | failedUnlocked storages hphase =>
    have hpersists : c.request.persists = false := by simpa [Undisturbed, hc] using hok
    have hfree : c.holds = false ∧ c.committed = false := by
      cases hp : c.phase <;> simp_all [Phase.unlocked, Phase.holds, Phase.committed]
    exact h.move hc storages (h.lock.modify hc hfree.1.symm) (by simp [Phase.early]) trivial rfl
      (by rw [hfree.2, hpersists]; rfl)
  | reloaded storages now hphase hrequest =>
    rw [hphase] at hholds hcommitted
    have hupdate : c.update = none := by rw [Call.update, hrequest]
    exact h.commit hc storages hholds hcommitted rfl (by rw [hupdate, applyUpdate_none])
  | @malformed storages now e hphase hparse =>
    rw [hphase] at hholds hcommitted
    have hpersists : c.request.persists = false := by
      simpa [Undisturbed, hparse, hc, Except.isOk, Except.toBool] using hok
    exact h.move hc storages (h.lock.modify hc hholds.symm) (by simp [Phase.early]) trivial rfl
      (by rw [hcommitted, hpersists]; rfl)
  | @merged storages now currentData u hphase hparse hu =>
    rw [hphase] at hholds hcommitted
    have hcurrent : applyUpdate s.value c.update = .ok (u.merge currentData) := by
      rw [hu, State.value, hparse]
      rfl
    exact h.move hc storages (h.lock.modify hc hholds.symm) (by simp [Phase.early]) hcurrent rfl
      hcommitted.symm
  | unchanged storages now hphase hpersists =>
    rw [hphase] at hholds hcommitted
    have hupdate : c.update = none :=
      Call.update_of_early (h.early id c hc (by rw [hphase]; rfl)) hpersists
    exact h.commit hc storages hholds hcommitted rfl (by rw [hupdate, applyUpdate_none])
  | refreshing storages now hphase hpersists hparse =>
    rw [hphase] at hholds hcommitted
    exact h.move hc storages (h.lock.modify hc hholds.symm) (by simp [hphase, Phase.early])
      hparse rfl hcommitted.symm
  | unanswered storages hphase hpersists =>
    rw [hphase] at hholds hcommitted
    exact h.move hc storages (h.lock.modify hc hholds.symm) (by simp [Phase.early]) trivial rfl
      (by rw [hcommitted, hpersists]; rfl)
  | @answered storages currentData providerId newCredentials hphase hrequest =>
    have hvalue : s.value = .ok currentData := by
      simpa only [Call.Current, hphase] using h.current id c hc
    rw [hphase] at hholds hcommitted
    refine h.modify hc rfl (h.lock.modify hc hholds.symm)
      (fun hnew => absurd hnew Bool.false_ne_true) ?_ (.inl rfl)
      (serialised_move h.serial hc rfl hcommitted.symm ?_ rfl)
    · show applyUpdate s.value (Call.update _) = _
      rw [hvalue, Call.update, hrequest]
      rfl
    · intro hdone
      exact absurd (hcommitted.symm.trans hdone) Bool.false_ne_true
  | @wrote storages merged hphase =>
    have hvalue : applyUpdate s.value c.update = .ok merged := by
      simpa only [Call.Current, hphase] using h.current id c hc
    rw [hphase] at hholds hcommitted
    exact h.commit hc storages hholds hcommitted rfl hvalue.symm
  | failedLocked storages hphase =>
    have hpersists : c.request.persists = false := by simpa [Undisturbed, hc] using hok
    have hstanding : c.holds = true ∧ c.committed = false := by
      obtain hphase | ⟨merged, hphase⟩ := hphase <;> rw [hphase] at hholds hcommitted
      · exact ⟨hholds, hcommitted⟩
      · exact ⟨hholds, hcommitted⟩
    exact h.move hc storages (h.lock.modify hc hstanding.1.symm) (by simp [Phase.early]) trivial
      rfl
      (by rw [hstanding.2, hpersists]; rfl)
  | released storages hphase =>
    rw [hphase] at hholds hcommitted
    exact h.move hc storages (h.lock.release hc hholds rfl) (by simp [Phase.early]) trivial rfl
      hcommitted.symm

theorem AuthInvariant.startCall {owner : ℕ}
    {a : Storage} (request : Request)
    (hload : request.persists = true → a.loadError.isSome = false) :
    AuthInvariant first (startCall s owner request a) := by
  cases request with
  | reload => exact h.append s.storages owner .reload rfl rfl
  | refreshOAuthTokenWithLock providerId => exact h.append s.storages owner _ rfl rfl
  | set provider credential =>
    simp only [AuthStorage.startCall, hload rfl, Bool.false_eq_true, if_false]
    exact h.append _ owner _ rfl rfl
  | remove provider =>
    simp only [AuthStorage.startCall, hload rfl, Bool.false_eq_true, if_false]
    exact h.append _ owner _ rfl rfl

theorem AuthInvariant.step {a : Action}
    (hok : Undisturbed s a) (hs : step s a = some s') : AuthInvariant first s' := by
  cases a with
  | create =>
    cases hs
    exact h.append (s.storages ++ [Storage.new]) s.storages.length .reload rfl rfl
  | call owner request =>
    obtain ⟨a, ha, rfl⟩ := map_eq_some_iff.mp hs
    refine h.startCall request fun hpersists => ?_
    have hload := hok hpersists
    rw [ha, all_some] at hload
    rw [isSome_eq_false_iff]
    exact hload
  | run id op =>
    obtain ⟨c, hc, hs⟩ := bind_eq_some_iff.mp hs
    exact h.callStep hc hok (stepped hs)

end

/-- In a run whose steps all meet the condition, the credentials in the file are at every time what
the updates that are done make of the first ones. -/
theorem credentials_serialised {content : Option AuthText} {steps : List (Transition State Action)}
    (h : GuardedRun step Undisturbed (initial content) steps s) : Serialised content s :=
  (h.invariant (I := AuthInvariant content) (authInvariant_initial content)
    fun _ _ _ hI hok hs => hI.step hok hs).serial

/-- All operations of a call that finds the file and writes it. -/
def throughout (id : ℕ) : List Action :=
  [.run id .existsSync, .run id .lock, .run id (.read 0), .run id .write, .run id .release]

/-- All operations of a `reload` of a file that is there. -/
def reloading (id : ℕ) : List Action :=
  [.run id .existsSync, .run id .lock, .run id (.read 0), .run id .release]

def anthropicKey : AuthCredential := .apiKey "sk-ant"

def openaiKey : AuthCredential := .apiKey "sk-openai"

/-- The first process creates the file; both set a credential. -/
def setBoth : List Action :=
  [.create, .run 0 .existsSync, .run 0 .create, .run 0 .lock, .run 0 (.read 0), .run 0 .release,
    .create] ++ reloading 1 ++ [.call 0 (.set "anthropic" anthropicKey)] ++ throughout 2 ++
    [.call 1 (.set "openai" openaiKey)] ++ throughout 3

theorem credentials_serialised_setBoth :
    ∃ steps s, (GuardedRun step Undisturbed (initial none) steps s ∧
      s.value.toOption.map OrderedMap.entries =
        some [("anthropic", anthropicKey), ("openai", openaiKey)]) ∧ Serialised none s := by
  obtain ⟨steps, s, hruns, hvalue⟩ := GuardedRun.exists_of_play step Undisturbed (initial none)
    setBoth (fun _ s => s.value.toOption.map OrderedMap.entries =
      some [("anthropic", anthropicKey), ("openai", openaiKey)]) (by decide +kernel)
  exact ⟨steps, s, ⟨hruns, hvalue⟩, credentials_serialised hruns⟩

/-- The first process finds no file; before it writes the first text, the second one creates the
file and sets a credential. -/
def setDuringCreation : List Action :=
  [.create, .create, .run 0 .existsSync, .run 1 .existsSync, .run 1 .create, .run 1 .lock,
    .run 1 (.read 0), .run 1 .release, .call 1 (.set "openai" openaiKey)] ++ throughout 2 ++
    [.run 0 .create, .run 0 .lock, .run 0 (.read 0), .run 0 .release]

def Phase.hasEnded : Phase → Bool
  | .ended _ => true
  | _ => false

theorem initialisation_erases :
    ¬∀ (content : Option AuthText) (steps : List (Transition State Action)) (s : State),
      GuardedRun step (fun _ _ => True) (initial content) steps s →
        (∀ c ∈ s.calls, c.phase.hasEnded = true) → Serialised content s := by
  intro h
  obtain ⟨steps, s, hruns, hended, hlost⟩ := GuardedRun.exists_of_play step (fun _ _ => True)
    (initial none) setDuringCreation
    (fun _ s => (∀ c ∈ s.calls, c.phase.hasEnded = true) ∧
      s.value.toOption ∉ ((updatesOf Call.committed Call.update s.calls).permutations'.map
        fun order => (order.foldl applyUpdate (parseStorageData none)).toOption))
    (by decide +kernel)
  apply hlost
  obtain ⟨order, horder, hvalue⟩ := mem_map.mp (h _ _ _ hruns hended).mem_permutations'
  exact mem_map.mpr ⟨order, horder, congrArg Except.toOption hvalue⟩

end Draht.AuthStorage
