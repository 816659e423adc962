import Draht.OrderedMap

/-!
# The credential file

Calls of `AuthStorage` on one auth file, from any number of processes, each with its own storage.
Every call first makes sure that there is a file, without the lock; it reads and writes under the
lock. A refresh keeps the lock while it waits for the provider.
-/

namespace Draht.AuthStorage
open Option

structure OAuthCredentials where
  refresh : String
  access : String
  expires : ℕ
deriving DecidableEq

inductive AuthCredential where
  | apiKey (key : String)
  | oauth (credentials : OAuthCredentials)
deriving DecidableEq

abbrev AuthStorageData := OrderedMap String AuthCredential

/-- What can be in the file: nothing, the text of an object, or text that `JSON.parse` refuses. -/
inductive AuthText where
  | empty
  | json (data : AuthStorageData)
  | malformed

inductive AuthError where
  | locked | fileSystem | invalidJson | provider
deriving DecidableEq

def parseStorageData : Option AuthText → Except AuthError AuthStorageData
  | none | some .empty => .ok .empty
  | some (.json data) => .ok data
  | some .malformed => .error .invalidJson

/-- What one process keeps. -/
structure Storage where
  data : AuthStorageData
  loadError : Option AuthError
  errors : List AuthError

def Storage.new : Storage := { data := .empty, loadError := none, errors := [] }

def Storage.recordError (a : Storage) (e : AuthError) : Storage :=
  { a with errors := a.errors ++ [e] }

def Storage.loaded (a : Storage) (data : AuthStorageData) : Storage :=
  { a with data, loadError := none }

def Storage.loadFailed (a : Storage) (e : AuthError) : Storage :=
  { a with loadError := some e }.recordError e

inductive Request where
  | reload
  | set (provider : String) (credential : AuthCredential)
  | remove (provider : String)
  | refreshOAuthTokenWithLock (providerId : String)

/-- `set` and `remove` go through `persistProviderChange`, which keeps its errors to itself. -/
def Request.persists : Request → Bool
  | .set .. | .remove _ => true
  | _ => false

/-- How a call of `withLock` or `withLockAsync` ends; `read` is what `reload` takes from it. -/
inductive Outcome where
  | done
  | read (content : Option AuthText)
  | threw (e : AuthError)

/-- Where a call is: in `ensureFileExists`, before `existsSync` and before the first write; at an
attempt to lock; at `readFileSync`; waiting for the provider; at `writeFileSync`; at `release`; and
at its end. -/
inductive Phase where
  | checking
  | creating
  | locking (attempt : ℕ)
  | reading
  | refreshing (currentData : AuthStorageData)
  | writing (merged : AuthStorageData)
  | releasing (outcome : Outcome)
  | ended (outcome : Outcome)

/-- `refreshed` is what the provider has answered to a refresh. -/
structure Call where
  owner : ℕ
  request : Request
  phase : Phase
  refreshed : Option OAuthCredentials

structure State where
  content : Option AuthText
  lock : Option ℕ
  storages : List Storage
  calls : List Call

def initial (content : Option AuthText) : State :=
  { content, lock := none, storages := [], calls := [] }

/-- What a call does next. `read` knows the time; `reply` is what the provider answers, if it does
not throw; `fail` is an error of the file system. -/
inductive Operation where
  | existsSync | create | lock
  | read (now : ℕ)
  | reply (refreshed : Option OAuthCredentials)
  | write | release | fail

/-- A new storage, a call, or the next operation of a call, by its place in the order of the
calls. -/
inductive Action where
  | create
  | call (owner : ℕ) (request : Request)
  | run (id : ℕ) (op : Operation)

/-- What a call changes: the credential of a provider, which it sets or deletes. -/
structure AuthUpdate where
  provider : String
  credential : Option AuthCredential

/-- The new data that `persistProviderChange` and the refresh write. -/
def AuthUpdate.merge (u : AuthUpdate) (currentData : AuthStorageData) : AuthStorageData :=
  match u.credential with
  | some credential => currentData.set u.provider credential
  | none => currentData.delete u.provider

def Call.update (c : Call) : Option AuthUpdate :=
  match c.request with
  | .reload => none
  | .set provider credential => some ⟨provider, some credential⟩
  | .remove provider => some ⟨provider, none⟩
  | .refreshOAuthTokenWithLock providerId =>
    c.refreshed.map fun credentials => ⟨providerId, some (.oauth credentials)⟩

def State.move (s : State) (id : ℕ) (phase : Phase) : State :=
  { s with calls := s.calls.modify id (fun c => { c with phase }) }

def State.onStorage (s : State) (owner : ℕ) (f : Storage → Storage) : State :=
  { s with storages := s.storages.modify owner f }

/-- The synchronous lock is tried ten times, the asynchronous one once and ten times again. -/
def Request.maxAttempts : Request → ℕ
  | .refreshOAuthTokenWithLock _ => 11
  | _ => 10

def Storage.caught (a : Storage) (request : Request) (e : AuthError) : Storage :=
  match request with
  | .reload => a.loadFailed e
  | _ => a.recordError e

/-- The end of a call: `reload` takes what it has read, and errors are recorded. -/
def Storage.finish (a : Storage) (request : Request) : Outcome → Storage
  | .done => a
  | .read content =>
    match parseStorageData content with
    | .ok data => a.loaded data
    | .error e => a.loadFailed e
  | .threw e => a.caught request e

def State.finish (s : State) (id : ℕ) (c : Call) (outcome : Outcome) : State :=
  (s.onStorage c.owner fun a => a.finish c.request outcome).move id (.ended outcome)

def tryLock (s : State) (id : ℕ) (c : Call) (attempt : ℕ) : State :=
  match s.lock with
  | none => { s with lock := some id }.move id .reading
  | some _ =>
    if attempt = c.request.maxAttempts then s.finish id c (.threw .locked)
    else s.move id (.locking (attempt + 1))

def afterRead (s : State) (id : ℕ) (c : Call) (now : ℕ) : State :=
  match c.request, parseStorageData s.content with
  | .reload, _ => s.move id (.releasing (.read s.content))
  | _, .error e => s.move id (.releasing (.threw e))
  | .set provider credential, .ok currentData =>
    s.move id (.writing (AuthUpdate.merge ⟨provider, some credential⟩ currentData))
  | .remove provider, .ok currentData =>
    s.move id (.writing (AuthUpdate.merge ⟨provider, none⟩ currentData))
  | .refreshOAuthTokenWithLock providerId, .ok currentData =>
    (s.onStorage c.owner fun a => a.loaded currentData).move id
      (match currentData.get providerId with
      | some (.oauth cred) =>
        if now < cred.expires then .releasing .done else .refreshing currentData
      | _ => .releasing .done)

def afterReply (s : State) (id : ℕ) (c : Call) (providerId : String)
    (currentData : AuthStorageData) : Option OAuthCredentials → State
  | none => s.move id (.releasing (.threw .provider))
  | some newCredentials =>
    let merged := AuthUpdate.merge ⟨providerId, some (.oauth newCredentials)⟩ currentData
    { s.onStorage c.owner (fun a => a.loaded merged) with
      calls := s.calls.modify id (fun c =>
        { c with phase := .writing merged, refreshed := some newCredentials }) }

def callStep (s : State) (id : ℕ) (c : Call) (op : Operation) : Option State :=
  match op, c.phase with
  | .existsSync, .checking => some (s.move id (if s.content.isSome then .locking 1 else .creating))
  | .create, .creating => some ({ s with content := some (.json .empty) }.move id (.locking 1))
  | .lock, .locking attempt => some (tryLock s id c attempt)
  | .read now, .reading => some (afterRead s id c now)
  | .reply refreshed, .refreshing currentData =>
    match c.request with
    | .refreshOAuthTokenWithLock providerId =>
      some (afterReply s id c providerId currentData refreshed)
    | _ => none
  | .write, .writing merged =>
    some ({ s with content := some (.json merged) }.move id (.releasing .done))
  | .release, .releasing outcome => some ({ s with lock := none }.finish id c outcome)
  | .fail, .checking | .fail, .creating | .fail, .locking _ =>
    some (s.finish id c (.threw .fileSystem))
  | .fail, .reading | .fail, .writing _ => some (s.move id (.releasing (.threw .fileSystem)))
  | _, _ => none

def State.append (s : State) (owner : ℕ) (request : Request) (phase : Phase) : State :=
  { s with calls := s.calls ++ [{ owner, request, phase, refreshed := none }] }

/-- `set` and `remove` change the data of the process, and nothing else if it has a load error. -/
def startCall (s : State) (owner : ℕ) (request : Request) (a : Storage) : State :=
  match request with
  | .set provider credential =>
    (s.onStorage owner fun a => { a with data := a.data.set provider credential }).append owner
      request (if a.loadError.isSome then .ended .done else .checking)
  | .remove provider =>
    (s.onStorage owner fun a => { a with data := a.data.delete provider }).append owner
      request (if a.loadError.isSome then .ended .done else .checking)
  | _ => s.append owner request .checking

def step (s : State) : Action → Option State
  | .create =>
    some ({ s with storages := s.storages ++ [Storage.new] }.append s.storages.length .reload
      .checking)
  | .call owner request => s.storages[owner]?.map (startCall s owner request)
  | .run id op => s.calls[id]?.bind fun c => callStep s id c op

variable {s s' : State}

/-- A call at its first operations, before it has the lock. -/
def Phase.unlocked : Phase → Bool
  | .checking | .creating | .locking _ => true
  | _ => false

/-- What the operations of a call do; `storages` is what the processes keep. -/
inductive Stepped (s : State) (id : ℕ) (c : Call) : Operation → State → Prop
  | found (storages : List Storage) : c.phase = .checking → s.content.isSome = true →
      Stepped s id c .existsSync ({ s with storages }.move id (.locking 1))
  | missing (storages : List Storage) : c.phase = .checking →
      Stepped s id c .existsSync ({ s with storages }.move id .creating)
  | created (storages : List Storage) : c.phase = .creating →
      Stepped s id c .create
        ({ s with storages, content := some (.json .empty) }.move id (.locking 1))
  | locked (storages : List Storage) {attempt : ℕ} : c.phase = .locking attempt → s.lock = none →
      Stepped s id c .lock ({ s with storages, lock := some id }.move id .reading)
  | retried (storages : List Storage) {attempt : ℕ} : c.phase = .locking attempt →
      Stepped s id c .lock ({ s with storages }.move id (.locking (attempt + 1)))
  | exhausted (storages : List Storage) {e : AuthError} : s.lock.isSome = true →
      c.phase = .locking c.request.maxAttempts →
      Stepped s id c .lock ({ s with storages }.move id (.ended (.threw e)))
  | failedUnlocked (storages : List Storage) {e : AuthError} : c.phase.unlocked = true →
      Stepped s id c .fail ({ s with storages }.move id (.ended (.threw e)))
  | reloaded (storages : List Storage) (now : ℕ) : c.phase = .reading → c.request = .reload →
      Stepped s id c (.read now) ({ s with storages }.move id (.releasing (.read s.content)))
  | malformed (storages : List Storage) (now : ℕ) {e : AuthError} : c.phase = .reading →
      parseStorageData s.content = .error e →
      Stepped s id c (.read now) ({ s with storages }.move id (.releasing (.threw e)))
  | merged (storages : List Storage) (now : ℕ) {currentData : AuthStorageData} {u : AuthUpdate} :
      c.phase = .reading → parseStorageData s.content = .ok currentData → c.update = some u →
      Stepped s id c (.read now) ({ s with storages }.move id (.writing (u.merge currentData)))
  | unchanged (storages : List Storage) (now : ℕ) : c.phase = .reading →
      c.request.persists = false →
      Stepped s id c (.read now) ({ s with storages }.move id (.releasing .done))
  | refreshing (storages : List Storage) (now : ℕ) {currentData : AuthStorageData} :
      c.phase = .reading → c.request.persists = false →
      parseStorageData s.content = .ok currentData →
      Stepped s id c (.read now) ({ s with storages }.move id (.refreshing currentData))
  | unanswered (storages : List Storage) {currentData : AuthStorageData} {e : AuthError} :
      c.phase = .refreshing currentData → c.request.persists = false →
      Stepped s id c (.reply none) ({ s with storages }.move id (.releasing (.threw e)))
  | answered (storages : List Storage) {currentData : AuthStorageData} {providerId : String}
      (newCredentials : OAuthCredentials) :
      c.phase = .refreshing currentData → c.request = .refreshOAuthTokenWithLock providerId →
      Stepped s id c (.reply (some newCredentials))
        { s with
          storages
          calls := s.calls.modify id (fun c =>
            { c with
              phase := .writing
                (AuthUpdate.merge ⟨providerId, some (.oauth newCredentials)⟩ currentData)
              refreshed := some newCredentials }) }
  | wrote (storages : List Storage) {merged : AuthStorageData} : c.phase = .writing merged →
      Stepped s id c .write
        ({ s with storages, content := some (.json merged) }.move id (.releasing .done))
  | failedLocked (storages : List Storage) {e : AuthError} :
      (c.phase = .reading ∨ ∃ merged, c.phase = .writing merged) →
      Stepped s id c .fail ({ s with storages }.move id (.releasing (.threw e)))
  | released (storages : List Storage) {outcome : Outcome} : c.phase = .releasing outcome →
      Stepped s id c .release ({ s with storages, lock := none }.move id (.ended outcome))

theorem stepped_read {id : ℕ} {c : Call} (hphase : c.phase = .reading) (now : ℕ) :
    Stepped s id c (.read now) (afterRead s id c now) := by
  unfold afterRead
  cases hrequest : c.request with
  | reload => exact .reloaded s.storages now hphase hrequest
  | set provider credential =>
    cases hparse : parseStorageData s.content with
    | error e => exact .malformed s.storages now hphase hparse
    | ok currentData =>
      have hu : c.update = some ⟨provider, some credential⟩ := by rw [Call.update, hrequest]
      exact .merged s.storages now hphase hparse hu
  | remove provider =>
    cases hparse : parseStorageData s.content with
    | error e => exact .malformed s.storages now hphase hparse
    | ok currentData =>
      have hu : c.update = some ⟨provider, none⟩ := by rw [Call.update, hrequest]
      exact .merged s.storages now hphase hparse hu
  | refreshOAuthTokenWithLock providerId =>
    have hpersists : c.request.persists = false := by
      rw [hrequest]
      rfl
    cases hparse : parseStorageData s.content with
    | error e => exact .malformed s.storages now hphase hparse
    | ok currentData =>
      dsimp only
      split
      · split_ifs
        · exact .unchanged _ now hphase hpersists
        · exact .refreshing _ now hphase hpersists hparse
      · exact .unchanged _ now hphase hpersists

theorem stepped {id : ℕ} {c : Call} {op : Operation} (hs : callStep s id c op = some s') :
    Stepped s id c op s' := by
  cases op with
  | existsSync =>
    cases hphase : c.phase <;> simp only [callStep, hphase, reduceCtorEq] at hs
    cases hs
    split_ifs with hexists
    · exact .found s.storages hphase hexists
    · exact .missing s.storages hphase
  | create =>
    cases hphase : c.phase <;> simp only [callStep, hphase, reduceCtorEq] at hs
    cases hs
    exact .created s.storages hphase
  | lock =>
    cases hphase : c.phase <;> simp only [callStep, hphase, reduceCtorEq, tryLock] at hs
    cases hs
    cases hlock : s.lock with
    | none => exact .locked s.storages hphase hlock
    | some owner =>
      split_ifs with hattempt
      · rw [hattempt] at hphase
        have htaken : s.lock.isSome = true := by rw [hlock, isSome_some]
        exact .exhausted _ htaken hphase
      · exact .retried s.storages hphase
  | read now =>
    cases hphase : c.phase <;> simp only [callStep, hphase, reduceCtorEq] at hs
    cases hs
    exact stepped_read hphase now
  | reply refreshed =>
    cases hphase : c.phase <;> simp only [callStep, hphase, reduceCtorEq] at hs
    split at hs
    · rename_i providerId hrequest
      cases hs
      cases refreshed with
      | none =>
        refine .unanswered s.storages hphase ?_
        rw [hrequest]
        rfl
      | some newCredentials => exact .answered _ newCredentials hphase hrequest
    · cases hs
  | write =>
    cases hphase : c.phase <;> simp only [callStep, hphase, reduceCtorEq] at hs
    cases hs
    exact .wrote s.storages hphase
  | release =>
    cases hphase : c.phase <;> simp only [callStep, hphase, reduceCtorEq] at hs
    cases hs
    exact .released _ hphase
  | fail =>
    cases hphase : c.phase <;> simp only [callStep, hphase, reduceCtorEq] at hs <;>
      obtain rfl := some.inj hs
    case checking | creating | locking => exact .failedUnlocked _ (by rw [hphase]; rfl)
    case reading => exact .failedLocked s.storages (.inl hphase)
    case writing merged => exact .failedLocked s.storages (.inr ⟨merged, hphase⟩)

end Draht.AuthStorage
