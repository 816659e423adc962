import Draht.GuardedRun

/-!
# The processes of gateway sessions

The sessions of the store and the processes that were spawned for them. An input request looks its
session up, waits for its body and only then spawns a process for the session that it holds; other
requests are handled in between.
-/

namespace Draht.GatewaySessions
open List Option

/-- The body of an input request, as `c.req.json()` and the checks after it see it. -/
inductive Body where
  | invalidJson
  | noText
  | textNotString
  | text (text : String)
deriving DecidableEq

structure Response where
  status : ℕ
  error : Option String
deriving DecidableEq

def notFound : Response := ⟨404, some "Session not found"⟩

/-- An input request that waits: for its body, or for the process that it has spawned. It holds the
session. -/
inductive Handler where
  | readingBody (session : ℕ)
  | awaitingReady (session : ℕ) (text : String)
deriving DecidableEq

/-- Sessions and processes are numbered as they are made; a session's number stands for its random
id. `sessions` are the keys of `#sessions`, and `process` is the field of each session. -/
structure Gateway where
  sessions : List ℕ
  created : ℕ
  process : ℕ → Option ℕ
  spawned : ℕ
  killed : ℕ → Bool
  stdin : ℕ → List String
  received : ℕ
  handlers : ℕ → Option Handler
  responses : ℕ → Option Response

def Gateway.initial : Gateway :=
  { sessions := [], created := 0, process := fun _ => none, spawned := 0, killed := fun _ => false
    stdin := fun _ => [], received := 0, handlers := fun _ => none, responses := fun _ => none }

/-- What happens, in any order. Spawning throws if the command is not found. -/
inductive Action where
  | create (command spawns : Bool)
  | postInput (id : ℕ)
  | body (request : ℕ) (body : Body) (spawns : Bool)
  | ready (request : ℕ)
  | delete (id : ℕ)
  | destroyAll

variable (s : Gateway)

/-- `new SessionProcess(command)`, attached to the session. -/
def spawn (session : ℕ) : Gateway :=
  { s with
    process := Function.update s.process session (some s.spawned)
    spawned := s.spawned + 1 }

/-- `manager.create`. If spawning throws, nothing is stored. -/
def create (command spawns : Bool) : Gateway :=
  if command = true ∧ spawns = false then s
  else
    let stored := { s with sessions := s.sessions ++ [s.created], created := s.created + 1 }
    if command then spawn stored s.created else stored

def kill (process : Option ℕ) : Gateway :=
  match process with
  | none => s
  | some p => { s with killed := Function.update s.killed p true }

/-- `manager.destroy`. -/
def destroy (id : ℕ) : Gateway :=
  if id ∈ s.sessions then
    { kill s (s.process id) with sessions := s.sessions.filter (· ≠ id) }
  else s

/-- `manager.destroyAll`. -/
def destroyAll : Gateway := s.sessions.foldl destroy s

def respond (request : ℕ) (response : Response) : Gateway :=
  { s with
    handlers := Function.update s.handlers request none
    responses := Function.update s.responses request (some response) }

/-- `POST /:id/input` up to `await c.req.json()`. -/
def postInput (id : ℕ) : Gateway :=
  let s' := { s with received := s.received + 1 }
  if id ∈ s.sessions then
    { s' with handlers := Function.update s.handlers s.received (some (.readingBody id)) }
  else respond s' s.received notFound

/-- `session.process.write(text)`, which ends the request. -/
def write (request session : ℕ) (text : String) : Gateway :=
  match s.process session with
  | none => s
  | some p =>
    respond { s with stdin := Function.update s.stdin p (s.stdin p ++ [text]) } request
      ⟨200, none⟩

/-- The request with its body: a session without a process gets one. -/
def resume (request session : ℕ) (spawns : Bool) : Body → Gateway
  | .invalidJson => respond s request ⟨400, some "Invalid JSON body"⟩
  | .noText => respond s request ⟨400, some "Missing 'text' field in request body"⟩
  | .textNotString => respond s request ⟨400, some "'text' must be a string"⟩
  | .text text =>
    if s.process session = none then
      if spawns then
        let spawned := spawn s session
        { spawned with
          handlers := Function.update s.handlers request (some (.awaitingReady session text)) }
      else respond s request ⟨500, some "Internal Server Error"⟩
    else write s request session text

def step : Action → Option Gateway
  | .create command spawns => some (create s command spawns)
  | .postInput id => some (postInput s id)
  | .body request body spawns =>
    match s.handlers request with
    | some (.readingBody session) => some (resume s request session spawns body)
    | _ => none
  | .ready request =>
    match s.handlers request with
    | some (.awaitingReady session text) => some (write s request session text)
    | _ => none
  | .delete id => some (destroy s id)
  | .destroyAll => some (destroyAll s)

/-- A process that was spawned and not killed belongs to a session of the store. -/
def NoOrphan : Prop :=
  ∀ p, p < s.spawned → s.killed p = false → ∃ id ∈ s.sessions, s.process id = some p

/-- No process is left over, and destroying all sessions kills every process. -/
structure OwnsProcesses : Prop where
  owned : NoOrphan s
  killsAll : ∀ p, p < s.spawned → (destroyAll s).killed p = true

/-- A handler that would spawn a process finds its session still in the store. -/
def ResumesInStore : Action → Prop
  | .body request (.text _) true =>
    ∀ session, s.handlers request = some (.readingBody session) → s.process session = none →
      session ∈ s.sessions
  | _ => True

variable {s} {s' : Gateway}

theorem NoOrphan.congr (h : NoOrphan s) (hsessions : s'.sessions = s.sessions)
    (hprocess : s'.process = s.process) (hspawned : s'.spawned = s.spawned)
    (hkilled : s'.killed = s.killed) : NoOrphan s' := by
  intro p hp halive
  rw [hspawned] at hp
  rw [hkilled] at halive
  rw [hsessions, hprocess]
  exact h p hp halive

@[simp] theorem kill_process (process : Option ℕ) : (kill s process).process = s.process := by
  cases process <;> rfl

@[simp] theorem kill_spawned (process : Option ℕ) : (kill s process).spawned = s.spawned := by
  cases process <;> rfl

@[simp] theorem kill_created (process : Option ℕ) : (kill s process).created = s.created := by
  cases process <;> rfl

@[simp] theorem kill_handlers (process : Option ℕ) : (kill s process).handlers = s.handlers := by
  cases process <;> rfl

theorem kill_killed {process : Option ℕ} {p : ℕ} :
    (kill s process).killed p = true ↔ process = some p ∨ s.killed p = true := by
  cases process with
  | none => simp [kill]
  | some q =>
    by_cases hq : p = q
    · subst hq
      simp [kill]
    · simp [kill, Function.update_of_ne hq, Ne.symm hq]

theorem NoOrphan.destroy (h : NoOrphan s) (id : ℕ) : NoOrphan (destroy s id) := by
  unfold GatewaySessions.destroy
  split_ifs with hid
  · intro p hp halive
    have hnot : ¬ (s.process id = some p ∨ s.killed p = true) := by
      intro hkilled
      have hdead : (kill s (s.process id)).killed p = true := kill_killed.mpr hkilled
      rw [show (kill s (s.process id)).killed p = false from halive] at hdead
      cases hdead
    rw [not_or] at hnot
    obtain ⟨owner, howner, hprocess⟩ :=
      h p (by simpa using hp) (Bool.eq_false_iff.mpr hnot.2)
    refine ⟨owner, mem_filter.mpr ⟨howner, ?_⟩, by simpa using hprocess⟩
    rw [decide_eq_true_eq]
    rintro rfl
    exact hnot.1 hprocess
  · exact h

theorem destroyAll_keeps {I : Gateway → Prop} (hdestroy : ∀ s id, I s → I (destroy s id))
    (h : I s) : I (destroyAll s) :=
  List.foldlRecOn (motive := I) s.sessions destroy h fun s hs id _ => hdestroy s id hs

theorem NoOrphan.destroyAll (h : NoOrphan s) : NoOrphan (destroyAll s) :=
  destroyAll_keeps (fun _ id h => h.destroy id) h

theorem destroy_sessions (id : ℕ) : (destroy s id).sessions = s.sessions.filter (· ≠ id) := by
  unfold destroy
  split_ifs with hid
  · rfl
  · rw [eq_comm, filter_eq_self]
    intro id' hid'
    rw [decide_eq_true_eq]
    rintro rfl
    exact hid hid'

@[simp] theorem destroy_spawned (id : ℕ) : (destroy s id).spawned = s.spawned := by
  unfold destroy
  split_ifs
  · exact kill_spawned _
  · rfl

theorem destroyAll_sessions (s : Gateway) : (destroyAll s).sessions = [] := by
  have hfold : ∀ (ids : List ℕ) (s : Gateway),
      (ids.foldl destroy s).sessions = s.sessions.filter (· ∉ ids) := by
    intro ids
    induction ids with
    | nil => simp
    | cons id ids ih =>
      intro s
      rw [List.foldl_cons, ih, destroy_sessions, List.filter_filter]
      exact filter_congr fun id' _ => by simp [Bool.and_comm]
  rw [destroyAll, hfold]
  simp

theorem destroyAll_spawned (s : Gateway) : (destroyAll s).spawned = s.spawned :=
  destroyAll_keeps (I := fun s' => s'.spawned = s.spawned)
    (fun _ id h => (destroy_spawned id).trans h) rfl

theorem ownsProcesses_iff : OwnsProcesses s ↔ NoOrphan s := by
  refine ⟨OwnsProcesses.owned, fun h => ⟨h, fun p hp => ?_⟩⟩
  by_contra halive
  obtain ⟨id, hid, _⟩ := h.destroyAll p (by rwa [destroyAll_spawned]) (Bool.eq_false_iff.mpr halive)
  rw [destroyAll_sessions] at hid
  cases hid

structure Numbered (s : Gateway) : Prop where
  stored : ∀ id ∈ s.sessions, id < s.created
  attached : ∀ id p, s.process id = some p → id < s.created ∧ p < s.spawned
  killed : ∀ p, s.killed p = true → p < s.spawned
  held : ∀ request session, s.handlers request = some (.readingBody session) → session < s.created

theorem Numbered.destroy (h : Numbered s) (id : ℕ) : Numbered (destroy s id) := by
  unfold GatewaySessions.destroy
  split_ifs with hid
  · refine ⟨fun id' hid' => ?_, fun id' p hp => ?_, fun p hp => ?_, fun request session hr => ?_⟩
    · rw [show (kill s (s.process id)).created = s.created from kill_created _]
      exact h.stored id' (mem_of_mem_filter hid')
    · rw [show (kill s (s.process id)).created = s.created from kill_created _,
        show (kill s (s.process id)).spawned = s.spawned from kill_spawned _]
      exact h.attached id' p (by simpa using hp)
    · rw [show (kill s (s.process id)).spawned = s.spawned from kill_spawned _]
      obtain hprocess | hkilled := kill_killed.mp hp
      · exact (h.attached id p hprocess).2
      · exact h.killed p hkilled
    · rw [show (kill s (s.process id)).created = s.created from kill_created _]
      exact h.held request session (by simpa using hr)
  · exact h

theorem Numbered.destroyAll (h : Numbered s) : Numbered (destroyAll s) :=
  destroyAll_keeps (fun _ id h => h.destroy id) h

theorem spawn_process_self (session : ℕ) :
    (spawn s session).process session = some s.spawned :=
  Function.update_self ..

variable {session : ℕ} {a : Action}

theorem spawn_process_of_ne {id : ℕ} (h : id ≠ session) :
    (spawn s session).process id = s.process id :=
  Function.update_of_ne h ..

theorem Numbered.spawn (h : Numbered s) (hsession : session < s.created) :
    Numbered (spawn s session) := by
  refine ⟨h.stored, fun id p hp => ?_, fun p hp => ?_, h.held⟩
  · by_cases hid : id = session
    · subst hid
      rw [spawn_process_self, some_inj] at hp
      exact ⟨hsession, by rw [← hp]; exact Nat.lt_succ_self _⟩
    · rw [spawn_process_of_ne hid] at hp
      obtain ⟨hcreated, hspawned⟩ := h.attached id p hp
      exact ⟨hcreated, Nat.lt_succ_of_lt hspawned⟩
  · exact Nat.lt_succ_of_lt (h.killed p hp)

theorem noOrphan_spawn_iff (hn : Numbered s) (h : NoOrphan s) (hnone : s.process session = none) :
    NoOrphan (spawn s session) ↔ session ∈ s.sessions := by
  constructor
  · intro hspawn
    have halive : s.killed s.spawned = false :=
      Bool.eq_false_iff.mpr fun hkilled => absurd (hn.killed _ hkilled) (Nat.lt_irrefl _)
    obtain ⟨id, hid, hprocess⟩ := hspawn s.spawned (Nat.lt_succ_self _) halive
    by_cases heq : id = session
    · rw [← heq]
      exact hid
    · rw [spawn_process_of_ne heq] at hprocess
      exact absurd (hn.attached id _ hprocess).2 (Nat.lt_irrefl _)
  · intro hsession p hp halive
    obtain hlt | rfl := Nat.lt_succ_iff_lt_or_eq.mp hp
    · obtain ⟨id, hid, hprocess⟩ := h p hlt halive
      have hne : id ≠ session := by
        rintro rfl
        rw [hnone] at hprocess
        cases hprocess
      exact ⟨id, hid, (spawn_process_of_ne hne).trans hprocess⟩
    · exact ⟨session, hsession, spawn_process_self session⟩

theorem Numbered.store (h : Numbered s) :
    Numbered { s with sessions := s.sessions ++ [s.created], created := s.created + 1 } := by
  refine ⟨fun id hid => ?_, fun id p hp => ?_, h.killed, fun request session hr => ?_⟩
  · obtain hid | hid := mem_append.mp hid
    · exact Nat.lt_succ_of_lt (h.stored id hid)
    · rw [mem_singleton.mp hid]
      exact Nat.lt_succ_self _
  · obtain ⟨hcreated, hspawned⟩ := h.attached id p hp
    exact ⟨Nat.lt_succ_of_lt hcreated, hspawned⟩
  · exact Nat.lt_succ_of_lt (h.held request session hr)

theorem Numbered.process_created (h : Numbered s) : s.process s.created = none := by
  cases hprocess : s.process s.created with
  | none => rfl
  | some p => exact absurd (h.attached _ p hprocess).1 (Nat.lt_irrefl _)

theorem Numbered.create (h : Numbered s) (command spawns : Bool) :
    Numbered (create s command spawns) := by
  unfold GatewaySessions.create
  split_ifs
  · exact h
  · exact h.store.spawn (Nat.lt_succ_self _)
  · exact h.store

theorem NoOrphan.create (h : NoOrphan s) (hn : Numbered s) (command spawns : Bool) :
    NoOrphan (create s command spawns) := by
  have hstored : NoOrphan
      { s with sessions := s.sessions ++ [s.created], created := s.created + 1 } := by
    intro p hp halive
    obtain ⟨id, hid, hprocess⟩ := h p hp halive
    exact ⟨id, mem_append_left _ hid, hprocess⟩
  unfold GatewaySessions.create
  split_ifs
  · exact h
  · exact (noOrphan_spawn_iff hn.store hstored hn.process_created).mpr (by simp)
  · exact hstored

theorem Numbered.respond (h : Numbered s) (request : ℕ) (response : Response) :
    Numbered (respond s request response) := by
  refine ⟨h.stored, h.attached, h.killed, fun request' session hr => ?_⟩
  by_cases heq : request' = request
  · subst heq
    simp [GatewaySessions.respond] at hr
  · simp only [GatewaySessions.respond, Function.update_of_ne heq] at hr
    exact h.held request' session hr

theorem Numbered.write (h : Numbered s) (request session : ℕ) (text : String) :
    Numbered (write s request session text) := by
  unfold GatewaySessions.write
  split
  · exact h
  · next p _ =>
      have hwritten : Numbered
          { s with stdin := Function.update s.stdin p (s.stdin p ++ [text]) } :=
        ⟨h.stored, h.attached, h.killed, h.held⟩
      exact hwritten.respond request _

theorem NoOrphan.write (h : NoOrphan s) (request session : ℕ) (text : String) :
    NoOrphan (write s request session text) := by
  unfold GatewaySessions.write
  split
  · exact h
  · exact h.congr rfl rfl rfl rfl

theorem Numbered.postInput (h : Numbered s) (id : ℕ) : Numbered (postInput s id) := by
  unfold GatewaySessions.postInput
  split_ifs with hid
  · refine ⟨h.stored, h.attached, h.killed, fun request session hr => ?_⟩
    by_cases heq : request = s.received
    · subst heq
      simp only [Function.update_self, some_inj, Handler.readingBody.injEq] at hr
      rw [← hr]
      exact h.stored id hid
    · simp only [Function.update_of_ne heq] at hr
      exact h.held request session hr
  · have hreceived : Numbered { s with received := s.received + 1 } :=
      ⟨h.stored, h.attached, h.killed, h.held⟩
    exact hreceived.respond s.received _

theorem Numbered.resume (h : Numbered s) {request : ℕ} (hsession : session < s.created)
    (spawns : Bool) (body : Body) : Numbered (resume s request session spawns body) := by
  cases body with
  | invalidJson | noText | textNotString => exact h.respond request _
  | text text =>
    rw [GatewaySessions.resume]
    split_ifs
    · obtain ⟨hstored, hattached, hkilled, hheld⟩ := h.spawn hsession
      refine ⟨hstored, hattached, hkilled, fun request' session' hr => ?_⟩
      by_cases heq : request' = request
      · subst heq
        simp at hr
      · simp only [Function.update_of_ne heq] at hr
        exact h.held request' session' hr
    · exact h.respond request _
    · exact h.write request session text

theorem Numbered.step (h : Numbered s) (hs : step s a = some s') : Numbered s' := by
  cases a with
  | create command spawns =>
    cases hs
    exact h.create command spawns
  | postInput id =>
    cases hs
    exact h.postInput id
  | body request body spawns =>
    rw [GatewaySessions.step] at hs
    split at hs
    · next session hhandler =>
        cases hs
        exact h.resume (h.held request session hhandler) spawns body
    · cases hs
  | ready request =>
    rw [GatewaySessions.step] at hs
    split at hs
    · cases hs
      exact h.write _ _ _
    · cases hs
  | delete id =>
    cases hs
    exact h.destroy id
  | destroyAll =>
    cases hs
    exact h.destroyAll

theorem noOrphan_step_iff (hn : Numbered s) (h : NoOrphan s) (hs : step s a = some s') :
    NoOrphan s' ↔ ResumesInStore s a := by
  cases a with
  | create command spawns =>
    cases hs
    exact iff_of_true (h.create hn command spawns) trivial
  | postInput id =>
    cases hs
    refine iff_of_true ?_ trivial
    unfold postInput
    split_ifs <;> exact h.congr rfl rfl rfl rfl
  | body request body spawns =>
    rw [step] at hs
    split at hs
    · next session hhandler =>
        cases hs
        cases body with
        | invalidJson | noText | textNotString =>
          exact iff_of_true (h.congr rfl rfl rfl rfl) trivial
        | text text =>
          rw [resume]
          split_ifs with hnone hspawns
          · subst hspawns
            have hiff := noOrphan_spawn_iff hn h hnone
            constructor
            · intro hspawned session' hhandler' _
              rw [hhandler, some_inj, Handler.readingBody.injEq] at hhandler'
              rw [← hhandler']
              exact hiff.mp (hspawned.congr rfl rfl rfl rfl)
            · intro hresumes
              exact (hiff.mpr (hresumes session hhandler hnone)).congr rfl rfl rfl rfl
          · rw [Bool.not_eq_true] at hspawns
            subst hspawns
            exact iff_of_true (h.congr rfl rfl rfl rfl) trivial
          · refine iff_of_true (h.write request session text) ?_
            cases spawns with
            | false => trivial
            | true =>
              intro session' hhandler' hnone'
              rw [hhandler, some_inj, Handler.readingBody.injEq] at hhandler'
              rw [← hhandler'] at hnone'
              exact absurd hnone' hnone
    · cases hs
  | ready request =>
    rw [step] at hs
    split at hs
    · cases hs
      exact iff_of_true (h.write _ _ _) trivial
    · cases hs
  | delete id =>
    cases hs
    exact iff_of_true (h.destroy id) trivial
  | destroyAll =>
    cases hs
    exact iff_of_true h.destroyAll trivial

theorem numbered_initial : Numbered Gateway.initial := by
  refine ⟨?_, ?_, ?_, ?_⟩ <;> simp [Gateway.initial]

/-- In a run no process is ever left over exactly if every handler that spawns one finds its
session still in the store. -/
theorem ownsProcesses_run_iff {steps : List (Transition Gateway Action)}
    (h : GuardedRun step (fun _ _ => True) Gateway.initial steps s) :
    (∀ t ∈ steps, OwnsProcesses t.after) ↔ ∀ t ∈ steps, ResumesInStore t.before t.action := by
  have hrun : Numbered s ∧ ((∀ t ∈ steps, OwnsProcesses t.after) → NoOrphan s) ∧
      ((∀ t ∈ steps, OwnsProcesses t.after) ↔ ∀ t ∈ steps, ResumesInStore t.before t.action) := by
    refine h.induct (P := fun steps s => Numbered s ∧
      ((∀ t ∈ steps, OwnsProcesses t.after) → NoOrphan s) ∧
      ((∀ t ∈ steps, OwnsProcesses t.after) ↔ ∀ t ∈ steps, ResumesInStore t.before t.action)) ?_ ?_
    · exact ⟨numbered_initial, fun _ p hp => absurd hp (Nat.not_lt_zero p), by simp⟩
    · rintro steps s a s' ⟨hn, howns, hiff⟩ _ hs
      refine ⟨hn.step hs, fun hall => ?_, ?_⟩
      · exact (hall ⟨s, a, s'⟩ (by simp)).owned
      · simp only [mem_append, mem_singleton, or_imp, forall_and, forall_eq]
        rw [← hiff, ownsProcesses_iff]
        exact and_congr_right fun hbefore => noOrphan_step_iff hn (howns hbefore) hs
  exact hrun.2.2

def firstInput : List Action :=
  [.create false true, .postInput 0, .body 0 (.text "hi") true, .ready 0]

theorem ownsProcesses_firstInput : ∃ steps s,
    (GuardedRun step (fun _ _ => True) Gateway.initial steps s ∧ s.stdin 0 = ["hi"]) ∧
      ((∀ t ∈ steps, OwnsProcesses t.after) ↔
        ∀ t ∈ steps, ResumesInStore t.before t.action) := by
  obtain ⟨steps, s, hruns, hstdin⟩ := GuardedRun.exists_of_play step (fun _ _ => True)
    Gateway.initial firstInput (fun _ s => s.stdin 0 = ["hi"]) (by decide)
  exact ⟨steps, s, ⟨hruns, hstdin⟩, ownsProcesses_run_iff hruns⟩

/-- The session is deleted while the request waits for its body. -/
def deletedMeanwhile : List Action :=
  [.create false true, .postInput 0, .delete 0, .body 0 (.text "hi") true]

/-- The process is spawned for a session that no store knows. -/
theorem deletedMeanwhile_orphan :
    ¬ ∀ steps s, GuardedRun step (fun _ _ => True) Gateway.initial steps s →
      ∀ t ∈ steps, OwnsProcesses t.after := by
  intro hclaim
  obtain ⟨steps, s, hruns, horphan⟩ := GuardedRun.exists_of_play step (fun _ _ => True)
    Gateway.initial deletedMeanwhile (fun steps _ => (steps.any fun t =>
      t.after.spawned = 1 ∧ t.after.sessions = [] ∧ t.after.killed 0 = false) = true) (by decide)
  obtain ⟨t, ht, hstate⟩ := any_eq_true.mp horphan
  obtain ⟨hspawned, hsessions, halive⟩ := of_decide_eq_true hstate
  obtain ⟨id, hid, _⟩ := (hclaim steps s hruns t ht).owned 0 (by omega) halive
  rw [hsessions] at hid
  cases hid

end Draht.GatewaySessions
