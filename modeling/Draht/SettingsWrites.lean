import Draht.GuardedRun
import Draht.SettingsManager

/-!
# Settings that are written

What the setters have set reaches the file with the write that the last of them has queued, and no
write changes anything else, as long as no write fails whose changes have lost their marks.
-/

namespace Draht.SettingsManager
open List Option

theorem get_assign (s : Settings) (m : Modification) (k : Key) :
    (s.assign m).get k = if m.key = k then m.value else s.get k := by
  cases m with
  | field name value =>
    cases k with
    | field name' =>
      by_cases h : name = name'
      · subst h
        simp [Settings.assign, Settings.setField, Settings.get, Modification.key,
          Modification.value]
      · have h' : name' ≠ name := fun he => h he.symm
        simp [Settings.assign, Settings.setField, Settings.get, Modification.key, h, h']
    | nestedKey => simp [Settings.assign, Settings.setField, Settings.get, Modification.key]
  | nestedKey field key value =>
    cases k with
    | field => simp [Settings.assign, Settings.setNested, Settings.get, Modification.key]
    | nestedKey field' key' =>
      by_cases hf : field = field'
      · subst hf
        by_cases hk : key = key'
        · subst hk
          simp [Settings.assign, Settings.setNested, Settings.get, Modification.key,
            Modification.value]
        · have hk' : key' ≠ key := fun he => hk he.symm
          cases hs : s.nested field <;>
            simp [Settings.assign, Settings.setNested, Settings.get, Modification.key, hk, hk', hs]
      · have hf' : field' ≠ field := fun he => hf he.symm
        simp [Settings.assign, Settings.setNested, Settings.get, Modification.key, hf, hf']

def lastValue (k : Key) : List Modification → Option (Option Json)
  | [] => none
  | m :: modifications =>
    (lastValue k modifications).or (if m.key = k then some m.value else none)

theorem get_foldl_assign (s : Settings) (k : Key) (modifications : List Modification) :
    (modifications.foldl Settings.assign s).get k =
      (lastValue k modifications).getD (s.get k) := by
  induction modifications generalizing s with
  | nil => rfl
  | cons m modifications ih =>
    rw [foldl_cons, ih, get_assign, lastValue]
    cases lastValue k modifications with
    | some v => rfl
    | none => split_ifs <;> rfl

theorem mergeNested_apply (baseNested inMemoryNested : String → Option Json) (keys : List String)
    (key : String) : mergeNested baseNested inMemoryNested keys key =
      if key ∈ keys then inMemoryNested key else baseNested key := by
  unfold mergeNested
  induction keys generalizing baseNested with
  | nil => rfl
  | cons k keys ih =>
    rw [foldl_cons, ih]
    by_cases hmem : key ∈ keys
    · simp [hmem]
    · by_cases hk : key = k
      · subst hk
        simp [hmem]
      · simp [hmem, hk]

section Fold

variable (current snapshot : Settings) (m : Marks)

theorem field_foldl_mergeField (fields : List Field) (merged : Settings) (name : String) :
    (fields.foldl (mergeField current snapshot m) merged).field name =
      if .plain name ∈ fields then snapshot.field name else merged.field name := by
  induction fields generalizing merged with
  | nil => rfl
  | cons field fields ih =>
    rw [foldl_cons, ih]
    by_cases hmem : .plain name ∈ fields
    · simp [hmem]
    · cases field with
      | plain name' =>
        by_cases hname : name = name'
        · subst hname
          simp [hmem, mergeField, Settings.setField]
        · simp [hmem, hname, mergeField, Settings.setField]
      | nested field => simp [hmem, mergeField, Settings.setNested]

theorem nested_foldl_mergeField (fields : List Field) (merged : Settings) (field : NestedField) :
    (fields.foldl (mergeField current snapshot m) merged).nested field =
      if .nested field ∈ fields then mergedValue current snapshot m field
      else merged.nested field := by
  induction fields generalizing merged with
  | nil => rfl
  | cons field' fields ih =>
    rw [foldl_cons, ih]
    by_cases hmem : .nested field ∈ fields
    · simp [hmem]
    · cases field' with
      | plain name => simp [hmem, mergeField, Settings.setField]
      | nested field' =>
        by_cases hfield : field = field'
        · subst hfield
          simp [hmem, mergeField, Settings.setNested]
        · simp [hmem, hfield, mergeField, Settings.setNested]

end Fold

def Field.key? : Field → Option Key
  | .plain name => some (.field name)
  | .nested _ => none

def Marks.keys (m : Marks) : List Key :=
  m.fields.filterMap Field.key? ++ m.nestedKeys.map fun p => .nestedKey p.1 p.2

theorem Marks.field_mem_keys {m : Marks} {name : String} :
    Key.field name ∈ m.keys ↔ Field.plain name ∈ m.fields := by
  unfold Marks.keys
  simp only [mem_append, mem_filterMap, List.mem_map, reduceCtorEq, and_false,
    exists_false, or_false]
  constructor
  · rintro ⟨field, hmem, hkey⟩
    cases field with
    | plain name' =>
      cases hkey
      exact hmem
    | nested => cases hkey
  · exact fun hmem => ⟨.plain name, hmem, rfl⟩

variable {field : NestedField} {key : String}

theorem Marks.nestedKey_mem_keys {m : Marks} :
    Key.nestedKey field key ∈ m.keys ↔ (field, key) ∈ m.nestedKeys := by
  unfold Marks.keys
  simp only [mem_append, mem_filterMap, List.mem_map]
  constructor
  · rintro (⟨field', -, hkey⟩ | ⟨p, hmem, hkey⟩)
    · cases field' <;> cases hkey
    · cases hkey
      exact hmem
  · exact fun hmem => .inr ⟨_, hmem, rfl⟩

theorem Marks.mem_keysOf {m : Marks} : key ∈ m.keysOf field ↔ (field, key) ∈ m.nestedKeys := by
  simp [Marks.keysOf]

theorem Marks.mem_keys_mark (m : Marks) (modification : Modification) (k : Key) :
    k ∈ (m.mark modification).keys ↔ k = modification.key ∨ k ∈ m.keys := by
  cases modification <;> cases k <;>
    simp [Marks.mark, Marks.field_mem_keys, Marks.nestedKey_mem_keys, Modification.key,
      mem_insert_iff]

/-- A field that holds settings is marked with at least one of its keys, and has a value. -/
structure Marks.Sound (m : Marks) (snapshot : Settings) : Prop where
  nested : ∀ field, .nested field ∈ m.fields →
    (∃ key, (field, key) ∈ m.nestedKeys) ∧ (snapshot.nested field).isSome = true
  fields : ∀ field key, (field, key) ∈ m.nestedKeys → .nested field ∈ m.fields

theorem Marks.sound_none (snapshot : Settings) : Marks.none.Sound snapshot :=
  ⟨fun _ h => absurd h (by simp [Marks.none]), fun _ _ h => absurd h (by simp [Marks.none])⟩

theorem Marks.Sound.mark {m : Marks} {s : Settings} (h : m.Sound s) (modification : Modification) :
    (m.mark modification).Sound (s.assign modification) := by
  cases modification with
  | field name value =>
    refine ⟨?_, ?_⟩
    · intro field hmem
      refine h.nested field ?_
      simpa [Marks.mark, mem_insert_iff] using hmem
    · intro field key hmem
      simpa [Marks.mark, mem_insert_iff] using h.fields field key hmem
  | nestedKey field' key' value =>
    refine ⟨?_, ?_⟩
    · intro field hmem
      by_cases hfield : field = field'
      · subst hfield
        exact ⟨⟨key', by simp [Marks.mark]⟩, by simp [Settings.assign, Settings.setNested]⟩
      · have hmem' : Field.nested field ∈ m.fields := by
          simpa [Marks.mark, mem_insert_iff, hfield] using hmem
        obtain ⟨⟨key, hkey⟩, hsome⟩ := h.nested field hmem'
        refine ⟨⟨key, ?_⟩, ?_⟩
        · simp [Marks.mark, mem_insert_iff, hkey]
        · simpa [Settings.assign, Settings.setNested, hfield] using hsome
    · intro field key hmem
      have hmem' : (field, key) = (field', key') ∨ (field, key) ∈ m.nestedKeys := by
        simpa only [Marks.mark, mem_insert_iff] using hmem
      obtain heq | hmem' := hmem'
      · cases heq
        simp [Marks.mark]
      · simp [Marks.mark, mem_insert_iff, h.fields field key hmem']

theorem Marks.Sound.foldl {m : Marks} {s : Settings} (h : m.Sound s)
    (modifications : List Modification) :
    (modifications.foldl Marks.mark m).Sound (modifications.foldl Settings.assign s) := by
  induction modifications generalizing m s with
  | nil => exact h
  | cons modification modifications ih => exact ih (h.mark modification)

theorem Marks.mem_keys_foldl (m : Marks) (k : Key) (modifications : List Modification) :
    k ∈ (modifications.foldl Marks.mark m).keys ↔
      (lastValue k modifications).isSome = true ∨ k ∈ m.keys := by
  induction modifications generalizing m with
  | nil => simp [lastValue]
  | cons modification modifications ih =>
    rw [foldl_cons, ih, Marks.mem_keys_mark, lastValue, isSome_or]
    by_cases hkey : modification.key = k
    · simp [hkey]
    · have hkey' : k ≠ modification.key := fun he => hkey he.symm
      simp [hkey, hkey']

theorem get_persistScopedSettings {content snapshot : Settings} {m : Marks}
    (hformat : content.oldFormat = false) (hsound : m.Sound snapshot) (k : Key) :
    (persistScopedSettings content snapshot m).get k =
      if k ∈ m.keys then snapshot.get k else content.get k := by
  unfold persistScopedSettings
  rw [migrateSettings_of_not_oldFormat hformat]
  cases k with
  | field name =>
    simp [Settings.get, field_foldl_mergeField, Marks.field_mem_keys]
  | nestedKey field key =>
    simp only [Settings.get, nested_foldl_mergeField, Marks.nestedKey_mem_keys]
    by_cases hfield : .nested field ∈ m.fields
    · obtain ⟨⟨key₀, hkey₀⟩, hsome⟩ := hsound.nested field hfield
      obtain ⟨value, hvalue⟩ := isSome_iff_exists.mp hsome
      have hkeys : ∃ k ks, m.keysOf field = k :: ks := by
        cases hkeysOf : m.keysOf field with
        | nil => exact absurd (Marks.mem_keysOf.mpr hkey₀) (by simp [hkeysOf])
        | cons k ks => exact ⟨k, ks, rfl⟩
      obtain ⟨k, ks, hkeys⟩ := hkeys
      rw [if_pos hfield, mergedValue, hkeys, hvalue]
      simp only [bind_some, mergeNested_apply, ← hkeys, Marks.mem_keysOf]
      cases content.nested field <;> rfl
    · have hmem : (field, key) ∉ m.nestedKeys := fun hmem => hfield (hsound.fields _ _ hmem)
      rw [if_neg hfield, if_neg hmem]

/-- What has become of a key: no setter has set it, and then it keeps the value it has on disk; a
setter has set it; or another program has changed it after that. -/
inductive Standing where
  | untouched (value : Option Json)
  | lastSet (value : Option Json)
  | changedLater
deriving DecidableEq

def standingAfter (scope : SettingsScope) (k : Key) (standing : Standing)
    (t : Transition State Action) : Standing :=
  match t.action with
  | .set setter =>
    if setter.scope = scope then
      (lastValue k setter.modifications).elim standing .lastSet
    else standing
  | .edit scope' content =>
    if scope' = scope ∧ content.get k ≠ (t.before.disk scope).get k then
      match standing with
      | .untouched _ => .untouched (content.get k)
      | _ => .changedLater
    else standing
  | .write _ => standing

def standing (disk : SettingsScope → Settings) (scope : SettingsScope) (k : Key)
    (steps : List (Transition State Action)) : Standing :=
  steps.foldl (standingAfter scope k) (.untouched ((disk scope).get k))

/-- What has become of the write that the last setter of a file has queued. -/
inductive LastWrite where
  | none | queued | succeeded | failed
deriving DecidableEq

def lastWriteAfter (scope : SettingsScope) (lastWrite : LastWrite) (t : Transition State Action) :
    LastWrite :=
  match t.action with
  | .set setter => if setter.scope = scope then .queued else lastWrite
  | .write succeeds =>
    if t.before.writeQueue.head?.any (fun task => task.scope = scope) = true ∧
        t.after.writeQueue.all (fun task => task.scope ≠ scope) = true then
      if succeeds then .succeeded else .failed
    else lastWrite
  | .edit .. => lastWrite

def lastWrite (scope : SettingsScope) (steps : List (Transition State Action)) : LastWrite :=
  steps.foldl (lastWriteAfter scope) .none

/-- A write that succeeds finds no settings in the old format; of a write that fails every key is
still marked, or in a later write of the queue, or on disk as the write would have written it. -/
def WriteKept (s : State) (succeeds : Bool) : List WriteTask → Prop
  | [] => True
  | task :: rest =>
    if succeeds then (s.disk task.scope).oldFormat = false
    else ∀ k ∈ task.modified.keys, k ∈ (s.modified task.scope).keys ∨
      (∃ later ∈ rest, later.scope = task.scope ∧ k ∈ later.modified.keys) ∨
        (s.disk task.scope).get k = task.snapshot.get k

instance (s : State) (succeeds : Bool) : ∀ queue, Decidable (WriteKept s succeeds queue)
  | [] => instDecidableTrue
  | task :: rest => inferInstanceAs (Decidable
      (if succeeds then (s.disk task.scope).oldFormat = false
      else ∀ k ∈ task.modified.keys, k ∈ (s.modified task.scope).keys ∨
        (∃ later ∈ rest, later.scope = task.scope ∧ k ∈ later.modified.keys) ∨
          (s.disk task.scope).get k = task.snapshot.get k))

def NothingDropped (s : State) : Action → Prop
  | .write succeeds => WriteKept s succeeds s.writeQueue
  | .set _ | .edit .. => True

instance (s : State) : ∀ a, Decidable (NothingDropped s a)
  | .write succeeds => inferInstanceAs (Decidable (WriteKept s succeeds s.writeQueue))
  | .set _ | .edit .. => instDecidableTrue

def State.pending (s : State) (scope : SettingsScope) : List WriteTask :=
  s.writeQueue.filter fun task => task.scope = scope

/-- What is known of one file: what is in it, in memory, marked and queued. -/
structure FileInvariant (disk memory : Settings) (modified : Marks) (pending : List WriteTask)
    (standing : Key → Standing) : Prop where
  sound : modified.Sound memory
  soundTasks : ∀ task ∈ pending, task.modified.Sound task.snapshot
  covered : ∀ k ∈ modified.keys, ∀ task ∈ pending.getLast?, k ∈ task.modified.keys
  newest : ∀ k v, standing k = .lastSet v → memory.get k = v ∧
    ∀ task ∈ (pending.filter fun task => k ∈ task.modified.keys).getLast?, task.snapshot.get k = v
  kept : ∀ k v, standing k = .lastSet v → k ∈ modified.keys ∨
    (∃ task ∈ pending, k ∈ task.modified.keys) ∨ disk.get k = v
  untouched : ∀ k v, standing k = .untouched v → k ∉ modified.keys ∧
    (∀ task ∈ pending, k ∉ task.modified.keys) ∧ disk.get k = v

section FileInvariant

variable {disk memory : Settings} {modified : Marks} {pending : List WriteTask}
  {standing : Key → Standing}

theorem FileInvariant.created (disk memory : Settings) :
    FileInvariant disk memory .none [] fun k => .untouched (disk.get k) := by
  refine ⟨Marks.sound_none _, by simp, by simp, by simp, by simp, ?_⟩
  intro k v hv
  cases hv
  exact ⟨by simp [Marks.none, Marks.keys], by simp, rfl⟩

theorem FileInvariant.set (h : FileInvariant disk memory modified pending standing)
    (scope : SettingsScope) (modifications : List Modification) :
    let memory' := modifications.foldl Settings.assign memory
    let modified' := modifications.foldl Marks.mark modified
    FileInvariant disk memory' modified'
      (pending ++ [{ scope, snapshot := memory', modified := modified' }])
      fun k => (lastValue k modifications).elim (standing k) .lastSet := by
  intro memory' modified'
  have hkeys : ∀ k, k ∈ modified'.keys ↔
      (lastValue k modifications).isSome = true ∨ k ∈ modified.keys :=
    fun k => modified.mem_keys_foldl k modifications
  have hmemory : ∀ k, memory'.get k = (lastValue k modifications).getD (memory.get k) :=
    fun k => get_foldl_assign memory k modifications
  have hsound : modified'.Sound memory' := h.sound.foldl modifications
  refine ⟨hsound, ?_, ?_, ?_, ?_, ?_⟩
  · intro task htask
    obtain htask | htask := mem_append.mp htask
    · exact h.soundTasks task htask
    · rw [mem_singleton.mp htask]
      exact hsound
  · intro k hk task htask
    rw [getLast?_concat] at htask
    cases htask
    exact hk
  · intro k v hv
    rw [hmemory]
    cases hlast : lastValue k modifications with
    | some v' =>
      rw [hlast] at hv
      cases hv
      refine ⟨rfl, ?_⟩
      have hnew : k ∈ modified'.keys := (hkeys k).mpr (.inl (by rw [hlast]; rfl))
      simp [filter_append, hnew, hmemory, hlast]
    | none =>
      rw [hlast] at hv
      obtain ⟨hmem, hnewest⟩ := h.newest k v hv
      refine ⟨hmem, ?_⟩
      by_cases hnew : k ∈ modified'.keys
      · simp [filter_append, hnew, hmemory, hlast, hmem]
      · simpa [filter_append, hnew] using hnewest
  · intro k v hv
    cases hlast : lastValue k modifications with
    | some v' => exact .inl ((hkeys k).mpr (.inl (by rw [hlast]; rfl)))
    | none =>
      rw [hlast] at hv
      obtain hk | ⟨task, htask, hk⟩ | hdisk := h.kept k v hv
      · exact .inl ((hkeys k).mpr (.inr hk))
      · exact .inr (.inl ⟨task, mem_append_left _ htask, hk⟩)
      · exact .inr (.inr hdisk)
  · intro k v hv
    cases hlast : lastValue k modifications with
    | some v' =>
      rw [hlast] at hv
      cases hv
    | none =>
      rw [hlast] at hv
      obtain ⟨hmarked, hqueued, hdisk⟩ := h.untouched k v hv
      have hnew : k ∉ modified'.keys := by
        rw [hkeys, hlast]
        simpa using hmarked
      refine ⟨hnew, ?_, hdisk⟩
      intro task htask
      obtain htask | htask := mem_append.mp htask
      · exact hqueued task htask
      · rw [mem_singleton.mp htask]
        exact hnew

theorem FileInvariant.edit (h : FileInvariant disk memory modified pending standing)
    {content : Settings} {standing' : Key → Standing}
    (hstanding : ∀ k, standing' k = if content.get k ≠ disk.get k then
      match standing k with
      | .untouched _ => .untouched (content.get k)
      | _ => .changedLater
      else standing k) :
    FileInvariant content memory modified pending standing' := by
  have hset : ∀ k v, standing' k = .lastSet v →
      standing k = .lastSet v ∧ content.get k = disk.get k := by
    intro k v hv
    rw [hstanding] at hv
    split_ifs at hv with hchanged
    · cases hs : standing k <;> rw [hs] at hv <;> cases hv
    · exact ⟨hv, not_not.mp hchanged⟩
  refine ⟨h.sound, h.soundTasks, h.covered, ?_, ?_, ?_⟩
  · intro k v hv
    exact h.newest k v (hset k v hv).1
  · intro k v hv
    obtain ⟨hs, hsame⟩ := hset k v hv
    rw [hsame]
    exact h.kept k v hs
  · intro k v hv
    rw [hstanding] at hv
    split_ifs at hv with hchanged
    · cases hs : standing k with
      | untouched v' =>
        rw [hs] at hv
        cases hv
        obtain ⟨hmarked, hqueued, -⟩ := h.untouched k v' hs
        exact ⟨hmarked, hqueued, rfl⟩
      | lastSet v' =>
        rw [hs] at hv
        cases hv
      | changedLater =>
        rw [hs] at hv
        cases hv
    · obtain ⟨hmarked, hqueued, hdisk⟩ := h.untouched k v hv
      exact ⟨hmarked, hqueued, (not_not.mp hchanged).trans hdisk⟩

variable {task : WriteTask} {rest : List WriteTask}

section

variable (h : FileInvariant disk memory modified (task :: rest) standing)
include h

theorem FileInvariant.newest_tail {k : Key} {v : Option Json}
    (hv : standing k = .lastSet v) :
    (∀ later ∈ (rest.filter fun task => k ∈ task.modified.keys).getLast?,
      later.snapshot.get k = v) ∧
    (k ∈ task.modified.keys → (∀ later ∈ rest, k ∉ later.modified.keys) →
      task.snapshot.get k = v) := by
  have hnewest := (h.newest k v hv).2
  refine ⟨?_, ?_⟩
  · intro later hlater
    refine hnewest later ?_
    by_cases hk : k ∈ task.modified.keys
    · rw [filter_cons_of_pos (by simpa using hk), getLast?_cons, hlater]
      rfl
    · rwa [filter_cons_of_neg (by simpa using hk)]
  · intro hk hnone
    refine hnewest task ?_
    have hempty : (rest.filter fun task => k ∈ task.modified.keys) = [] := by
      simpa using hnone
    rw [filter_cons_of_pos (by simpa using hk), hempty]
    rfl

theorem FileInvariant.covered_tail {k : Key}
    (hk : k ∈ modified.keys) :
    k ∈ task.modified.keys ∨ ∃ later ∈ rest, k ∈ later.modified.keys := by
  cases hlast : rest.getLast? with
  | none =>
    refine .inl (h.covered k hk task ?_)
    rw [getLast?_cons, hlast]
    rfl
  | some later =>
    refine .inr ⟨later, mem_of_getLast? hlast, h.covered k hk later ?_⟩
    rw [getLast?_cons, hlast]
    rfl

theorem FileInvariant.writeOk
    (hformat : disk.oldFormat = false) :
    FileInvariant (persistScopedSettings disk task.snapshot task.modified) memory .none rest
      standing := by
  have hget := get_persistScopedSettings hformat (h.soundTasks task mem_cons_self)
  have hnone : ∀ k, k ∉ Marks.none.keys := by simp [Marks.none, Marks.keys]
  refine ⟨Marks.sound_none _, fun later hlater => h.soundTasks later (.tail _ hlater), ?_, ?_, ?_,
    ?_⟩
  · exact fun k hk => absurd hk (hnone k)
  · exact fun k v hv => ⟨(h.newest k v hv).1, (h.newest_tail hv).1⟩
  · intro k v hv
    refine .inr ?_
    by_cases hlater : ∃ later ∈ rest, k ∈ later.modified.keys
    · exact .inl hlater
    refine .inr ?_
    have hrest : ∀ later ∈ rest, k ∉ later.modified.keys := by
      intro later hmem hk
      exact hlater ⟨later, hmem, hk⟩
    rw [hget]
    by_cases htask : k ∈ task.modified.keys
    · rw [if_pos htask]
      exact (h.newest_tail hv).2 htask hrest
    · rw [if_neg htask]
      obtain hk | ⟨later, hmem, hk⟩ | hdisk := h.kept k v hv
      · obtain hk | hk := h.covered_tail hk
        · exact absurd hk htask
        · exact absurd hk hlater
      · obtain rfl | hmem := mem_cons.mp hmem
        · exact absurd hk htask
        · exact absurd hk (hrest later hmem)
      · exact hdisk
  · intro k v hv
    obtain ⟨-, hqueued, hdisk⟩ := h.untouched k v hv
    refine ⟨hnone k, fun later hlater => hqueued later (.tail _ hlater), ?_⟩
    rw [hget, if_neg (hqueued task mem_cons_self)]
    exact hdisk

theorem FileInvariant.writeFailed
    (hkept : ∀ k ∈ task.modified.keys, k ∈ modified.keys ∨
      (∃ later ∈ rest, k ∈ later.modified.keys) ∨ disk.get k = task.snapshot.get k) :
    FileInvariant disk memory modified rest standing := by
  refine ⟨h.sound, fun later hlater => h.soundTasks later (.tail _ hlater), ?_, ?_, ?_, ?_⟩
  · intro k hk later hlater
    refine h.covered k hk later ?_
    rw [getLast?_cons, hlater]
    rfl
  · exact fun k v hv => ⟨(h.newest k v hv).1, (h.newest_tail hv).1⟩
  · intro k v hv
    by_cases hlater : ∃ later ∈ rest, k ∈ later.modified.keys
    · exact .inr (.inl hlater)
    have hrest : ∀ later ∈ rest, k ∉ later.modified.keys := by
      intro later hmem hk
      exact hlater ⟨later, hmem, hk⟩
    obtain hk | ⟨later, hmem, hk⟩ | hdisk := h.kept k v hv
    · exact .inl hk
    · obtain rfl | hmem := mem_cons.mp hmem
      · obtain hk' | hk' | hdisk := hkept k hk
        · exact .inl hk'
        · exact absurd hk' hlater
        · exact .inr (.inr (hdisk.trans ((h.newest_tail hv).2 hk hrest)))
      · exact absurd hk (hrest later hmem)
    · exact .inr (.inr hdisk)
  · intro k v hv
    obtain ⟨hmarked, hqueued, hdisk⟩ := h.untouched k v hv
    exact ⟨hmarked, fun later hlater => hqueued later (.tail _ hlater), hdisk⟩

end

end FileInvariant

variable {scope : SettingsScope}

section Runs

variable {disk : SettingsScope → Settings} {steps : List (Transition State Action)} {s s' : State}

/-- Every file has its invariant, and once the last write of a file has succeeded, no write of it
is in the queue and nothing is marked. -/
structure RunInvariant (disk : SettingsScope → Settings) (scope : SettingsScope)
    (steps : List (Transition State Action)) (s : State) : Prop where
  file : FileInvariant (s.disk scope) (s.memory scope) (s.modified scope) (s.pending scope)
    fun k => standing disk scope k steps
  settled : lastWrite scope steps = .succeeded →
    s.pending scope = [] ∧ s.modified scope = .none

theorem standing_concat (scope : SettingsScope) (k : Key) (t : Transition State Action) :
    standing disk scope k (steps ++ [t]) =
      standingAfter scope k (standing disk scope k steps) t := by
  rw [standing, foldl_append]
  rfl

theorem lastWrite_concat (scope : SettingsScope) (t : Transition State Action) :
    lastWrite scope (steps ++ [t]) = lastWriteAfter scope (lastWrite scope steps) t := by
  rw [lastWrite, foldl_append]
  rfl

theorem runInvariant_created (disk : SettingsScope → Settings) (scope : SettingsScope) :
    RunInvariant disk scope [] (created disk) :=
  ⟨.created _ _, fun _ => ⟨rfl, rfl⟩⟩

theorem RunInvariant.set (h : RunInvariant disk scope steps s)
    (setter : Setter) :
    RunInvariant disk scope
      (steps ++ [⟨s, .set setter, s.set setter.scope setter.modifications⟩])
      (s.set setter.scope setter.modifications) := by
  by_cases hscope : setter.scope = scope
  · subst hscope
    refine ⟨?_, ?_⟩
    · have hfile := h.file.set setter.scope setter.modifications
      simpa [State.set, State.pending, filter_append, standing_concat, standingAfter] using hfile
    · intro hlast
      simp [lastWrite_concat, lastWriteAfter] at hlast
  · have hscope' : scope ≠ setter.scope := fun he => hscope he.symm
    refine ⟨?_, ?_⟩
    · have hfile := h.file
      simpa [State.set, State.pending, filter_append, standing_concat, standingAfter,
        hscope, hscope'] using hfile
    · have hsettled := h.settled
      simpa [State.set, State.pending, filter_append, lastWrite_concat, lastWriteAfter,
        hscope, hscope'] using hsettled

theorem RunInvariant.edit (h : RunInvariant disk scope steps s)
    (scope' : SettingsScope) (content : Settings) :
    RunInvariant disk scope
      (steps ++ [⟨s, .edit scope' content,
        { s with disk := Function.update s.disk scope' content }⟩])
      { s with disk := Function.update s.disk scope' content } := by
  refine ⟨?_, fun hlast => h.settled (by rwa [lastWrite_concat] at hlast)⟩
  by_cases hscope : scope' = scope
  · subst hscope
    simp only [Function.update_self]
    refine h.file.edit fun k => ?_
    rw [standing_concat, standingAfter]
    simp
  · have hscope' : scope ≠ scope' := fun he => hscope he.symm
    have hfile := h.file
    simpa [State.pending, standing_concat, standingAfter, hscope, hscope'] using hfile

theorem pending_cons {task : WriteTask} {rest : List WriteTask}
    (hqueue : s.writeQueue = task :: rest) (hscope : task.scope = scope) :
    s.pending scope = task :: rest.filter fun task => task.scope = scope := by
  rw [State.pending, hqueue, filter_cons_of_pos (by simpa using hscope)]

theorem RunInvariant.write (h : RunInvariant disk scope steps s)
    {task : WriteTask} {rest : List WriteTask} (hqueue : s.writeQueue = task :: rest)
    {succeeds : Bool} (hkept : WriteKept s succeeds (task :: rest)) :
    RunInvariant disk scope
      (steps ++ [⟨s, .write succeeds, s.write task rest succeeds⟩])
      (s.write task rest succeeds) := by
  have hstanding : (fun k => standing disk scope k
      (steps ++ [⟨s, .write succeeds, s.write task rest succeeds⟩])) =
        fun k => standing disk scope k steps := by
    funext k
    rw [standing_concat]
    rfl
  by_cases hscope : task.scope = scope
  · subst hscope
    have hpending := pending_cons hqueue rfl
    have hfile := h.file
    rw [hpending] at hfile
    have hpending' : (s.write task rest succeeds).pending task.scope =
        rest.filter fun later => later.scope = task.scope := by
      cases succeeds <;> rfl
    refine ⟨?_, ?_⟩
    · rw [hstanding, hpending']
      cases succeeds with
      | true =>
        simp only [State.write, Function.update_self]
        exact hfile.writeOk hkept
      | false =>
        refine hfile.writeFailed fun k hk => ?_
        obtain hmarked | ⟨later, hmem, hsame, hlater⟩ | hdisk := hkept k hk
        · exact .inl hmarked
        · exact .inr (.inl ⟨later, mem_filter.mpr ⟨hmem, by simpa using hsame⟩, hlater⟩)
        · exact .inr (.inr hdisk)
    · intro hlast
      -- the write was queued, so the one before it cannot have been the last
      have hbefore : lastWrite task.scope steps ≠ .succeeded := by
        intro hsucceeded
        exact absurd (hpending.symm.trans (h.settled hsucceeded).1) (by simp)
      rw [lastWrite_concat] at hlast
      simp only [lastWriteAfter] at hlast
      by_cases hdone : s.writeQueue.head?.any (fun later => later.scope = task.scope) = true ∧
          (s.write task rest succeeds).writeQueue.all (fun later => later.scope ≠ task.scope) = true
      · rw [if_pos hdone] at hlast
        cases succeeds with
        | false => cases hlast
        | true =>
          refine ⟨?_, by simp [State.write]⟩
          rw [hpending', filter_eq_nil_iff]
          simpa [State.write] using hdone.2
      · rw [if_neg hdone] at hlast
        exact absurd hlast hbefore
  · have hscope' : scope ≠ task.scope := fun he => hscope he.symm
    have hpending : (s.write task rest succeeds).pending scope = s.pending scope := by
      rw [State.pending, State.pending, hqueue, filter_cons_of_neg (by simpa using hscope)]
      cases succeeds <;> rfl
    have hdisk : (s.write task rest succeeds).disk scope = s.disk scope := by
      cases succeeds <;> simp [State.write, hscope']
    have hmodified : (s.write task rest succeeds).modified scope = s.modified scope := by
      cases succeeds <;> simp [State.write, hscope']
    have hmemory : (s.write task rest succeeds).memory = s.memory := by
      cases succeeds <;> rfl
    refine ⟨?_, ?_⟩
    · rw [hstanding, hpending, hdisk, hmodified, hmemory]
      exact h.file
    · intro hlast
      rw [hpending, hmodified]
      refine h.settled ?_
      rw [lastWrite_concat, lastWriteAfter] at hlast
      simpa [hqueue, hscope] using hlast

theorem RunInvariant.step (h : RunInvariant disk scope steps s)
    {a : Action} (hok : NothingDropped s a) (hs : step s a = some s') :
    RunInvariant disk scope (steps ++ [⟨s, a, s'⟩]) s' := by
  cases a with
  | set setter =>
    cases hs
    exact h.set setter
  | write succeeds =>
    cases hqueue : s.writeQueue with
    | nil => simp [SettingsManager.step, hqueue] at hs
    | cons task rest =>
      simp only [SettingsManager.step, hqueue] at hs
      cases hs
      exact h.write hqueue (by simpa only [NothingDropped, hqueue] using hok)
  | edit scope' content =>
    cases hs
    exact h.edit scope' content

/-- In a run in which no write fails whose changes have lost their marks, and no write finds
settings in the old format, no setting is lost or clobbered: what no setter has set keeps the value
that it has on disk, and once the last write of a file has succeeded, what setters have set is on
disk with its last value, unless another program has changed it later. -/
theorem settings_kept (h : GuardedRun step NothingDropped (created disk) steps s)
    (scope : SettingsScope) (k : Key) :
    (∀ v, standing disk scope k steps = .untouched v → (s.disk scope).get k = v) ∧
      (lastWrite scope steps = .succeeded → ∀ v, standing disk scope k steps = .lastSet v →
        (s.disk scope).get k = v) := by
  have hrun := h.induct (P := RunInvariant disk scope) (runInvariant_created disk scope)
    fun _ _ _ _ hI hok hs => hI.step hok hs
  refine ⟨fun v hv => (hrun.file.untouched k v hv).2.2, ?_⟩
  intro hlast v hv
  obtain ⟨hpending, hmodified⟩ := hrun.settled hlast
  obtain hmarked | ⟨task, htask, -⟩ | hdisk := hrun.file.kept k v hv
  · rw [hmodified] at hmarked
    simp [Marks.none, Marks.keys] at hmarked
  · rw [hpending] at htask
    cases htask
  · exact hdisk

end Runs

def themeKey : Key := .field "theme"

def dark : Option Json := some (.string "dark")

/-- The theme is set while the write of another setting is queued; the second write fails, and the
theme is still marked because the first one has failed too. -/
def bothFail : List Action :=
  [.set (.setDefaultModel "opus"), .set (.setTheme "dark"), .write false, .write false,
    .set (.setQuietStartup true), .write true]

theorem settings_kept_bothFail :
    ∃ steps s, (GuardedRun step NothingDropped (created fun _ => .empty) steps s ∧
      lastWrite .global steps = .succeeded ∧
      standing (fun _ => .empty) .global themeKey steps = .lastSet dark) ∧
      ((∀ v, standing (fun _ => .empty) .global themeKey steps = .untouched v →
          (s.disk .global).get themeKey = v) ∧
        (lastWrite .global steps = .succeeded →
          ∀ v, standing (fun _ => .empty) .global themeKey steps = .lastSet v →
            (s.disk .global).get themeKey = v)) := by
  obtain ⟨steps, s, hruns, hlast, hset⟩ := GuardedRun.exists_of_play step NothingDropped
    (created fun _ => .empty) bothFail
    (fun steps _ => lastWrite .global steps = .succeeded ∧
      standing (fun _ => .empty) .global themeKey steps = .lastSet dark) (by decide +kernel)
  exact ⟨steps, s, ⟨hruns, hlast, hset⟩, settings_kept hruns .global themeKey⟩

/-- The first write succeeds and takes the mark of the theme away, the second one fails, and the
third one does not have the theme. -/
def secondFails : List Action :=
  [.set (.setDefaultModel "opus"), .set (.setTheme "dark"), .write true, .write false,
    .set (.setQuietStartup true), .write true]

theorem unwrittenMark_lost :
    ¬∀ (disk : SettingsScope → Settings) (steps : List (Transition State Action)) (s : State),
      GuardedRun step (fun _ _ => True) (created disk) steps s →
        ∀ (scope : SettingsScope) (k : Key),
          (∀ v, standing disk scope k steps = .untouched v → (s.disk scope).get k = v) ∧
            (lastWrite scope steps = .succeeded →
              ∀ v, standing disk scope k steps = .lastSet v → (s.disk scope).get k = v) := by
  intro h
  obtain ⟨steps, s, hruns, hlast, hset, hlost⟩ := GuardedRun.exists_of_play step
    (fun _ _ => True) (created fun _ => .empty) secondFails
    (fun steps s => lastWrite .global steps = .succeeded ∧
      standing (fun _ => .empty) .global themeKey steps = .lastSet dark ∧
      (s.disk .global).get themeKey = none) (by decide +kernel)
  have hkept := (h _ _ _ hruns .global themeKey).2 hlast _ hset
  rw [hlost] at hkept
  cases hkept

end Draht.SettingsManager
