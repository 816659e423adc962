import Draht.SessionFile

/-!
# The migration of old session files

Version 1 files are a plain list of entries. The migration gives each an id and the entry before it
as its parent, and turns the index from which a compaction keeps into an id. Version 3 only renames
a role.
-/

namespace Draht
open List Option

open ParentChain

/-- The part of the loop body for compactions, on the array as it is at that moment. -/
def convertFirstKept (entries : List FileEntry) (e : SessionEntry) : SessionEntry :=
  match e.body with
  | .compaction data =>
    match data.firstKeptEntryIndex with
    | none => e
    | some k =>
      { e with
        body := .compaction
          { data with
            firstKeptEntryId :=
              match entries[k]? with
              | some (.entry target) => target.id
              | _ => data.firstKeptEntryId
            firstKeptEntryIndex := none } }
  | _ => e

/-- The loop of `migrateV1ToV2` over the entries that are left; `draw i` are the random UUIDs for
the entry at `i`. -/
def migrateV1From (draw : ℕ → ℕ → Uuid) (ids : List String) :
    Option String → List FileEntry → List FileEntry → List FileEntry
  | _, done, [] => done
  | prevId, done, .session header :: rest =>
    migrateV1From draw ids prevId (done ++ [.session { header with version := some 2 }]) rest
  | prevId, done, .entry e :: rest =>
    let id := generateId ids.contains (draw done.length)
    let linked := { e with id := id, parentId := prevId }
    let converted := convertFirstKept (done ++ .entry linked :: rest) linked
    migrateV1From draw ids (some id) (done ++ [.entry converted]) rest

/-- The set of ids stays empty: the loop never adds one. -/
def migrateV1ToV2 (draw : ℕ → ℕ → Uuid) (entries : List FileEntry) : List FileEntry :=
  migrateV1From draw [] none [] entries

def renameHookMessage (e : SessionEntry) : SessionEntry :=
  match e.body with
  | .message (.hookMessage m) => { e with body := .message (.custom m) }
  | _ => e

def migrateEntryV2 : FileEntry → FileEntry
  | .session header => .session { header with version := some 3 }
  | .entry e => .entry (renameHookMessage e)

def migrateV2ToV3 (entries : List FileEntry) : List FileEntry := entries.map migrateEntryV2

def fileVersion (entries : List FileEntry) : ℕ :=
  ((entries.findSome? FileEntry.header?).bind SessionHeader.version).getD 1

def migrateToCurrentVersion (draw : ℕ → ℕ → Uuid) : Migration := fun entries =>
  let version := fileVersion entries
  if CURRENT_SESSION_VERSION ≤ version then none
  else
    let entries := if version < 2 then migrateV1ToV2 draw entries else entries
    some (if version < 3 then migrateV2ToV3 entries else entries)

def entriesOf (fileEntries : List FileEntry) : List SessionEntry :=
  fileEntries.filterMap FileEntry.entry?

/-- The ids that the entries get: each call returns its first draw. -/
def firstDraws (draw : ℕ → ℕ → Uuid) (start : ℕ) : List FileEntry → List String
  | [] => []
  | .session _ :: rest => firstDraws draw (start + 1) rest
  | .entry _ :: rest => (draw start 0).short :: firstDraws draw (start + 1) rest

variable {draw : ℕ → ℕ → Uuid} {prevId : Option String} {done rest entries : List FileEntry}

@[simp] theorem generateId_nil (draws : ℕ → Uuid) :
    generateId ([] : List String).contains draws = (draws 0).short := by
  simp [generateId, generateIdFrom]

@[simp] theorem convertFirstKept_id (entries : List FileEntry) (e : SessionEntry) :
    (convertFirstKept entries e).id = e.id := by
  unfold convertFirstKept
  split
  · split <;> rfl
  · rfl

@[simp] theorem convertFirstKept_parentId (entries : List FileEntry) (e : SessionEntry) :
    (convertFirstKept entries e).parentId = e.parentId := by
  unfold convertFirstKept
  split
  · split <;> rfl
  · rfl

theorem convertFirstKept_body {entries : List FileEntry} {e : SessionEntry} {data : CompactionData}
    {k : ℕ} (hbody : e.body = .compaction data) (hk : data.firstKeptEntryIndex = some k) :
    ∃ data', (convertFirstKept entries e).body = .compaction data' ∧
      ∀ t, entries[k]? = some (.entry t) → data'.firstKeptEntryId = t.id := by
  simp only [convertFirstKept, hbody, hk]
  exact ⟨_, rfl, fun t ht => by simp only [ht]⟩

theorem migrateV1From_spec (prevId : Option String) (done rest : List FileEntry) :
    ∃ out, migrateV1From draw [] prevId done rest = done ++ out ∧
      (entriesOf out).map SessionEntry.id = firstDraws draw done.length rest ∧
      Linked SessionEntry.id SessionEntry.parentId prevId (entriesOf out) := by
  induction rest generalizing prevId done with
  | nil => exact ⟨[], by simp [migrateV1From], rfl, trivial⟩
  | cons x rest ih =>
    cases x with
    | session header =>
      rw [migrateV1From]
      obtain ⟨out, hout, hids, hlinked⟩ :=
        ih prevId (done ++ [.session { header with version := some 2 }])
      refine ⟨.session { header with version := some 2 } :: out, by rw [hout]; simp, ?_, hlinked⟩
      rw [length_append, length_singleton] at hids
      exact hids
    | entry e =>
      rw [migrateV1From]
      simp only [generateId_nil]
      obtain ⟨out, hout, hids, hlinked⟩ := ih (some (draw done.length 0).short)
        (done ++ [.entry (convertFirstKept (done ++ .entry { e with
          id := (draw done.length 0).short, parentId := prevId } :: rest)
            { e with id := (draw done.length 0).short, parentId := prevId })])
      refine ⟨_ :: out, by rw [hout, append_assoc, singleton_append], ?_, ?_⟩
      · rw [length_append, length_singleton] at hids
        simp only [entriesOf, filterMap_cons, FileEntry.entry?, map_cons,
          convertFirstKept_id, firstDraws]
        exact congrArg _ hids
      · refine ⟨convertFirstKept_parentId _ _, ?_⟩
        rw [convertFirstKept_id]
        exact hlinked

theorem migrateV1From_getElem {i k : ℕ} {e : SessionEntry} {data : CompactionData}
    (hi : rest[i]? = some (.entry e)) (hbody : e.body = .compaction data)
    (hk : data.firstKeptEntryIndex = some k) :
    let after := migrateV1From draw [] prevId done rest
    ∃ e' data', after[done.length + i]? = some (.entry e') ∧ e'.body = .compaction data' ∧
      (k ≤ done.length + i → ∀ t, after[k]? = some (.entry t) → data'.firstKeptEntryId = t.id) ∧
      (done.length + i < k → ∀ t, (done ++ rest)[k]? = some (.entry t) →
        data'.firstKeptEntryId = t.id) := by
  induction rest generalizing prevId done i with
  | nil => simp at hi
  | cons x rest ih =>
    cases i with
    | succ i =>
      obtain ⟨x', prevId', hstep⟩ : ∃ x' prevId',
          migrateV1From draw [] prevId done (x :: rest) =
            migrateV1From draw [] prevId' (done ++ [x']) rest := by
        cases x <;> exact ⟨_, _, rfl⟩
      rw [hstep]
      have hlength : (done ++ [x']).length + i = done.length + (i + 1) := by
        rw [length_append, length_singleton]
        omega
      obtain ⟨e', data', hget, hbody', hearlier, hlater⟩ :=
        @ih prevId' (done ++ [x']) i (by simpa using hi)
      rw [hlength] at hget hearlier hlater
      refine ⟨e', data', hget, hbody', hearlier, fun hlt t ht => hlater hlt t ?_⟩
      rw [getElem?_append_right (by simp; omega)]
      rw [getElem?_append_right (by omega)] at ht
      obtain ⟨n, hn⟩ : ∃ n, k - done.length = n + 1 := ⟨k - done.length - 1, by omega⟩
      rw [hn, getElem?_cons_succ] at ht
      rw [length_append, length_singleton, show k - (done.length + 1) = n by omega]
      exact ht
    | zero =>
      obtain rfl : x = .entry e := some.inj hi
      rw [migrateV1From]
      simp only [generateId_nil]
      generalize hlinked : ({ e with id := (draw done.length 0).short, parentId := prevId } :
        SessionEntry) = linked
      obtain ⟨data', hbody', hnames⟩ := @convertFirstKept_body
        (done ++ .entry linked :: rest) linked data k (by rw [← hlinked]; exact hbody) hk
      obtain ⟨out, hout, _⟩ := @migrateV1From_spec draw (some (draw done.length 0).short)
        (done ++ [.entry (convertFirstKept (done ++ .entry linked :: rest) linked)]) rest
      rw [hout]
      refine ⟨_, data', by simp, hbody', fun hle t ht => ?_, fun hlt t ht => ?_⟩
      · obtain hlt | rfl := Nat.lt_or_eq_of_le hle
        · rw [append_assoc, getElem?_append_left hlt] at ht
          exact hnames t (by rw [getElem?_append_left hlt]; exact ht)
        · have hself : t = convertFirstKept (done ++ .entry linked :: rest) linked := by
            simpa using ht.symm
          rw [hnames linked (by simp), hself, convertFirstKept_id]
      · refine hnames t ?_
        rw [getElem?_append_right (by omega)] at ht ⊢
        obtain ⟨n, hn⟩ : ∃ n, k - done.length = n + 1 := ⟨k - done.length - 1, by omega⟩
        rw [hn, getElem?_cons_succ] at ht ⊢
        exact ht

@[simp] theorem renameHookMessage_id (e : SessionEntry) : (renameHookMessage e).id = e.id := by
  unfold renameHookMessage
  split <;> rfl

@[simp] theorem renameHookMessage_parentId (e : SessionEntry) :
    (renameHookMessage e).parentId = e.parentId := by
  unfold renameHookMessage
  split <;> rfl

theorem renameHookMessage_compaction {e : SessionEntry} {data : CompactionData} :
    (renameHookMessage e).body = .compaction data ↔ e.body = .compaction data := by
  unfold renameHookMessage
  split
  · next hbody => simp [hbody]
  · rfl

theorem entriesOf_migrateV2ToV3 (entries : List FileEntry) :
    entriesOf (migrateV2ToV3 entries) = (entriesOf entries).map renameHookMessage := by
  induction entries with
  | nil => rfl
  | cons x entries ih =>
    cases x with
    | session header => exact ih
    | entry e => exact congrArg (renameHookMessage e :: ·) ih

theorem linked_map_renameHookMessage {prevId : Option String} {es : List SessionEntry}
    (h : Linked SessionEntry.id SessionEntry.parentId prevId es) :
    Linked SessionEntry.id SessionEntry.parentId prevId (es.map renameHookMessage) := by
  induction es generalizing prevId with
  | nil => trivial
  | cons e es ih =>
    refine ⟨(renameHookMessage_parentId e).trans h.1, ?_⟩
    rw [renameHookMessage_id]
    exact ih h.2

theorem getElem?_migrateV2ToV3 {entries : List FileEntry} {i : ℕ} {e : SessionEntry} :
    (migrateV2ToV3 entries)[i]? = some (.entry e) ↔
      ∃ e', entries[i]? = some (.entry e') ∧ renameHookMessage e' = e := by
  rw [migrateV2ToV3, getElem?_map, map_eq_some_iff]
  constructor
  · rintro ⟨x, hx, hmigrated⟩
    cases x with
    | session header => cases hmigrated
    | entry e' => exact ⟨e', hx, FileEntry.entry.inj hmigrated⟩
  · rintro ⟨e', he', rfl⟩
    exact ⟨.entry e', he', rfl⟩

/-- A list of entries as version 1 had it. -/
structure IsV1 (entries : List FileEntry) : Prop where
  version : fileVersion entries < 2
  no_ids : ∀ e ∈ entriesOf entries, e.id = ""

/-- The entry at `i` is a compaction that keeps from the index `k`. -/
def KeepsFrom (entries : List FileEntry) (i k : ℕ) : Prop :=
  ∃ e data, entries[i]? = some (.entry e) ∧ e.body = .compaction data ∧
    data.firstKeptEntryIndex = some k

/-- The entry at `i` is a compaction that keeps from the entry of that id. -/
def KeepsFromId (entries : List FileEntry) (i : ℕ) (id : String) : Prop :=
  ∃ e data, entries[i]? = some (.entry e) ∧ e.body = .compaction data ∧ data.firstKeptEntryId = id

structure BuildsChain (entries after : List FileEntry) : Prop where
  distinct : ((entriesOf after).map SessionEntry.id).Nodup
  linked : Linked SessionEntry.id SessionEntry.parentId none (entriesOf after)
  walk : walkToRoot (indexById (entriesOf after)) (entriesOf after).getLast? =
    some (entriesOf after)
  kept : ∀ (i k : ℕ) (t : SessionEntry), KeepsFrom entries i k → after[k]? = some (.entry t) →
    KeepsFromId after i t.id

def KeepsFromEarlier (entries : List FileEntry) : Prop :=
  ∀ (i k : ℕ) (t : SessionEntry), KeepsFrom entries i k → entries[k]? = some (.entry t) → k ≤ i

theorem migrateToCurrentVersion_v1 (draw : ℕ → ℕ → Uuid) (h : IsV1 entries) :
    migrateToCurrentVersion draw entries = some (migrateV2ToV3 (migrateV1ToV2 draw entries)) := by
  have hversion := h.version
  have hcurrent : CURRENT_SESSION_VERSION = 3 := rfl
  simp only [migrateToCurrentVersion]
  rw [if_neg (by omega), if_pos hversion, if_pos (by omega)]

theorem migrated_spec (draw : ℕ → ℕ → Uuid) (entries : List FileEntry) :
    let after := migrateV2ToV3 (migrateV1ToV2 draw entries)
    (entriesOf after).map SessionEntry.id = firstDraws draw 0 entries ∧
      Linked SessionEntry.id SessionEntry.parentId none (entriesOf after) := by
  obtain ⟨out, hout, hids, hlinked⟩ := @migrateV1From_spec draw none [] entries
  simp only [migrateV1ToV2, hout, entriesOf_migrateV2ToV3]
  refine ⟨?_, linked_map_renameHookMessage hlinked⟩
  rw [List.map_map]
  exact (map_congr_left fun e _ => renameHookMessage_id e).trans hids

theorem firstDraws_ne_empty {start : ℕ} : ∀ id ∈ firstDraws draw start entries, id ≠ "" := by
  induction entries generalizing start with
  | nil => simp [firstDraws]
  | cons x entries ih =>
    cases x with
    | session header => exact ih
    | entry e =>
      intro id hid
      obtain rfl | hid := mem_cons.mp hid
      · exact (draw start 0).short_ne_empty
      · exact ih id hid

theorem migrated_keeps {i k : ℕ} (hkeeps : KeepsFrom entries i k) :
    let after := migrateV2ToV3 (migrateV1ToV2 draw entries)
    (k ≤ i → ∀ t, after[k]? = some (.entry t) → KeepsFromId after i t.id) ∧
      (i < k → ∀ t id, entries[k]? = some (.entry t) → KeepsFromId after i id → id = t.id) := by
  obtain ⟨e, data, hi, hbody, hk⟩ := hkeeps
  obtain ⟨e', data', hget, hbody', hearlier, hlater⟩ :=
    @migrateV1From_getElem draw none [] entries i k e data hi hbody hk
  rw [length_nil, Nat.zero_add] at hget hearlier hlater
  have hgetAfter : (migrateV2ToV3 (migrateV1ToV2 draw entries))[i]? =
      some (.entry (renameHookMessage e')) := getElem?_migrateV2ToV3.mpr ⟨e', hget, rfl⟩
  have hbodyAfter := renameHookMessage_compaction.mpr hbody'
  refine ⟨fun hle t ht => ?_, fun hlt t id ht hnames => ?_⟩
  · obtain ⟨t', ht', rfl⟩ := getElem?_migrateV2ToV3.mp ht
    rw [renameHookMessage_id]
    exact ⟨_, data', hgetAfter, hbodyAfter, hearlier hle t' ht'⟩
  · obtain ⟨e'', data'', hget', hbody'', rfl⟩ := hnames
    rw [hgetAfter] at hget'
    obtain rfl := FileEntry.entry.inj (some.inj hget')
    rw [hbodyAfter] at hbody''
    cases hbody''
    exact hlater hlt t ht

theorem migrateV1From_kinds (prevId : Option String) (done rest : List FileEntry) :
    (migrateV1From draw [] prevId done rest).map (fun x => x.entry?.isSome) =
      (done ++ rest).map (fun x => x.entry?.isSome) := by
  induction rest generalizing prevId done with
  | nil => rw [migrateV1From, append_nil]
  | cons x rest ih =>
    cases x with
    | session header =>
      rw [migrateV1From, ih]
      simp [FileEntry.entry?]
    | entry e =>
      rw [migrateV1From]
      simp only [ih]
      simp [FileEntry.entry?]

theorem migrated_entry_iff {k : ℕ} :
    (∃ t, (migrateV2ToV3 (migrateV1ToV2 draw entries))[k]? = some (.entry t)) ↔
      ∃ t, entries[k]? = some (.entry t) := by
  have hkind : ∀ fileEntries : List FileEntry, (∃ t, fileEntries[k]? = some (.entry t)) ↔
      (fileEntries.map fun x => x.entry?.isSome)[k]? = some true := by
    intro fileEntries
    rw [getElem?_map]
    cases fileEntries[k]? with
    | none => simp
    | some x => cases x <;> simp [FileEntry.entry?]
  have hrename : (fun x : FileEntry => x.entry?.isSome) ∘ migrateEntryV2 =
      fun x => x.entry?.isSome := by
    funext x
    cases x <;> rfl
  rw [hkind, hkind, migrateV2ToV3, List.map_map, migrateV1ToV2, hrename, migrateV1From_kinds,
    nil_append]

theorem migration_buildsChain_iff (draw : ℕ → ℕ → Uuid) (h : IsV1 entries) :
    ∃ after, migrateToCurrentVersion draw entries = some after ∧
      (BuildsChain entries after ↔
        (firstDraws draw 0 entries).Nodup ∧ KeepsFromEarlier entries) := by
  refine ⟨_, migrateToCurrentVersion_v1 draw h, ?_⟩
  obtain ⟨hids, hlinked⟩ := migrated_spec draw entries
  constructor
  · intro hchain
    refine ⟨by rw [← hids]; exact hchain.distinct, fun i k t hkeeps ht => ?_⟩
    by_contra hlater
    obtain ⟨t', ht'⟩ := (@migrated_entry_iff draw entries k).mpr ⟨t, ht⟩
    have hid : t'.id ∈ firstDraws draw 0 entries := by
      rw [← hids]
      exact mem_map_of_mem (mem_filterMap.mpr ⟨_, mem_of_getElem? ht', rfl⟩)
    have hnames := (@migrated_keeps draw entries i k hkeeps).2 (Nat.not_le.mp hlater) t t'.id ht
      (hchain.kept i k t' hkeeps ht')
    rw [h.no_ids t (mem_filterMap.mpr ⟨_, mem_of_getElem? ht, rfl⟩)] at hnames
    exact firstDraws_ne_empty t'.id hid hnames
  · rintro ⟨hnodup, hearlier⟩
    rw [← hids] at hnodup
    have hwf : WellFormedPath (entriesOf (migrateV2ToV3 (migrateV1ToV2 draw entries))) := by
      refine ⟨hlinked, hnodup, fun e he => ?_⟩
      have hid : e.id ∈ firstDraws draw 0 entries := by
        rw [← hids]
        exact mem_map_of_mem he
      exact firstDraws_ne_empty e.id hid
    refine ⟨hnodup, hlinked, ?_, fun i k t hkeeps ht => ?_⟩
    · refine hwf.walkToRoot_eq (fun e he => get_indexById hnodup he) ?_
      rw [size_indexById hnodup]
      omega
    · obtain ⟨t', ht'⟩ := (@migrated_entry_iff draw entries k).mp ⟨t, ht⟩
      exact (@migrated_keeps draw entries i k hkeeps).1 (hearlier i k t' hkeeps ht') t ht

open SessionManager (uuidOf userText)

def twoMessagesV1 : List FileEntry :=
  [.session ⟨none, "s", 0, "/work", none⟩,
    .entry ⟨"", none, 1, .message (userText "first")⟩,
    .entry ⟨"", none, 2, .message (userText "second")⟩]

theorem twoMessagesV1_isV1 : IsV1 twoMessagesV1 :=
  ⟨by decide, by decide⟩

/-- The tries of all entries draw the same, the full UUIDs are different. -/
def repeatedDraws (i attempt : ℕ) : Uuid := if attempt < 100 then uuidOf 0 else uuidOf (i + 1)

/-- Both messages get one id, and the walk to the root does not end. -/
theorem repeatedDraws_not_buildsChain :
    IsV1 twoMessagesV1 ∧ ((List.range 3).map fun i => (repeatedDraws i 100).text).Nodup ∧
      ∃ after, migrateToCurrentVersion repeatedDraws twoMessagesV1 = some after ∧
        walkToRoot (indexById (entriesOf after)) (entriesOf after).getLast? = none ∧
        ¬ BuildsChain twoMessagesV1 after := by
  refine ⟨twoMessagesV1_isV1, by decide, _, rfl, by decide +kernel, fun hchain => ?_⟩
  have hdistinct := hchain.distinct
  revert hdistinct
  decide +kernel

theorem migration_buildsChain_iff_distinctDraws :
    ∃ after, migrateToCurrentVersion (fun i _ => uuidOf i) twoMessagesV1 = some after ∧
      (BuildsChain twoMessagesV1 after ↔
        (firstDraws (fun i _ => uuidOf i) 0 twoMessagesV1).Nodup ∧
          KeepsFromEarlier twoMessagesV1) :=
  migration_buildsChain_iff (fun i _ => uuidOf i) twoMessagesV1_isV1

end Draht
