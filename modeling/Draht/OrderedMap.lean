import Mathlib.Data.List.Nodup

/-!
# Maps that remember insertion order

The map type of the host language: setting a present key keeps its place, setting a new
one appends it, and deleting a key forgets its place. Keys are distinct by construction.
-/

namespace Draht
open List

structure OrderedMap (κ α : Type*) where
  entries : List (κ × α)
  nodup : (entries.map Prod.fst).Nodup

namespace OrderedMap

variable {κ α : Type*} [DecidableEq κ]

def setEntry (k : κ) (v : α) : List (κ × α) → List (κ × α)
  | [] => [(k, v)]
  | p :: ps => if p.1 = k then (k, v) :: ps else p :: setEntry k v ps

def getEntry (k : κ) : List (κ × α) → Option α
  | [] => none
  | p :: ps => if p.1 = k then some p.2 else getEntry k ps

theorem keys_setEntry (k : κ) (v : α) (ps : List (κ × α)) :
    (setEntry k v ps).map Prod.fst =
      if k ∈ ps.map Prod.fst then ps.map Prod.fst else ps.map Prod.fst ++ [k] := by
  induction ps with
  | nil => rfl
  | cons p ps ih =>
    by_cases h : p.1 = k
    · simp [setEntry, h]
    · have hk : k ≠ p.1 := fun he => h he.symm
      simp only [setEntry, if_neg h, map_cons, ih, mem_cons, hk, false_or]
      split_ifs <;> simp

variable {ps : List (κ × α)} {v : α} {k : κ}

theorem setEntry_nodup (k : κ) (v : α) (hps : (ps.map Prod.fst).Nodup) :
    ((setEntry k v ps).map Prod.fst).Nodup := by
  rw [keys_setEntry]
  split_ifs with h
  · exact hps
  · exact nodup_append.mpr ⟨hps, by simp, by rintro a ha b hb rfl; simp_all⟩

theorem getEntry_eq_none_iff : getEntry k ps = none ↔ k ∉ ps.map Prod.fst := by
  induction ps with
  | nil => simp [getEntry]
  | cons p ps ih =>
    by_cases h : p.1 = k
    · simp [getEntry, h]
    · have hk : k ≠ p.1 := fun he => h he.symm
      simp [getEntry, h, hk, ih]

theorem getEntry_setEntry (k j : κ) (v : α) (ps : List (κ × α)) :
    getEntry j (setEntry k v ps) = if k = j then some v else getEntry j ps := by
  induction ps with
  | nil => simp [setEntry, getEntry]
  | cons p ps ih =>
    by_cases h : p.1 = k
    · by_cases hj : k = j <;> simp [setEntry, getEntry, h, hj]
    · by_cases hj : p.1 = j
      · have hkj : k ≠ j := fun he => h (hj.trans he.symm)
        simp [setEntry, if_neg h, getEntry, if_pos hj, if_neg hkj]
      · simp [setEntry, getEntry, h, hj, ih]

theorem setEntry_of_not_mem (v : α) (h : k ∉ ps.map Prod.fst) :
    setEntry k v ps = ps ++ [(k, v)] := by
  induction ps with
  | nil => rfl
  | cons p ps ih =>
    have hne : p.1 ≠ k := fun he => h (by simp [he])
    rw [setEntry, if_neg hne, ih (fun hm => h (mem_cons_of_mem _ hm)), cons_append]

theorem getEntry_of_mem (hps : (ps.map Prod.fst).Nodup) (h : (k, v) ∈ ps) :
    getEntry k ps = some v := by
  induction ps with
  | nil => simp at h
  | cons p ps ih =>
    rw [map_cons, nodup_cons] at hps
    obtain rfl | hmem := mem_cons.mp h
    · simp [getEntry]
    · have hne : p.1 ≠ k := fun he => hps.1 (he ▸ mem_map_of_mem hmem)
      simp [getEntry, hne, ih hps.2 hmem]

theorem mem_of_getEntry (h : getEntry k ps = some v) : (k, v) ∈ ps := by
  induction ps with
  | nil => simp [getEntry] at h
  | cons p ps ih =>
    by_cases hp : p.1 = k
    · have hv : p.2 = v := by simpa [getEntry, hp] using h
      exact mem_cons.mpr (.inl (by rw [← hp, ← hv]))
    · exact mem_cons_of_mem _ (ih (by simpa [getEntry, hp] using h))

theorem getEntry_filter (k j : κ) (ps : List (κ × α)) :
    getEntry j (ps.filter (fun p => p.1 ≠ k)) = if k = j then none else getEntry j ps := by
  induction ps with
  | nil => simp [getEntry]
  | cons p ps ih =>
    by_cases hk : p.1 = k
    · rw [filter_cons_of_neg (by simp [hk]), ih]
      by_cases hj : k = j <;> simp [getEntry, hk, hj]
    · rw [filter_cons_of_pos (by simp [hk]), getEntry, ih, getEntry]
      by_cases hj : k = j
      · have hne : p.1 ≠ j := fun he => hk (he.trans hj.symm)
        simp [hj, hne]
      · simp [hj]

def empty : OrderedMap κ α := ⟨[], by simp⟩

def set (m : OrderedMap κ α) (k : κ) (v : α) : OrderedMap κ α :=
  ⟨setEntry k v m.entries, setEntry_nodup k v m.nodup⟩

def get (m : OrderedMap κ α) (k : κ) : Option α := getEntry k m.entries

def has (m : OrderedMap κ α) (k : κ) : Bool := (m.get k).isSome

def delete (m : OrderedMap κ α) (k : κ) : OrderedMap κ α :=
  ⟨m.entries.filter (fun p => p.1 ≠ k),
    (m.nodup.sublist (List.Sublist.map _ List.filter_sublist))⟩

def size (m : OrderedMap κ α) : ℕ := m.entries.length

def keys (m : OrderedMap κ α) : List κ := m.entries.map Prod.fst

@[simp] theorem get_empty (k : κ) : (empty : OrderedMap κ α).get k = none := rfl

variable (m : OrderedMap κ α)

@[simp] theorem get_set (k j : κ) (v : α) : (m.set k v).get j = if k = j then some v else m.get j :=
  getEntry_setEntry k j v m.entries

@[simp] theorem get_delete (k j : κ) : (m.delete k).get j = if k = j then none else m.get j :=
  getEntry_filter k j m.entries

theorem mem_entries_iff (k : κ) (v : α) : (k, v) ∈ m.entries ↔ m.get k = some v :=
  ⟨getEntry_of_mem m.nodup, mem_of_getEntry⟩

theorem get_eq_none_iff (k : κ) : m.get k = none ↔ k ∉ m.keys :=
  getEntry_eq_none_iff

theorem has_iff (k : κ) : m.has k = true ↔ k ∈ m.keys := by
  rw [has, Option.isSome_iff_ne_none, ne_eq, get_eq_none_iff, not_not]

theorem has_eq_false_iff (k : κ) : m.has k = false ↔ k ∉ m.keys := by
  rw [← m.has_iff, Bool.not_eq_true]

theorem keys_set (k : κ) (v : α) : (m.set k v).keys = if k ∈ m.keys then m.keys else m.keys ++ [k] :=
  keys_setEntry k v m.entries

theorem entries_set_of_not_mem (v : α) (h : k ∉ m.keys) :
    (m.set k v).entries = m.entries ++ [(k, v)] :=
  setEntry_of_not_mem v h

theorem delete_set_of_not_mem (v : α) (h : k ∉ m.keys) : (m.set k v).delete k = m := by
  have hentries : ((m.set k v).delete k).entries = m.entries := by
    change (m.set k v).entries.filter (fun p => p.1 ≠ k) = m.entries
    rw [entries_set_of_not_mem m v h, filter_append]
    have hkept : m.entries.filter (fun p => p.1 ≠ k) = m.entries := by
      rw [filter_eq_self]
      intro p hp
      exact decide_eq_true fun he => h (he ▸ mem_map_of_mem hp)
    rw [hkept]
    simp
  cases hm : (m.set k v).delete k
  cases m
  rw [hm] at hentries
  simpa using hentries

end OrderedMap

end Draht
