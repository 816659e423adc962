import Mathlib.Data.List.Nodup
import Mathlib.Data.List.Induction

/-!
# Climbing parent pointers in a log of nodes

Nodes carry a key and the key of their parent, and a lookup finds nodes by key. The climb
collects the nodes from a start node up to a root. It takes fuel, because parent pointers
may run in a circle; on a list of nodes each of which names the node before it as its
parent (`Linked`) it returns that list, and in a log whose parents come earlier (`Grown`)
every node ends such a list.
-/

namespace Draht.ParentChain
open List Option

variable {α κ : Type*}

/-- The loop `while (current) { path.unshift(current); current = next(current) }`. -/
def climb (next : α → Option α) : ℕ → Option α → List α → Option (List α)
  | _, none, path => some path
  | 0, some _, _ => none
  | fuel + 1, some a, path => climb next fuel (next a) (a :: path)

/-- Every node of the list names the one before it, and the first names `prev`. -/
def Linked (key : α → κ) (parent : α → Option κ) : Option κ → List α → Prop
  | _, [] => True
  | prev, a :: as => parent a = prev ∧ Linked key parent (some (key a)) as

/-- Every parent named in the log is the key of an earlier node. -/
def Grown (key : α → κ) (parent : α → Option κ) (log : List α) : Prop :=
  ∀ xs a ys, log = xs ++ a :: ys → ∀ k, parent a = some k → ∃ b ∈ xs, key b = k

variable {key : α → κ} {parent : α → Option κ}

variable {log ys xs : List α} {prev : Option κ} {a : α}

theorem linked_append :
    Linked key parent prev (xs ++ ys) ↔
      Linked key parent prev xs ∧ Linked key parent ((xs.getLast?.map key).or prev) ys := by
  induction xs generalizing prev with
  | nil => simp [Linked]
  | cons x xs ih =>
    have hlast : ((x :: xs).getLast?.map key).or prev =
        (xs.getLast?.map key).or (some (key x)) := by
      cases xs with
      | nil => rfl
      | cons y ys => rw [getLast?_cons_cons, getLast?_cons]; rfl
    rw [cons_append, Linked, Linked, ih, hlast, and_assoc]

theorem linked_snoc :
    Linked key parent none (xs ++ [a]) ↔
      Linked key parent none xs ∧ parent a = xs.getLast?.map key := by
  rw [linked_append]
  simp [Linked]

theorem Linked.parent_eq {b : α} (h : Linked key parent prev (xs ++ a :: b :: ys)) :
    parent b = some (key a) := by
  have h' := (linked_append.mp h).2
  exact h'.2.1

theorem Linked.parent_mem (h : Linked key parent none xs) (ha : a ∈ xs) {k : κ}
    (hk : parent a = some k) : k ∈ xs.map key := by
  obtain ⟨as, bs, rfl⟩ := append_of_mem ha
  have h' := (linked_append.mp h).2.1
  rw [hk, or_none, eq_comm, map_eq_some_iff] at h'
  obtain ⟨b, hb, rfl⟩ := h'
  exact mem_map_of_mem (mem_append_left _ (mem_of_getLast? hb))

theorem climb_linked {lookup : κ → Option α} (hx : Linked key parent none xs)
    (hl : ∀ a ∈ xs, lookup (key a) = some a) (fuel : ℕ) (hf : xs.length ≤ fuel) (acc : List α) :
    climb (fun a => (parent a).bind lookup) fuel xs.getLast? acc = some (xs ++ acc) := by
  induction xs using reverseRecOn generalizing fuel acc with
  | nil => cases fuel <;> rfl
  | append_singleton xs a ih =>
    obtain ⟨hxs, hpa⟩ := linked_snoc.mp hx
    have hnext : (parent a).bind lookup = xs.getLast? := by
      rw [hpa]
      cases hlast : xs.getLast? with
      | none => rfl
      | some b =>
        exact hl b (mem_append_left _ (mem_of_getLast? hlast))
    cases fuel with
    | zero => simp at hf
    | succ fuel =>
      have hf' : xs.length ≤ fuel := by simpa using hf
      rw [getLast?_concat, climb, hnext,
        ih hxs (fun b hb => hl b (mem_append_left _ hb)) fuel hf', append_assoc,
        singleton_append]

theorem grown_nil : Grown key parent [] := by
  intro xs a ys h
  simp at h

theorem Grown.concat (hg : Grown key parent log)
    (ha : ∀ k, parent a = some k → ∃ b ∈ log, key b = k) : Grown key parent (log ++ [a]) := by
  intro xs b ys h k hk
  obtain rfl | ⟨ys', c, rfl⟩ := eq_nil_or_concat ys
  · obtain ⟨rfl, hb⟩ := append_inj' h rfl
    obtain rfl : a = b := by simpa using hb
    exact ha k hk
  · have hsplit : log ++ [a] = (xs ++ b :: ys') ++ [c] := by simpa using h
    exact hg xs b ys' (append_inj' hsplit rfl).1 k hk

theorem Grown.exists_linked (hg : Grown key parent log) (ha : a ∈ log) :
    ∃ path, Linked key parent none path ∧ path.getLast? = some a ∧ path.Sublist log := by
  induction log using reverseRecOn generalizing a with
  | nil => simp at ha
  | append_singleton log b ih =>
    have hlog : Grown key parent log := fun xs c ys h =>
      hg xs c (ys ++ [b]) (by rw [h, append_assoc, cons_append])
    obtain hmem | hb := mem_append.mp ha
    · obtain ⟨path, hp, hlast, hsub⟩ := ih hlog hmem
      exact ⟨path, hp, hlast, hsub.trans (sublist_append_left _ _)⟩
    · obtain rfl : a = b := by simpa using hb
      cases hpa : parent a with
      | none =>
        exact ⟨[a], ⟨hpa, trivial⟩, rfl, sublist_append_right _ _⟩
      | some k =>
        obtain ⟨c, hc, rfl⟩ := hg log a [] rfl k hpa
        obtain ⟨path, hp, hlast, hsub⟩ := ih hlog hc
        exact ⟨path ++ [a], linked_snoc.mpr ⟨hp, by rw [hpa, hlast]; rfl⟩,
          getLast?_concat .., hsub.append (Sublist.refl _)⟩

section Climb

variable {next : α → Option α} {fuel fuel' : ℕ} {start : Option α} {path path' : List α}

theorem climb_acc (fuel : ℕ) (start : Option α) (acc : List α) :
    climb next fuel start acc = (climb next fuel start []).map (· ++ acc) := by
  induction fuel generalizing start acc with
  | zero => cases start <;> rfl
  | succ fuel ih =>
    cases start with
    | none => rfl
    | some a =>
      rw [climb, climb, ih (next a) (a :: acc), ih (next a) [a], Option.map_map]
      congr 1
      funext path
      simp

theorem climb_nil (h : climb next fuel start [] = some []) : start = none := by
  cases start with
  | none => rfl
  | some a =>
    cases fuel with
    | zero => cases h
    | succ fuel =>
      rw [climb, climb_acc] at h
      obtain ⟨front, -, hfront⟩ := map_eq_some_iff.mp h
      exact absurd hfront (by simp)

theorem climb_concat {front : List α} {a : α}
    (h : climb next fuel start [] = some (front ++ [a])) :
    start = some a ∧ ∃ fuel', climb next fuel' (next a) [] = some front := by
  cases start with
  | none => cases fuel <;> exact absurd (some.inj h) (by simp)
  | some b =>
    cases fuel with
    | zero => cases h
    | succ fuel =>
      rw [climb, climb_acc] at h
      obtain ⟨front', hfront, hpath⟩ := map_eq_some_iff.mp h
      obtain ⟨rfl, hlast⟩ := append_inj' hpath rfl
      obtain rfl := singleton_inj.mp hlast
      exact ⟨rfl, fuel, hfront⟩

theorem climb_unique (h : climb next fuel start [] = some path)
    (h' : climb next fuel' start [] = some path') : path = path' := by
  induction path using reverseRecOn generalizing fuel fuel' start path' with
  | nil =>
    rw [climb_nil h] at h'
    cases fuel' <;> exact some.inj h'
  | append_singleton front a ih =>
    obtain ⟨rfl, _, hfront⟩ := climb_concat h
    obtain rfl | ⟨front', b, rfl⟩ := eq_nil_or_concat' path'
    · cases climb_nil h'
    · obtain ⟨hlast, _, hfront'⟩ := climb_concat h'
      cases hlast
      rw [ih hfront hfront']

theorem climb_from_node (h : climb next fuel start [] = some path) {a : α} (ha : a ∈ path) :
    ∃ fuel' front, climb next fuel' (some a) [] = some front ∧ front.length ≤ path.length := by
  induction path using reverseRecOn generalizing fuel start with
  | nil => cases ha
  | append_singleton front b ih =>
    obtain ⟨rfl, _, hfront⟩ := climb_concat h
    obtain ha | ha := mem_append.mp ha
    · obtain ⟨fuel', front', hnode, hle⟩ := ih hfront ha
      refine ⟨fuel', front', hnode, ?_⟩
      rw [length_append]
      exact Nat.le_add_right_of_le hle
    · obtain rfl := mem_singleton.mp ha
      exact ⟨fuel, front ++ [a], h, Nat.le_refl _⟩

theorem climb_nodup (h : climb next fuel start [] = some path) : path.Nodup := by
  induction path using reverseRecOn generalizing fuel start with
  | nil => exact nodup_nil
  | append_singleton front a ih =>
    obtain ⟨rfl, _, hfront⟩ := climb_concat h
    refine nodup_append.mpr ⟨ih hfront, nodup_singleton a, ?_⟩
    rintro b hb _ ha rfl
    obtain rfl := mem_singleton.mp ha
    obtain ⟨_, path', hnode, hle⟩ := climb_from_node hfront hb
    have hlength := congrArg List.length (climb_unique h hnode)
    rw [length_append, length_singleton] at hlength
    omega

theorem climb_forall {P : α → Prop} (hnext : ∀ a b, next a = some b → P b)
    (hstart : ∀ a, start = some a → P a) (h : climb next fuel start [] = some path) :
    ∀ a ∈ path, P a := by
  induction path using reverseRecOn generalizing fuel start with
  | nil => exact nofun
  | append_singleton front a ih =>
    obtain ⟨rfl, _, hfront⟩ := climb_concat h
    intro b hb
    obtain hb | hb := mem_append.mp hb
    · exact ih (hnext a) hfront b hb
    · exact hstart b (by rw [mem_singleton.mp hb])

end Climb

end Draht.ParentChain
