import Mathlib.Data.List.Nodup

/-!
# Subscriptions

Callbacks in the order in which they were registered. Each has a number of its own, by which it is
taken away again, and an owner; an owner may have several.
-/

namespace Draht
open List

structure Subscriptions (ι : Type*) where
  entries : List (ℕ × ι)
  next : ℕ
  lt_next : ∀ entry ∈ entries, entry.1 < next
  nodup : (entries.map Prod.fst).Nodup

namespace Subscriptions

variable {ι : Type*}

def empty : Subscriptions ι := ⟨[], 0, by simp, by simp⟩

/-- The new subscription has the number `next`. -/
def subscribe (s : Subscriptions ι) (owner : ι) : Subscriptions ι where
  entries := s.entries ++ [(s.next, owner)]
  next := s.next + 1
  lt_next entry h := by
    obtain h | h := List.mem_append.mp h
    · exact Nat.lt_succ_of_lt (s.lt_next entry h)
    · rw [List.mem_singleton.mp h]
      exact Nat.lt_succ_self _
  nodup := by
    rw [List.map_append, List.nodup_append]
    refine ⟨s.nodup, by simp, ?_⟩
    intro k hk k' hk' heq
    obtain ⟨entry, hentry, rfl⟩ := List.mem_map.mp hk
    have hlt := s.lt_next entry hentry
    simp only [List.map_cons, List.map_nil, List.mem_singleton] at hk'
    omega

def unsubscribe (s : Subscriptions ι) (number : ℕ) : Subscriptions ι where
  entries := s.entries.filter fun entry => entry.1 ≠ number
  next := s.next
  lt_next entry h := s.lt_next entry (List.mem_filter.mp h).1
  nodup := s.nodup.sublist (List.filter_sublist.map _)

def clear (s : Subscriptions ι) : Subscriptions ι := ⟨[], s.next, by simp, by simp⟩

def Has (s : Subscriptions ι) (number : ℕ) (owner : ι) : Prop := (number, owner) ∈ s.entries

variable {s s' s'' : Subscriptions ι} {owner owner' : ι} {number number' : ℕ}

theorem Has.lt (h : s.Has number owner) : number < s.next := s.lt_next _ h

@[simp] theorem has_subscribe :
    (s.subscribe owner').Has number owner ↔
      s.Has number owner ∨ number = s.next ∧ owner = owner' := by
  simp [Has, subscribe]

@[simp] theorem has_unsubscribe :
    (s.unsubscribe number').Has number owner ↔ s.Has number owner ∧ number ≠ number' := by
  simp [Has, unsubscribe]

@[simp] theorem next_subscribe : (s.subscribe owner).next = s.next + 1 := rfl

@[simp] theorem next_unsubscribe : (s.unsubscribe number).next = s.next := rfl

section

variable [DecidableEq ι]

def count (s : Subscriptions ι) (owner : ι) : ℕ :=
  s.entries.countP fun entry => entry.2 = owner

theorem count_eq_zero (h : ∀ number, ¬ s.Has number owner) : s.count owner = 0 := by
  rw [count, countP_eq_zero]
  intro entry hentry heq
  exact h entry.1 (by rw [Has, ← of_decide_eq_true heq]; exact hentry)

theorem count_eq_one (h : ∀ number', s.Has number' owner ↔ number' = number) :
    s.count owner = 1 := by
  have hmem : s.Has number owner := (h number).mpr rfl
  obtain ⟨before, after, hsplit⟩ := append_of_mem hmem
  have hnodup := s.nodup
  rw [hsplit, map_append, map_cons, nodup_append, nodup_cons] at hnodup
  have hother : ∀ entry ∈ before ++ after, ¬ entry.2 = owner := by
    intro entry hentry heq
    have hhas : s.Has entry.1 owner := by
      rw [Has, hsplit, ← heq]
      obtain hentry | hentry := mem_append.mp hentry
      · exact mem_append_left _ hentry
      · exact mem_append_right _ (mem_cons_of_mem _ hentry)
    have hnumber := (h entry.1).mp hhas
    obtain hentry | hentry := mem_append.mp hentry
    · exact hnodup.2.2 entry.1 (mem_map_of_mem hentry) number (by simp) hnumber
    · have hfirst : entry.1 ∈ after.map Prod.fst := mem_map_of_mem hentry
      rw [hnumber] at hfirst
      exact hnodup.2.1.1 hfirst
  have hzero : (before ++ after).countP (fun entry => entry.2 = owner) = 0 := by
    rw [countP_eq_zero]
    intro entry hentry heq
    exact hother entry hentry (of_decide_eq_true heq)
  rw [count, hsplit, countP_append, countP_cons]
  rw [countP_append] at hzero
  simp only [decide_true, if_true]
  omega

end

/-- The owner's subscriptions stay, and no old number comes to anyone anew. -/
structure Spares (owner : ι) (s s' : Subscriptions ι) : Prop where
  next_le : s.next ≤ s'.next
  old : ∀ number owner', number < s.next → s'.Has number owner' → s.Has number owner'
  own : ∀ number, s'.Has number owner ↔ s.Has number owner

namespace Spares

theorem refl (owner : ι) (s : Subscriptions ι) : Spares owner s s :=
  ⟨Nat.le_refl _, fun _ _ _ h => h, fun _ => Iff.rfl⟩

theorem trans (h : Spares owner s s') (h' : Spares owner s' s'') : Spares owner s s'' where
  next_le := Nat.le_trans h.next_le h'.next_le
  old number owner' hlt hhas :=
    h.old number owner' hlt (h'.old number owner' (Nat.lt_of_lt_of_le hlt h.next_le) hhas)
  own number := (h'.own number).trans (h.own number)

theorem subscribe (h : owner ≠ owner') : Spares owner s (s.subscribe owner') where
  next_le := Nat.le_succ _
  old number owner' hlt hhas := by
    obtain hhas | ⟨rfl, _⟩ := has_subscribe.mp hhas
    · exact hhas
    · exact absurd hlt (Nat.lt_irrefl _)
  own number := by simp [h]

theorem unsubscribe (h : ¬ s.Has number owner) : Spares owner s (s.unsubscribe number) where
  next_le := Nat.le_refl _
  old number owner' _ hhas := (has_unsubscribe.mp hhas).1
  own number' := by
    rw [has_unsubscribe]
    constructor
    · exact And.left
    · rintro hhas
      refine ⟨hhas, ?_⟩
      rintro rfl
      exact h hhas

end Spares

end Subscriptions

end Draht
