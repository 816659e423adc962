import Mathlib.Data.List.Basic

/-!
# Items that enter two lists, some of them later

Items are recorded one after the other. An item enters a list of live items and a log at once, or it
waits and enters them later, with all others that wait. Items are numbered as they enter. The live
list may lose items and may be built again from the log. If no item enters at once while others
wait, the items enter in the order in which they were recorded.
-/

namespace Draht
open List

/-- The two lists, the items that wait, and the number of the next item. -/
structure Outbox (α : Type*) where
  live : List (ℕ × α)
  log : List (ℕ × α)
  waiting : List α
  next : ℕ

namespace Outbox

variable {α : Type*} {b b' : Outbox α} {x : α}

def enter (b : Outbox α) (x : α) : Outbox α :=
  { b with live := b.live ++ [(b.next, x)], log := b.log ++ [(b.next, x)], next := b.next + 1 }

def defer (b : Outbox α) (x : α) : Outbox α := { b with waiting := b.waiting ++ [x] }

def flush (b : Outbox α) : Outbox α := { b.waiting.foldl enter b with waiting := [] }

/-- The items that were given the number `n` or a later one. -/
def since (n : ℕ) (items : List (ℕ × α)) : List α :=
  (items.filter fun p => n ≤ p.1).map Prod.snd

/-- Nothing enters or is recorded; the live list has items that were there or are in the log. -/
structure Keeps (b b' : Outbox α) : Prop where
  live : ∀ p ∈ b'.live, p ∈ b.live ∨ p ∈ b.log
  log : b'.log = b.log
  waiting : b'.waiting = b.waiting
  next : b.next ≤ b'.next

inductive Step (b : Outbox α) : List α → Outbox α → Prop
  | keep {b' : Outbox α} (h : Keeps b b') : Step b [] b'
  | enter (x : α) (h : b.waiting = []) : Step b [x] (b.enter x)
  | defer (x : α) : Step b [x] (b.defer x)
  | flush : Step b [] b.flush

structure Bounded (b : Outbox α) : Prop where
  live : ∀ p ∈ b.live, p.1 < b.next
  log : ∀ p ∈ b.log, p.1 < b.next

theorem since_append (n : ℕ) (items items' : List (ℕ × α)) :
    since n (items ++ items') = since n items ++ since n items' := by
  rw [since, filter_append, map_append]
  rfl

theorem since_eq_nil {n : ℕ} {items : List (ℕ × α)} (h : ∀ p ∈ items, p.1 < n) :
    since n items = [] := by
  have hnone : items.filter (fun p => n ≤ p.1) = [] :=
    filter_eq_nil_iff.mpr fun p hp => by simpa using h p hp
  rw [since, hnone, map_nil]

theorem Bounded.keep (hb : b.Bounded) (h : Keeps b b') : b'.Bounded := by
  have hlog (p : ℕ × α) (hp : p ∈ b.log) : p.1 < b'.next := Nat.lt_of_lt_of_le (hb.log p hp) h.next
  refine ⟨fun p hp => ?_, fun p hp => hlog p (h.log ▸ hp)⟩
  obtain hp | hp := h.live p hp
  · exact Nat.lt_of_lt_of_le (hb.live p hp) h.next
  · exact hlog p hp

theorem Bounded.enter (hb : b.Bounded) (x : α) : (b.enter x).Bounded := by
  have hlist {items : List (ℕ × α)} (h : ∀ p ∈ items, p.1 < b.next) :
      ∀ p ∈ items ++ [(b.next, x)], p.1 < b.next + 1 := by
    intro p hp
    obtain hp | hp := mem_append.mp hp
    · exact Nat.lt_succ_of_lt (h p hp)
    · rw [mem_singleton.mp hp]
      exact Nat.lt_succ_self _
  exact ⟨hlist hb.live, hlist hb.log⟩

theorem foldl_enter (items : List α) (hb : b.Bounded) :
    (items.foldl Outbox.enter b).Bounded ∧ b.next ≤ (items.foldl Outbox.enter b).next ∧
      (items.foldl Outbox.enter b).log.map Prod.snd = b.log.map Prod.snd ++ items ∧
      ∀ n ≤ b.next, since n (items.foldl Outbox.enter b).live = since n b.live ++ items := by
  induction items generalizing b with
  | nil => exact ⟨hb, Nat.le_refl _, by simp, by simp⟩
  | cons x items ih =>
    obtain ⟨hbounded, hnext, hlog, hlive⟩ := ih (hb.enter x)
    refine ⟨hbounded, Nat.le_of_succ_le hnext, ?_, fun n hn => ?_⟩
    · rw [foldl_cons, hlog, Outbox.enter, map_append, append_assoc]
      rfl
    · have hone : since n [(b.next, x)] = [x] := by simp [since, hn]
      rw [foldl_cons, hlive n (Nat.le_succ_of_le hn), Outbox.enter, since_append, hone,
        append_assoc, singleton_append]

/-- What comes into the lists from `b` to `b'` is `items`, in their order. -/
structure Enters (b : Outbox α) (items : List α) (b' : Outbox α) : Prop where
  live : since b.next b'.live = items
  log : b'.log.map Prod.snd = b.log.map Prod.snd ++ items

theorem Step.enters {recorded : List α} (h : Step b recorded b') (hb : b.Bounded) :
    b'.Bounded ∧ ∃ items, Enters b items b' ∧ items ++ b'.waiting = b.waiting ++ recorded := by
  have hnone : since b.next b.live = [] := since_eq_nil hb.live
  cases h with
  | keep h =>
    refine ⟨hb.keep h, [], ⟨since_eq_nil fun p hp => ?_, by rw [h.log, append_nil]⟩,
      by rw [h.waiting, nil_append, append_nil]⟩
    exact (h.live p hp).elim (hb.live p) (hb.log p)
  | enter x hwaiting =>
    obtain ⟨hbounded, -, hlog, hlive⟩ := foldl_enter [x] hb
    refine ⟨hbounded, [x], ⟨?_, hlog⟩, ?_⟩
    · have hsince := hlive b.next (Nat.le_refl _)
      rwa [hnone, nil_append] at hsince
    · change [x] ++ b.waiting = b.waiting ++ [x]
      rw [hwaiting, nil_append, append_nil]
  | defer x => exact ⟨⟨hb.live, hb.log⟩, [], ⟨hnone, (append_nil _).symm⟩, rfl⟩
  | flush =>
    obtain ⟨hbounded, -, hlog, hlive⟩ := foldl_enter b.waiting hb
    have hsince := hlive b.next (Nat.le_refl _)
    rw [hnone, nil_append] at hsince
    exact ⟨⟨hbounded.live, hbounded.log⟩, b.waiting, ⟨hsince, hlog⟩,
      by rw [append_nil]; exact append_nil _⟩

end Outbox

end Draht
