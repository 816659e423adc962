import Mathlib.Data.List.Count

/-!
# Keys that are opened and asked for

A list in which elements open keys and ask for one. A key that is asked for has been opened once if
the elements before open it, and nothing asks for a key after it is opened a second time.
-/

namespace Draht
open List

namespace AskedKeys

variable {M κ : Type*} [DecidableEq κ] (opens : M → List κ) (asks : M → Option κ)

/-- What is asked for has been opened once, by the elements before or among the `earlier` keys. -/
def OpenedOnce (earlier : List κ) : List M → Prop
  | [] => True
  | m :: ms => (∀ k ∈ asks m, earlier.count k = 1) ∧ OpenedOnce (earlier ++ opens m) ms

def Opened (ms : List M) : Prop :=
  ∀ before m after k, ms = before ++ m :: after → asks m = some k → k ∈ before.flatMap opens

variable {opens asks} {earlier : List κ} {ms xs ys : List M} {k : κ}

theorem openedOnce_append : OpenedOnce opens asks earlier (xs ++ ys) ↔
    OpenedOnce opens asks earlier xs ∧ OpenedOnce opens asks (earlier ++ xs.flatMap opens) ys := by
  induction xs generalizing earlier with
  | nil => simp [OpenedOnce]
  | cons x xs ih =>
    rw [cons_append, OpenedOnce, OpenedOnce, ih, flatMap_cons, append_assoc, and_assoc]

theorem openedOnce_iff : OpenedOnce opens asks earlier ms ↔
    ∀ before m after k, ms = before ++ m :: after → asks m = some k →
      (earlier ++ before.flatMap opens).count k = 1 := by
  constructor
  · rintro h before m after k rfl hk
    exact (openedOnce_append.mp h).2.1 k hk
  · intro h
    induction ms generalizing earlier with
    | nil => trivial
    | cons x ms ih =>
      refine ⟨fun k hk => ?_, ih fun before m after k hms hk => ?_⟩
      · have hone := h [] x ms k rfl hk
        rwa [flatMap_nil, append_nil] at hone
      · rw [append_assoc]
        exact h (x :: before) m after k (by rw [hms, cons_append]) hk

theorem openedOnce_of_opens_nil (hopens : ∀ m ∈ ms, opens m = []) :
    OpenedOnce opens asks earlier ms ↔ ∀ m ∈ ms, ∀ k ∈ asks m, earlier.count k = 1 := by
  induction ms with
  | nil => simp [OpenedOnce]
  | cons m ms ih =>
    rw [OpenedOnce, hopens m mem_cons_self, append_nil,
      ih fun x hx => hopens x (mem_cons_of_mem m hx), forall_mem_cons]

theorem openedOnce_of_asks_none (hasks : ∀ m ∈ ms, asks m = none) :
    OpenedOnce opens asks earlier ms := by
  rw [openedOnce_iff]
  rintro before m after k rfl hk
  rw [hasks m (by simp)] at hk
  cases hk

theorem exists_last (h : k ∈ ms.flatMap opens) :
    ∃ before m after, ms = before ++ m :: after ∧ k ∈ opens m ∧ k ∉ after.flatMap opens := by
  induction ms with
  | nil => simp at h
  | cons x ms ih =>
    by_cases hlater : k ∈ ms.flatMap opens
    · obtain ⟨before, m, after, rfl, hm, hafter⟩ := ih hlater
      exact ⟨x :: before, m, after, rfl, hm, hafter⟩
    · rw [flatMap_cons, mem_append] at h
      exact ⟨[], x, ms, rfl, h.resolve_right hlater, hlater⟩

def NotAgain (opens : M → List κ) (asks : M → Option κ) (ms : List M) : Prop :=
  ∀ before m after k, ms = before ++ m :: after → k ∈ opens m →
    ((before ++ [m]).flatMap opens).count k ≠ 1 → ∀ x ∈ after, asks x ≠ some k

theorem openedOnce_nil_iff : OpenedOnce opens asks [] ms ↔
    Opened opens asks ms ∧ NotAgain opens asks ms := by
  simp only [openedOnce_iff, nil_append]
  constructor
  · refine fun h => ⟨fun before m after k hms hk => ?_, ?_⟩
    · exact count_pos_iff.mp (h before m after k hms hk ▸ Nat.one_pos)
    · rintro before m after k rfl hm htwice x hx hk
      obtain ⟨mid, rest, rfl⟩ := append_of_mem hx
      have hone := h (before ++ m :: mid) x rest k (by simp) hk
      refine htwice ?_
      have hpos : 0 < ((before ++ [m]).flatMap opens).count k := count_pos_iff.mpr
        (mem_flatMap.mpr ⟨m, by simp, hm⟩)
      rw [show before ++ m :: mid = (before ++ [m]) ++ mid by simp, flatMap_append,
        count_append] at hone
      omega
  · rintro ⟨hopened, hnot⟩ before m after k rfl hk
    obtain ⟨first, x, mid, rfl, hx, hmid⟩ := exists_last (hopened before m after k rfl hk)
    by_contra htwice
    refine hnot first x (mid ++ m :: after) k (by simp) hx ?_ m (by simp) hk
    rw [show first ++ x :: mid = (first ++ [x]) ++ mid by simp, flatMap_append,
      count_append, count_eq_zero.mpr hmid] at htwice
    exact htwice

end AskedKeys

end Draht
