import Mathlib.Data.List.Basic
import Mathlib.Data.Int.Notation

/-!
# Logs of blocks that are built side by side

Blocks are appended to a list; while a block is open, pieces are added to it, and it is closed at
last. The log has a mark for each of these steps, with the position of the block that it is about.
-/

namespace Draht
open List

inductive Mark (κ δ ε : Type*) where
  | opened (kind : κ)
  | piece (kind : κ) (delta : δ)
  | closed (kind : κ) (content : ε)
deriving DecidableEq

/-- How a block is read: its kind, what it is made of if it grew by some pieces, and what the mark
of its end says at a position. -/
structure BlockReading (β κ δ ε : Type*) where
  kind : β → κ
  grown : β → List δ → Prop
  closing : ℤ → β → ε

variable {β κ δ ε : Type*} (R : BlockReading β κ δ ε)

def marksOf (log : List (ℤ × Mark κ δ ε)) (i : ℤ) : List (Mark κ δ ε) :=
  (log.filter (·.1 = i)).map Prod.snd

/-- The marks of a block: it is opened, grows, and is closed as what it is unless it is open. -/
def Entry (isOpen : Prop) (i : ℤ) (block : β) (marks : List (Mark κ δ ε)) : Prop :=
  ∃ deltas tail,
    marks = .opened (R.kind block) :: (deltas.map (.piece (R.kind block)) ++ tail) ∧
      R.grown block deltas ∧ (isOpen → tail = []) ∧
      (¬ isOpen → tail = [.closed (R.kind block) (R.closing i block)])

structure Bracketed (content : List β) (isOpen : ℕ → Prop) (log : List (ℤ × Mark κ δ ε)) :
    Prop where
  entry : ∀ (i : ℕ) block, content[i]? = some block → Entry R (isOpen i) i block (marksOf log i)
  within : ∀ e ∈ log, ∃ i : ℕ, i < content.length ∧ e.1 = i

variable {R}

namespace Entry

variable {isOpen : Prop} {i : ℤ} {block block' : β} {marks : List (Mark κ δ ε)}

theorem opened (hopen : isOpen) (hgrown : R.grown block []) :
    Entry R isOpen i block [.opened (R.kind block)] :=
  ⟨[], [], rfl, hgrown, fun _ => rfl, fun hclosed => absurd hopen hclosed⟩

theorem piece (h : Entry R isOpen i block marks) (hopen : isOpen) {isOpen' : Prop}
    (hopen' : isOpen') {delta : δ} (hkind : R.kind block' = R.kind block)
    (hgrown : ∀ deltas, R.grown block deltas → R.grown block' (deltas ++ [delta])) :
    Entry R isOpen' i block' (marks ++ [.piece (R.kind block) delta]) := by
  obtain ⟨deltas, tail, hmarks, hblock, htail, _⟩ := h
  refine ⟨deltas ++ [delta], [], ?_, hgrown deltas hblock, fun _ => rfl, fun hclosed =>
    absurd hopen' hclosed⟩
  rw [hmarks, htail hopen, hkind, map_append]
  simp

theorem closed (h : Entry R isOpen i block marks) (hopen : isOpen) {isOpen' : Prop}
    (hclosed : ¬ isOpen') (hkind : R.kind block' = R.kind block)
    (hgrown : ∀ deltas, R.grown block deltas → R.grown block' deltas) :
    Entry R isOpen' i block' (marks ++ [.closed (R.kind block') (R.closing i block')]) := by
  obtain ⟨deltas, tail, hmarks, hblock, htail, _⟩ := h
  refine ⟨deltas, _, ?_, hgrown deltas hblock, fun hopen' => absurd hopen' hclosed, fun _ => rfl⟩
  rw [hmarks, htail hopen, hkind]
  simp

theorem touched (h : Entry R isOpen i block marks) {isOpen' : Prop} (hopen : isOpen' ↔ isOpen)
    (hkind : R.kind block' = R.kind block)
    (hgrown : ∀ deltas, R.grown block deltas → R.grown block' deltas)
    (hclosing : ¬ isOpen → R.closing i block' = R.closing i block) :
    Entry R isOpen' i block' marks := by
  obtain ⟨deltas, tail, hmarks, hblock, htail, htail'⟩ := h
  refine ⟨deltas, tail, by rw [hmarks, hkind], hgrown deltas hblock,
    fun hopen' => htail (hopen.mp hopen'), fun hclosed => ?_⟩
  have hclosed' : ¬ isOpen := fun hopen' => hclosed (hopen.mpr hopen')
  rw [htail' hclosed', hkind, hclosing hclosed']

end Entry

theorem marksOf_append (log log' : List (ℤ × Mark κ δ ε)) (i : ℤ) :
    marksOf (log ++ log') i = marksOf log i ++ marksOf log' i := by
  simp [marksOf]

theorem marksOf_self (marks : List (Mark κ δ ε)) (i : ℤ) :
    marksOf (marks.map fun m => (i, m)) i = marks := by
  induction marks with
  | nil => rfl
  | cons m marks ih => simpa [marksOf] using ih

theorem marksOf_ne {i j : ℤ} (marks : List (Mark κ δ ε)) (h : j ≠ i) :
    marksOf (marks.map fun m => (i, m)) j = [] := by
  induction marks with
  | nil => rfl
  | cons m marks ih => simp [marksOf, Ne.symm h]

namespace Bracketed

variable {content : List β} {isOpen isOpen' : ℕ → Prop} {log : List (ℤ × Mark κ δ ε)}

theorem nil (isOpen : ℕ → Prop) : Bracketed R [] isOpen [] :=
  ⟨fun i block h => by simp at h, fun e he => by simp at he⟩

theorem marksOf_eq_nil (h : Bracketed R content isOpen log) {i : ℕ} (hi : content.length ≤ i) :
    marksOf log i = [] := by
  rw [marksOf, map_eq_nil_iff, filter_eq_nil_iff]
  intro e he heq
  obtain ⟨j, hj, hej⟩ := h.within e he
  rw [decide_eq_true_eq, hej] at heq
  omega

theorem open_block (h : Bracketed R content isOpen log) {block : β} (hgrown : R.grown block [])
    (hself : isOpen' content.length) (hother : ∀ i, i < content.length → (isOpen' i ↔ isOpen i)) :
    Bracketed R (content ++ [block]) isOpen'
      (log ++ [((content.length : ℤ), .opened (R.kind block))]) := by
  have hlog : log ++ [((content.length : ℤ), Mark.opened (R.kind block))] =
      log ++ [Mark.opened (R.kind block)].map fun m => ((content.length : ℤ), m) := rfl
  rw [hlog]
  refine ⟨fun i block' hblock' => ?_, fun e he => ?_⟩
  · rw [marksOf_append]
    obtain hlt | rfl | hgt := Nat.lt_trichotomy i content.length
    · rw [getElem?_append_left hlt] at hblock'
      rw [marksOf_ne _ (by omega), append_nil]
      exact (h.entry i block' hblock').touched (hother i hlt) rfl (fun _ hg => hg) fun _ => rfl
    · rw [getElem?_concat_length, Option.some_inj] at hblock'
      subst hblock'
      rw [h.marksOf_eq_nil (Nat.le_refl _), marksOf_self, nil_append]
      exact .opened hself hgrown
    · rw [getElem?_eq_none (by simp; omega)] at hblock'
      cases hblock'
  · rw [length_append, length_singleton]
    obtain he | he := mem_append.mp he
    · obtain ⟨i, hi, heq⟩ := h.within e he
      exact ⟨i, by omega, heq⟩
    · rw [map_singleton, mem_singleton] at he
      exact ⟨content.length, by omega, by rw [he]⟩

theorem update (h : Bracketed R content isOpen log) (i : ℕ) (f : β → β)
    (added : List (Mark κ δ ε)) (hi : i < content.length)
    (hself : ∀ block, content[i]? = some block → Entry R (isOpen i) i block (marksOf log i) →
      Entry R (isOpen' i) i (f block) (marksOf log i ++ added))
    (hother : ∀ j, j ≠ i → (isOpen' j ↔ isOpen j)) :
    Bracketed R (content.modify i f) isOpen' (log ++ added.map fun m => ((i : ℤ), m)) := by
  refine ⟨fun j block' hblock' => ?_, fun e he => ?_⟩
  · rw [marksOf_append]
    rw [getElem?_modify] at hblock'
    by_cases hj : j = i
    · subst hj
      simp only [if_true] at hblock'
      obtain ⟨block, hblock, rfl⟩ := Option.map_eq_some_iff.mp hblock'
      rw [marksOf_self]
      exact hself block hblock (h.entry j block hblock)
    · simp only [if_neg (Ne.symm hj), id_map'] at hblock'
      rw [marksOf_ne _ (by omega), append_nil]
      exact (h.entry j block' hblock').touched (hother j hj) rfl (fun _ hg => hg) fun _ => rfl
  · rw [length_modify]
    obtain he | he := mem_append.mp he
    · exact h.within e he
    · obtain ⟨m, _, rfl⟩ := mem_map.mp he
      exact ⟨i, hi, rfl⟩

theorem congr (h : Bracketed R content isOpen log)
    (hopen : ∀ i, i < content.length → (isOpen' i ↔ isOpen i)) :
    Bracketed R content isOpen' log :=
  ⟨fun i block hblock => (h.entry i block hblock).touched
    (hopen i (List.getElem?_eq_some_iff.mp hblock).1) rfl (fun _ hg => hg) fun _ => rfl, h.within⟩

end Bracketed

end Draht
