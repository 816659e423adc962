import Mathlib.Data.List.Basic

/-!
# Items kept in memory up to a limit, with a file for all of them

Items come in one by one. The latest are kept while their sizes stay within a limit, the last one
whatever its size. Once more was received than a smaller limit allows, everything goes to a file as
well, which starts with the items kept so far.
-/

namespace Draht

variable {α : Type}

def totalSize (size : α → ℕ) : List α → ℕ
  | [] => 0
  | x :: items => size x + totalSize size items

theorem totalSize_append (size : α → ℕ) (items more : List α) :
    totalSize size (items ++ more) = totalSize size items + totalSize size more := by
  induction items with
  | nil => exact (Nat.zero_add _).symm
  | cons x items ih =>
    rw [List.cons_append, totalSize, totalSize, ih]
    omega

/-- The oldest items are dropped while the total is over the limit and more than one is left. -/
def dropOldest (size : α → ℕ) (limit : ℕ) : List α → ℕ → List α × ℕ
  | x :: y :: rest, total =>
    if total > limit then dropOldest size limit (y :: rest) (total - size x)
    else (x :: y :: rest, total)
  | items, total => (items, total)

/-- The longest run of last items within the limit, or the last item alone. -/
def fitting (size : α → ℕ) (limit : ℕ) : List α → List α
  | x :: y :: rest =>
    if totalSize size (x :: y :: rest) ≤ limit then x :: y :: rest
    else fitting size limit (y :: rest)
  | items => items

variable {size : α → ℕ} {limit : ℕ}

theorem fitting_eq_self {items : List α} (h : totalSize size items ≤ limit) :
    fitting size limit items = items := by
  match items with
  | [] => rfl
  | [_] => rfl
  | _ :: _ :: _ => exact if_pos h

theorem fitting_suffix (size : α → ℕ) (limit : ℕ) (items : List α) :
    fitting size limit items <:+ items := by
  induction items with
  | nil => exact List.suffix_rfl
  | cons x items ih =>
    cases items with
    | nil => exact List.suffix_rfl
    | cons y rest =>
      rw [fitting]
      split_ifs
      · exact List.suffix_rfl
      · exact ih.trans (List.suffix_cons _ _)

theorem dropOldest_eq (items : List α) :
    dropOldest size limit items (totalSize size items) =
      (fitting size limit items, totalSize size (fitting size limit items)) := by
  induction items with
  | nil => rfl
  | cons x items ih =>
    cases items with
    | nil => rfl
    | cons y rest =>
      rw [dropOldest, fitting]
      by_cases h : totalSize size (x :: y :: rest) ≤ limit
      · rw [if_neg (by omega), if_pos h]
      · have htotal :
            totalSize size (x :: y :: rest) - size x = totalSize size (y :: rest) := by
          rw [totalSize]
          omega
        rw [if_pos (by omega), if_neg h, htotal, ih]

theorem fitting_concat (items : List α) (x : α) :
    fitting size limit (fitting size limit items ++ [x]) = fitting size limit (items ++ [x]) := by
  induction items with
  | nil => rfl
  | cons y items ih =>
    cases items with
    | nil => rfl
    | cons z rest =>
      rw [fitting]
      split_ifs with h
      · rfl
      · have hmore : ¬totalSize size (y :: z :: rest ++ [x]) ≤ limit := by
          rw [totalSize_append]
          omega
        rw [ih]
        exact (if_neg hmore).symm

structure Capture (α : Type) where
  chunks : List α
  chunksSize : ℕ
  received : ℕ
  file : Option (List α)

namespace Capture

def empty : Capture α := { chunks := [], chunksSize := 0, received := 0, file := none }

def ensureFile (c : Capture α) : Capture α := { c with file := some (c.file.getD c.chunks) }

/-- An item that is made of `amount` more of what is received. -/
def receive (size : α → ℕ) (spill limit amount : ℕ) (x : α) (c : Capture α) : Capture α :=
  let c := { c with received := c.received + amount }
  let c := if c.received > spill then c.ensureFile else c
  let kept := dropOldest size limit (c.chunks ++ [x]) (c.chunksSize + size x)
  { c with
    chunks := kept.1, chunksSize := kept.2, file := c.file.map fun written => written ++ [x] }

/-- `items` came in: the latest are kept, and a file holds all of them; without a file none was
dropped. -/
structure Holds (size : α → ℕ) (limit : ℕ) (c : Capture α) (items : List α) : Prop where
  chunks : c.chunks = fitting size limit items
  chunksSize : c.chunksSize = totalSize size c.chunks
  file : ∀ written, c.file = some written → written = items
  kept : c.file = none → c.chunks = items

theorem holds_empty : (empty : Capture α).Holds size limit [] :=
  ⟨rfl, rfl, fun _ h => (nomatch h), fun _ => rfl⟩

variable {c : Capture α} {items : List α}

theorem Holds.ensureFile (h : c.Holds size limit items) : c.ensureFile.Holds size limit items := by
  refine ⟨h.chunks, h.chunksSize, ?_, fun hnone => nomatch hnone⟩
  intro written hwritten
  cases hwritten
  cases hfile : c.file with
  | none => exact h.kept hfile
  | some written => exact h.file written hfile

theorem Holds.receive {spill amount : ℕ} {x : α} (h : c.Holds size limit items)
    (hspill : spill ≤ limit) (hsize : totalSize size (items ++ [x]) ≤ c.received + amount) :
    (c.receive size spill limit amount x).Holds size limit (items ++ [x]) := by
  -- With or without a new file, the items before `x` are held.
  have hbefore : ∀ c' : Capture α, c'.Holds size limit items →
      (c'.file = none → totalSize size (items ++ [x]) ≤ limit) →
      ({ c' with
        chunks := (dropOldest size limit (c'.chunks ++ [x]) (c'.chunksSize + size x)).1
        chunksSize := (dropOldest size limit (c'.chunks ++ [x]) (c'.chunksSize + size x)).2
        file := c'.file.map fun written => written ++ [x] } : Capture α).Holds size limit
          (items ++ [x]) := by
    intro c' h' hfits
    have htotal : c'.chunksSize + size x = totalSize size (c'.chunks ++ [x]) := by
      rw [h'.chunksSize, totalSize_append]
      rfl
    have hdrop : dropOldest size limit (c'.chunks ++ [x]) (c'.chunksSize + size x) =
        (fitting size limit (items ++ [x]),
          totalSize size (fitting size limit (items ++ [x]))) := by
      rw [htotal, dropOldest_eq, h'.chunks, fitting_concat]
    rw [hdrop]
    refine ⟨rfl, rfl, ?_, ?_⟩
    · intro written hwritten
      obtain ⟨before, hfile, rfl⟩ := Option.map_eq_some_iff.mp hwritten
      rw [h'.file before hfile]
    · intro hnone
      exact fitting_eq_self (hfits (Option.map_eq_none_iff.mp hnone))
  have hcounted : { c with received := c.received + amount }.Holds size limit items :=
    ⟨h.chunks, h.chunksSize, h.file, h.kept⟩
  by_cases hover : c.received + amount > spill
  · have hout := hbefore _ hcounted.ensureFile (fun hnone => nomatch hnone)
    simpa only [Capture.receive, if_pos hover] using hout
  · have hout := hbefore _ hcounted (fun _ => by omega)
    simpa only [Capture.receive, if_neg hover] using hout

end Capture

end Draht
