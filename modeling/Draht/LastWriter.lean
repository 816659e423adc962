import Mathlib.Data.List.Induction

/-!
# The last writer

A state is changed by one writer after another. What can be read of it under a key is what the last
writer of that key has written; so it is the same after two sequences of writers in which the last
writer of the key is the same.
-/

namespace Draht
open List

section

variable {ω : Type*}

def lastBy (p : ω → Bool) (ws : List ω) : Option ω := ws.reverse.find? p

@[simp] theorem lastBy_append_singleton (p : ω → Bool) (ws : List ω) (w : ω) :
    lastBy p (ws ++ [w]) = if p w then some w else lastBy p ws := by
  rw [lastBy, reverse_append, reverse_singleton, singleton_append, find?_cons]
  cases p w <;> rfl

variable {ws' ws : List ω} {p : ω → Bool} {w : ω}

theorem lastBy_some (h : lastBy p ws = some w) : p w = true := find?_some h

theorem lastBy_of_or {q : ω → Bool} (h : lastBy (fun w => p w || q w) ws = some w) (hp : p w = true) :
    lastBy p ws = some w := by
  induction ws using reverseRecOn with
  | nil => cases h
  | append_singleton ws v ih =>
    rw [lastBy_append_singleton] at h ⊢
    cases hv : p v with
    | true => simpa [hv] using h
    | false =>
      split_ifs at h with hq
      · cases h
        rw [hp] at hv
        cases hv
      · exact ih h

variable {κ β σ : Type*} {writes : ω → κ → Option β} (read : σ → κ → β) {step : σ → ω → σ}

def lastWriter (writes : ω → κ → Option β) (k : κ) (ws : List ω) : Option ω :=
  lastBy (fun w => (writes w k).isSome) ws

theorem read_foldl (h : ∀ s w k, read (step s w) k = (writes w k).getD (read s k)) (s : σ)
    (ws : List ω) (k : κ) :
    read (ws.foldl step s) k = ((lastWriter writes k ws).bind (writes · k)).getD (read s k) := by
  induction ws using reverseRecOn with
  | nil => rfl
  | append_singleton ws w ih =>
    rw [foldl_append, foldl_cons, foldl_nil, h, ih, lastWriter, lastWriter, lastBy_append_singleton]
    cases hw : writes w k with
    | none => rfl
    | some value => simp [hw]

theorem read_foldl_congr (h : ∀ s w k, read (step s w) k = (writes w k).getD (read s k)) (s : σ)
    {k : κ} (hlast : lastWriter writes k ws = lastWriter writes k ws') :
    read (ws.foldl step s) k = read (ws'.foldl step s) k := by
  rw [read_foldl read h, read_foldl read h, hlast]

variable {α : Type*} {f : ω → α → α} {replaces edits : ω → Bool}

/-- An edit undoes the edits before it, so that only the last replacement and the last edit after it
count. -/
structure Absorbs (f : ω → α → α) (replaces edits : ω → Bool) : Prop where
  replace : ∀ w, replaces w = true → ∀ x y, f w x = f w y
  edit : ∀ w w', edits w = true → edits w' = true → ∀ x, f w' (f w x) = f w' x
  other : ∀ w, replaces w = false → edits w = false → ∀ x, f w x = x

theorem Absorbs.foldl (h : Absorbs f replaces edits) (x : α) (ws : List ω) :
    ws.foldl (fun x w => f w x) x =
      (lastBy (fun w => replaces w || edits w) ws).elim x fun w =>
        f w ((lastBy replaces ws).elim x fun w => f w x) := by
  induction ws using reverseRecOn with
  | nil => rfl
  | append_singleton ws w ih =>
    rw [foldl_append, foldl_cons, foldl_nil, lastBy_append_singleton, lastBy_append_singleton]
    cases hreplaces : replaces w with
    | true => exact h.replace w hreplaces _ _
    | false =>
      cases hedits : edits w with
      | false =>
        rw [h.other w hreplaces hedits]
        exact ih
      | true =>
        rw [ih]
        cases hlast : lastBy (fun w => replaces w || edits w) ws with
        | none =>
          have hnone : lastBy replaces ws = none := by
            rw [lastBy, find?_eq_none] at hlast ⊢
            intro v hv hreplaced
            exact hlast v hv (by simp [hreplaced])
          rw [hnone]
          rfl
        | some v =>
          cases hv : replaces v with
          | true =>
            rw [lastBy_of_or hlast hv]
            exact congrArg (f w) (h.replace v hv _ _)
          | false =>
            have hedit : edits v = true := by simpa [hv] using lastBy_some hlast
            exact h.edit v w hedit hedits _

theorem Absorbs.foldl_congr (h : Absorbs f replaces edits) (x : α)
    (hreplaces : lastBy replaces ws = lastBy replaces ws')
    (hlast : lastBy (fun w => replaces w || edits w) ws =
      lastBy (fun w => replaces w || edits w) ws') :
    ws.foldl (fun x w => f w x) x = ws'.foldl (fun x w => f w x) x := by
  rw [h.foldl, h.foldl, hreplaces, hlast]

end

end Draht
