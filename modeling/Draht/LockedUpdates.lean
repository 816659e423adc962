import Mathlib.Data.List.Permutation

/-!
# Updates under a lock

Calls work on one value; a table holds what each call is at. A lock is owned by the calls that are
inside their critical section, so by one at most. The value is serial if it is what the updates of
the calls that are done make of the first value, one after another in some order.
-/

namespace Draht
open List Option

variable {γ β τ : Type*}

/-- The lock is taken by a call if and only if that call is in its critical section. -/
structure LockOwner (holds : γ → Bool) (calls : List γ) (lock : Option ℕ) : Prop where
  owner : ∀ i, lock = some i → ∃ c, calls[i]? = some c ∧ holds c = true
  held : ∀ i c, calls[i]? = some c → holds c = true → lock = some i

namespace LockOwner

variable {holds : γ → Bool} {calls : List γ} {lock : Option ℕ} {i : ℕ} {c : γ} {f : γ → γ}

theorem start : LockOwner holds [] none :=
  ⟨fun _ h => absurd h (by simp), fun _ _ h => absurd h (by simp)⟩

theorem append (h : LockOwner holds calls lock) (hc : holds c = false) :
    LockOwner holds (calls ++ [c]) lock := by
  refine ⟨?_, ?_⟩
  · intro j hj
    obtain ⟨d, hd, hholds⟩ := h.owner j hj
    exact ⟨d, (List.getElem?_append_left (List.getElem?_eq_some_iff.mp hd).1).trans hd, hholds⟩
  · intro j d hd hholds
    rw [getElem?_append] at hd
    split_ifs at hd
    · exact h.held j d hd hholds
    · obtain rfl := mem_singleton.mp (mem_of_getElem? hd)
      exact absurd (hc.symm.trans hholds) Bool.noConfusion

theorem getElem?_modify_eq_some {j : ℕ} {d : γ} :
    (calls.modify i f)[j]? = some d ↔
      ∃ d₀, calls[j]? = some d₀ ∧ d = if i = j then f d₀ else d₀ := by
  rw [List.getElem?_modify, Option.map_eq_map, Option.map_eq_some_iff]
  simp [eq_comm]

theorem modify (h : LockOwner holds calls lock) (hc : calls[i]? = some c)
    (hsame : holds (f c) = holds c) : LockOwner holds (calls.modify i f) lock := by
  refine ⟨?_, ?_⟩
  · intro j hj
    obtain ⟨d, hd, hholds⟩ := h.owner j hj
    refine ⟨_, getElem?_modify_eq_some.mpr ⟨d, hd, rfl⟩, ?_⟩
    split_ifs with hij
    · subst hij
      obtain rfl := some.inj (hc.symm.trans hd)
      exact hsame.trans hholds
    · exact hholds
  · intro j d hd hholds
    obtain ⟨d₀, hd₀, rfl⟩ := getElem?_modify_eq_some.mp hd
    refine h.held j d₀ hd₀ ?_
    split_ifs at hholds with hij
    · subst hij
      obtain rfl := some.inj (hc.symm.trans hd₀)
      exact hsame.symm.trans hholds
    · exact hholds

theorem acquire (h : LockOwner holds calls none) (hc : calls[i]? = some c)
    (hf : holds (f c) = true) : LockOwner holds (calls.modify i f) (some i) := by
  refine ⟨?_, ?_⟩
  · rintro j hj
    cases hj
    exact ⟨f c, getElem?_modify_eq_some.mpr ⟨c, hc, (if_pos rfl).symm⟩, hf⟩
  · intro j d hd hholds
    obtain ⟨d₀, hd₀, rfl⟩ := getElem?_modify_eq_some.mp hd
    split_ifs at hholds with hij
    · exact congrArg some hij
    · exact absurd (h.held j d₀ hd₀ hholds) (by simp)

theorem release (h : LockOwner holds calls lock) (hc : calls[i]? = some c)
    (hholds : holds c = true) (hf : holds (f c) = false) :
    LockOwner holds (calls.modify i f) none := by
  refine ⟨fun _ hj => absurd hj (by simp), ?_⟩
  intro j d hd hd'
  obtain ⟨d₀, hd₀, rfl⟩ := getElem?_modify_eq_some.mp hd
  split_ifs at hd' with hij
  · subst hij
    obtain rfl := some.inj (hc.symm.trans hd₀)
    exact absurd (hf.symm.trans hd') Bool.noConfusion
  · have hlock := h.held i c hc hholds
    have hlock' := h.held j d₀ hd₀ hd'
    exact absurd (some.inj (hlock.symm.trans hlock')) hij

theorem unique (h : LockOwner holds calls lock) (hc : calls[i]? = some c) (hholds : holds c = true)
    {j : ℕ} {d : γ} (hd : calls[j]? = some d) (hd' : holds d = true) : j = i := by
  have hlock := h.held i c hc hholds
  have hlock' := h.held j d hd hd'
  exact some.inj (hlock'.symm.trans hlock)

end LockOwner

def updatesOf (committed : γ → Bool) (update : γ → β) (calls : List γ) : List β :=
  (calls.filter committed).map update

section Updates

variable {committed : γ → Bool} {update : γ → β} {calls : List γ} {i : ℕ} {c : γ} {f : γ → γ}

theorem updatesOf_append (hc : committed c = false) :
    updatesOf committed update (calls ++ [c]) = updatesOf committed update calls := by
  simp [updatesOf, hc]

theorem updatesOf_modify (hc : calls[i]? = some c) (hsame : committed (f c) = committed c)
    (hupdate : committed c = true → update (f c) = update c) :
    updatesOf committed update (calls.modify i f) = updatesOf committed update calls := by
  induction calls generalizing i with
  | nil => rw [modify_nil]
  | cons d calls ih =>
    cases i with
    | zero =>
      cases hc
      unfold updatesOf
      rw [modify_zero_cons, filter_cons, filter_cons, hsame]
      split_ifs with hdone
      · exact congrArg (· :: _) (hupdate hdone)
      · rfl
    | succ i =>
      have hrest := ih hc
      unfold updatesOf at hrest ⊢
      rw [modify_succ_cons, filter_cons, filter_cons]
      split_ifs
      · exact congrArg (update d :: ·) hrest
      · exact hrest

theorem updatesOf_commit (hc : calls[i]? = some c) (hbefore : committed c = false)
    (hafter : committed (f c) = true) :
    (updatesOf committed update (calls.modify i f)).Perm
      (update (f c) :: updatesOf committed update calls) := by
  induction calls generalizing i with
  | nil => cases hc
  | cons d calls ih =>
    cases i with
    | zero =>
      cases hc
      unfold updatesOf
      rw [modify_zero_cons, filter_cons, filter_cons, hafter, hbefore,
        if_pos rfl, if_neg Bool.false_ne_true, map_cons]
    | succ i =>
      have hrest := ih hc
      unfold updatesOf at hrest ⊢
      rw [modify_succ_cons, filter_cons, filter_cons]
      split_ifs
      · exact (hrest.cons (update d)).trans (Perm.swap ..)
      · exact hrest

end Updates

/-- The value is what the updates make of the first one, one after another in some order. -/
def Serial (apply : τ → β → τ) (first : τ) (updates : List β) (value : τ) : Prop :=
  ∃ order : List β, order.Perm updates ∧ value = order.foldl apply first

section Serial

variable {apply : τ → β → τ} {first value : τ} {updates updates' : List β}

theorem Serial.nil : Serial apply first [] first := ⟨[], .nil, rfl⟩

theorem Serial.perm (h : Serial apply first updates value) (hperm : updates'.Perm updates) :
    Serial apply first updates' value := by
  obtain ⟨order, horder, hvalue⟩ := h
  exact ⟨order, horder.trans hperm.symm, hvalue⟩

theorem Serial.commit (h : Serial apply first updates value) (u : β) :
    Serial apply first (u :: updates) (apply value u) := by
  obtain ⟨order, horder, rfl⟩ := h
  refine ⟨order ++ [u], (perm_append_singleton u order).trans (horder.cons u), ?_⟩
  rw [foldl_append]
  rfl

theorem Serial.mem_permutations' (h : Serial apply first updates value) :
    value ∈ updates.permutations'.map fun order => order.foldl apply first := by
  obtain ⟨order, horder, rfl⟩ := h
  exact mem_map_of_mem (mem_permutations'.mpr horder)

end Serial

end Draht
