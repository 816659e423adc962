import Mathlib.Data.List.Perm.Basic
import Draht.ParentChain

/-!
# The forest of a log of nodes

In a log whose parents come earlier the nodes form a forest. Each node's descendants are listed
by a recursion over the log; the roots' descendants are the whole log. Trees that are unfolded
from a store of nodes and their children have these descendants as their nodes, in some order.
-/

namespace Draht
open List

inductive Tree (β : Type*) where
  | node (value : β) (children : List (Tree β))

namespace Tree

variable {β : Type*}

def value : Tree β → β
  | .node v _ => v

mutual

def nodes : Tree β → List (β × List β)
  | .node v children => (v, children.map value) :: forestNodes children

def forestNodes : List (Tree β) → List (β × List β)
  | [] => []
  | t :: ts => t.nodes ++ forestNodes ts

end

end Tree

namespace ParentForest

open ParentChain

variable {α β κ : Type*} (key : α → κ) (parent : α → Option κ)

structure ParentsEarlier (log : List α) : Prop where
  earlier : log.Pairwise (fun a b => parent a ≠ some (key b))
  notSelf : ∀ a ∈ log, parent a ≠ some (key a)
  nodup : (log.map key).Nodup

variable {key parent}

theorem parentsEarlier_of_grown {log : List α} (hg : Grown key parent log)
    (hnodup : (log.map key).Nodup) : ParentsEarlier key parent log := by
  have hbefore : ∀ xs a ys, log = xs ++ a :: ys → ∀ b ∈ a :: ys, parent a ≠ some (key b) := by
    intro xs a ys hlog b hb hparent
    obtain ⟨c, hc, hcb⟩ := hg xs a ys hlog (key b) hparent
    rw [hlog, map_append, nodup_append] at hnodup
    exact hnodup.2.2 (key c) (mem_map_of_mem hc) (key b) (mem_map_of_mem hb) hcb
  refine ⟨?_, ?_, hnodup⟩
  · rw [pairwise_iff_forall_sublist]
    intro a b hsub hparent
    obtain ⟨xs, ys, hlog, hb⟩ : ∃ xs ys, log = xs ++ a :: ys ∧ b ∈ ys := by
      obtain ⟨r₁, r₂, rfl, ha, hb⟩ := cons_sublist_iff.mp hsub
      obtain ⟨xs, zs, rfl⟩ := append_of_mem ha
      exact ⟨xs, zs ++ r₂, by simp, mem_append_right _ (singleton_sublist.mp hb)⟩
    exact hbefore xs a ys hlog b (mem_cons_of_mem _ hb) hparent
  · intro a ha
    obtain ⟨xs, ys, hlog⟩ := append_of_mem ha
    exact hbefore xs a ys hlog a mem_cons_self

variable {log : List α} {a x : α}

theorem ParentsEarlier.tail (h : ParentsEarlier key parent (x :: log)) :
    ParentsEarlier key parent log :=
  ⟨(pairwise_cons.mp h.earlier).2, fun a ha => h.notSelf a (mem_cons_of_mem _ ha),
    (nodup_cons.mp h.nodup).2⟩

theorem ParentsEarlier.key_ne (h : ParentsEarlier key parent (x :: log)) (ha : a ∈ log) :
    key x ≠ key a := by
  intro heq
  exact (nodup_cons.mp h.nodup).1 (heq ▸ mem_map_of_mem ha)

section

variable [DecidableEq κ]

def children (parent : α → Option κ) (log : List α) (k : κ) : List α :=
  log.filter fun b => parent b = some k

variable (key parent) in
def descend : List α → κ → List α
  | [], _ => []
  | a :: log, k =>
    if key a = k then a :: (children parent log k).flatMap (fun b => descend log (key b))
    else descend log k

variable (key parent) in
def IsRoot (log : List α) (a : α) : Prop := ∀ b ∈ log, parent a ≠ some (key b)

instance (key : α → κ) (parent : α → Option κ) (log : List α) (a : α) :
    Decidable (IsRoot key parent log a) :=
  inferInstanceAs (Decidable (∀ b ∈ log, parent a ≠ some (key b)))

theorem ParentsEarlier.children_cons (h : ParentsEarlier key parent (x :: log))
    (ha : a ∈ x :: log) : children parent (x :: log) (key a) = children parent log (key a) := by
  have hne : parent x ≠ some (key a) := by
    obtain rfl | ha := mem_cons.mp ha
    · exact h.notSelf a mem_cons_self
    · exact (pairwise_cons.mp h.earlier).1 a ha
  rw [children, filter_cons_of_neg (by simpa using hne), children]

theorem ParentsEarlier.descend_cons (h : ParentsEarlier key parent (x :: log)) (ha : a ∈ log) :
    descend key parent (x :: log) (key a) = descend key parent log (key a) := by
  rw [descend, if_neg (h.key_ne ha)]

theorem mem_children {k : κ} : a ∈ children parent log k ↔ a ∈ log ∧ parent a = some k := by
  simp [children]

theorem ParentsEarlier.descend_eq (h : ParentsEarlier key parent log) (ha : a ∈ log) :
    descend key parent log (key a) =
      a :: (children parent log (key a)).flatMap (fun b => descend key parent log (key b)) := by
  induction log with
  | nil => simp at ha
  | cons x log ih =>
    rw [h.children_cons ha]
    have hbelow : (children parent log (key a)).flatMap
        (fun b => descend key parent (x :: log) (key b)) =
          (children parent log (key a)).flatMap (fun b => descend key parent log (key b)) :=
      flatMap_congr (fun b hb => h.descend_cons (mem_children.mp hb).1)
    rw [hbelow]
    obtain rfl | hmem := mem_cons.mp ha
    · rw [descend, if_pos rfl]
    · rw [h.descend_cons hmem, ih h.tail hmem]

theorem ParentsEarlier.roots_perm (h : ParentsEarlier key parent log) :
    ((log.filter (fun a => IsRoot key parent log a)).flatMap
      (fun a => descend key parent log (key a))).Perm log := by
  induction log with
  | nil => exact .refl _
  | cons x log ih =>
    have hx : IsRoot key parent (x :: log) x := by
      intro b hb
      obtain rfl | hb := mem_cons.mp hb
      · exact h.notSelf b mem_cons_self
      · exact (pairwise_cons.mp h.earlier).1 b hb
    let roots := log.filter (fun a => IsRoot key parent log a)
    have hothers : log.filter (fun a => IsRoot key parent (x :: log) a) =
        roots.filter (fun a => !decide (parent a = some (key x))) := by
      rw [filter_filter]
      apply filter_congr
      intro a _
      have hiff : IsRoot key parent (x :: log) a ↔
          parent a ≠ some (key x) ∧ IsRoot key parent log a := forall_mem_cons
      by_cases hparent : parent a = some (key x)
      · simp [hiff, hparent]
      · by_cases hroot : IsRoot key parent log a <;> simp [hiff, hparent, hroot]
    have hkids : children parent log (key x) =
        roots.filter (fun a => decide (parent a = some (key x))) := by
      rw [filter_filter, children]
      apply filter_congr
      intro a _
      by_cases hparent : parent a = some (key x)
      · have hroot : IsRoot key parent log a := by
          intro b hb hab
          exact h.key_ne hb (Option.some.inj (hparent.symm.trans hab))
        simp [hparent, hroot]
      · simp [hparent]
    have hbelow : ∀ l : List α, (∀ a ∈ l, a ∈ log) →
        l.flatMap (fun a => descend key parent (x :: log) (key a)) =
          l.flatMap (fun a => descend key parent log (key a)) :=
      fun l hl => flatMap_congr (fun a ha => h.descend_cons (hl a ha))
    rw [filter_cons_of_pos (by simpa using hx), flatMap_cons, hothers, descend,
      if_pos rfl, hkids, cons_append]
    refine Perm.cons x ?_
    rw [hbelow _ (fun a ha => (mem_filter.mp (mem_filter.mp ha).1).1), ← flatMap_append]
    exact ((filter_append_perm _ roots).flatMap_right _).trans (ih h.tail)

end

/-- The trees of a store that gives each key a value and the keys of its children. -/
def unfoldForest (get : κ → Option (β × List κ)) : ℕ → List κ → Option (List (Tree β))
  | 0, [] => some []
  | 0, _ :: _ => none
  | fuel + 1, ids => ids.mapM fun id =>
    (get id).bind fun node =>
      (unfoldForest get fuel node.2).map fun subtrees => .node node.1 subtrees

theorem unfoldForest_nil (get : κ → Option (β × List κ)) (fuel : ℕ) :
    unfoldForest get fuel [] = some [] := by
  cases fuel <;> rfl

theorem unfoldForest_cons {get : κ → Option (β × List κ)} {fuel : ℕ} {id : κ} {ids kids : List κ}
    {v : β} {subtrees rest : List (Tree β)} (hget : get id = some (v, kids))
    (hkids : unfoldForest get fuel kids = some subtrees)
    (hrest : unfoldForest get (fuel + 1) ids = some rest) :
    unfoldForest get (fuel + 1) (id :: ids) = some (.node v subtrees :: rest) := by
  rw [unfoldForest] at hrest ⊢
  rw [mapM_cons, hrest, hget, Option.bind_some, hkids]
  rfl

variable [DecidableEq κ]

/-- The store has the nodes of the log, each with its children in some order. -/
def Stores (key : α → κ) (parent : α → Option κ) (entry : β → α) (log : List α)
    (get : κ → Option (β × List κ)) : Prop :=
  ∀ a ∈ log, ∃ v kids, get (key a) = some (v, kids) ∧ entry v = a ∧
    kids.Perm ((children parent log (key a)).map key)

/-- Every node of the forest has its children in the log as its children. -/
def ChildrenIn (parent : α → Option κ) (key : α → κ) (entry : β → α) (log : List α)
    (forest : List (Tree β)) : Prop :=
  ∀ node ∈ Tree.forestNodes forest,
    (node.2.map entry).Perm (children parent log (key (entry node.1)))

variable {entry : β → α} {get : κ → Option (β × List κ)}

/-- Fewer than `bound` nodes follow the node in the log. -/
def FollowedBy (log : List α) (a : α) (bound : ℕ) : Prop :=
  ∃ xs ys, log = xs ++ a :: ys ∧ ys.length < bound

theorem ParentsEarlier.followedBy_children (h : ParentsEarlier key parent log) {bound : ℕ}
    (ha : FollowedBy log a (bound + 1)) {b : α} (hb : b ∈ children parent log (key a)) :
    FollowedBy log b bound := by
  obtain ⟨xs, ys, rfl, hlen⟩ := ha
  obtain ⟨hmem, hparent⟩ := mem_children.mp hb
  have hys : b ∈ ys := by
    obtain hb | hb := mem_append.mp hmem
    · exact absurd hparent ((pairwise_append.mp h.earlier).2.2 b hb a mem_cons_self)
    · obtain rfl | hb := mem_cons.mp hb
      · exact absurd hparent (h.notSelf b hmem)
      · exact hb
  obtain ⟨us, vs, rfl⟩ := append_of_mem hys
  refine ⟨xs ++ a :: us, vs, by simp, ?_⟩
  rw [length_append, length_cons] at hlen
  omega

theorem ParentsEarlier.exists_unfold (h : ParentsEarlier key parent log)
    (hstore : Stores key parent entry log get) (fuel : ℕ) (as : List α)
    (has : ∀ a ∈ as, a ∈ log ∧ FollowedBy log a fuel) :
    ∃ forest, unfoldForest get fuel (as.map key) = some forest ∧
      forest.map (fun t => entry t.value) = as ∧ ChildrenIn parent key entry log forest ∧
        ((Tree.forestNodes forest).map (fun n => entry n.1)).Perm
          (as.flatMap (fun a => descend key parent log (key a))) := by
  induction fuel generalizing as with
  | zero =>
    cases as with
    | nil => exact ⟨[], rfl, rfl, nofun, .refl _⟩
    | cons a as =>
      obtain ⟨_, _, _, _, hlen⟩ := has a mem_cons_self
      omega
  | succ fuel ih =>
    induction as with
    | nil =>
      exact ⟨[], unfoldForest_nil _ _, rfl, nofun, .refl _⟩
    | cons a as ihas =>
      obtain ⟨ha, hfollowed⟩ := has a mem_cons_self
      obtain ⟨rest, hrest, hroots, hchildren, hnodes⟩ :=
        ihas (fun b hb => has b (mem_cons_of_mem _ hb))
      obtain ⟨v, kids, hget, hv, hkids⟩ := hstore a ha
      obtain ⟨bs, rfl, hbs⟩ : ∃ bs : List α, kids = bs.map key ∧
          bs.Perm (children parent log (key a)) :=
        cast (congrFun (congrFun (eq_map_comp_perm key) kids) _).symm hkids
      obtain ⟨subtrees, hsub, hsubroots, hsubchildren, hsubnodes⟩ := ih bs (by
        intro b hb
        have hb' := hbs.mem_iff.mp hb
        exact ⟨(mem_children.mp hb').1, h.followedBy_children hfollowed hb'⟩)
      refine ⟨.node v subtrees :: rest, unfoldForest_cons hget hsub hrest, ?_, ?_, ?_⟩
      · rw [map_cons, hroots, Tree.value, hv]
      · intro node hnode
        obtain hnode | hnode := mem_append.mp hnode
        · obtain rfl | hnode := mem_cons.mp hnode
          · rw [map_map]
            simp only [Function.comp_def]
            rw [hsubroots, hv]
            exact hbs
          · exact hsubchildren node hnode
        · exact hchildren node hnode
      · rw [flatMap_cons, h.descend_eq ha, Tree.forestNodes, Tree.nodes, map_append,
          map_cons, hv]
        exact ((hsubnodes.trans (hbs.flatMap_right _)).cons a).append hnodes

end ParentForest

end Draht
