import Mathlib.Data.List.Sort

/-!
# Lists with a log that is written later

Items get ascending numbers when they join a live list. Some of them are announced to a log that
records them later, one by one in the order of the announcements. What is written to both at once
keeps the order of the log as long as no announcement is pending. Number 0 is kept for an item
that heads a list.
-/

namespace Draht
open List

structure DeferredLog where
  live : List ℕ
  written : List ℕ
  pending : List ℕ
  next : ℕ

/-- Of two items of `log` that are both in `live`, the one that is earlier in `log` is earlier
in `live`. -/
def OrderAgrees (log live : List ℕ) : Prop :=
  ∀ a b, [a, b].Sublist log → a ∈ live → b ∈ live → [a, b].Sublist live

theorem orderAgrees_of_sorted {log live : List ℕ} (hlog : log.Pairwise (· < ·))
    (hlive : live.Pairwise (· < ·)) : OrderAgrees log live := by
  intro a b hab ha hb
  have hlt : a < b := by simpa using hlog.sublist hab
  have hpair : [a, b].Pairwise (· < ·) := by simpa using hlt
  have hnodup : [a, b].Nodup := hpair.imp fun h => h.ne
  exact sublist_of_subperm_of_pairwise (subperm_of_subset hnodup (by simp [ha, hb]))
    hpair hlive

namespace DeferredLog

structure Ordered (l : DeferredLog) : Prop where
  next_pos : 0 < l.next
  live_sorted : l.live.Pairwise (· < ·)
  live_lt : ∀ n ∈ l.live, n < l.next
  log_sorted : (l.written ++ l.pending).Pairwise (· < ·)
  log_pos : ∀ n ∈ l.written ++ l.pending, 0 < n
  log_lt : ∀ n ∈ l.written ++ l.pending, n < l.next

variable {l : DeferredLog}

variable {n : ℕ} {xs items : List ℕ}

theorem sorted_concat (hxs : xs.Pairwise (· < ·)) (hlt : ∀ x ∈ xs, x < n) :
    (xs ++ [n]).Pairwise (· < ·) := by
  rw [pairwise_append]
  exact ⟨hxs, pairwise_singleton _ _, by simpa using hlt⟩

theorem lt_concat (hlt : ∀ x ∈ xs, x < n) : ∀ x ∈ xs ++ [n], x < n + 1 := by
  intro x hx
  obtain hx | hx := mem_append.mp hx
  · exact Nat.lt_succ_of_lt (hlt x hx)
  · obtain rfl := mem_singleton.mp hx
    exact Nat.lt_succ_self x

theorem Ordered.shrink (h : l.Ordered) {live pending : List ℕ} (hlive : live.Sublist l.live)
    (hpending : pending.Sublist l.pending) :
    Ordered { l with live := live, pending := pending } := by
  have hsub : (l.written ++ pending).Sublist (l.written ++ l.pending) :=
    (Sublist.refl _).append hpending
  exact ⟨h.next_pos, h.live_sorted.sublist hlive, fun n hn => h.live_lt n (hlive.subset hn),
    h.log_sorted.sublist hsub, fun n hn => h.log_pos n (hsub.subset hn),
    fun n hn => h.log_lt n (hsub.subset hn)⟩

theorem Ordered.push (h : l.Ordered) :
    Ordered { l with live := l.live ++ [l.next], next := l.next + 1 } :=
  ⟨Nat.succ_pos _, sorted_concat h.live_sorted h.live_lt, lt_concat h.live_lt, h.log_sorted,
    h.log_pos, fun n hn => Nat.lt_succ_of_lt (h.log_lt n hn)⟩

theorem Ordered.announce (h : l.Ordered) :
    Ordered { l with
      live := l.live ++ [l.next], pending := l.pending ++ [l.next], next := l.next + 1 } := by
  refine ⟨Nat.succ_pos _, sorted_concat h.live_sorted h.live_lt, lt_concat h.live_lt, ?_, ?_,
    ?_⟩ <;> simp only [← append_assoc]
  · exact sorted_concat h.log_sorted h.log_lt
  · intro n hn
    obtain hn | hn := mem_append.mp hn
    · exact h.log_pos n hn
    · rw [mem_singleton.mp hn]
      exact h.next_pos
  · exact lt_concat h.log_lt

theorem Ordered.record (h : l.Ordered) {rest : List ℕ} (hpending : l.pending = n :: rest) :
    Ordered { l with written := l.written ++ [n], pending := rest } := by
  have heq : l.written ++ [n] ++ rest = l.written ++ l.pending := by simp [hpending]
  exact ⟨h.next_pos, h.live_sorted, h.live_lt, heq ▸ h.log_sorted, heq ▸ h.log_pos, heq ▸ h.log_lt⟩

theorem Ordered.write (h : l.Ordered) (hpending : l.pending = []) :
    Ordered { l with
      live := l.live ++ [l.next], written := l.written ++ [l.next], next := l.next + 1 } := by
  have h' := h.announce.record (show l.pending ++ [l.next] = [l.next] by rw [hpending]; rfl)
  simpa [hpending] using h'

theorem Ordered.reload (h : l.Ordered) {live : List ℕ} (hitems : items.Sublist l.written)
    (hlive : live = items ∨ live = 0 :: items) : Ordered { l with live := live } := by
  have hwritten : items.Sublist (l.written ++ l.pending) :=
    hitems.trans (sublist_append_left _ _)
  have hsorted := h.log_sorted.sublist hwritten
  obtain rfl | rfl := hlive
  · exact ⟨h.next_pos, hsorted, fun n hn => h.log_lt n (hwritten.subset hn), h.log_sorted,
      h.log_pos, h.log_lt⟩
  · refine ⟨h.next_pos, ?_, ?_, h.log_sorted, h.log_pos, h.log_lt⟩
    · rw [pairwise_cons]
      exact ⟨fun n hn => h.log_pos n (hwritten.subset hn), hsorted⟩
    · intro n hn
      obtain rfl | hn := mem_cons.mp hn
      · exact h.next_pos
      · exact h.log_lt n (hwritten.subset hn)

theorem Ordered.orderAgrees (h : l.Ordered) {log : List ℕ} (hitems : items.Sublist l.written)
    (hlog : log = items ∨ log = 0 :: items) : OrderAgrees log l.live := by
  have hwritten : items.Sublist (l.written ++ l.pending) :=
    hitems.trans (sublist_append_left _ _)
  have hsorted := h.log_sorted.sublist hwritten
  refine orderAgrees_of_sorted ?_ h.live_sorted
  obtain rfl | rfl := hlog
  · exact hsorted
  · rw [pairwise_cons]
    exact ⟨fun n hn => h.log_pos n (hwritten.subset hn), hsorted⟩

end DeferredLog

end Draht
