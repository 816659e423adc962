import Draht.AgentTrace

/-!
# The ledger of the queued messages

Every message put into a queue is injected, in flight, still queued or cleared, and the
injected ones come in the order in which they were queued. Draining a queue and injecting a
drained message move a message on without changing the order of the whole.
-/

namespace Draht
open List

/-- A ticket's way: injected first, then in flight, then still in the queue. -/
def history (name : QueueName) (trace : List TraceItem)
    (queued : QueueName → List TranscriptMessage) : List ℕ :=
  injectedSerials name trace ++ serialsOf name (inFlight trace) ++
    serialsOf name (ticketsOf (queued name))

structure Ledger (trace : List TraceItem) (queued : QueueName → List TranscriptMessage) :
    Prop where
  owned : ∀ name m, m ∈ queued name → ∃ n, m.ticket = some ⟨name, n⟩
  issued : ∀ name, issuedSerials name trace = List.range (issuedSerials name trace).length
  conserved : ∀ name, (history name trace queued ++ clearedSerials name trace).Perm
    (issuedSerials name trace)
  ordered : ∀ name, (history name trace queued).Pairwise (· < ·)

structure TraceItem.Neutral (item : TraceItem) : Prop where
  enqueued : enqueuedOf item = []
  cleared : ∀ name, clearedOf name item = []
  pushed : transcriptOf [item] = []
  flight : ∀ flight, flightStep flight item = flight

variable (name : QueueName)

theorem issuedSerials_concat (trace : List TraceItem) (item : TraceItem) :
    issuedSerials name (trace ++ [item]) =
      issuedSerials name trace ++ serialsOf name (ticketsOf (enqueuedOf item)) := by
  simp [issuedSerials, flatMap_append]

theorem clearedSerials_concat (trace : List TraceItem) (item : TraceItem) :
    clearedSerials name (trace ++ [item]) =
      clearedSerials name trace ++ serialsOf name (ticketsOf (clearedOf name item)) := by
  simp [clearedSerials, flatMap_append]

theorem injectedSerials_concat (trace : List TraceItem) (item : TraceItem) :
    injectedSerials name (trace ++ [item]) =
      injectedSerials name trace ++ serialsOf name (ticketsOf (transcriptOf [item])) := by
  simp [injectedSerials, transcriptOf_append]

theorem history_concat (trace : List TraceItem) (item : TraceItem)
    (queued : QueueName → List TranscriptMessage) :
    history name (trace ++ [item]) queued =
      injectedSerials name trace ++ serialsOf name (ticketsOf (transcriptOf [item])) ++
        serialsOf name (flightStep (inFlight trace) item) ++
          serialsOf name (ticketsOf (queued name)) := by
  rw [history, injectedSerials_concat, inFlight_concat]

theorem serialsOf_owned {name : QueueName} {ms : List TranscriptMessage}
    (h : ∀ m ∈ ms, ∃ n, m.ticket = some ⟨name, n⟩) {other : QueueName} (hne : name ≠ other) :
    serialsOf other (ticketsOf ms) = [] := by
  rw [serialsOf, filterMap_eq_nil_iff]
  intro t ht
  obtain ⟨m, hm, hmt⟩ := mem_filterMap.mp ht
  obtain ⟨n, hn⟩ := h m hm
  obtain rfl : (⟨name, n⟩ : Ticket) = t := Option.some.inj (hn.symm.trans hmt)
  rw [if_neg hne]

variable {trace : List TraceItem} {queued queued' : QueueName → List TranscriptMessage}

section

variable (h : Ledger trace queued)
include h

variable {m : TranscriptMessage} {item : TraceItem}

theorem Ledger.congr (howned : ∀ name m, m ∈ queued' name → m ∈ queued name)
    (henqueued : enqueuedOf item = []) (hcleared : ∀ name, clearedOf name item = [])
    (hhistory : ∀ name, history name (trace ++ [item]) queued' = history name trace queued) :
    Ledger (trace ++ [item]) queued' := by
  have hissued : ∀ name, issuedSerials name (trace ++ [item]) = issuedSerials name trace := by
    intro name
    rw [issuedSerials_concat, henqueued]
    exact append_nil _
  have hclear : ∀ name, clearedSerials name (trace ++ [item]) = clearedSerials name trace := by
    intro name
    rw [clearedSerials_concat, hcleared]
    exact append_nil _
  refine ⟨?_, ?_, ?_, ?_⟩
  · exact fun name m hm => h.owned name m (howned name m hm)
  · intro name
    rw [hissued]
    exact h.issued name
  · intro name
    rw [hissued, hclear, hhistory]
    exact h.conserved name
  · intro name
    rw [hhistory]
    exact h.ordered name

theorem Ledger.neutral (hitem : item.Neutral) : Ledger (trace ++ [item]) queued := by
  apply h.congr (fun _ _ hm => hm) hitem.enqueued hitem.cleared
  intro name
  rw [history_concat, hitem.pushed, hitem.flight, history]
  simp [ticketsOf, serialsOf]

theorem Ledger.drain {drainedBy : DrainedBy} {name : QueueName}
    {drained : List TranscriptMessage} (hdrain : drained ++ queued' name = queued name)
    (hother : ∀ other, other ≠ name → queued' other = queued other) :
    Ledger (trace ++ [.drained drainedBy name drained]) queued' := by
  have hmem : ∀ m ∈ drained, ∃ n, m.ticket = some ⟨name, n⟩ := by
    intro m hm
    exact h.owned name m (hdrain ▸ mem_append_left _ hm)
  apply h.congr
  · intro other m hm
    by_cases hne : other = name
    · subst hne
      exact hdrain ▸ mem_append_right _ hm
    · rwa [hother other hne] at hm
  · rfl
  · exact fun _ => rfl
  · intro other
    rw [history_concat, history]
    by_cases hne : other = name
    · subst hne
      rw [← hdrain]
      simp [flightStep, transcriptOf, pushedOf, ticketsOf, serialsOf]
    · rw [hother other hne]
      have hnone : serialsOf other (ticketsOf drained) = [] := serialsOf_owned hmem (Ne.symm hne)
      simp only [flightStep, serialsOf_append, hnone]
      simp [transcriptOf, pushedOf, ticketsOf, serialsOf]

theorem Ledger.pushed_plain (hitem : item = .event (.messageEnd m) ∨ item = .failed m)
    (hm : m.ticket = none) : Ledger (trace ++ [item]) queued := by
  have hnone : ticketsOf (transcriptOf [item]) = [] := by
    rcases hitem with rfl | rfl <;> simp [ticketsOf, transcriptOf, pushedOf, endedOf, hm]
  have hflight : flightStep (inFlight trace) item = inFlight trace := by
    rcases hitem with rfl | rfl <;> simp [flightStep, hm]
  refine h.congr (fun _ _ hm => hm) ?_ ?_ ?_
  · rcases hitem with rfl | rfl <;> rfl
  · rcases hitem with rfl | rfl <;> exact fun _ => rfl
  · intro name
    rw [history_concat, hnone, hflight, history]
    simp [serialsOf]

theorem Ledger.pushed_ticket {t : Ticket} {rest : List Ticket} (hm : m.ticket = some t)
    (hflight : inFlight trace = t :: rest) : Ledger (trace ++ [.event (.messageEnd m)]) queued := by
  apply h.congr (fun _ _ hm => hm) rfl (fun _ => rfl)
  intro name
  have hone : ticketsOf (transcriptOf [.event (.messageEnd m)]) = [t] := by
    simp [ticketsOf, transcriptOf, pushedOf, endedOf, hm]
  have hstep : flightStep (inFlight trace) (.event (.messageEnd m)) = rest := by
    simp [flightStep, hm, hflight]
  have hsplit : serialsOf name (t :: rest) = serialsOf name [t] ++ serialsOf name rest := by
    rw [← serialsOf_append]
    rfl
  rw [history_concat, hone, hstep, history, hflight, hsplit]
  simp

variable (name : QueueName)

theorem Ledger.clear (hempty : queued' name = [])
    (hother : ∀ other, other ≠ name → queued' other = queued other) :
    Ledger (trace ++ [.cleared name (queued name)]) queued' := by
  have hissued : ∀ other, issuedSerials other (trace ++ [.cleared name (queued name)]) =
      issuedSerials other trace := by
    intro other
    rw [issuedSerials_concat]
    exact append_nil _
  have hhistory : ∀ other, history other (trace ++ [.cleared name (queued name)]) queued' ++
      serialsOf other (ticketsOf (clearedOf other (.cleared name (queued name)))) =
        history other trace queued := by
    intro other
    rw [history_concat, history]
    by_cases hne : other = name
    · subst hne
      simp [hempty, flightStep, clearedOf, transcriptOf, pushedOf, ticketsOf, serialsOf]
    · have hclear : clearedOf other (.cleared name (queued name)) = [] := by
        rw [clearedOf, if_neg (Ne.symm hne)]
      rw [hother other hne, hclear]
      simp [flightStep, transcriptOf, pushedOf, ticketsOf, serialsOf]
  refine ⟨?_, ?_, ?_, ?_⟩
  · intro other m hm
    by_cases hne : other = name
    · rw [hne, hempty] at hm
      simp at hm
    · exact h.owned other m (by rwa [hother other hne] at hm)
  · intro other
    rw [hissued]
    exact h.issued other
  · intro other
    rw [hissued, clearedSerials_concat]
    refine Perm.trans ?_ (h.conserved other)
    rw [← hhistory other, append_assoc]
    exact Perm.append_left _ perm_append_comm
  · intro other
    have hordered := h.ordered other
    rw [← hhistory other] at hordered
    exact (pairwise_append.mp hordered).1

theorem Ledger.enqueue (hm : m.ticket = some ⟨name, (issuedSerials name trace).length⟩)
    (hself : queued' name = queued name ++ [m])
    (hother : ∀ other, other ≠ name → queued' other = queued other) :
    Ledger (trace ++ [.enqueued m]) queued' := by
  have hserial : ∀ other, serialsOf other (ticketsOf [m]) =
      if name = other then [(issuedSerials name trace).length] else [] := by
    intro other
    by_cases hne : name = other
    · simp [ticketsOf, serialsOf, hm, hne]
    · simp [ticketsOf, serialsOf, hm, hne]
  have hissued : ∀ other, issuedSerials other (trace ++ [.enqueued m]) =
      issuedSerials other trace ++ serialsOf other (ticketsOf [m]) :=
    fun other => issuedSerials_concat other trace _
  have hcleared : ∀ other, clearedSerials other (trace ++ [.enqueued m]) =
      clearedSerials other trace := by
    intro other
    rw [clearedSerials_concat]
    exact append_nil _
  have hhistory : ∀ other, history other (trace ++ [.enqueued m]) queued' =
      history other trace queued ++ serialsOf other (ticketsOf [m]) := by
    intro other
    rw [history_concat, history]
    by_cases hne : other = name
    · subst hne
      rw [hself]
      simp [flightStep, transcriptOf, pushedOf, ticketsOf, serialsOf]
    · rw [hother other hne, hserial, if_neg (Ne.symm hne)]
      simp [flightStep, transcriptOf, pushedOf, ticketsOf, serialsOf]
  refine ⟨?_, ?_, ?_, ?_⟩
  · intro other x hx
    by_cases hne : other = name
    · subst hne
      rw [hself, mem_append] at hx
      obtain hx | hx := hx
      · exact h.owned other x hx
      · obtain rfl : x = m := by simpa using hx
        exact ⟨_, hm⟩
    · exact h.owned other x (by rwa [hother other hne] at hx)
  · intro other
    rw [hissued, hserial]
    split_ifs with hne
    · subst hne
      rw [length_append, length_singleton, range_succ, ← h.issued]
    · rw [append_nil]
      exact h.issued other
  · intro other
    rw [hissued, hcleared, hhistory, append_assoc]
    refine ((perm_append_comm).append_left _).trans ?_
    rw [← append_assoc]
    exact (h.conserved other).append_right _
  · intro other
    rw [hhistory, hserial]
    split_ifs with hne
    · subst hne
      refine pairwise_append.mpr ⟨h.ordered name, by simp, ?_⟩
      intro a ha b hb
      obtain rfl : b = (issuedSerials name trace).length := by simpa using hb
      have hmem : a ∈ issuedSerials name trace :=
        (h.conserved name).subset (mem_append_left _ ha)
      rw [h.issued name, mem_range] at hmem
      exact hmem
    · rw [append_nil]
      exact h.ordered other

end

end Draht
