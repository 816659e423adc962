import Mathlib.Data.List.Basic
import Mathlib.Data.List.TakeWhile

/-!
# Calls and results in a list

A list in which some elements call for results, some are results, and others interrupt. The
results of a call stand between it and the next call or interruption. Two monitors read the list
from the left with the results that are still open: one accepts every list whose results are
called for, the other only lists in which every call is also answered once.
-/

namespace Draht
open List

inductive DialogueEvent (ι : Type*) where
  | prompt
  | calls (ids : List ι)
  | result (id : ι)
deriving DecidableEq

namespace DialogueEvent

variable {ι : Type*}

def isResult : DialogueEvent ι → Bool
  | .result _ => true
  | _ => false

end DialogueEvent

namespace Dialogue

variable {M ι : Type*} (event : M → DialogueEvent ι)

/-- The result after `before` is asked for by the nearest call. -/
def CalledFor (before : List M) (id : ι) : Prop :=
  ∃ earlier m results ids, before = earlier ++ m :: results ∧ event m = .calls ids ∧ id ∈ ids ∧
    ∀ x ∈ results, (event x).isResult

def ResultsCalledFor (ms : List M) : Prop :=
  ∀ before m after id, ms = before ++ m :: after → event m = .result id →
    CalledFor event before id

def resultId? (m : M) : Option ι :=
  match event m with
  | .result id => some id
  | _ => none

variable {event} {m : M} {before : List M} {id : ι}

theorem CalledFor.cons (h : CalledFor event before id) (x : M) :
    CalledFor event (x :: before) id := by
  obtain ⟨earlier, m, results, ids, rfl, hm, hid, hresults⟩ := h
  exact ⟨x :: earlier, m, results, ids, rfl, hm, hid, hresults⟩

theorem CalledFor.of_cons {x : M} (h : CalledFor event (x :: before) id)
    (hx : ∀ ids, event x = .calls ids → id ∉ ids ∨ ¬ ∀ y ∈ before, (event y).isResult) :
    CalledFor event before id := by
  obtain ⟨earlier, m, results, ids, hsplit, hm, hid, hresults⟩ := h
  cases earlier with
  | nil =>
    cases hsplit
    obtain hnot | hnot := hx ids hm
    · exact absurd hid hnot
    · exact absurd hresults hnot
  | cons y earlier =>
    cases hsplit
    exact ⟨earlier, m, results, ids, rfl, hm, hid, hresults⟩

variable (event) [DecidableEq ι]

/-- Every call is answered once before the next call or interruption. -/
def CallsAnswered (ms : List M) : Prop :=
  ∀ before m after ids, ms = before ++ m :: after → event m = .calls ids →
    ∀ id ∈ ids, (after.takeWhile (fun x => (event x).isResult)).countP
      (fun x => event x = .result id) = 1

def Expected (opened : List ι) : List M → Prop
  | [] => True
  | m :: ms =>
    match event m with
    | .prompt => Expected [] ms
    | .calls ids => Expected ids ms
    | .result id => id ∈ opened ∧ Expected (opened.filter (· ≠ id)) ms

def Complete (opened : List ι) : List M → Prop
  | [] => opened = []
  | m :: ms =>
    match event m with
    | .prompt => opened = [] ∧ Complete [] ms
    | .calls ids => opened = [] ∧ Complete ids ms
    | .result id => id ∈ opened ∧ Complete (opened.filter (· ≠ id)) ms

variable {event} {opened : List ι} {ms after : List M} {ids : List ι}

theorem expected_prompt (h : event m = .prompt) :
    Expected event opened (m :: ms) ↔ Expected event [] ms := by
  rw [Expected, h]

theorem expected_calls (h : event m = .calls ids) :
    Expected event opened (m :: ms) ↔ Expected event ids ms := by
  rw [Expected, h]

theorem expected_result (h : event m = .result id) :
    Expected event opened (m :: ms) ↔
      id ∈ opened ∧ Expected event (opened.filter (· ≠ id)) ms := by
  rw [Expected, h]

theorem complete_prompt (h : event m = .prompt) :
    Complete event opened (m :: ms) ↔ opened = [] ∧ Complete event [] ms := by
  rw [Complete, h]

theorem complete_calls (h : event m = .calls ids) :
    Complete event opened (m :: ms) ↔ opened = [] ∧ Complete event ids ms := by
  rw [Complete, h]

theorem complete_result (h : event m = .result id) :
    Complete event opened (m :: ms) ↔
      id ∈ opened ∧ Complete event (opened.filter (· ≠ id)) ms := by
  rw [Complete, h]

theorem Complete.count (h : Complete event opened ms) (id : ι) :
    (ms.takeWhile (fun x => (event x).isResult)).countP (fun x => event x = .result id) =
      if id ∈ opened then 1 else 0 := by
  induction ms generalizing opened with
  | nil =>
    obtain rfl : opened = [] := h
    rfl
  | cons m ms ih =>
    cases hm : event m with
    | prompt =>
      obtain ⟨rfl, _⟩ := (complete_prompt hm).mp h
      rw [takeWhile_cons_of_neg (by simp [hm, DialogueEvent.isResult])]
      rfl
    | calls ids =>
      obtain ⟨rfl, _⟩ := (complete_calls hm).mp h
      rw [takeWhile_cons_of_neg (by simp [hm, DialogueEvent.isResult])]
      rfl
    | result first =>
      obtain ⟨hfirst, hrest⟩ := (complete_result hm).mp h
      rw [takeWhile_cons_of_pos (by simp [hm, DialogueEvent.isResult]), countP_cons, ih hrest]
      by_cases hid : id = first
      · subst hid
        simp [hm, hfirst]
      · have hne : first ≠ id := fun he => hid he.symm
        simp [hm, hid, hne]

theorem Complete.drop_calls (h : Complete event opened (before ++ m :: after))
    (hm : event m = .calls ids) : Complete event ids after := by
  induction before generalizing opened with
  | nil => exact ((complete_calls hm).mp h).2
  | cons x before ih =>
    cases hx : event x with
    | prompt => exact ih ((complete_prompt hx).mp h).2
    | calls ids' => exact ih ((complete_calls hx).mp h).2
    | result id' => exact ih ((complete_result hx).mp h).2

theorem Complete.callsAnswered (h : Complete event opened ms) : CallsAnswered event ms := by
  rintro before m after ids rfl hm id hid
  rw [(h.drop_calls hm).count, if_pos hid]

theorem Complete.calledFor_or (h : Complete event opened (before ++ m :: after))
    (hm : event m = .result id) :
    CalledFor event before id ∨ id ∈ opened ∧ ∀ x ∈ before, (event x).isResult := by
  induction before generalizing opened with
  | nil => exact .inr ⟨((complete_result hm).mp h).1, by simp⟩
  | cons x before ih =>
    cases hx : event x with
    | prompt =>
      obtain hcalled | ⟨hopen, _⟩ := ih ((complete_prompt hx).mp h).2
      · exact .inl (hcalled.cons x)
      · simp at hopen
    | calls ids =>
      obtain hcalled | ⟨hopen, hresults⟩ := ih ((complete_calls hx).mp h).2
      · exact .inl (hcalled.cons x)
      · exact .inl ⟨[], x, before, ids, rfl, hx, hopen, hresults⟩
    | result id' =>
      obtain hcalled | ⟨hopen, hresults⟩ := ih ((complete_result hx).mp h).2
      · exact .inl (hcalled.cons x)
      · refine .inr ⟨(mem_filter.mp hopen).1, ?_⟩
        intro y hy
        obtain rfl | hy := mem_cons.mp hy
        · rw [hx]
          rfl
        · exact hresults y hy

theorem Complete.resultsCalledFor (h : Complete event [] ms) : ResultsCalledFor event ms := by
  rintro before m after id rfl hm
  obtain hcalled | ⟨hopen, _⟩ := h.calledFor_or hm
  · exact hcalled
  · simp at hopen

theorem expected_of_calledFor_or
    (hcalled : ∀ before m after id, ms = before ++ m :: after → event m = .result id →
      CalledFor event before id ∨ id ∈ opened ∧ ∀ x ∈ before, (event x).isResult)
    (honce : (ms.filterMap (resultId? event)).Nodup) : Expected event opened ms := by
  induction ms generalizing opened with
  | nil => trivial
  | cons x ms ih =>
    have hrest : (ms.filterMap (resultId? event)).Nodup :=
      honce.sublist ((sublist_cons_self x ms).filterMap _)
    cases hx : event x with
    | prompt =>
      refine (expected_prompt hx).mpr (ih ?_ hrest)
      rintro before m after id rfl hm
      obtain h | ⟨_, hresults⟩ := hcalled (x :: before) m after id rfl hm
      · exact .inl (h.of_cons (by simp [hx]))
      · have hfalse := hresults x mem_cons_self
        simp [hx, DialogueEvent.isResult] at hfalse
    | calls ids =>
      refine (expected_calls hx).mpr (ih ?_ hrest)
      rintro before m after id rfl hm
      obtain h | ⟨_, hresults⟩ := hcalled (x :: before) m after id rfl hm
      · by_cases hopen : id ∈ ids ∧ ∀ y ∈ before, (event y).isResult
        · exact .inr hopen
        · refine .inl (h.of_cons ?_)
          intro ids' hids'
          obtain rfl : ids = ids' := by simpa [hx] using hids'
          exact not_and_or.mp hopen
      · have hfalse := hresults x mem_cons_self
        simp [hx, DialogueEvent.isResult] at hfalse
    | result first =>
      have hfirst : first ∈ opened := by
        obtain ⟨earlier, m, results, ids, hsplit, _⟩ | ⟨h, _⟩ := hcalled [] x ms first rfl hx
        · simp at hsplit
        · exact h
      refine (expected_result hx).mpr ⟨hfirst, ih ?_ hrest⟩
      rintro before m after id rfl hm
      obtain h | ⟨hopen, hresults⟩ := hcalled (x :: before) m after id rfl hm
      · exact .inl (h.of_cons (by simp [hx]))
      · refine .inr ⟨mem_filter.mpr ⟨hopen, ?_⟩, ?_⟩
        · have hfirst? : resultId? event x = some first := by rw [resultId?, hx]
          have hid? : resultId? event m = some id := by rw [resultId?, hm]
          rw [filterMap_cons, hfirst?] at honce
          have hmem : id ∈ (before ++ m :: after).filterMap (resultId? event) :=
            mem_filterMap.mpr ⟨m, by simp, hid?⟩
          have hne : id ≠ first := fun he => (nodup_cons.mp honce).1 (he ▸ hmem)
          simpa using hne
        · exact fun y hy => hresults y (mem_cons_of_mem _ hy)

theorem ResultsCalledFor.expected (h : ResultsCalledFor event ms)
    (honce : (ms.filterMap (resultId? event)).Nodup) : Expected event opened ms :=
  expected_of_calledFor_or (fun before m after id hms hm => .inl (h before m after id hms hm))
    honce

theorem complete_results {results : List M} (h : Complete event [] ms)
    (hids : results.map event = opened.map .result) (hnodup : opened.Nodup) :
    Complete event opened (results ++ ms) := by
  induction results generalizing opened with
  | nil =>
    obtain rfl : opened = [] := by simpa using hids.symm
    exact h
  | cons x results ih =>
    obtain ⟨id, opened, rfl, hx, hrest⟩ := map_eq_cons_iff.mp hids.symm
    obtain ⟨hid, hopened⟩ := nodup_cons.mp hnodup
    have hfilter : (id :: opened).filter (· ≠ id) = opened := by
      rw [filter_cons_of_neg (by simp), filter_eq_self]
      intro y hy
      have hne : y ≠ id := fun he => hid (he ▸ hy)
      simpa using hne
    refine (complete_result hx.symm).mpr ⟨mem_cons_self, ?_⟩
    rw [hfilter]
    exact ih hrest.symm hopened

end Dialogue

end Draht
