import Draht.CompactionConservation

/-!
# Where a session path is cut

The walk back from the newest entry stops at the last message from which on the estimates add up to
the budget. The cut is the first valid cut point at or after it, moved back over entries that are
neither messages nor compactions. No tool result is kept without its call.
-/

namespace Draht
open List Option

variable {entries : List SessionEntry} {startIndex endIndex : ℕ} {keepRecentTokens : ℤ}

def SessionEntry.isToolResult (e : SessionEntry) : Bool :=
  match e.body with
  | .message (.toolResult _) => true
  | _ => false

def SessionEntry.bearsContext (e : SessionEntry) : Bool :=
  (getMessageFromEntryForCompaction e).isSome

variable {e : SessionEntry} {i c cut : ℕ}

theorem SessionEntry.isToolResult_message (h : e.isToolResult = true) :
    e.message?.isSome = true := by
  unfold isToolResult at h
  unfold SessionEntry.message?
  cases hb : e.body <;> simp_all

theorem isValidCutPoint_bearsContext (h : isValidCutPoint e = true) :
    e.bearsContext = true := by
  unfold isValidCutPoint at h
  unfold SessionEntry.bearsContext getMessageFromEntryForCompaction SessionEntry.isCompaction
    getMessageFromEntry
  cases hb : e.body <;> simp_all

theorem isValidCutPoint_not_toolResult (h : isValidCutPoint e = true) :
    e.isToolResult = false := by
  unfold isValidCutPoint at h
  unfold SessionEntry.isToolResult
  cases hb : e.body with
  | message m => cases m <;> simp_all
  | _ => rfl

theorem isTurnStart_isValidCutPoint (h : isTurnStart e = true) :
    isValidCutPoint e = true := by
  unfold isTurnStart at h
  unfold isValidCutPoint
  cases hb : e.body with
  | message m => cases m <;> simp_all
  | _ => simp_all

theorem isUserMessage_isTurnStart (h : isUserMessage e = true) :
    isTurnStart e = true := by
  unfold isUserMessage at h
  unfold isTurnStart
  cases hb : e.body with
  | message m => cases m <;> simp_all
  | _ => simp_all

theorem mem_findValidCutPoints_iff :
    i ∈ findValidCutPoints entries startIndex endIndex ↔
      startIndex ≤ i ∧ i < endIndex ∧ ∃ e, entries[i]? = some e ∧ isValidCutPoint e = true := by
  rw [findValidCutPoints, List.mem_filter, List.mem_range'_1, Option.any_eq_true]
  constructor
  · rintro ⟨⟨hstart, hend⟩, hvalid⟩
    exact ⟨hstart, by omega, hvalid⟩
  · rintro ⟨hstart, hend, hvalid⟩
    exact ⟨⟨hstart, by omega⟩, hvalid⟩

theorem findValidCutPoints_sorted (entries : List SessionEntry) (startIndex endIndex : ℕ) :
    (findValidCutPoints entries startIndex endIndex).Pairwise (· < ·) :=
  Pairwise.filter _ (pairwise_lt_range')

def chosenCut (entries : List SessionEntry) (startIndex endIndex : ℕ) (keepRecentTokens : ℤ) :
    Option ℕ :=
  match findValidCutPoints entries startIndex endIndex with
  | [] => none
  | first :: rest => some (searchCut entries startIndex keepRecentTokens (first :: rest) first
      (endIndex - startIndex) 0)

theorem chosenCut_eq_none_iff :
    chosenCut entries startIndex endIndex keepRecentTokens = none ↔
      findValidCutPoints entries startIndex endIndex = [] := by
  rw [chosenCut]
  cases findValidCutPoints entries startIndex endIndex <;> simp

theorem mem_of_chosenCut
    (h : chosenCut entries startIndex endIndex keepRecentTokens = some c) :
    c ∈ findValidCutPoints entries startIndex endIndex := by
  rw [chosenCut] at h
  cases hcuts : findValidCutPoints entries startIndex endIndex with
  | nil => simp [hcuts] at h
  | cons first rest =>
    rw [hcuts] at h
    cases h
    exact searchCut_mem mem_cons_self _ _

theorem findCutPoint_firstKept :
    (findCutPoint entries startIndex endIndex keepRecentTokens).firstKeptEntryIndex =
      ((chosenCut entries startIndex endIndex keepRecentTokens).map
        (includeNonMessages entries startIndex)).getD startIndex := by
  rw [findCutPoint, chosenCut]
  cases findValidCutPoints entries startIndex endIndex <;> rfl

variable {start j : ℕ} {cutPoints : List ℕ}

theorem includeNonMessages_between (hle : includeNonMessages entries startIndex cut ≤ j)
    (hlt : j < cut) : entries[j]?.any (fun e => e.isCompaction || e.message?.isSome) = false := by
  induction cut with
  | zero => omega
  | succ cut ih =>
    rw [includeNonMessages] at hle
    split_ifs at hle with hstart hstop
    · omega
    · obtain hlt | rfl := Nat.lt_succ_iff_lt_or_eq.mp hlt
      · exact ih hle hlt
      · exact Bool.eq_false_iff.mpr hstop
    · omega

structure FirstBearing (entries : List SessionEntry) (start c : ℕ) : Prop where
  le : start ≤ c
  bears : entries[c]?.any SessionEntry.bearsContext = true
  before : ∀ j, start ≤ j → j < c → entries[j]?.any SessionEntry.bearsContext = false

theorem FirstBearing.exists_le (hle : start ≤ c)
    (hc : entries[c]?.any SessionEntry.bearsContext = true) :
    ∃ b, b ≤ c ∧ FirstBearing entries start b := by
  induction c using Nat.strong_induction_on with
  | _ c ih =>
    by_cases hbefore : ∀ j, start ≤ j → j < c → entries[j]?.any SessionEntry.bearsContext = false
    · exact ⟨c, Nat.le_refl _, hle, hc, hbefore⟩
    · obtain ⟨j, hstart, hlt, hj⟩ : ∃ j, start ≤ j ∧ j < c ∧
          entries[j]?.any SessionEntry.bearsContext = true := by
        by_contra hnone
        refine hbefore fun j hstart hlt => Bool.eq_false_iff.mpr fun hj => hnone ?_
        exact ⟨j, hstart, hlt, hj⟩
      obtain ⟨b, hb, hfirst⟩ := ih j hlt hstart hj
      exact ⟨b, by omega, hfirst⟩

theorem eq_of_forall_not_lt {p : ℕ → Prop} (h : ∀ i j, p i → p j → ¬ i < j) (hi : p i) (hj : p j) :
    i = j := by
  obtain hlt | heq | hlt := Nat.lt_trichotomy i j
  · exact absurd hlt (h i j hi hj)
  · exact heq
  · exact absurd hlt (h j i hj hi)

theorem FirstBearing.unique {c' : ℕ} (h : FirstBearing entries start c)
    (h' : FirstBearing entries start c') : c = c' := by
  refine eq_of_forall_not_lt (fun i j hi hj hlt => ?_) h h'
  have hbears := hi.bears
  rw [hj.before i hi.le hlt] at hbears
  cases hbears

/-- The result at `r` answers a call of the assistant message at `a`, with only tool results and
quiet entries in between. -/
structure AnswersCall (quiet : SessionEntry → Bool) (entries : List SessionEntry) (a r : ℕ) :
    Prop where
  lt : a < r
  call : ∃ m result, entries[a]?.bind SessionEntry.message? = some (.assistant m) ∧
    entries[r]?.bind SessionEntry.message? = some (.toolResult result) ∧
    result.toolCallId ∈ m.toolCalls.map (·.id)
  between : ∀ j, a < j → j < r → entries[j]?.any (fun e => e.isToolResult || quiet e) = true

def ResultsFollowCalls (quiet : SessionEntry → Bool) (entries : List SessionEntry) : Prop :=
  ∀ r, entries[r]?.any SessionEntry.isToolResult = true → ∃ a, AnswersCall quiet entries a r

structure KeepsCalls (quiet : SessionEntry → Bool) (entries : List SessionEntry)
    (startIndex endIndex firstKept : ℕ) : Prop where
  start_le : startIndex ≤ firstKept
  lt_end : firstKept < endIndex
  first : ∃ c, FirstBearing entries firstKept c ∧
    entries[c]?.any SessionEntry.isToolResult = false
  calls : ∀ r, firstKept ≤ r → entries[r]?.any SessionEntry.isToolResult = true →
    ∃ a, firstKept ≤ a ∧ AnswersCall quiet entries a r

theorem findCutPoint_cases (keepRecentTokens : ℤ)
    (hcuts : findValidCutPoints entries startIndex endIndex ≠ []) :
    ∃ cut, chosenCut entries startIndex endIndex keepRecentTokens = some cut ∧
      startIndex ≤ cut ∧ cut < endIndex ∧
      (∃ e, entries[cut]? = some e ∧ isValidCutPoint e = true) ∧
      (findCutPoint entries startIndex endIndex keepRecentTokens).firstKeptEntryIndex =
        includeNonMessages entries startIndex cut := by
  have hchosen : chosenCut entries startIndex endIndex keepRecentTokens ≠ none :=
    fun hnone => hcuts (chosenCut_eq_none_iff.mp hnone)
  obtain ⟨cut, hcut⟩ := ne_none_iff_exists'.mp hchosen
  obtain ⟨hstart, hend, hvalid⟩ := mem_findValidCutPoints_iff.mp (mem_of_chosenCut hcut)
  refine ⟨cut, hcut, hstart, hend, hvalid, ?_⟩
  rw [findCutPoint_firstKept, hcut]
  rfl

/-- The cut never separates a result from its call, if nothing that a cut may fall on lies between
the two. -/
theorem findCutPoint_keepsCalls
    (hfollow : ResultsFollowCalls (fun e => !e.bearsContext) entries)
    (hcuts : findValidCutPoints entries startIndex endIndex ≠ []) :
    KeepsCalls (fun e => !e.bearsContext) entries startIndex endIndex
      (findCutPoint entries startIndex endIndex keepRecentTokens).firstKeptEntryIndex := by
  obtain ⟨cut, _, hstart, hend, ⟨e, he, hvalid⟩, hfirst⟩ :=
    findCutPoint_cases keepRecentTokens hcuts
  rw [hfirst]
  have hbounds := includeNonMessages_bounds entries hstart
  have hscanned : ∀ j, includeNonMessages entries startIndex cut ≤ j → j < cut →
      entries[j]?.any SessionEntry.isToolResult = false := by
    intro j hle hlt
    have hquiet := includeNonMessages_between hle hlt
    cases hj : entries[j]? with
    | none => rfl
    | some e =>
      rw [hj, any_some, Bool.or_eq_false_iff] at hquiet
      refine Bool.eq_false_iff.mpr fun hresult => ?_
      rw [SessionEntry.isToolResult_message hresult] at hquiet
      cases hquiet.2
  have hcut : entries[cut]?.any SessionEntry.isToolResult = false := by
    rw [he, any_some, isValidCutPoint_not_toolResult hvalid]
  have hbears : entries[cut]?.any SessionEntry.bearsContext = true := by
    rw [he, any_some, isValidCutPoint_bearsContext hvalid]
  refine ⟨hbounds.1, by omega, ?_, ?_⟩
  · obtain ⟨b, hb, hfirstBearing⟩ := FirstBearing.exists_le hbounds.2 hbears
    refine ⟨b, hfirstBearing, ?_⟩
    obtain hlt | rfl := Nat.lt_or_eq_of_le hb
    · exact hscanned b hfirstBearing.le hlt
    · exact hcut
  · intro r hr hresult
    obtain ⟨a, hanswers⟩ := hfollow r hresult
    refine ⟨a, ?_, hanswers⟩
    have hlt : cut < r := by
      by_contra hnot
      obtain hlt | rfl := Nat.lt_or_eq_of_le (Nat.not_lt.mp hnot)
      · rw [hscanned r hr hlt] at hresult
        cases hresult
      · rw [hcut] at hresult
        cases hresult
    by_contra hbefore
    -- the cut would lie between the call and its result
    have hbetween := hanswers.between cut (by omega) hlt
    rw [he, any_some, isValidCutPoint_not_toolResult hvalid,
      isValidCutPoint_bearsContext hvalid] at hbetween
    cases hbetween

/-- Entries without parents, which the cut does not look at. -/
def entryOf (id : String) (body : EntryBody) : SessionEntry := ⟨id, none, 0, body⟩

def promptEntry (id text : String) : SessionEntry :=
  entryOf id (.message (.user { content := .string text, timestamp := 0 }))

def callingEntry (id : String) (callIds : List String) : SessionEntry :=
  entryOf id (.message (.assistant
    { content := callIds.map fun callId => .toolCall ⟨callId, "read", .nil, none⟩
      api := "", provider := "", model := "", usage := ⟨0, 0, 0, 0, 0⟩, stopReason := .toolUse
      errorMessage := none, timestamp := 0 }))

def resultEntry (id callId text : String) : SessionEntry :=
  entryOf id (.message (.toolResult
    { toolCallId := callId, toolName := "read", content := [.text ⟨text, none⟩], details := none
      isError := false, timestamp := 0 }))

def labelledCall : List SessionEntry :=
  [promptEntry "a" "go", callingEntry "b" ["c1"], entryOf "c" (.label "a" (some "x")),
    resultEntry "d" "c1" "text", promptEntry "e" "next"]

theorem findCutPoint_keepsCalls_labelledCall :
    KeepsCalls (fun e => !e.bearsContext) labelledCall 0 5
      (findCutPoint labelledCall 0 5 2).firstKeptEntryIndex := by
  refine findCutPoint_keepsCalls ?_ (by decide)
  rintro (_ | _ | _ | _ | _ | r) hresult
  · cases hresult
  · cases hresult
  · cases hresult
  · refine ⟨1, by omega, ⟨_, _, rfl, rfl, by decide⟩, ?_⟩
    intro j hj hlt
    obtain rfl : j = 2 := by omega
    rfl
  · cases hresult
  · cases hresult

def noteBetweenResults : List SessionEntry :=
  [promptEntry "a" "go", callingEntry "b" ["c1", "c2"], resultEntry "c" "c1" "text",
    entryOf "d" (.customMessage ⟨"note", .string "note", true, none⟩),
    resultEntry "e" "c2" "text"]

/-- The cut falls on the extension's message, and the second result is kept without its call. -/
theorem noteBetweenResults_orphaned :
    ResultsFollowCalls (fun e => e.message?.isNone) noteBetweenResults ∧
      findValidCutPoints noteBetweenResults 0 5 ≠ [] ∧
      ¬ KeepsCalls (fun e => e.message?.isNone) noteBetweenResults 0 5
          (findCutPoint noteBetweenResults 0 5 2).firstKeptEntryIndex := by
  have hcut : (findCutPoint noteBetweenResults 0 5 2).firstKeptEntryIndex = 3 := by decide +kernel
  refine ⟨?_, by decide, ?_⟩
  · rintro (_ | _ | _ | _ | _ | r) hresult
    · cases hresult
    · cases hresult
    · exact ⟨1, by omega, ⟨_, _, rfl, rfl, by decide⟩, fun j hj hlt => by omega⟩
    · cases hresult
    · refine ⟨1, by omega, ⟨_, _, rfl, rfl, by decide⟩, ?_⟩
      intro j hj hlt
      obtain rfl | rfl : j = 2 ∨ j = 3 := by omega
      · rfl
      · rfl
    · cases hresult
  · intro hkeeps
    obtain ⟨a, ha, hanswers⟩ := hkeeps.calls 4 (by omega) rfl
    obtain rfl : a = 3 := by have := hanswers.lt; omega
    obtain ⟨m, result, hcall, _⟩ := hanswers.call
    cases hcall

/-- The estimate of an entry, which counts if it is a message. -/
def entryTokens (entries : List SessionEntry) (i : ℕ) : ℕ :=
  ((entries[i]?.bind SessionEntry.message?).map estimateTokens).getD 0

/-- The estimate of the messages of the `n` entries from `start` on. -/
def tokensFrom (entries : List SessionEntry) (start n : ℕ) : ℕ :=
  totalOf (entryTokens entries) (List.range' start n)

/-- What is kept of a range if it is cut at `cut`. -/
def keptTokens (entries : List SessionEntry) (cut endIndex : ℕ) : ℕ :=
  tokensFrom entries cut (endIndex - cut)

theorem totalOf_cons {α : Type} (f : α → ℕ) (x : α) (xs : List α) :
    totalOf f (x :: xs) = f x + totalOf f xs := by
  have hfold : ∀ (xs : List α) (total : ℕ),
      xs.foldl (fun total x => total + f x) total = total + totalOf f xs := by
    intro xs
    induction xs with
    | nil => simp [totalOf]
    | cons x xs ih =>
      intro total
      rw [totalOf, foldl_cons, foldl_cons, ih, ih (0 + f x)]
      omega
  rw [totalOf, foldl_cons, hfold, Nat.zero_add]

theorem keptTokens_of_lt (entries : List SessionEntry) (h : cut < endIndex) :
    keptTokens entries cut endIndex =
      entryTokens entries cut + keptTokens entries (cut + 1) endIndex := by
  obtain ⟨n, hn⟩ : ∃ n, endIndex - cut = n + 1 := ⟨endIndex - cut - 1, by omega⟩
  rw [keptTokens, keptTokens, tokensFrom, tokensFrom, hn, range'_succ, totalOf_cons,
    show endIndex - (cut + 1) = n by omega]

theorem keptTokens_of_le (h : endIndex ≤ cut) : keptTokens entries cut endIndex = 0 := by
  rw [keptTokens, Nat.sub_eq_zero_of_le h]
  rfl

theorem keptTokens_anti (entries : List SessionEntry) (endIndex : ℕ) {cut' : ℕ}
    (h : cut ≤ cut') :
    keptTokens entries cut' endIndex ≤ keptTokens entries cut endIndex := by
  induction cut' with
  | zero =>
    obtain rfl := Nat.le_zero.mp h
    exact Nat.le_refl _
  | succ cut' ih =>
    obtain hlt | rfl := Nat.lt_or_eq_of_le h
    · by_cases hend : cut' < endIndex
      · have hstep := keptTokens_of_lt entries hend
        omega
      · rw [keptTokens_of_le (by omega)]
        exact Nat.zero_le _
    · exact Nat.le_refl _

def isMessageAt (entries : List SessionEntry) (i : ℕ) : Bool :=
  (entries[i]?.bind SessionEntry.message?).isSome

theorem entryTokens_of_not_message (h : isMessageAt entries i = false) :
    entryTokens entries i = 0 := by
  rw [entryTokens]
  rw [isMessageAt, isSome_eq_false_iff, isNone_iff_eq_none] at h
  rw [h]
  rfl

/-- The entry at which the budget is reached: the last message of the range from which on the
messages add up to it. -/
structure ReachesBudget (entries : List SessionEntry) (startIndex endIndex : ℕ)
    (keepRecentTokens : ℤ) (i : ℕ) : Prop where
  start_le : startIndex ≤ i
  lt_end : i < endIndex
  isMessage : isMessageAt entries i = true
  reaches : keepRecentTokens ≤ keptTokens entries i endIndex
  last : ∀ j, i < j → j < endIndex → isMessageAt entries j = true →
    (keptTokens entries j endIndex : ℤ) < keepRecentTokens

theorem searchCut_spec {first n accumulated : ℕ} (hn : startIndex + n ≤ endIndex)
    (haccumulated : accumulated = keptTokens entries (startIndex + n) endIndex)
    (hlater : ∀ j, startIndex + n ≤ j → j < endIndex → isMessageAt entries j = true →
      (keptTokens entries j endIndex : ℤ) < keepRecentTokens) :
    (∃ i, ReachesBudget entries startIndex endIndex keepRecentTokens i ∧
      searchCut entries startIndex keepRecentTokens cutPoints first n accumulated =
        (cutPoints.find? fun c => i ≤ c).getD first) ∨
    (∀ j, startIndex ≤ j → j < endIndex → isMessageAt entries j = true →
        (keptTokens entries j endIndex : ℤ) < keepRecentTokens) ∧
      searchCut entries startIndex keepRecentTokens cutPoints first n accumulated = first := by
  induction n generalizing accumulated with
  | zero => exact .inr ⟨hlater, rfl⟩
  | succ n ih =>
    have hlt : startIndex + n < endIndex := by omega
    have hstep := keptTokens_of_lt entries hlt
    rw [searchCut]
    cases hmessage : entries[startIndex + n]?.bind SessionEntry.message? with
    | none =>
      have hnot : isMessageAt entries (startIndex + n) = false := by
        rw [isMessageAt, hmessage]
        rfl
      rw [entryTokens_of_not_message hnot] at hstep
      refine ih (by omega) (by rw [haccumulated, hstep, Nat.zero_add]; rfl) ?_
      intro j hj hend hjmessage
      obtain hgt | rfl := Nat.lt_or_eq_of_le hj
      · exact hlater j hgt hend hjmessage
      · rw [hnot] at hjmessage
        cases hjmessage
    | some m =>
      have htokens : entryTokens entries (startIndex + n) = estimateTokens m := by
        rw [entryTokens, hmessage]
        rfl
      have htotal : accumulated + estimateTokens m =
          keptTokens entries (startIndex + n) endIndex := by
        rw [haccumulated, hstep, htokens, Nat.add_comm]
        rfl
      simp only [htotal]
      split_ifs with hreached
      · refine .inl ⟨startIndex + n, ⟨by omega, hlt, ?_, hreached, ?_⟩, rfl⟩
        · rw [isMessageAt, hmessage]
          rfl
        · exact fun j hj hend => hlater j hj hend
      · refine ih (by omega) rfl ?_
        intro j hj hend hjmessage
        obtain hgt | rfl := Nat.lt_or_eq_of_le hj
        · exact hlater j hgt hend hjmessage
        · exact Int.not_le.mp hreached

theorem keptTokens_lt (hkeep : 0 < keepRecentTokens)
    (h : ∀ j, cut ≤ j → j < endIndex → isMessageAt entries j = true →
      (keptTokens entries j endIndex : ℤ) < keepRecentTokens) :
    (keptTokens entries cut endIndex : ℤ) < keepRecentTokens := by
  induction hn : endIndex - cut generalizing cut with
  | zero =>
    rw [keptTokens_of_le (by omega)]
    exact hkeep
  | succ n ih =>
    have hlt : cut < endIndex := by omega
    cases hmessage : isMessageAt entries cut with
    | true => exact h cut le_rfl hlt hmessage
    | false =>
      rw [keptTokens_of_lt entries hlt, entryTokens_of_not_message hmessage, Nat.zero_add]
      exact ih (fun j hj => h j (by omega)) (by omega)

theorem ReachesBudget.unique {i' : ℕ}
    (h : ReachesBudget entries startIndex endIndex keepRecentTokens i)
    (h' : ReachesBudget entries startIndex endIndex keepRecentTokens i') : i = i' := by
  refine eq_of_forall_not_lt (fun i j hi hj hlt => ?_) h h'
  exact Int.not_le.mpr (hi.last j hlt hj.lt_end hj.isMessage) hj.reaches

theorem ReachesBudget.keep_le
    (h : ReachesBudget entries startIndex endIndex keepRecentTokens i) (hc : c ≤ i) :
    keepRecentTokens ≤ keptTokens entries c endIndex := by
  have hle := keptTokens_anti entries endIndex hc
  have hreaches := h.reaches
  omega

theorem find?_sorted (hsorted : cutPoints.Pairwise (· < ·))
    (h : (cutPoints.find? fun c => i ≤ c) = some c) :
    c ∈ cutPoints ∧ i ≤ c ∧ ∀ c' ∈ cutPoints, i ≤ c' → c ≤ c' := by
  refine ⟨mem_of_find?_eq_some h, by simpa using find?_some h, ?_⟩
  induction cutPoints with
  | nil => cases h
  | cons first rest ih =>
    rw [pairwise_cons] at hsorted
    rw [find?_cons] at h
    intro c' hc' hle
    cases hfirst : decide (i ≤ first) with
    | true =>
      rw [hfirst] at h
      cases h
      obtain rfl | hrest := mem_cons.mp hc'
      · exact Nat.le_refl _
      · exact Nat.le_of_lt (hsorted.1 c' hrest)
    | false =>
      rw [hfirst] at h
      obtain rfl | hrest := mem_cons.mp hc'
      · exact absurd hle (of_decide_eq_false hfirst)
      · exact ih hsorted.2 h c' hrest hle

/-- No valid cut point after the chosen one keeps as much as the budget, if the range has it. -/
def CutIsTight (entries : List SessionEntry) (startIndex endIndex : ℕ) (keepRecentTokens : ℤ) :
    Prop :=
  keepRecentTokens ≤ keptTokens entries startIndex endIndex →
    ∀ cut, chosenCut entries startIndex endIndex keepRecentTokens = some cut →
      ∀ c ∈ findValidCutPoints entries startIndex endIndex, cut < c →
        (keptTokens entries c endIndex : ℤ) < keepRecentTokens

/-- A valid cut point lies at or after the entry at which the budget is reached; if there is no
budget, a single one. -/
def CutAfterBudget (entries : List SessionEntry) (startIndex endIndex : ℕ)
    (keepRecentTokens : ℤ) : Prop :=
  ∃ i, ReachesBudget entries startIndex endIndex keepRecentTokens i ∧
    ∃ c ∈ findValidCutPoints entries startIndex endIndex, i ≤ c ∧
      (0 < keepRecentTokens ∨
        ∀ c' ∈ findValidCutPoints entries startIndex endIndex, i ≤ c' → c' = c)

theorem eq_of_length_le_one (h : cutPoints.length ≤ 1) {d : ℕ} (hc : c ∈ cutPoints)
    (hd : d ∈ cutPoints) : c = d := by
  cases cutPoints with
  | nil => cases hc
  | cons first rest =>
    have hrest : rest = [] := length_eq_zero_iff.mp (by simpa using h)
    rw [hrest, mem_singleton] at hc hd
    rw [hc, hd]

theorem length_le_one_of_not_lt {first : ℕ} {rest : List ℕ}
    (hsorted : (first :: rest).Pairwise (· < ·)) (h : ∀ c ∈ first :: rest, ¬ first < c) :
    (first :: rest).length ≤ 1 := by
  cases rest with
  | nil => exact Nat.le_refl _
  | cons second rest =>
    have hlt := (pairwise_cons.mp hsorted).1 second mem_cons_self
    exact absurd hlt (h second (by simp))

theorem cutIsTight_iff (entries : List SessionEntry) (startIndex endIndex : ℕ)
    (keepRecentTokens : ℤ) :
    CutIsTight entries startIndex endIndex keepRecentTokens ↔
      (keptTokens entries startIndex endIndex : ℤ) < keepRecentTokens ∨
        (findValidCutPoints entries startIndex endIndex).length ≤ 1 ∨
        CutAfterBudget entries startIndex endIndex keepRecentTokens := by
  by_cases hless : (keptTokens entries startIndex endIndex : ℤ) < keepRecentTokens
  · exact iff_of_true (fun hle => absurd hle (Int.not_le.mpr hless)) (.inl hless)
  have htotal := Int.not_lt.mp hless
  rw [CutIsTight, CutAfterBudget, chosenCut]
  have hsorted := findValidCutPoints_sorted entries startIndex endIndex
  have hrange : ∀ c ∈ findValidCutPoints entries startIndex endIndex,
      startIndex ≤ c ∧ c < endIndex := fun c hc => mem_findValidCutPoints hc
  cases hcuts : findValidCutPoints entries startIndex endIndex with
  | nil => simp
  | cons first rest =>
    rw [hcuts] at hsorted hrange
    have hbounds := hrange first mem_cons_self
    have hspec := @searchCut_spec entries startIndex endIndex keepRecentTokens (first :: rest)
      first (endIndex - startIndex) 0 (by omega) (by rw [keptTokens_of_le (by omega)])
      (fun j hj hend => absurd hend (by omega))
    simp only [some.injEq, forall_eq', hless, false_or, htotal, forall_const]
    obtain ⟨i, hreaches, hcut⟩ | ⟨hnever, hcut⟩ := hspec
    · rw [hcut]
      cases hfind : (first :: rest).find? fun c => i ≤ c with
      | some c =>
        -- the walk cuts at the first valid cut point after the budget is reached
        obtain ⟨hmem, hle, hleast⟩ := find?_sorted hsorted hfind
        rw [getD_some]
        constructor
        · intro htight
          refine .inr ⟨i, hreaches, c, hmem, hle, ?_⟩
          by_cases hpositive : 0 < keepRecentTokens
          · exact .inl hpositive
          · refine .inr fun c' hc' hle' => ?_
            have hc := hleast c' hc' hle'
            by_contra hne
            have hlt := htight c' hc' (by omega)
            omega
        · rintro (hone | ⟨i', hreaches', c', hc', hle', hlast⟩) d hd hlt
          · rw [eq_of_length_le_one hone hmem hd] at hlt
            exact absurd hlt (Nat.lt_irrefl _)
          · obtain rfl := hreaches.unique hreaches'
            obtain hpositive | hsingle := hlast
            · exact keptTokens_lt hpositive fun j hj => hreaches.last j (by omega)
            · have hd' := hsingle d hd (by omega)
              have hc := hsingle c hmem hle
              omega
      | none =>
        -- no valid cut point is left, and the walk falls back to the first one
        rw [find?_eq_none] at hfind
        constructor
        · intro htight
          refine .inl (length_le_one_of_not_lt hsorted fun c hc hlt => ?_)
          have hbefore : c ≤ i := by
            have hnot := hfind c hc
            simp only [decide_eq_true_eq] at hnot
            omega
          exact absurd (hreaches.keep_le hbefore) (Int.not_le.mpr (htight c hc hlt))
        · rintro (hone | ⟨i', hreaches', c', hc', hle', _⟩) d hd hlt
          · rw [eq_of_length_le_one hone mem_cons_self hd] at hlt
            exact absurd hlt (Nat.lt_irrefl _)
          · obtain rfl := hreaches.unique hreaches'
            exact absurd (decide_eq_true hle') (hfind c' hc')
    · -- there is no message in the range, and no budget
      rw [hcut]
      have hnone : ¬ 0 < keepRecentTokens := fun hpositive =>
        hless (keptTokens_lt hpositive fun j hj => hnever j hj)
      constructor
      · intro htight
        refine .inl (length_le_one_of_not_lt hsorted fun c hc hlt => ?_)
        have hkept := htight c hc hlt
        omega
      · rintro (hone | ⟨i, hreaches, _⟩) d hd hlt
        · rw [eq_of_length_le_one hone mem_cons_self hd] at hlt
          exact absurd hlt (Nat.lt_irrefl _)
        · exact absurd hreaches.reaches
            (Int.not_le.mpr (hnever i hreaches.start_le hreaches.lt_end hreaches.isMessage))

def resultAtEnd : List SessionEntry :=
  [promptEntry "a" "go", promptEntry "b" "on", callingEntry "c" ["c1"],
    resultEntry "d" "c1" "text"]

/-- The result alone reaches the budget; the whole range is kept. -/
theorem resultAtEnd_not_tight : ¬ CutIsTight resultAtEnd 0 4 1 := by
  intro htight
  have hcut : chosenCut resultAtEnd 0 4 1 = some 0 := by decide +kernel
  have hkept := htight (by decide +kernel) 0 hcut 2 (by decide) (by omega)
  revert hkept
  decide +kernel

end Draht
