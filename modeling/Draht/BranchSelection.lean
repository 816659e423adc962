import Draht.BranchSummary
import Draht.CompactedFiles

/-!
# What a branch summary is made from

The walk back from the newest entry stops once the budget is exceeded. The files of the calls
beyond it are not collected, and a budget that is not positive does not stop it at all.
-/

namespace Draht.BranchSummarization
open List

def Touches (e : SessionEntry) (tool : FileTool) (f : String) : Prop :=
  ∃ m, e.body = .message m ∧ m.Touches tool f

/-- The entry is a summary that lists the file, not written by an extension. -/
def Lists (e : SessionEntry) (tool : FileTool) (f : String) : Prop :=
  ∃ d details, e.body = .branchSummary d ∧ d.fromHook ≠ some true ∧ d.details = some details ∧
    (tool = .read ∧ f ∈ detailPaths details "readFiles" ∨
      tool = .edit ∧ f ∈ detailPaths details "modifiedFiles")

variable {tool : FileTool} {f : String} {tokenBudget : ℤ} {entries : List SessionEntry}

variable {e : SessionEntry} {total : ℕ} {older : List SessionEntry}

theorem touches_iff : Touches e tool f ↔ ∃ m, getMessageFromEntry e = some m ∧ m.Touches tool f := by
  unfold Touches getMessageFromEntry
  cases hb : e.body with
  | message m =>
    cases m <;> simp [AgentMessage.Touches]
  | _ => simp [AgentMessage.Touches, compactionSummaryOf]

theorem mem_files_addSummaryDetails (fileOps : FileOperations) (e : SessionEntry) (tool : FileTool)
    (f : String) :
    f ∈ (addSummaryDetails fileOps e).files tool ↔ f ∈ fileOps.files tool ∨ Lists e tool f := by
  unfold addSummaryDetails Lists
  cases hb : e.body with
  | branchSummary d =>
    obtain ⟨fromId, summary, details, fromHook⟩ := d
    cases fromHook with
    | some fromHook =>
      cases fromHook <;> cases details <;> cases tool <;> simp [FileOperations.files, or_comm]
    | none => cases details <;> cases tool <;> simp [FileOperations.files, or_comm]
  | _ => simp

theorem mem_files_foldl_summary (entries : List SessionEntry) (fileOps : FileOperations)
    (tool : FileTool) (f : String) :
    f ∈ (entries.foldl addSummaryDetails fileOps).files tool ↔
      f ∈ fileOps.files tool ∨ ∃ e ∈ entries, Lists e tool f := by
  induction entries generalizing fileOps with
  | nil => simp
  | cons e entries ih =>
    rw [foldl_cons, ih, mem_files_addSummaryDetails]
    simp [or_assoc]

/-- A call in an entry that the walk comes to: the messages of the newer entries, on top of a
total, are within the budget. -/
def TouchedWithin (tokenBudget : ℤ) (total : ℕ) (newestFirst : List SessionEntry) (tool : FileTool)
    (f : String) : Prop :=
  ∃ newer e older, newestFirst = newer ++ e :: older ∧ Touches e tool f ∧
    (tokenBudget ≤ 0 ∨ (total + tokensOf (bearing newer) : ℤ) ≤ tokenBudget)

theorem touchedWithin_cons (hwithin : tokenBudget ≤ 0 ∨ (total : ℤ) ≤ tokenBudget) :
    TouchedWithin tokenBudget total (e :: older) tool f ↔
      Touches e tool f ∨
        TouchedWithin tokenBudget (total + tokensOf (bearing [e])) older tool f := by
  have htokens : ∀ newer, tokensOf (bearing (e :: newer)) =
      tokensOf (bearing [e]) + tokensOf (bearing newer) := by
    intro newer
    rw [← tokensOf_append, ← bearing_append, singleton_append]
  constructor
  · rintro ⟨newer, e', older', hsplit, htouches, hfits⟩
    cases newer with
    | nil =>
      cases hsplit
      exact .inl htouches
    | cons e'' newer =>
      obtain ⟨rfl, hrest⟩ := cons.inj hsplit
      refine .inr ⟨newer, e', older', hrest, htouches, ?_⟩
      rw [htokens] at hfits
      omega
  · rintro (htouches | ⟨newer, e', older', rfl, htouches, hfits⟩)
    · exact ⟨[], e, older, rfl, htouches, by simpa using hwithin⟩
    · refine ⟨e :: newer, e', older', rfl, htouches, ?_⟩
      rw [htokens]
      omega

theorem not_touchedWithin {tokens : ℕ} (h : 0 < tokenBudget ∧ tokenBudget < total + tokens) :
    ¬ TouchedWithin tokenBudget (total + tokens) older tool f := by
  rintro ⟨newer, e, older', _, _, hfits⟩
  omega

theorem mem_files_selectMessages {newestFirst : List SessionEntry}
    {p : BranchPreparation} (hwithin : tokenBudget ≤ 0 ∨ (p.totalTokens : ℤ) ≤ tokenBudget)
    (tool : FileTool) (f : String) :
    f ∈ (selectMessages tokenBudget newestFirst p).fileOps.files tool ↔
      f ∈ p.fileOps.files tool ∨
        TouchedWithin tokenBudget p.totalTokens newestFirst tool f := by
  induction newestFirst generalizing p with
  | nil => simp [selectMessages, TouchedWithin]
  | cons e older ih =>
    rw [selectMessages, touchedWithin_cons hwithin, touches_iff]
    cases hm : getMessageFromEntry e with
    | none =>
      rw [bearing_cons_none hm, bearing_nil, tokensOf_nil, Nat.add_zero]
      simpa using ih hwithin
    | some m =>
      rw [bearing_cons_some hm, bearing_nil, tokensOf_cons, tokensOf_nil, Nat.add_zero]
      have hextract : f ∈ (p.extract m).fileOps.files tool ↔
          f ∈ p.fileOps.files tool ∨ m.Touches tool f :=
        mem_files_extractFileOpsFromMessage p.fileOps m tool f
      simp only [Option.some.injEq, exists_eq_left', ← or_assoc, ← hextract]
      split_ifs with hstop hsummary
      · exact (or_iff_left (not_touchedWithin hstop)).symm
      · exact (or_iff_left (not_touchedWithin hstop)).symm
      · exact ih (by simp only [BranchPreparation.unshift, BranchPreparation.extract]; omega)

/-- The walk comes to an entry if the messages after it are within the budget. -/
def Reached (tokenBudget : ℤ) (newer : List SessionEntry) : Prop :=
  tokenBudget ≤ 0 ∨ (tokensOf (bearing newer) : ℤ) ≤ tokenBudget

def ReachedTouches (entries : List SessionEntry) (tokenBudget : ℤ) (tool : FileTool) (f : String) :
    Prop :=
  ∃ older e newer, entries = older ++ e :: newer ∧ Reached tokenBudget newer ∧ Touches e tool f

theorem touchedWithin_reverse
    :
    TouchedWithin tokenBudget 0 entries.reverse tool f ↔
      ReachedTouches entries tokenBudget tool f := by
  have htokens : ∀ es, tokensOf (bearing es.reverse) = tokensOf (bearing es) := by
    intro es
    rw [bearing_reverse, tokensOf_reverse]
  constructor
  · rintro ⟨newer, e, older, hsplit, htouches, hfits⟩
    refine ⟨older.reverse, e, newer.reverse, ?_, ?_, htouches⟩
    · rw [← reverse_reverse entries, hsplit]
      simp
    · rw [Reached, htokens]
      simpa using hfits
  · rintro ⟨older, e, newer, rfl, hreached, htouches⟩
    refine ⟨newer.reverse, e, older.reverse, by simp, htouches, ?_⟩
    rw [Reached] at hreached
    rw [htokens]
    simpa using hreached

theorem mem_files_prepareBranchEntries
    :
    f ∈ (prepareBranchEntries entries tokenBudget).fileOps.files tool ↔
      (∃ e ∈ entries, Lists e tool f) ∨ ReachedTouches entries tokenBudget tool f := by
  rw [prepareBranchEntries, mem_files_selectMessages (by simp only; omega), touchedWithin_reverse,
    mem_files_foldl_summary]
  exact or_congr_left (or_iff_right mem_files_createFileOps)

def CollectsAll (entries : List SessionEntry) (tokenBudget : ℤ) : Prop :=
  ∀ tool f, f ∈ (prepareBranchEntries entries tokenBudget).fileOps.files tool ↔
    (∃ e ∈ entries, Lists e tool f) ∨ ∃ e ∈ entries, Touches e tool f

/-- The sets are the same under both budgets, and those of all entries. -/
structure IndependentOfBudget (entries : List SessionEntry) (tokenBudget tokenBudget' : ℤ) :
    Prop where
  same : ∀ tool f, f ∈ (prepareBranchEntries entries tokenBudget).fileOps.files tool ↔
    f ∈ (prepareBranchEntries entries tokenBudget').fileOps.files tool
  all : CollectsAll entries tokenBudget

/-- What the calls beyond the budget touch, a summary lists or a call within it touches alike. -/
def NothingNewBeyond (entries : List SessionEntry) (tokenBudget : ℤ) : Prop :=
  ∀ older e newer, entries = older ++ e :: newer → ¬ Reached tokenBudget newer →
    ∀ tool f, Touches e tool f →
      (∃ e' ∈ entries, Lists e' tool f) ∨ ReachedTouches entries tokenBudget tool f

theorem collectsAll_iff :
    CollectsAll entries tokenBudget ↔ NothingNewBeyond entries tokenBudget := by
  constructor
  · intro hall older e newer hsplit _ tool f htouches
    have hmem : e ∈ entries := by simp [hsplit]
    exact mem_files_prepareBranchEntries.mp ((hall tool f).mpr (.inr ⟨e, hmem, htouches⟩))
  · intro hnothing tool f
    rw [mem_files_prepareBranchEntries]
    constructor
    · rintro (hlists | ⟨older, e, newer, rfl, _, htouches⟩)
      · exact .inl hlists
      · exact .inr ⟨e, by simp, htouches⟩
    · rintro (hlists | ⟨e, hmem, htouches⟩)
      · exact .inl hlists
      · obtain ⟨older, newer, hsplit⟩ := append_of_mem hmem
        by_cases hreached : Reached tokenBudget newer
        · exact .inr ⟨older, e, newer, hsplit, hreached, htouches⟩
        · exact hnothing older e newer hsplit hreached tool f htouches

theorem independentOfBudget_iff (entries : List SessionEntry) (tokenBudget tokenBudget' : ℤ) :
    IndependentOfBudget entries tokenBudget tokenBudget' ↔
      NothingNewBeyond entries tokenBudget ∧ NothingNewBeyond entries tokenBudget' := by
  rw [← collectsAll_iff, ← collectsAll_iff]
  constructor
  · rintro ⟨hsame, hall⟩
    exact ⟨hall, fun tool f => (hsame tool f).symm.trans (hall tool f)⟩
  · rintro ⟨hall, hall'⟩
    exact ⟨fun tool f => (hall tool f).trans (hall' tool f).symm, hall⟩

/-- A file is edited, and a later message alone exceeds the budget. -/
def editBeforeLongMessage : List SessionEntry :=
  [⟨"a", none, 0, .message (.assistant
      { content := [.toolCall ⟨"c", "edit", .cons "path" (.string "x.ts") .nil, none⟩], api := "a"
        provider := "p", model := "m", usage := ⟨0, 0, 0, 0, 0⟩, stopReason := .toolUse
        errorMessage := none, timestamp := 0 })⟩,
    ⟨"b", some "a", 0, .message (.user { content := .string "a longer text", timestamp := 0 })⟩]

theorem editBeforeLongMessage_dependent :
    ¬ IndependentOfBudget editBeforeLongMessage 1 0 := by
  intro hindependent
  have hcollected := (hindependent.same .edit "x.ts").mpr (by decide +kernel)
  revert hcollected
  decide +kernel

/-- The messages are within the budget, or the oldest is a summary and the others are. -/
def WithinBudget (tokenBudget : ℤ) (newer : List (SessionEntry × AgentMessage)) : Prop :=
  (tokensOf newer : ℤ) ≤ tokenBudget ∨
    ∃ e m rest, newer = (e, m) :: rest ∧ isSummaryEntry e = true ∧
      (tokensOf rest : ℤ) ≤ tokenBudget

/-- The messages are the newest ones of the entries, in order, and within the budget. -/
def RespectsBudget (entries : List SessionEntry) (tokenBudget : ℤ)
    (messages : List AgentMessage) : Prop :=
  ∃ older newer, bearing entries = older ++ newer ∧ messages = newer.map Prod.snd ∧
    WithinBudget tokenBudget newer

theorem selectMessages_unlimited (hbudget : tokenBudget ≤ 0)
    (newestFirst : List SessionEntry) (p : BranchPreparation) :
    (selectMessages tokenBudget newestFirst p).messages =
      ((bearing newestFirst).map Prod.snd).reverse ++ p.messages := by
  induction newestFirst generalizing p with
  | nil => rfl
  | cons e older ih =>
    rw [selectMessages]
    cases hm : getMessageFromEntry e with
    | none =>
      rw [bearing_cons_none hm]
      exact ih p
    | some m =>
      have hstop : ¬ (0 < tokenBudget ∧ tokenBudget < p.totalTokens + estimateTokens m) :=
        fun h => absurd h.1 (Int.not_lt.mpr hbudget)
      simp only [if_neg hstop]
      rw [ih, bearing_cons_some hm, map_cons, reverse_cons, append_assoc]
      rfl

theorem selectMessages_limited (hbudget : 0 < tokenBudget)
    (newestFirst : List SessionEntry) (p : BranchPreparation)
    (hwithin : (p.totalTokens : ℤ) ≤ tokenBudget) :
    ∃ newer older, bearing newestFirst = newer ++ older ∧
      (selectMessages tokenBudget newestFirst p).messages =
        (newer.map Prod.snd).reverse ++ p.messages ∧
      ((p.totalTokens + tokensOf newer : ℤ) ≤ tokenBudget ∨
        ∃ rest e m, newer = rest ++ [(e, m)] ∧ isSummaryEntry e = true ∧
          (p.totalTokens + tokensOf rest : ℤ) ≤ tokenBudget) := by
  induction newestFirst generalizing p with
  | nil => exact ⟨[], [], rfl, rfl, .inl (by simpa using hwithin)⟩
  | cons e older ih =>
    rw [selectMessages]
    cases hm : getMessageFromEntry e with
    | none =>
      rw [bearing_cons_none hm]
      exact ih p hwithin
    | some m =>
      rw [bearing_cons_some hm]
      simp only
      split_ifs with hstop hsummary
      · exact ⟨[(e, m)], bearing older, rfl, rfl,
          .inr ⟨[], e, m, rfl, hsummary.1, by simpa using hwithin⟩⟩
      · exact ⟨[], (e, m) :: bearing older, rfl, rfl, .inl (by simpa using hwithin)⟩
      · obtain ⟨newer, rest, hsplit, hmessages, hbound⟩ :=
          ih ((p.extract m).unshift m) (by
            simp only [BranchPreparation.unshift, BranchPreparation.extract]
            omega)
        refine ⟨(e, m) :: newer, rest, by rw [hsplit, cons_append], ?_, ?_⟩
        · rw [hmessages]
          simp [BranchPreparation.unshift, BranchPreparation.extract]
        · simp only [BranchPreparation.unshift, BranchPreparation.extract] at hbound
          obtain hbound | ⟨rest', e', m', rfl, hsummary, hbound⟩ := hbound
          · refine .inl ?_
            rw [tokensOf_cons]
            push_cast at hbound ⊢
            omega
          · refine .inr ⟨(e, m) :: rest', e', m', rfl, hsummary, ?_⟩
            rw [tokensOf_cons]
            push_cast at hbound ⊢
            omega

theorem prepareBranchEntries_unlimited
    (hbudget : tokenBudget ≤ 0) :
    (prepareBranchEntries entries tokenBudget).messages = (bearing entries).map Prod.snd := by
  rw [prepareBranchEntries, selectMessages_unlimited hbudget, bearing_reverse, map_reverse,
    reverse_reverse, append_nil]

theorem prepareBranchEntries_limited
    (hbudget : 0 < tokenBudget) :
    RespectsBudget entries tokenBudget (prepareBranchEntries entries tokenBudget).messages := by
  obtain ⟨newer, older, hsplit, hmessages, hbound⟩ :=
    selectMessages_limited hbudget entries.reverse
      { messages := [], fileOps := entries.foldl addSummaryDetails createFileOps
        totalTokens := 0 } (by simp only; omega)
  refine ⟨older.reverse, newer.reverse, ?_, ?_, ?_⟩
  · rw [← reverse_append, ← hsplit, bearing_reverse, reverse_reverse]
  · rw [prepareBranchEntries, hmessages, append_nil, map_reverse]
  · obtain hbound | ⟨rest, e, m, rfl, hsummary, hbound⟩ := hbound
    · refine .inl ?_
      rw [tokensOf_reverse]
      simpa using hbound
    · refine .inr ⟨e, m, rest.reverse, by simp, hsummary, ?_⟩
      rw [tokensOf_reverse]
      simpa using hbound

/-- The budget is the difference between the window and the reserve. If that is not positive, it
is respected only if all messages are within it. -/
theorem selected_respectsBudget_iff (entries : List SessionEntry)
    (options : GenerateBranchSummaryOptions) :
    RespectsBudget entries (options.window - options.reserveTokens) (selected entries options) ↔
      options.reserveTokens < options.window ∨
        WithinBudget (options.window - options.reserveTokens) (bearing entries) := by
  rw [selected]
  have hpositive : options.reserveTokens < options.window ↔ 0 < options.tokenBudget := by
    rw [GenerateBranchSummaryOptions.tokenBudget]
    omega
  rw [hpositive]
  by_cases hbudget : 0 < options.tokenBudget
  · exact iff_of_true (prepareBranchEntries_limited hbudget) (.inl hbudget)
  · rw [or_iff_right hbudget, prepareBranchEntries_unlimited (Int.not_lt.mp hbudget)]
    constructor
    · rintro ⟨older, newer, hsplit, hmessages, hwithin⟩
      have hlength := congrArg List.length hmessages
      rw [hsplit, length_map, length_map, length_append] at hlength
      obtain rfl : older = [] := length_eq_zero_iff.mp (by omega)
      rw [hsplit]
      exact hwithin
    · exact fun hwithin => ⟨[], bearing entries, rfl, rfl, hwithin⟩

def wholeWindowReserved : GenerateBranchSummaryOptions :=
  { contextWindow := 16384, customInstructions := none, replaceInstructions := false }

theorem wholeWindowReserved_exceeded :
    ¬ RespectsBudget editBeforeLongMessage
      (wholeWindowReserved.window - wholeWindowReserved.reserveTokens)
      (selected editBeforeLongMessage wholeWindowReserved) := by
  rintro ⟨older, newer, hsplit, hmessages, hwithin⟩
  have hselected : (selected editBeforeLongMessage wholeWindowReserved).length = 2 := by
    decide +kernel
  have hbearing : (bearing editBeforeLongMessage).length = 2 := by decide
  -- both messages are selected
  rw [hmessages, length_map] at hselected
  rw [hsplit, length_append] at hbearing
  obtain rfl : older = [] := length_eq_zero_iff.mp (by omega)
  rw [nil_append] at hsplit
  rw [← hsplit] at hwithin
  obtain hbound | ⟨e, m, rest, hfirst, hsummary, _⟩ := hwithin
  · revert hbound
    decide +kernel
  · have hhead := congrArg (fun messages => messages.head?.any fun x => isSummaryEntry x.1) hfirst
    simp only [head?_cons, Option.any_some, hsummary] at hhead
    revert hhead
    decide

variable {completeSimple : CompleteSimple} {entries : List SessionEntry}
  {options : GenerateBranchSummaryOptions} {result : BranchSummaryResult}
  {details details' : CompactionDetails} {f : String}

theorem generateBranchSummary_details
    (h : generateBranchSummary completeSimple entries options = .ok result)
    (hdetails : result.details = some details) :
    details = computeFileLists (prepareBranchEntries entries options.tokenBudget).fileOps := by
  unfold generateBranchSummary at h
  simp only at h
  split_ifs at h
  · cases h
    cases hdetails
  · cases hresponse : completeSimple (branchSummaryRequest
        (prepareBranchEntries entries options.tokenBudget).messages options) with
    | error errors =>
      rw [hresponse] at h
      cases h
    | ok response =>
      rw [hresponse] at h
      obtain rfl := Except.ok.inj h
      dsimp only at hdetails
      split_ifs at hdetails
      exact (Option.some.inj hdetails).symm

/-- The second summary is generated from entries with the one that stores the first. -/
def Nested (details details' : CompactionDetails) : Prop :=
  ∃ completeSimple entries options result, ∃ e ∈ entries, ∃ d,
    generateBranchSummary completeSimple entries options = .ok result ∧
      result.details = some details' ∧ e.body = .branchSummary d ∧ d.fromHook ≠ some true ∧
      d.details = some details.toJson

theorem Nested.keeps (h : Nested details details') :
    (f ∈ details.modifiedFiles → f ∈ details'.modifiedFiles) ∧
      (f ∈ details.readFiles → f ∈ details'.readFiles ∨ f ∈ details'.modifiedFiles) := by
  obtain ⟨_, entries, options, _, e, he, d, hresult, hdetails, hbody, hhook, hd⟩ := h
  obtain rfl := generateBranchSummary_details hresult hdetails
  have hlists (tool : FileTool) (h : tool = .read ∧ f ∈ details.readFiles ∨
      tool = .edit ∧ f ∈ details.modifiedFiles) :
      f ∈ (prepareBranchEntries entries options.tokenBudget).fileOps.files tool := by
    refine mem_files_prepareBranchEntries.mpr (.inl ⟨e, he, d, _, hbody, hhook, hd, ?_⟩)
    rwa [detailPaths_readFiles, detailPaths_modifiedFiles]
  rw [mem_modifiedFiles, mem_readFiles, mem_modifiedFiles]
  have := hlists .read
  have := hlists .edit
  tauto

/-- However often summaries are summarised, no file is lost that one of them lists: neither the
budget nor the model decides about that. -/
theorem nestedSummaries_keepFiles (h : Relation.ReflTransGen Nested details details') :
    (∀ f ∈ details.modifiedFiles, f ∈ details'.modifiedFiles) ∧
      ∀ f ∈ details.readFiles, f ∈ details'.readFiles ∨ f ∈ details'.modifiedFiles := by
  induction h with
  | refl => exact ⟨fun f hf => hf, fun f hf => .inl hf⟩
  | tail _ hnested ih =>
    refine ⟨fun f hf => hnested.keeps.1 (ih.1 f hf), fun f hf => ?_⟩
    obtain hread | hmodified := ih.2 f hf
    · exact hnested.keeps.2 hread
    · exact .inr (hnested.keeps.1 hmodified)

def listedEdit : CompactionDetails := { readFiles := [], modifiedFiles := ["x.ts"] }

/-- A summary that lists an edit, and a later read. -/
def summaryThenRead : List SessionEntry :=
  [⟨"a", none, 0, .branchSummary ⟨"root", "Goal", some listedEdit.toJson, none⟩⟩,
    ⟨"b", some "a", 0, ReadThenEdited.call "read" "y.ts"⟩]

theorem nestedSummaries_keepFiles_summaryThenRead : ∃ details : CompactionDetails,
    details.readFiles = ["y.ts"] ∧ ∀ f ∈ ["x.ts"], f ∈ details.modifiedFiles := by
  have hnested : Nested listedEdit { readFiles := ["y.ts"], modifiedFiles := ["x.ts"] } :=
    ⟨answerWith "Goal", summaryThenRead, wholeWindowReserved, _, _, mem_cons_self, _, rfl,
      by decide +kernel, rfl, by decide, rfl⟩
  exact ⟨_, rfl, (nestedSummaries_keepFiles (.single hnested)).1⟩

end Draht.BranchSummarization
