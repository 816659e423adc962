import Draht.CompactionConservation
import Draht.SplitOn
import Draht.Summarization

/-!
# What a compaction hands on

Every message of a preparation goes into a summarisation request. The previous summary goes
into one too, except when a split turn has no history before it: there the history request,
the only one that mentions the previous summary, is not issued.
-/

namespace Draht
open List

/-- A text inside `a`, a long run of one letter, and `b` lies inside `a` or inside `b`, if it
neither starts nor ends with that letter. -/
theorem infix_of_infix_append_replicate {α : Type*} {s a b : List α} {c : α} {n : ℕ}
    (h : s <:+: a ++ List.replicate n c ++ b) (hlength : s.length ≤ n) (hne : s ≠ [])
    (hhead : s.head? ≠ some c) (hlast : s.getLast? ≠ some c) : s <:+: a ∨ s <:+: b := by
  obtain h | h | ⟨l₁, l₂, hl₁, hl₂, rfl, hsuffix, -⟩ := infix_append_iff_ne_nil.mp h
  · obtain h | h | ⟨l₁, l₂, hl₁, hl₂, rfl, -, hturn⟩ := infix_append_iff_ne_nil.mp h
    · exact .inl h
    · obtain ⟨x, s, rfl⟩ := exists_cons_of_ne_nil hne
      have hx : x = c := eq_of_mem_replicate (h.subset (mem_cons_self ..))
      exact absurd (by simp [hx]) hhead
    · have hx : l₂.getLast hl₂ = c :=
        eq_of_mem_replicate (hturn.subset (getLast_mem hl₂))
      exact absurd (by rw [getLast?_append_of_ne_nil _ hl₂, getLast?_eq_some_getLast hl₂, hx]) hlast
  · exact .inr h
  · have hshort : l₁.length ≤ (List.replicate n c).length := by
      simp only [length_append, length_replicate] at hlength ⊢
      omega
    have hrun : l₁ <:+ List.replicate n c :=
      suffix_of_suffix_length_le hsuffix (suffix_append _ _) hshort
    have hx : l₁.head hl₁ = c := eq_of_mem_replicate (hrun.subset (head_mem hl₁))
    exact absurd (by rw [head?_append_of_ne_nil _ hl₁, head?_eq_some_head hl₁, hx]) hhead

theorem utf16Chars_replicate {c : Char} (hc : c.toNat < 0x10000) (n : ℕ) :
    utf16Chars (List.replicate n c) = List.replicate n (UInt16.ofNat c.toNat) := by
  induction n with
  | zero => rfl
  | succ n ih =>
    rw [replicate_succ, replicate_succ, ← ih]
    simp [utf16Chars, hc]

theorem exists_other_letter (x y : Option UInt16) :
    ∃ c : Char, c.toNat < 0x10000 ∧ x ≠ some (UInt16.ofNat c.toNat) ∧
      y ≠ some (UInt16.ofNat c.toNat) := by
  by_contra! h
  have ha := h 'a' (by decide)
  have hb := h 'b' (by decide)
  have hc := h 'c' (by decide)
  have hab : some (UInt16.ofNat 'a'.toNat) ≠ some (UInt16.ofNat 'b'.toNat) := by decide
  have hac : some (UInt16.ofNat 'a'.toNat) ≠ some (UInt16.ofNat 'c'.toNat) := by decide
  have hbc : some (UInt16.ofNat 'b'.toNat) ≠ some (UInt16.ofNat 'c'.toNat) := by decide
  by_cases hxa : x = some (UInt16.ofNat 'a'.toNat)
  · have hyb := hb (by rw [hxa]; exact hab)
    have hyc := hc (by rw [hxa]; exact hac)
    exact hbc (hyb.symm.trans hyc)
  · have hya := ha hxa
    by_cases hxb : x = some (UInt16.ofNat 'b'.toNat)
    · have hyc := hc (by rw [hxb]; exact hbc)
      exact hac (hya.symm.trans hyc)
    · exact hab (hya.symm.trans (hb hxb))

/-- The conversation of the request is the text of messages among which `m` is. -/
def SummarizationRequest.Includes (r : SummarizationRequest) (m : AgentMessage) : Prop :=
  ∃ before after, r.conversation = serializeConversation (convertToLlm (before ++ m :: after))

variable {m : AgentMessage} {completeSimple : CompleteSimple}

theorem summaryRequest_includes {messages : List AgentMessage}
    (hm : m ∈ messages) (customInstructions previousSummary : Option String) :
    (summaryRequest messages customInstructions previousSummary).Includes m := by
  obtain ⟨before, after, rfl⟩ := append_of_mem hm
  exact ⟨before, after, rfl⟩

theorem turnPrefixRequest_includes {messages : List AgentMessage}
    (hm : m ∈ messages) : (turnPrefixRequest messages).Includes m := by
  obtain ⟨before, after, rfl⟩ := append_of_mem hm
  exact ⟨before, after, rfl⟩

/-- Whatever the model answers, the messages of the preparation are in requests of the
compaction, and the previous summary is in one of them or in the summary that is returned. -/
structure HandsOn (p : CompactionPreparation) (customInstructions : Option String) : Prop where
  messages : ∀ m ∈ p.messagesToSummarize ++ p.turnPrefixMessages,
    ∃ r ∈ compactRequests p customInstructions, r.Includes m
  previousSummary : ∀ s, p.previousSummary = some s →
    (∃ r ∈ compactRequests p customInstructions, r.previousSummary = utf16 s) ∨
    ∀ completeSimple result, compact completeSimple p customInstructions = .ok result →
      utf16 s <:+: result.summary

def fileListText (fileOps : FileOperations) : JsText :=
  formatFileOperations (computeFileLists fileOps).readFiles (computeFileLists fileOps).modifiedFiles

/-- The cut splits a turn at whose start the history to summarise is empty, and the previous
summary is not by chance a piece of the fixed texts or of the file lists. -/
structure ForgetsPreviousSummary (p : CompactionPreparation) : Prop where
  isSplitTurn : p.isSplitTurn = true
  turnPrefix : p.turnPrefixMessages ≠ []
  noHistory : p.messagesToSummarize = []
  previousSummary : ∃ s, p.previousSummary = some s ∧
    ¬ utf16 s <:+: noPriorHistory ++ splitTurnHeading ∧ ¬ utf16 s <:+: fileListText p.fileOps

variable {p : CompactionPreparation} {customInstructions : Option String}

theorem compactRequests_includes (hturn : p.isSplitTurn = false → p.turnPrefixMessages = [])
    (hm : m ∈ p.messagesToSummarize ++ p.turnPrefixMessages) :
    ∃ r ∈ compactRequests p customInstructions, r.Includes m := by
  obtain hm | hm := mem_append.mp hm
  · have hpos := length_pos_of_mem hm
    refine ⟨_, ?_, summaryRequest_includes hm customInstructions p.previousSummary⟩
    simp [compactRequests, hpos]
    grind
  · have hpos := length_pos_of_mem hm
    have hsplit : p.isSplitTurn = true := by
      by_contra hsplit
      rw [hturn (by simpa using hsplit)] at hpos
      simp at hpos
    refine ⟨_, ?_, turnPrefixRequest_includes hm⟩
    simp [compactRequests, hsplit, hpos]

theorem summaryRequest_mem (h : p.isSplitTurn = true → p.turnPrefixMessages ≠ [] →
      p.messagesToSummarize ≠ []) :
    summaryRequest p.messagesToSummarize customInstructions p.previousSummary ∈
      compactRequests p customInstructions := by
  by_cases hsplit : p.isSplitTurn = true ∧ 0 < p.turnPrefixMessages.length
  · have hpos : 0 < p.messagesToSummarize.length :=
      length_pos_iff.mpr (h hsplit.1 (length_pos_iff.mp hsplit.2))
    simp [compactRequests, hsplit, hpos]
  · simp [compactRequests, hsplit]

theorem compact_of_compactSummary {summary : JsText}
    (h : compactSummary completeSimple p customInstructions = .ok summary)
    (hid : p.firstKeptEntryId ≠ "") :
    ∃ result, compact completeSimple p customInstructions = .ok result ∧
      result.summary = summary ++ fileListText p.fileOps := by
  simp only [compact, h, hid, if_false]
  exact ⟨_, rfl, rfl⟩

theorem compactSummary_of_compact {result : CompactionResult}
    (h : compact completeSimple p customInstructions = .ok result) :
    ∃ summary, compactSummary completeSimple p customInstructions = .ok summary ∧
      result.summary = summary ++ fileListText p.fileOps := by
  unfold compact at h
  cases hsummary : compactSummary completeSimple p customInstructions with
  | error e =>
    rw [hsummary] at h
    cases h
  | ok summary =>
    rw [hsummary] at h
    by_cases hid : p.firstKeptEntryId = ""
    · simp only [hid, if_true] at h
      cases h
    · simp only [hid, if_false] at h
      cases h
      exact ⟨summary, rfl, rfl⟩

theorem compactSummary_of_split {summary : JsText}
    (hsplit : p.isSplitTurn = true) (hturn : p.turnPrefixMessages ≠ [])
    (hhistory : p.messagesToSummarize = [])
    (h : compactSummary completeSimple p customInstructions = .ok summary) :
    ∃ answer, summary = noPriorHistory ++ splitTurnHeading ++ answer := by
  have hlen : 0 < p.turnPrefixMessages.length := length_pos_iff.mpr hturn
  simp only [compactSummary, hsplit, hlen, hhistory, length_nil, lt_irrefl, and_self, if_true,
    if_false] at h
  cases hanswer : generateTurnPrefixSummary completeSimple p.turnPrefixMessages with
  | error e => simp [hanswer, promiseAll, Except.map] at h
  | ok answer =>
    rw [hanswer] at h
    cases h
    exact ⟨answer, rfl⟩

theorem compactSummary_split (h : ForgetsPreviousSummary p)
    {answer : JsText}
    (hanswer : generateTurnPrefixSummary completeSimple p.turnPrefixMessages = .ok answer) :
    compactSummary completeSimple p customInstructions =
      .ok (noPriorHistory ++ splitTurnHeading ++ answer) := by
  have hlen : 0 < p.turnPrefixMessages.length := length_pos_iff.mpr h.turnPrefix
  simp [compactSummary, h.isSplitTurn, hlen, h.noHistory, hanswer, promiseAll, Except.map]

def answerWith (text : String) : CompleteSimple := fun _ =>
  .ok { content := [.text { text := text, textSignature := none }], api := "", provider := ""
        model := ""
        usage := { input := 0, output := 0, cacheRead := 0, cacheWrite := 0, totalTokens := 0 }
        stopReason := .stop, errorMessage := none, timestamp := 0 }

theorem generateTurnPrefixSummary_answerWith (text : String) (messages : List AgentMessage) :
    generateTurnPrefixSummary (answerWith text) messages = .ok (utf16 text) := by
  simp [generateTurnPrefixSummary, answerText, answerWith, AssistantContent.text?, joinTexts]

theorem ForgetsPreviousSummary.not_handsOn (h : ForgetsPreviousSummary p)
    (hid : p.firstKeptEntryId ≠ "") : ¬ HandsOn p customInstructions := by
  intro hands
  obtain ⟨s, hs, hheading, hfiles⟩ := h.previousSummary
  have hne : utf16 s ≠ [] := by
    intro hempty
    exact hfiles (hempty ▸ nil_infix)
  have hlen : 0 < p.turnPrefixMessages.length := length_pos_iff.mpr h.turnPrefix
  obtain ⟨r, hr, hsame⟩ | hcarried := hands.previousSummary s hs
  · simp [compactRequests, h.isSplitTurn, hlen, h.noHistory] at hr
    exact hne (by rw [← hsame, hr]; rfl)
  · obtain ⟨c, hc, hhead, hlast⟩ := exists_other_letter (utf16 s).head? (utf16 s).getLast?
    let answer := String.ofList (List.replicate (utf16 s).length c)
    have hanswer : utf16 answer = List.replicate (utf16 s).length (UInt16.ofNat c.toNat) := by
      rw [utf16, String.toList_ofList, utf16Chars_replicate hc]
    have hsplit : compactSummary (answerWith answer) p customInstructions =
        .ok (noPriorHistory ++ splitTurnHeading ++ utf16 answer) :=
      compactSummary_split h (generateTurnPrefixSummary_answerWith answer p.turnPrefixMessages)
    obtain ⟨result, hresult, hsummary⟩ := compact_of_compactSummary hsplit hid
    have hinfix := hcarried _ result hresult
    rw [hsummary, hanswer] at hinfix
    obtain h' | h' := infix_of_infix_append_replicate hinfix le_rfl hne hhead hlast
    · exact hheading h'
    · exact hfiles h'

theorem handsOn_of_not_forgets (hturn : p.isSplitTurn = false → p.turnPrefixMessages = [])
    (h : ¬ ForgetsPreviousSummary p) : HandsOn p customInstructions := by
  refine ⟨fun m hm => compactRequests_includes hturn hm, fun s hs => ?_⟩
  by_cases hforgets : p.isSplitTurn = true ∧ p.turnPrefixMessages ≠ [] ∧ p.messagesToSummarize = []
  · obtain ⟨hsplit, hne, hhistory⟩ := hforgets
    right
    intro completeSimple result hresult
    have hchance : utf16 s <:+: noPriorHistory ++ splitTurnHeading ∨
        utf16 s <:+: fileListText p.fileOps := by
      by_contra! hneither
      exact h ⟨hsplit, hne, hhistory, s, hs, hneither.1, hneither.2⟩
    obtain ⟨summary, hcompact, hsummary⟩ := compactSummary_of_compact hresult
    obtain ⟨answer, rfl⟩ := compactSummary_of_split hsplit hne hhistory hcompact
    rw [hsummary]
    obtain h' | h' := hchance
    · exact (h'.trans infix_append_left).trans infix_append_left
    · exact h'.trans infix_append_right
  · left
    refine ⟨_, summaryRequest_mem ?_, ?_⟩
    · intro hsplit hne hhistory
      exact hforgets ⟨hsplit, hne, hhistory⟩
    · simp [summaryRequest, hs]

theorem Prepares.turnPrefixMessages_eq_nil {path : List SessionEntry} {r : CutPointResult}
    (h : Prepares path r p) (hsplit : p.isSplitTurn = false) : p.turnPrefixMessages = [] := by
  rw [h.isSplitTurn] at hsplit
  rw [h.turnPrefixMessages, hsplit]
  rfl

/-- For every preparation that `prepareCompaction` returns, the compaction hands everything on
exactly when it does not forget the previous summary. -/
theorem compact_handsOn_iff {path : List SessionEntry} {settings : CompactionSettings}
    (h : prepareCompaction path settings = some (some p)) (customInstructions : Option String) :
    HandsOn p customInstructions ↔ ¬ ForgetsPreviousSummary p := by
  have hprepares := prepares_of_prepareCompaction h
  constructor
  · intro hands hforgets
    exact hforgets.not_handsOn hprepares.kept_ne hands
  · exact handsOn_of_not_forgets hprepares.turnPrefixMessages_eq_nil

namespace SecondCompaction

def entry (id : String) (parentId : Option String) (body : EntryBody) : SessionEntry :=
  { id := id, parentId := parentId, timestamp := 0, body := body }

def request (text : String) : EntryBody :=
  .message (.user { content := .string text, timestamp := 0 })

def reply (text : String) : EntryBody :=
  .message (.assistant
    { content := [.text { text := text, textSignature := none }], api := "a", provider := "p"
      model := "m"
      usage := { input := 20, output := 10, cacheRead := 0, cacheWrite := 0, totalTokens := 30 }
      stopReason := .stop, errorMessage := none, timestamp := 0 })

/-- A first compaction kept the second turn; that turn went on for two replies. -/
def path : List SessionEntry :=
  [entry "a" none (request "first task"),
    entry "b" (some "a") (reply "first answer"),
    entry "c" (some "b") (request "second task"),
    entry "d" (some "c") (.compaction
      { summary := "Goal: first task", firstKeptEntryId := "c", tokensBefore := 9, details := none
        fromHook := none }),
    entry "e" (some "d") (reply "half an answer"),
    entry "f" (some "e") (reply "the other half")]

def preparation : CompactionPreparation :=
  { firstKeptEntryId := "f"
    messagesToSummarize := []
    turnPrefixMessages := ["c", "e"].flatMap fun id =>
      (path.filter (fun e => e.id = id)).filterMap getMessageFromEntryForCompaction
    isSplitTurn := true
    tokensBefore := 30
    previousSummary := some "Goal: first task"
    fileOps := createFileOps
    settings := { enabled := true, reserveTokens := 16384, keepRecentTokens := 4 } }

theorem prepared : prepareCompaction path preparation.settings = some (some preparation) := by
  decide +kernel

theorem forgets : ForgetsPreviousSummary preparation :=
  ⟨rfl, by decide, rfl, "Goal: first task", rfl, by decide +kernel, by decide +kernel⟩

/-- The first summary reaches neither a request nor the new summary. -/
theorem secondCompaction_not_handsOn : ∃ path settings p,
    prepareCompaction path settings = some (some p) ∧
    ¬ HandsOn p none :=
  ⟨path, preparation.settings, preparation, prepared, forgets.not_handsOn (by decide)⟩

theorem secondCompaction_handsOn_iff :
    HandsOn preparation none ↔ ¬ ForgetsPreviousSummary preparation :=
  compact_handsOn_iff prepared none

end SecondCompaction

end Draht
