import Draht.FileTracking
import Mathlib.Algebra.Ring.Nat

/-!
# Preparing the summary of a branch

Which messages of an abandoned branch are summarised under a token budget, and which files its
tool calls touched.
-/

namespace Draht.BranchSummarization
open List

/-- The messages of entries, compactions included; tool results are skipped. -/
def getMessageFromEntry (e : SessionEntry) : Option AgentMessage :=
  match e.body with
  | .message (.toolResult _) => none
  | .message m => some m
  | .customMessage d =>
    some (.custom (createCustomMessage d.customType d.content d.display d.details e.timestamp))
  | .branchSummary d =>
    some (.branchSummary (createBranchSummaryMessage d.summary d.fromId e.timestamp))
  | .compaction d => some (compactionSummaryOf e d)
  | _ => none

structure BranchPreparation where
  messages : List AgentMessage
  fileOps : FileOperations
  totalTokens : ℕ
deriving DecidableEq

/-- The files that a summary entry lists, unless an extension wrote it. -/
def addSummaryDetails (fileOps : FileOperations) (e : SessionEntry) : FileOperations :=
  match e.body with
  | .branchSummary { fromHook := some true, .. } => fileOps
  | .branchSummary { details := some details, .. } =>
    { fileOps with
      read := (detailPaths details "readFiles").foldl (fun paths f => addPath f paths)
        fileOps.read
      edited := (detailPaths details "modifiedFiles").foldl (fun paths f => addPath f paths)
        fileOps.edited }
  | _ => fileOps

/-- `entry.type === "compaction" || entry.type === "branch_summary"`. -/
def isSummaryEntry (e : SessionEntry) : Bool :=
  match e.body with
  | .compaction _ => true
  | .branchSummary _ => true
  | _ => false

/-- `messages.unshift(message)`. -/
def BranchPreparation.unshift (p : BranchPreparation) (m : AgentMessage) : BranchPreparation :=
  { p with messages := m :: p.messages, totalTokens := p.totalTokens + estimateTokens m }

def BranchPreparation.extract (p : BranchPreparation) (m : AgentMessage) : BranchPreparation :=
  { p with fileOps := extractFileOpsFromMessage p.fileOps m }

/-- The walk from the newest entry; the entries are listed newest first. -/
def selectMessages (tokenBudget : ℤ) : List SessionEntry → BranchPreparation → BranchPreparation
  | [], p => p
  | e :: older, p =>
    match getMessageFromEntry e with
    | none => selectMessages tokenBudget older p
    | some m =>
      if 0 < tokenBudget ∧ tokenBudget < p.totalTokens + estimateTokens m then
        -- a summary is let in as long as nine tenths of the budget are not used
        if isSummaryEntry e ∧ 10 * (p.totalTokens : ℤ) < 9 * tokenBudget then
          (p.extract m).unshift m
        else p.extract m
      else selectMessages tokenBudget older ((p.extract m).unshift m)

def prepareBranchEntries (entries : List SessionEntry) (tokenBudget : ℤ) : BranchPreparation :=
  selectMessages tokenBudget entries.reverse
    { messages := [], fileOps := entries.foldl addSummaryDetails createFileOps, totalTokens := 0 }

def BRANCH_SUMMARY_PREAMBLE : String :=
  "The user explored a different conversation branch before returning here.\n" ++
    "Summary of that exploration:\n\n"

def BRANCH_SUMMARY_PROMPT : String :=
  "Create a structured summary of this conversation branch for context when returning later.\n\n" ++
    "Use this EXACT format:\n\n" ++
    "## Goal\n[What was the user trying to accomplish in this branch?]\n\n" ++
    "## Constraints & Preferences\n" ++
    "- [Any constraints, preferences, or requirements mentioned]\n" ++
    "- [Or \"(none)\" if none were mentioned]\n\n" ++
    "## Progress\n### Done\n- [x] [Completed tasks/changes]\n\n" ++
    "### In Progress\n- [ ] [Work that was started but not finished]\n\n" ++
    "### Blocked\n- [Issues preventing progress, if any]\n\n" ++
    "## Key Decisions\n- **[Decision]**: [Brief rationale]\n\n" ++
    "## Next Steps\n1. [What should happen next to continue this work]\n\n" ++
    "Keep each section concise. Preserve exact file paths, function names, and error messages."

structure GenerateBranchSummaryOptions where
  /-- `model.contextWindow`. -/
  contextWindow : ℕ
  customInstructions : Option String
  replaceInstructions : Bool
  reserveTokens : ℤ := 16384
deriving DecidableEq

/-- `model.contextWindow || 128000`. -/
def GenerateBranchSummaryOptions.window (options : GenerateBranchSummaryOptions) : ℕ :=
  if options.contextWindow = 0 then 128000 else options.contextWindow

def GenerateBranchSummaryOptions.tokenBudget (options : GenerateBranchSummaryOptions) : ℤ :=
  options.window - options.reserveTokens

def GenerateBranchSummaryOptions.instructions (options : GenerateBranchSummaryOptions) : String :=
  if options.replaceInstructions ∧ isTruthy options.customInstructions then
    options.customInstructions.getD ""
  else if isTruthy options.customInstructions then
    BRANCH_SUMMARY_PROMPT ++ "\n\nAdditional focus: " ++ options.customInstructions.getD ""
  else BRANCH_SUMMARY_PROMPT

structure BranchSummaryResult where
  summary : Option JsText := none
  details : Option CompactionDetails := none
  aborted : Bool := false
  error : Option String := none
deriving DecidableEq

def branchSummaryRequest (messages : List AgentMessage) (options : GenerateBranchSummaryOptions) :
    SummarizationRequest :=
  { systemPrompt := utf16 SUMMARIZATION_SYSTEM_PROMPT
    conversation := serializeConversation (convertToLlm messages)
    previousSummary := []
    basePrompt := utf16 options.instructions }

def generateBranchSummary (completeSimple : CompleteSimple) (entries : List SessionEntry)
    (options : GenerateBranchSummaryOptions) : Except String BranchSummaryResult :=
  let prepared := prepareBranchEntries entries options.tokenBudget
  if prepared.messages = [] then .ok { summary := some (utf16 "No content to summarize") }
  else
    (completeSimple (branchSummaryRequest prepared.messages options)).map fun response =>
      if response.stopReason = .aborted then { aborted := true }
      else if response.stopReason = .error then
        { error := some (if isTruthy response.errorMessage then response.errorMessage.getD ""
                         else "Summarization failed") }
      else
        let details := computeFileLists prepared.fileOps
        { summary := some (utf16 BRANCH_SUMMARY_PREAMBLE ++
            joinTexts "\n" (response.content.filterMap AssistantContent.text?) ++
            formatFileOperations details.readFiles details.modifiedFiles)
          details := some details }

def selected (entries : List SessionEntry) (options : GenerateBranchSummaryOptions) :
    List AgentMessage :=
  (prepareBranchEntries entries options.tokenBudget).messages

def bearing (entries : List SessionEntry) : List (SessionEntry × AgentMessage) :=
  entries.filterMap fun e => (getMessageFromEntry e).map fun m => (e, m)

def tokensOf (messages : List (SessionEntry × AgentMessage)) : ℕ :=
  (messages.map fun x => estimateTokens x.2).sum

@[simp] theorem bearing_nil : bearing [] = [] := rfl

theorem bearing_cons_none {e : SessionEntry} (h : getMessageFromEntry e = none)
    (entries : List SessionEntry) : bearing (e :: entries) = bearing entries := by
  rw [bearing, filterMap_cons_none (by rw [h]; rfl), bearing]

theorem bearing_cons_some {e : SessionEntry} {m : AgentMessage}
    (h : getMessageFromEntry e = some m) (entries : List SessionEntry) :
    bearing (e :: entries) = (e, m) :: bearing entries := by
  rw [bearing, filterMap_cons_some (by rw [h]; rfl), bearing]

theorem bearing_append (entries entries' : List SessionEntry) :
    bearing (entries ++ entries') = bearing entries ++ bearing entries' :=
  filterMap_append

theorem bearing_reverse (entries : List SessionEntry) :
    bearing entries.reverse = (bearing entries).reverse := by
  rw [bearing, bearing, filterMap_reverse]

@[simp] theorem tokensOf_nil : tokensOf [] = 0 := rfl

@[simp] theorem tokensOf_cons (x : SessionEntry × AgentMessage)
    (messages : List (SessionEntry × AgentMessage)) :
    tokensOf (x :: messages) = estimateTokens x.2 + tokensOf messages := rfl

theorem tokensOf_append (messages messages' : List (SessionEntry × AgentMessage)) :
    tokensOf (messages ++ messages') = tokensOf messages + tokensOf messages' := by
  rw [tokensOf, map_append, sum_append, tokensOf, tokensOf]

theorem tokensOf_reverse (messages : List (SessionEntry × AgentMessage)) :
    tokensOf messages.reverse = tokensOf messages := by
  rw [tokensOf, map_reverse, sum_reverse, tokensOf]

end Draht.BranchSummarization
