import Draht.Compaction
import Draht.Text

/-!
# Summarisation requests

What a compaction asks the model for: the messages in the form models read, their text, the
prompts around it, the requests of one compaction and the summary made of the answers.
-/

namespace Draht

def COMPACTION_SUMMARY_PREFIX : String :=
  "The conversation history before this point was compacted into the following summary:\n\n" ++
    "<summary>\n"

def COMPACTION_SUMMARY_SUFFIX : String := "\n</summary>"

def BRANCH_SUMMARY_PREFIX : String :=
  "The following is a summary of a branch that this conversation came back from:\n\n<summary>\n"

def BRANCH_SUMMARY_SUFFIX : String := "</summary>"

def bashExecutionToText (msg : BashExecutionMessage) : String :=
  "Ran `" ++ msg.command ++ "`\n" ++
    (if msg.output ≠ "" then "```\n" ++ msg.output ++ "\n```" else "(no output)") ++
    (if msg.cancelled then "\n\n(command cancelled)"
      else match msg.exitCode with
        | none => ""
        | some code => if code = 0 then "" else "\n\nCommand exited with code " ++ toString code) ++
    (match msg.truncated, msg.fullOutputPath with
      | true, some path =>
        if path = "" then "" else "\n\n[Output truncated. Full output: " ++ path ++ "]"
      | _, _ => "")

def textBlock (text : String) : ContentBlock := .text { text := text, textSignature := none }

def convertMessage : AgentMessage → Option Message
  | .bashExecution m =>
    -- Skip messages excluded from context (!! prefix)
    if m.excludeFromContext then none
    else some (.user
      { content := .blocks [textBlock (bashExecutionToText m)], timestamp := m.timestamp })
  | .custom m =>
    match m.content with
    | .string s => some (.user { content := .blocks [textBlock s], timestamp := m.timestamp })
    | .blocks bs => some (.user { content := .blocks bs, timestamp := m.timestamp })
  | .branchSummary m =>
    some (.user
      { content := .blocks
          [textBlock (BRANCH_SUMMARY_PREFIX ++ m.summary ++ BRANCH_SUMMARY_SUFFIX)]
        timestamp := m.timestamp })
  | .compactionSummary m =>
    some (.user
      { content := .blocks
          [textBlock (COMPACTION_SUMMARY_PREFIX ++ m.summary ++ COMPACTION_SUMMARY_SUFFIX)]
        timestamp := m.timestamp })
  | .user m => some (.user m)
  | .assistant m => some (.assistant m)
  | .toolResult m => some (.toolResult m)
  | .hookMessage _ => none

def convertToLlm (messages : List AgentMessage) : List Message := messages.filterMap convertMessage

def TOOL_RESULT_MAX_CHARS : ℕ := 2000

def truncateForSummary (text : JsText) (maxChars : ℕ) : JsText :=
  if text.length ≤ maxChars then text
  else text.take maxChars ++
    utf16 ("\n\n[... " ++ toString (text.length - maxChars) ++ " more characters truncated]")

def ContentBlock.text? : ContentBlock → Option JsText
  | .text block => some (utf16 block.text)
  | .image _ => none

def blocksText (blocks : List ContentBlock) : JsText :=
  (blocks.filterMap ContentBlock.text?).flatten

def UserContent.text : UserContent → JsText
  | .string s => utf16 s
  | .blocks bs => blocksText bs

def JsonFields.entryTexts : JsonFields → List JsText
  | .nil => []
  | .cons k v fields => (utf16 k ++ utf16 "=" ++ utf16Chars v.stringify) :: fields.entryTexts

/-- `text.join(separator)`. -/
def joinTexts (separator : String) (texts : List JsText) : JsText :=
  List.intercalate (utf16 separator) texts

def toolCallText (block : ToolCall) : JsText :=
  utf16 block.name ++ utf16 "(" ++ joinTexts ", " block.arguments.entryTexts ++ utf16 ")"

def AssistantContent.text? : AssistantContent → Option JsText
  | .text block => some (utf16 block.text)
  | _ => none

def AssistantContent.thinking? : AssistantContent → Option JsText
  | .thinking block => some (utf16 block.thinking)
  | _ => none

/-- A part with a heading, left out when there is nothing under it. -/
def headed (heading separator : String) (texts : List JsText) : List JsText :=
  if texts = [] then [] else [utf16 heading ++ joinTexts separator texts]

def messageParts : Message → List JsText
  | .user m => if m.content.text = [] then [] else [utf16 "[User]: " ++ m.content.text]
  | .assistant m =>
    headed "[Assistant thinking]: " "\n" (m.content.filterMap AssistantContent.thinking?) ++
    headed "[Assistant]: " "\n" (m.content.filterMap AssistantContent.text?) ++
    headed "[Assistant tool calls]: " "; " (m.toolCalls.map toolCallText)
  | .toolResult m =>
    if blocksText m.content = [] then []
    else [utf16 "[Tool result]: " ++
      truncateForSummary (blocksText m.content) TOOL_RESULT_MAX_CHARS]

def serializeConversation (messages : List Message) : JsText :=
  joinTexts "\n\n" (messages.flatMap messageParts)

def SUMMARIZATION_PROMPT : String :=
  "The messages above are a conversation to summarize. Create a structured context " ++
    "checkpoint summary that another LLM will use to continue the work." ++
    "\n\nUse this EXACT format:" ++
    "\n\n## Goal" ++
    "\n[What is the user trying to accomplish? Can be multiple items if the session covers " ++
    "different tasks.]" ++
    "\n\n## Constraints & Preferences" ++
    "\n- [Any constraints, preferences, or requirements mentioned by user]" ++
    "\n- [Or \"(none)\" if none were mentioned]" ++
    "\n\n## Progress" ++
    "\n### Done" ++
    "\n- [x] [Completed tasks/changes]" ++
    "\n\n### In Progress" ++
    "\n- [ ] [Current work]" ++
    "\n\n### Blocked" ++
    "\n- [Issues preventing progress, if any]" ++
    "\n\n## Key Decisions" ++
    "\n- **[Decision]**: [Brief rationale]" ++
    "\n\n## Next Steps" ++
    "\n1. [Ordered list of what should happen next]" ++
    "\n\n## Critical Context" ++
    "\n- [Any data, examples, or references needed to continue]" ++
    "\n- [Or \"(none)\" if not applicable]" ++
    "\n\nKeep each section concise. Preserve exact file paths, function names, and error " ++
    "messages."

def UPDATE_SUMMARIZATION_PROMPT : String :=
  "The messages above are NEW conversation messages to incorporate into the existing " ++
    "summary provided in <previous-summary> tags." ++
    "\n\nUpdate the existing structured summary with new information. RULES:" ++
    "\n- PRESERVE all existing information from the previous summary" ++
    "\n- ADD new progress, decisions, and context from the new messages" ++
    "\n- UPDATE the Progress section: move items from \"In Progress\" to \"Done\" when " ++
    "completed" ++
    "\n- UPDATE \"Next Steps\" based on what was accomplished" ++
    "\n- PRESERVE exact file paths, function names, and error messages" ++
    "\n- If something is no longer relevant, you may remove it" ++
    "\n\nUse this EXACT format:" ++
    "\n\n## Goal" ++
    "\n[Preserve existing goals, add new ones if the task expanded]" ++
    "\n\n## Constraints & Preferences" ++
    "\n- [Preserve existing, add new ones discovered]" ++
    "\n\n## Progress" ++
    "\n### Done" ++
    "\n- [x] [Include previously done items AND newly completed items]" ++
    "\n\n### In Progress" ++
    "\n- [ ] [Current work - update based on progress]" ++
    "\n\n### Blocked" ++
    "\n- [Current blockers - remove if resolved]" ++
    "\n\n## Key Decisions" ++
    "\n- **[Decision]**: [Brief rationale] (preserve all previous, add new)" ++
    "\n\n## Next Steps" ++
    "\n1. [Update based on current state]" ++
    "\n\n## Critical Context" ++
    "\n- [Preserve important context, add new if needed]" ++
    "\n\nKeep each section concise. Preserve exact file paths, function names, and error " ++
    "messages."

def TURN_PREFIX_SUMMARIZATION_PROMPT : String :=
  "This is the PREFIX of a turn that was too large to keep. The SUFFIX (recent work) is " ++
    "retained." ++
    "\n\nSummarize the prefix to provide context for the retained suffix:" ++
    "\n\n## Original Request" ++
    "\n[What did the user ask for in this turn?]" ++
    "\n\n## Early Progress" ++
    "\n- [Key decisions and work done in the prefix]" ++
    "\n\n## Context for Suffix" ++
    "\n- [Information needed to understand the retained recent work]" ++
    "\n\nBe concise. Focus on what's needed to understand the kept suffix."

def SUMMARIZATION_SYSTEM_PROMPT : String :=
  "You are a context summarization assistant. Your task is to read a conversation between a " ++
    "user and an AI coding assistant, then produce a structured summary following the exact " ++
    "format specified." ++
    "\n\nDo NOT continue the conversation. Do NOT respond to any questions in the conversation. " ++
    "ONLY output the structured summary."

/-- The one user message of a request, by its sections. Without a previous summary its
section is left out, and `previousSummary` is empty. -/
structure SummarizationRequest where
  systemPrompt : JsText
  conversation : JsText
  previousSummary : JsText
  basePrompt : JsText
deriving DecidableEq

def SummarizationRequest.promptText (r : SummarizationRequest) : JsText :=
  utf16 "<conversation>\n" ++ r.conversation ++ utf16 "\n</conversation>\n\n" ++
    (if r.previousSummary = [] then []
      else utf16 "<previous-summary>\n" ++ r.previousSummary ++
        utf16 "\n</previous-summary>\n\n") ++
    r.basePrompt

def isTruthy (s : Option String) : Bool := s.any (fun text => text ≠ "")

def summaryRequest (currentMessages : List AgentMessage)
    (customInstructions previousSummary : Option String) : SummarizationRequest :=
  let basePrompt :=
    if isTruthy previousSummary then UPDATE_SUMMARIZATION_PROMPT else SUMMARIZATION_PROMPT
  { systemPrompt := utf16 SUMMARIZATION_SYSTEM_PROMPT
    conversation := serializeConversation (convertToLlm currentMessages)
    previousSummary := utf16 (previousSummary.getD "")
    basePrompt :=
      if isTruthy customInstructions then
        utf16 (basePrompt ++ "\n\nAdditional focus: " ++ customInstructions.getD "")
      else utf16 basePrompt }

def turnPrefixRequest (messages : List AgentMessage) : SummarizationRequest :=
  { systemPrompt := utf16 SUMMARIZATION_SYSTEM_PROMPT
    conversation := serializeConversation (convertToLlm messages)
    previousSummary := []
    basePrompt := utf16 TURN_PREFIX_SUMMARIZATION_PROMPT }

/-- What a model call comes to: a rejected promise, or the answer. -/
abbrev CompleteSimple := SummarizationRequest → Except String AssistantMessage

/-- The text of an answer; an answer that ended in an error is thrown. -/
def answerText (failure : String) (answer : Except String AssistantMessage) :
    Except String JsText :=
  match answer with
  | .error e => .error e
  | .ok response =>
    if response.stopReason = .error then
      .error (failure ++ (if isTruthy response.errorMessage then response.errorMessage.getD ""
        else "Unknown error"))
    else .ok (joinTexts "\n" (response.content.filterMap AssistantContent.text?))

def generateSummary (completeSimple : CompleteSimple) (currentMessages : List AgentMessage)
    (customInstructions previousSummary : Option String) : Except String JsText :=
  answerText "Summarization failed: "
    (completeSimple (summaryRequest currentMessages customInstructions previousSummary))

def generateTurnPrefixSummary (completeSimple : CompleteSimple) (messages : List AgentMessage) :
    Except String JsText :=
  answerText "Turn prefix summarization failed: " (completeSimple (turnPrefixRequest messages))

/-- `texts.sort()`, by UTF-16 code units. -/
def sortTexts (texts : List String) : List String :=
  texts.mergeSort (fun a b => decide (utf16 a ≤ utf16 b))

structure CompactionDetails where
  readFiles : List String
  modifiedFiles : List String
deriving DecidableEq

def computeFileLists (fileOps : FileOperations) : CompactionDetails :=
  let modified := fileOps.written.foldl (fun paths f => addPath f paths)
    (fileOps.edited.foldl (fun paths f => addPath f paths) [])
  { readFiles := sortTexts (fileOps.read.filter (fun f => f ∉ modified))
    modifiedFiles := sortTexts modified }

def fileSection (tag : String) (files : List String) : List JsText :=
  if files = [] then []
  else [utf16 ("<" ++ tag ++ ">\n") ++ joinTexts "\n" (files.map utf16) ++
    utf16 ("\n</" ++ tag ++ ">")]

def formatFileOperations (readFiles modifiedFiles : List String) : JsText :=
  let sections := fileSection "read-files" readFiles ++ fileSection "modified-files" modifiedFiles
  if sections = [] then [] else utf16 "\n\n" ++ joinTexts "\n\n" sections

structure CompactionResult where
  summary : JsText
  firstKeptEntryId : String
  tokensBefore : ℕ
  details : CompactionDetails
deriving DecidableEq

/-- `Promise.all` of two: it rejects with one of the listed errors, whichever comes first. -/
def promiseAll {α β : Type} (a : Except String α) (b : Except String β) :
    Except (List String) (α × β) :=
  match a, b with
  | .ok x, .ok y => .ok (x, y)
  | .error e, .ok _ => .error [e]
  | .ok _, .error e => .error [e]
  | .error e, .error e' => .error [e, e']

def noPriorHistory : JsText := utf16 "No prior history."

def splitTurnHeading : JsText := utf16 "\n\n---\n\n**Turn Context (split turn):**\n\n"

/-- The requests that `compact` issues, in order. -/
def compactRequests (p : CompactionPreparation) (customInstructions : Option String) :
    List SummarizationRequest :=
  if p.isSplitTurn ∧ 0 < p.turnPrefixMessages.length then
    (if 0 < p.messagesToSummarize.length then
      [summaryRequest p.messagesToSummarize customInstructions p.previousSummary] else []) ++
    [turnPrefixRequest p.turnPrefixMessages]
  else [summaryRequest p.messagesToSummarize customInstructions p.previousSummary]

def compactSummary (completeSimple : CompleteSimple) (p : CompactionPreparation)
    (customInstructions : Option String) : Except (List String) JsText :=
  if p.isSplitTurn ∧ 0 < p.turnPrefixMessages.length then
    let historyResult :=
      if 0 < p.messagesToSummarize.length then
        generateSummary completeSimple p.messagesToSummarize customInstructions p.previousSummary
      else .ok noPriorHistory
    let turnPrefixResult := generateTurnPrefixSummary completeSimple p.turnPrefixMessages
    (promiseAll historyResult turnPrefixResult).map fun (history, turnPrefix) =>
      history ++ splitTurnHeading ++ turnPrefix
  else
    (generateSummary completeSimple p.messagesToSummarize customInstructions
      p.previousSummary).mapError fun e => [e]

def compact (completeSimple : CompleteSimple) (p : CompactionPreparation)
    (customInstructions : Option String) : Except (List String) CompactionResult := do
  let summary ← compactSummary completeSimple p customInstructions
  let details := computeFileLists p.fileOps
  if p.firstKeptEntryId = "" then
    throw ["First kept entry has no UUID - session may need migration"]
  return { summary := summary ++ formatFileOperations details.readFiles details.modifiedFiles
           firstKeptEntryId := p.firstKeptEntryId
           tokensBefore := p.tokensBefore
           details := details }

end Draht
