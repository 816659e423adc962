import Draht.Summarization

/-!
# The files that tool calls touch

Which paths the sets of `FileOperations` hold after messages, and what the two lists computed from
them hold.
-/

namespace Draht
open List

inductive FileTool where
  | read | write | edit
deriving DecidableEq

def FileTool.name : FileTool → String
  | .read => "read"
  | .write => "write"
  | .edit => "edit"

def FileOperations.files (fileOps : FileOperations) : FileTool → List String
  | .read => fileOps.read
  | .write => fileOps.written
  | .edit => fileOps.edited

def ToolCall.Touches (block : ToolCall) (tool : FileTool) (path : String) : Prop :=
  block.name = tool.name ∧ block.arguments.get "path" = some (.string path) ∧ path ≠ ""

def AgentMessage.Touches (m : AgentMessage) (tool : FileTool) (path : String) : Prop :=
  match m with
  | .assistant m => ∃ block ∈ m.toolCalls, block.Touches tool path
  | _ => False

variable {fileOps : FileOperations} {f path : String}

@[simp] theorem mem_addPath {paths : List String} :
    f ∈ addPath path paths ↔ f = path ∨ f ∈ paths := by
  unfold addPath
  split_ifs with h
  · constructor
    · exact .inr
    · rintro (rfl | hf)
      · exact h
      · exact hf
  · rw [mem_append, mem_singleton, or_comm]

@[simp] theorem mem_foldl_addPath (added paths : List String) :
    f ∈ added.foldl (fun paths f => addPath f paths) paths ↔ f ∈ added ∨ f ∈ paths := by
  induction added generalizing paths with
  | nil => simp
  | cons path added ih =>
    rw [foldl_cons, ih, mem_addPath, mem_cons]
    constructor
    · rintro (h | h | h)
      · exact .inl (.inr h)
      · exact .inl (.inl h)
      · exact .inr h
    · rintro ((h | h) | h)
      · exact .inr (.inl h)
      · exact .inl h
      · exact .inr (.inr h)

theorem mem_files_createFileOps {tool : FileTool} : path ∉ createFileOps.files tool := by
  cases tool <;> exact not_mem_nil

theorem mem_files_extractFileOpsFromToolCall (fileOps : FileOperations) (block : ToolCall)
    (tool : FileTool) (path : String) :
    path ∈ (extractFileOpsFromToolCall fileOps block).files tool ↔
      path ∈ fileOps.files tool ∨ block.Touches tool path := by
  unfold extractFileOpsFromToolCall ToolCall.Touches
  split
  · next named hpath =>
      by_cases hempty : named = ""
      · rw [if_pos hempty]
        refine ⟨.inl, ?_⟩
        rintro (h | ⟨_, harg, hne⟩)
        · exact h
        · rw [hpath, Option.some_inj, Json.string.injEq] at harg
          exact absurd (harg.symm.trans hempty) hne
      · split_ifs with hread hwrite hedit
        · cases tool <;> simp_all [FileOperations.files, FileTool.name]
          grind
        · cases tool <;> simp_all [FileOperations.files, FileTool.name]
          grind
        · cases tool <;> simp_all [FileOperations.files, FileTool.name]
          grind
        · cases tool <;> simp_all [FileOperations.files, FileTool.name]
  · next hother =>
      refine ⟨.inl, ?_⟩
      rintro (h | ⟨_, harg, _⟩)
      · exact h
      · exact absurd harg (hother path)

theorem mem_files_extractFileOpsFromMessage (fileOps : FileOperations) (m : AgentMessage)
    (tool : FileTool) (path : String) :
    path ∈ (extractFileOpsFromMessage fileOps m).files tool ↔
      path ∈ fileOps.files tool ∨ m.Touches tool path := by
  have hcalls : ∀ (blocks : List ToolCall) (fileOps : FileOperations),
      path ∈ (blocks.foldl extractFileOpsFromToolCall fileOps).files tool ↔
        path ∈ fileOps.files tool ∨ ∃ block ∈ blocks, block.Touches tool path := by
    intro blocks
    induction blocks with
    | nil => simp
    | cons block blocks ih =>
      intro fileOps
      rw [foldl_cons, ih, mem_files_extractFileOpsFromToolCall]
      simp [or_assoc]
  cases m with
  | assistant m => exact hcalls m.toolCalls fileOps
  | _ => simp [extractFileOpsFromMessage, AgentMessage.Touches]

theorem mem_files_foldl_message (messages : List AgentMessage) (fileOps : FileOperations)
    (tool : FileTool) (path : String) :
    path ∈ (messages.foldl extractFileOpsFromMessage fileOps).files tool ↔
      path ∈ fileOps.files tool ∨ ∃ m ∈ messages, m.Touches tool path := by
  induction messages generalizing fileOps with
  | nil => simp
  | cons m messages ih =>
    rw [foldl_cons, ih, mem_files_extractFileOpsFromMessage]
    simp [or_assoc]

theorem mem_sortTexts {texts : List String} : f ∈ sortTexts texts ↔ f ∈ texts :=
  mem_mergeSort

theorem mem_modifiedFiles :
    path ∈ (computeFileLists fileOps).modifiedFiles ↔
      path ∈ fileOps.files .write ∨ path ∈ fileOps.files .edit := by
  rw [computeFileLists, mem_sortTexts, mem_foldl_addPath, mem_foldl_addPath]
  simp [FileOperations.files]

theorem mem_readFiles :
    path ∈ (computeFileLists fileOps).readFiles ↔
      path ∈ fileOps.files .read ∧ path ∉ (computeFileLists fileOps).modifiedFiles := by
  rw [mem_modifiedFiles, computeFileLists, mem_sortTexts, mem_filter, decide_eq_true_eq,
    mem_foldl_addPath, mem_foldl_addPath]
  simp [FileOperations.files]

end Draht
