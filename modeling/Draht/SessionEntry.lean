import Draht.Messages
import Draht.OrderedMap
import Draht.ParentChain

/-!
# Session entries

The entries of a session file: a header, then entries that carry an id and the id of
their parent. Ids are the first eight characters of a random UUID, retried while taken.
-/

namespace Draht

structure SessionHeader where
  version : Option ℕ
  id : String
  timestamp : ℕ
  cwd : String
  parentSession : Option String
deriving DecidableEq

/-- The fields of a compaction entry. `firstKeptEntryIndex` occurs in version 1 files only. -/
structure CompactionData where
  summary : String
  firstKeptEntryId : String
  tokensBefore : ℤ
  details : Option Json
  fromHook : Option Bool
  firstKeptEntryIndex : Option ℕ := none
deriving DecidableEq

structure BranchSummaryData where
  fromId : String
  summary : String
  details : Option Json
  fromHook : Option Bool
deriving DecidableEq

structure CustomMessageData where
  customType : String
  content : UserContent
  display : Bool
  details : Option Json
deriving DecidableEq

/-- What an entry holds besides its id, parent and timestamp, by its `type`. -/
inductive EntryBody where
  | message (message : AgentMessage)
  | thinkingLevelChange (thinkingLevel : String)
  | modelChange (provider modelId : String)
  | compaction (data : CompactionData)
  | branchSummary (data : BranchSummaryData)
  | custom (customType : String) (data : Option Json)
  | customMessage (data : CustomMessageData)
  | label (targetId : String) (label : Option String)
  | sessionInfo (name : Option String)
deriving DecidableEq

structure SessionEntry where
  id : String
  parentId : Option String
  timestamp : ℕ
  body : EntryBody
deriving DecidableEq

inductive FileEntry where
  | session (header : SessionHeader)
  | entry (entry : SessionEntry)
deriving DecidableEq

def FileEntry.entry? : FileEntry → Option SessionEntry
  | .session _ => none
  | .entry e => some e

def FileEntry.header? : FileEntry → Option SessionHeader
  | .session h => some h
  | .entry _ => none

def SessionEntry.isLabel (e : SessionEntry) : Bool :=
  match e.body with
  | .label _ _ => true
  | _ => false

def SessionEntry.isCompaction (e : SessionEntry) : Bool :=
  match e.body with
  | .compaction _ => true
  | _ => false

/-- `current.parentId ? ... : undefined`: an empty parent id counts as none. -/
def SessionEntry.truthyParent (e : SessionEntry) : Option String :=
  e.parentId.filter (fun p => p ≠ "")

/-- `e.type === "message" && e.message.role === "assistant"`. -/
def FileEntry.isAssistantMessage : FileEntry → Bool
  | .entry { body := .message (.assistant _), .. } => true
  | _ => false

/-- What `randomUUID()` returns. Of its format only this matters: the text is longer than
the eight characters that are cut off for a short id. -/
structure Uuid where
  text : String
  eight_lt : 8 < text.toList.length

/-- `uuid.slice(0, 8)`. -/
def Uuid.short (u : Uuid) : String := String.ofList (u.text.toList.take 8)

/-- The loop of `generateId` with `tries` left; `draw i` is the `i`-th random UUID. -/
def generateIdFrom (has : String → Bool) (draw : ℕ → Uuid) : ℕ → ℕ → String
  | 0, i => (draw i).text
  | tries + 1, i =>
    let id := (draw i).short
    if has id then generateIdFrom has draw tries (i + 1) else id

def generateId (has : String → Bool) (draw : ℕ → Uuid) : String :=
  generateIdFrom has draw 100 0

theorem Uuid.short_ne_empty (u : Uuid) : u.short ≠ "" := by
  intro h
  have hlist : u.text.toList.take 8 = [] := by
    rw [← String.toList_ofList (l := u.text.toList.take 8)]
    exact congrArg String.toList h
  have hlen := congrArg List.length hlist
  have hu := u.eight_lt
  rw [List.length_take, List.length_nil] at hlen
  omega

theorem Uuid.short_ne_text (u v : Uuid) : u.short ≠ v.text := by
  intro h
  have hlen := congrArg (fun s => s.toList.length) h
  have hv := v.eight_lt
  simp only [Uuid.short, String.toList_ofList, List.length_take] at hlen
  omega

theorem Uuid.text_ne_empty (u : Uuid) : u.text ≠ "" := by
  intro h
  have hu := u.eight_lt
  simp [h] at hu

theorem generateIdFrom_ne_empty (has : String → Bool) (draw : ℕ → Uuid) (tries i : ℕ) :
    generateIdFrom has draw tries i ≠ "" := by
  induction tries generalizing i with
  | zero => exact (draw i).text_ne_empty
  | succ tries ih =>
    simp only [generateIdFrom]
    split_ifs
    · exact ih (i + 1)
    · exact (draw i).short_ne_empty

theorem generateIdFrom_fresh (has : String → Bool) (draw : ℕ → Uuid) (tries i : ℕ)
    (h : has (draw (i + tries)).text = false) :
    has (generateIdFrom has draw tries i) = false := by
  induction tries generalizing i with
  | zero => exact h
  | succ tries ih =>
    simp only [generateIdFrom]
    split_ifs with hi
    · exact ih (i + 1) (by rwa [Nat.add_right_comm])
    · simpa using hi

theorem generateId_ne_empty (has : String → Bool) (draw : ℕ → Uuid) :
    generateId has draw ≠ "" := generateIdFrom_ne_empty has draw 100 0

theorem generateId_fresh (has : String → Bool) (draw : ℕ → Uuid)
    (h : has (draw 100).text = false) : has (generateId has draw) = false :=
  generateIdFrom_fresh has draw 100 0 h

theorem generateIdFrom_cases (has : String → Bool) (draw : ℕ → Uuid) (tries i : ℕ) :
    (∃ j, generateIdFrom has draw tries i = (draw j).short) ∨
      generateIdFrom has draw tries i = (draw (i + tries)).text := by
  induction tries generalizing i with
  | zero => exact .inr rfl
  | succ tries ih =>
    simp only [generateIdFrom]
    split_ifs
    · rw [← Nat.add_assoc, Nat.add_right_comm]
      exact ih (i + 1)
    · exact .inl ⟨i, rfl⟩

end Draht
