import Draht.AssistantStream
import Draht.BlockLog

/-!
# Messages that providers build

A provider builds a message from what it is streamed. Each block of the message is opened, extended
and ended by events, and a tool call may stay open while other blocks are built.
-/

namespace Draht

/-- What is done for each item in turn, until something is thrown. -/
def foldUntil {σ α ε : Type*} (f : σ → α → σ × Option ε) : σ → List α → σ × Option ε
  | s, [] => (s, none)
  | s, a :: as =>
    match f s a with
    | (s, some thrown) => (s, some thrown)
    | (s, none) => foldUntil f s as

variable {σ α ε : Type*} {i : ℕ} {block : Block} {e : Event}

theorem foldUntil_invariant {f : σ → α → σ × Option ε} {I : σ → Prop}
    (hf : ∀ s a, I s → I (f s a).1) {s : σ} (hs : I s) (as : List α) : I (foldUntil f s as).1 := by
  induction as generalizing s with
  | nil => exact hs
  | cons a as ih =>
    have hstep := hf s a hs
    rw [foldUntil]
    split
    · next hthrown =>
        rw [hthrown] at hstep
        exact hstep
    · next hthrown =>
        rw [hthrown] at hstep
        exact ih hstep

theorem foldUntil_thrown {f : σ → α → σ × Option ε} {ok : α → Prop}
    (hf : ∀ s a, (f s a).2 = none ↔ ok a) (s : σ) (as : List α) :
    (foldUntil f s as).2 = none ↔ ∀ a ∈ as, ok a := by
  induction as generalizing s with
  | nil => simp [foldUntil]
  | cons a as ih =>
    rw [List.forall_mem_cons, ← hf s a, foldUntil]
    cases hstep : f s a with
    | mk s' thrown =>
      cases thrown with
      | none => simpa using ih s'
      | some message => simp

theorem foldUntil_simulates {τ : Type*} {f : σ → α → σ × Option ε} {g : τ → α → τ}
    {R : σ → τ → Prop}
    (hf : ∀ s t a, R s t → (f s a).2 = none → R (f s a).1 (g t a)) {s : σ} {t : τ} (h : R s t)
    (as : List α) (hnone : (foldUntil f s as).2 = none) :
    R (foldUntil f s as).1 (as.foldl g t) := by
  induction as generalizing s t with
  | nil => exact h
  | cons a as ih =>
    have hstep := hf s t a h
    rw [foldUntil] at hnone ⊢
    cases hfa : f s a with
    | mk s' thrown =>
      cases thrown with
      | none =>
        simp only [hfa] at hnone hstep ⊢
        exact ih (hstep trivial) hnone
      | some message => simp [hfa] at hnone

theorem foldUntil_map_simulates {τ β : Type*} {f : σ → α → σ × Option ε} {k : β → α}
    {g : τ → β → τ} {R : σ → τ → Prop}
    (hf : ∀ s t b, R s t → (f s (k b)).2 = none ∧ R (f s (k b)).1 (g t b)) {s : σ} {t : τ}
    (h : R s t) (bs : List β) :
    (foldUntil f s (bs.map k)).2 = none ∧ R (foldUntil f s (bs.map k)).1 (bs.foldl g t) := by
  induction bs generalizing s t with
  | nil => exact ⟨rfl, h⟩
  | cons b bs ih =>
    obtain ⟨hnone, hstep⟩ := hf s t b h
    rw [List.map_cons, foldUntil]
    cases hrun : f s (k b) with
    | mk s' thrown =>
      rw [hrun] at hnone hstep
      obtain rfl : thrown = none := hnone
      exact ih hstep

namespace Providers

/-- Only a tool call that is not finished has `partialArgs`. -/
structure ToolCall where
  id : String
  name : String
  arguments : Json
  thoughtSignature : Option String
  partialArgs : Option JsText
deriving DecidableEq

inductive Block where
  | text (text : JsText) (textSignature : Option String)
  | thinking (thinking : JsText) (thinkingSignature : Option String)
  | toolCall (call : ToolCall)
deriving DecidableEq

structure TokenUsage where
  input : ℤ
  output : ℤ
  cacheRead : ℤ
  cacheWrite : ℤ
  totalTokens : ℤ
deriving DecidableEq

structure Output where
  content : List Block
  responseId : Option String
  usage : TokenUsage
  stopReason : StopReason
  errorMessage : Option JsText
deriving DecidableEq

/-- The tool call of an end event is the block itself, given by its position, and what it holds when
the event is pushed. -/
structure EndedCall where
  position : ℤ
  id : String
  name : String
  arguments : Json
deriving DecidableEq

abbrev Event := AssistantMessageEvent EndedCall

/-- An event and `partial.content` when it is pushed. -/
structure Pushed where
  event : Event
  content : List Block
deriving DecidableEq

/-- `currentBlock` is the position of the block that it refers to. -/
structure Streaming where
  output : Output
  currentBlock : Option ℕ
  pushed : List Pushed
deriving DecidableEq

structure Outcome where
  output : Output
  produced : List (Produced Pushed Unit)
deriving DecidableEq

def initialOutput : Output where
  content := []
  responseId := none
  usage := ⟨0, 0, 0, 0, 0⟩
  stopReason := .stop
  errorMessage := none

def requestAborted : JsText := utf16 "Request was aborted"

def unknownError : JsText := utf16 "An unknown error occurred"

/-- `x ||= y`. -/
def orAssign (x y : Option String) : Option String := if x.any (· ≠ "") then x else y

def isToolCall : Block → Bool
  | .toolCall _ => true
  | _ => false

def hasCallId (id : String) : Block → Bool
  | .toolCall call => call.id = id
  | _ => false

namespace Streaming

def initial : Streaming := ⟨initialOutput, none, []⟩

variable (s : Streaming)

def blockIndex : ℤ := s.output.content.length - 1

def push (event : Event) : Streaming := { s with pushed := s.pushed ++ [⟨event, s.output.content⟩] }

def setContent (content : List Block) : Streaming := { s with output := { s.output with content } }

/-- `output.content.push(block)`. -/
def pushBlock (block : Block) : Streaming := s.setContent (s.output.content ++ [block])

def setBlock (i : ℕ) (block : Block) : Streaming := s.setContent (s.output.content.set i block)

/-- The block that `currentBlock` refers to. -/
def current : Option Block := s.currentBlock.bind fun i => s.output.content[i]?

/-- A text or thinking block ends, and is not the current one any more. -/
def finishText : Streaming :=
  match s.current with
  | some (.text text _) => { s.push (.textEnd s.blockIndex text) with currentBlock := none }
  | some (.thinking thinking _) =>
    { s.push (.thinkingEnd s.blockIndex thinking) with currentBlock := none }
  | _ => { s with currentBlock := none }

def openBlock (block : Block) (started : ℤ → Event) : Streaming :=
  let s := { s.pushBlock block with currentBlock := some s.output.content.length }
  s.push (started s.blockIndex)

def finish (event : Event) : Outcome :=
  ⟨s.output, (s.push event).pushed.map .push ++ [.ended none]⟩

def fail (aborted : Bool) (message : JsText) : Outcome :=
  let reason : StopReason := if aborted then .aborted else .error
  { s with output := { s.output with stopReason := reason, errorMessage := some message } }.finish
    (.error reason)

def succeed : Outcome := s.finish (.done s.output.stopReason)

end Streaming

namespace Streaming

variable (s : Streaming)

@[simp] theorem push_output (event : Event) : (s.push event).output = s.output := rfl

@[simp] theorem push_currentBlock (event : Event) : (s.push event).currentBlock = s.currentBlock :=
  rfl

@[simp] theorem push_pushed (event : Event) :
    (s.push event).pushed = s.pushed ++ [⟨event, s.output.content⟩] := rfl

@[simp] theorem push_blockIndex (event : Event) : (s.push event).blockIndex = s.blockIndex := rfl

@[simp] theorem pushBlock_content (block : Block) :
    (s.pushBlock block).output.content = s.output.content ++ [block] := rfl

@[simp] theorem pushBlock_pushed (block : Block) : (s.pushBlock block).pushed = s.pushed := rfl

@[simp] theorem pushBlock_currentBlock (block : Block) :
    (s.pushBlock block).currentBlock = s.currentBlock := rfl

@[simp] theorem setBlock_content (i : ℕ) (block : Block) :
    (s.setBlock i block).output.content = s.output.content.set i block := rfl

@[simp] theorem setBlock_pushed (i : ℕ) (block : Block) : (s.setBlock i block).pushed = s.pushed :=
  rfl

@[simp] theorem setBlock_currentBlock (i : ℕ) (block : Block) :
    (s.setBlock i block).currentBlock = s.currentBlock := rfl

@[simp] theorem finishText_currentBlock : s.finishText.currentBlock = none := by
  unfold finishText
  split <;> rfl

@[simp] theorem finishText_output : s.finishText.output = s.output := by
  unfold finishText
  split <;> rfl

theorem finishText_pushed (h : s.currentBlock = none) : s.finishText.pushed = s.pushed := by
  have hnone : s.current = none := by rw [current, h, Option.bind_none]
  unfold finishText
  rw [hnone]

theorem block_of_current {s : Streaming} (hi : s.currentBlock = some i)
    (hcurrent : s.current = some block) : s.output.content[i]? = some block := by
  rwa [current, hi, Option.bind_some] at hcurrent

theorem current_of_block {s : Streaming} (hi : s.currentBlock = some i)
    (hblock : s.output.content[i]? = some block) : s.current = some block := by
  rwa [current, hi, Option.bind_some]

theorem current_openBlock (block : Block) (started : ℤ → Event) :
    (s.openBlock block started).current = some block :=
  current_of_block (i := s.output.content.length) rfl (by simp [openBlock])

theorem blockIndex_of_length (h : i + 1 = s.output.content.length) :
    s.blockIndex = (i : ℤ) := by
  unfold blockIndex
  omega

end Streaming

inductive Kind where
  | text | thinking | toolCall
deriving DecidableEq

inductive Closing where
  | content (content : JsText)
  | toolCall (call : EndedCall)
deriving DecidableEq

/-- A text is made of the deltas in order, and its end has all of it. The end of a tool call has the
block. -/
def reading : BlockReading Block Kind JsText Closing where
  kind
    | .text _ _ => .text
    | .thinking _ _ => .thinking
    | .toolCall _ => .toolCall
  grown
    | .text text _, deltas => text = deltas.flatten
    | .thinking thinking _, deltas => thinking = deltas.flatten
    | .toolCall _, _ => True
  closing
    | _, .text text _ => .content text
    | _, .thinking thinking _ => .content thinking
    | i, .toolCall call => .toolCall ⟨i, call.id, call.name, call.arguments⟩

theorem grown_text {text delta : JsText} {signature signature' : Option String}
    {deltas : List JsText} (h : reading.grown (.text text signature) deltas) :
    reading.grown (.text (text ++ delta) signature') (deltas ++ [delta]) := by
  have htext : text = deltas.flatten := h
  have hnext : text ++ delta = (deltas ++ [delta]).flatten := by simp [htext]
  exact hnext

theorem grown_thinking {thinking delta : JsText} {signature signature' : Option String}
    {deltas : List JsText} (h : reading.grown (.thinking thinking signature) deltas) :
    reading.grown (.thinking (thinking ++ delta) signature') (deltas ++ [delta]) := by
  have hthinking : thinking = deltas.flatten := h
  have hnext : thinking ++ delta = (deltas ++ [delta]).flatten := by simp [hthinking]
  exact hnext

def mark : Event → Option (ℤ × Mark Kind JsText Closing)
  | .start => none
  | .textStart i => some (i, .opened .text)
  | .textDelta i delta => some (i, .piece .text delta)
  | .textEnd i content => some (i, .closed .text (.content content))
  | .thinkingStart i => some (i, .opened .thinking)
  | .thinkingDelta i delta => some (i, .piece .thinking delta)
  | .thinkingEnd i content => some (i, .closed .thinking (.content content))
  | .toolcallStart i => some (i, .opened .toolCall)
  | .toolcallDelta i delta => some (i, .piece .toolCall delta)
  | .toolcallEnd i call => some (i, .closed .toolCall (.toolCall call))
  | .done _ => none
  | .error _ => none

def logOf (pushed : List Pushed) : List (ℤ × Mark Kind JsText Closing) :=
  pushed.filterMap fun p => mark p.event

def IsStart (starts : List Pushed) : Prop :=
  starts = [] ∨ ∃ content, starts = [⟨.start, content⟩]

/-- Each event about a block finds it, at its index, in the partial message of that moment, as what
its events so far say it is. -/
def PartialsFit (pushed : List Pushed) : Prop :=
  ∀ before p after, pushed = before ++ p :: after → (mark p.event).isSome →
    ∃ isOpen, Bracketed reading p.content isOpen (logOf (before ++ [p]))

/-- At most one start, then events about blocks, then one end and nothing after it. The events are
those of the blocks of the message, which have all ended if the message is done. -/
def ObeysProtocol (o : Outcome) : Prop :=
  ∃ starts body last isOpen,
    o.produced = (starts ++ body ++ [last]).map .push ++ [.ended none] ∧
      IsStart starts ∧ (∀ p ∈ body, (mark p.event).isSome) ∧ last.event.isTerminal = true ∧
      last.content = o.output.content ∧
      PartialsFit (starts ++ body) ∧
      Bracketed reading o.output.content isOpen (logOf body) ∧
      ∀ reason, last.event = .done reason → ∀ i, i < o.output.content.length → ¬ isOpen i

/-- What was pushed so far obeys the protocol; the current block is the last one. -/
structure Sound (isOpen : ℕ → Prop) (s : Streaming) : Prop where
  shape : ∃ starts body, s.pushed = starts ++ body ∧ IsStart starts ∧
    ∀ p ∈ body, (mark p.event).isSome
  partials : PartialsFit s.pushed
  bracketed : Bracketed reading s.output.content isOpen (logOf s.pushed)

theorem logOf_append (pushed pushed' : List Pushed) :
    logOf (pushed ++ pushed') = logOf pushed ++ logOf pushed' := by
  simp [logOf]

theorem logOf_singleton {p : Pushed} {m : ℤ × Mark Kind JsText Closing}
    (h : mark p.event = some m) : logOf [p] = [m] := by
  simp [logOf, h]

theorem IsStart.logOf_eq {starts : List Pushed} (h : IsStart starts) : logOf starts = [] := by
  rcases h with rfl | ⟨content, rfl⟩ <;> rfl

theorem PartialsFit.snoc {pushed : List Pushed} (h : PartialsFit pushed) {p : Pushed}
    (hp : (mark p.event).isSome →
      ∃ isOpen, Bracketed reading p.content isOpen (logOf (pushed ++ [p]))) :
    PartialsFit (pushed ++ [p]) := by
  intro before p' after heq hmark
  obtain rfl | ⟨after', last, rfl⟩ := List.eq_nil_or_concat after
  · obtain ⟨rfl, hlast⟩ := List.append_inj' heq rfl
    obtain rfl := List.singleton_inj.mp hlast
    exact hp hmark
  · rw [List.concat_eq_append, ← List.cons_append, ← List.append_assoc] at heq
    exact h before p' after' (List.append_inj' heq rfl).1 hmark

theorem set_of_getElem? {xs : List α} {x : α} (h : xs[i]? = some x) :
    xs.set i x = xs := by
  obtain ⟨hi, rfl⟩ := List.getElem?_eq_some_iff.mp h
  exact List.set_getElem_self hi

namespace Sound

variable {isOpen isOpen' : ℕ → Prop} {s s' : Streaming}

theorem initial (isOpen : ℕ → Prop) : Sound isOpen Streaming.initial :=
  ⟨⟨[], [], rfl, .inl rfl, by simp⟩, fun before p after heq => by simp [Streaming.initial] at heq,
    .nil isOpen⟩

section

variable (h : Sound isOpen s)
include h

theorem start (hnone : s.pushed = []) (content : List Block) :
    Sound isOpen { s with pushed := [⟨.start, content⟩] } := by
  refine ⟨⟨[⟨.start, content⟩], [], rfl, .inr ⟨_, rfl⟩, by simp⟩, ?_, ?_⟩
  · have hpartials := h.partials
    rw [hnone] at hpartials
    exact hpartials.snoc fun hmark => by cases hmark
  · have hbracketed := h.bracketed
    rw [hnone] at hbracketed
    exact hbracketed

theorem push {m : ℤ × Mark Kind JsText Closing}
    (hmark : mark e = some m)
    (hpushed : s'.pushed = s.pushed ++ [⟨e, s'.output.content⟩])
    (hbracketed : Bracketed reading s'.output.content isOpen' (logOf s.pushed ++ [m])) :
    Sound isOpen' s' := by
  have hlog : logOf s'.pushed = logOf s.pushed ++ [m] := by
    rw [hpushed, logOf_append, logOf_singleton hmark]
  refine ⟨?_, ?_, by rwa [hlog]⟩
  · obtain ⟨starts, body, heq, hstarts, hbody⟩ := h.shape
    refine ⟨starts, body ++ [⟨e, s'.output.content⟩], ?_, hstarts, fun p hp => ?_⟩
    · rw [hpushed, heq, List.append_assoc]
    · obtain hp | hp := List.mem_append.mp hp
      · exact hbody p hp
      · rw [List.mem_singleton.mp hp, hmark]
        rfl
  · rw [hpushed]
    apply h.partials.snoc
    intro _
    exact ⟨isOpen', by rwa [← hpushed, hlog]⟩

theorem congr (hpushed : s'.pushed = s.pushed)
    (hcontent : s'.output.content = s.output.content)
    (hopen : ∀ i, i < s.output.content.length → (isOpen' i ↔ isOpen i)) : Sound isOpen' s' := by
  refine ⟨hpushed ▸ h.shape, hpushed ▸ h.partials, ?_⟩
  rw [hpushed, hcontent]
  exact h.bracketed.congr hopen

theorem open_block {b : Block}
    (hmark : mark e = some ((s.output.content.length : ℤ), .opened (reading.kind b)))
    (hgrown : reading.grown b []) (hself : isOpen' s.output.content.length)
    (hother : ∀ i, i < s.output.content.length → (isOpen' i ↔ isOpen i))
    (hcontent : s'.output.content = s.output.content ++ [b])
    (hpushed : s'.pushed = s.pushed ++ [⟨e, s'.output.content⟩]) : Sound isOpen' s' := by
  apply h.push hmark hpushed
  rw [hcontent]
  exact h.bracketed.open_block hgrown hself hother

theorem update {block' : Block}
    {m : Mark Kind JsText Closing} (hblock : s.output.content[i]? = some block)
    (hmark : mark e = some ((i : ℤ), m))
    (hentry : ∀ marks, Entry reading (isOpen i) i block marks →
      Entry reading (isOpen' i) i block' (marks ++ [m]))
    (hother : ∀ j, j ≠ i → (isOpen' j ↔ isOpen j))
    (hcontent : s'.output.content = s.output.content.set i block')
    (hpushed : s'.pushed = s.pushed ++ [⟨e, s'.output.content⟩]) : Sound isOpen' s' := by
  apply h.push hmark hpushed
  rw [hcontent, List.set_eq_modify]
  refine h.bracketed.update i (fun _ => block') [m] (List.getElem?_eq_some_iff.mp hblock).1 ?_
    hother
  intro block₀ hblock₀ hentry₀
  rw [hblock, Option.some_inj] at hblock₀
  rw [← hblock₀] at hentry₀
  exact hentry _ hentry₀

theorem touch {block' : Block}
    (hblock : s.output.content[i]? = some block) (hkind : reading.kind block' = reading.kind block)
    (hgrown : ∀ deltas, reading.grown block deltas → reading.grown block' deltas)
    (hclosing : ¬ isOpen i → reading.closing i block' = reading.closing i block)
    (hcontent : s'.output.content = s.output.content.set i block')
    (hpushed : s'.pushed = s.pushed) : Sound isOpen s' := by
  refine ⟨hpushed ▸ h.shape, hpushed ▸ h.partials, ?_⟩
  rw [hpushed, hcontent, List.set_eq_modify]
  have hself : ∀ block₀, s.output.content[i]? = some block₀ →
      Entry reading (isOpen i) i block₀ (marksOf (logOf s.pushed) i) →
      Entry reading (isOpen i) i block' (marksOf (logOf s.pushed) i ++ []) := by
    intro block₀ hblock₀ hentry
    rw [hblock, Option.some_inj] at hblock₀
    rw [← hblock₀] at hentry
    rw [List.append_nil]
    exact hentry.touched Iff.rfl hkind hgrown hclosing
  simpa using h.bracketed.update i (fun _ => block') [] (List.getElem?_eq_some_iff.mp hblock).1
    hself fun _ _ => Iff.rfl

theorem openBlock {started : ℤ → Event}
    (hmark : ∀ i, mark (started i) = some (i, .opened (reading.kind block)))
    (hgrown : reading.grown block []) (hself : isOpen' s.output.content.length)
    (hother : ∀ i, i < s.output.content.length → (isOpen' i ↔ isOpen i)) :
    Sound isOpen' (s.openBlock block started) := by
  have hindex : ({ s.pushBlock block with
      currentBlock := some s.output.content.length } : Streaming).blockIndex =
        (s.output.content.length : ℤ) :=
    Streaming.blockIndex_of_length _ (by simp)
  exact h.open_block (hmark _) hgrown hself hother rfl (by rw [← hindex]; rfl)

theorem grow {block' : Block} {delta : JsText}
    (hblock : s.output.content[i]? = some block)
    (hmark : mark e = some ((i : ℤ), .piece (reading.kind block) delta)) (hopen : isOpen i)
    (hkind : reading.kind block' = reading.kind block)
    (hgrown : ∀ deltas, reading.grown block deltas → reading.grown block' (deltas ++ [delta]))
    (hcontent : s'.output.content = s.output.content.set i block')
    (hpushed : s'.pushed = s.pushed ++ [⟨e, s'.output.content⟩]) : Sound isOpen s' :=
  h.update hblock hmark (fun _ hentry => hentry.piece hopen hopen hkind hgrown)
    (fun _ _ => Iff.rfl) hcontent hpushed

theorem close {b : Block}
    (hblock : s.output.content[i]? = some block)
    (hmark : mark e = some ((i : ℤ), .closed (reading.kind b) (reading.closing i b)))
    (hopen : isOpen i) (hclosed : ¬ isOpen' i) (hother : ∀ j, j ≠ i → (isOpen' j ↔ isOpen j))
    (hkind : reading.kind b = reading.kind block)
    (hgrown : ∀ deltas, reading.grown block deltas → reading.grown b deltas)
    (hcontent : s'.output.content = s.output.content.set i b)
    (hpushed : s'.pushed = s.pushed ++ [⟨e, s'.output.content⟩]) : Sound isOpen' s' :=
  h.update hblock hmark (fun _ hentry => hentry.closed hopen hclosed hkind hgrown) hother hcontent
    hpushed

theorem finishText
    (hcurrent : ∀ i, s.currentBlock = some i → i + 1 = s.output.content.length ∧ isOpen i ∧
      ¬ isOpen' i ∧ ∀ block, s.output.content[i]? = some block → isToolCall block = false)
    (hother : ∀ i, s.currentBlock ≠ some i → (isOpen' i ↔ isOpen i)) :
    Sound isOpen' s.finishText := by
  cases hposition : s.currentBlock with
  | none =>
    have hnone : s.current = none := by rw [Streaming.current, hposition, Option.bind_none]
    unfold Streaming.finishText
    rw [hnone]
    exact h.congr rfl rfl fun i _ => hother i (by simp [hposition])
  | some i =>
    obtain ⟨hlast, hopen, hclosed, hkind⟩ := hcurrent i hposition
    obtain ⟨block, hblock⟩ : ∃ block, s.output.content[i]? = some block :=
      ⟨_, List.getElem?_eq_getElem (by omega)⟩
    have hcur := Streaming.current_of_block hposition hblock
    have hindex := s.blockIndex_of_length hlast
    have hset : s.output.content = s.output.content.set i block := (set_of_getElem? hblock).symm
    have hother' : ∀ j, j ≠ i → (isOpen' j ↔ isOpen j) := fun j hj =>
      hother j (by rw [hposition, Ne, Option.some_inj]; exact Ne.symm hj)
    have hnot := hkind block hblock
    unfold Streaming.finishText
    rw [hcur]
    cases block with
    | text text signature =>
      exact h.close hblock (by rw [hindex]; rfl) hopen hclosed hother' rfl (fun _ hg => hg) hset rfl
    | thinking thinking signature =>
      exact h.close hblock (by rw [hindex]; rfl) hopen hclosed hother' rfl (fun _ hg => hg) hset rfl
    | toolCall call => cases hnot

end

theorem finish (h : Sound isOpen s) {event : Event} (hterminal : event.isTerminal = true)
    (hdone : ∀ reason, event = .done reason → ∀ i, i < s.output.content.length → ¬ isOpen i) :
    ObeysProtocol (s.finish event) := by
  obtain ⟨starts, body, heq, hstarts, hbody⟩ := h.shape
  refine ⟨starts, body, ⟨event, s.output.content⟩, isOpen, ?_, hstarts, hbody, hterminal, rfl, ?_,
    ?_, hdone⟩
  · rw [← heq]
    rfl
  · rw [← heq]
    exact h.partials
  · have hlog : logOf s.pushed = logOf body := by
      rw [heq, logOf_append, hstarts.logOf_eq, List.nil_append]
    rw [← hlog]
    exact h.bracketed

theorem fail (h : Sound isOpen s) (aborted : Bool) (message : JsText) :
    ObeysProtocol (s.fail aborted message) := by
  have h' : Sound isOpen { s with output := { s.output with
      stopReason := if aborted then .aborted else .error, errorMessage := some message } } :=
    h.congr rfl rfl fun _ _ => Iff.rfl
  exact h'.finish rfl fun reason heq => by cases heq

theorem succeed (h : Sound isOpen s) (hclosed : ∀ i, i < s.output.content.length → ¬ isOpen i) :
    ObeysProtocol s.succeed :=
  h.finish rfl fun _ _ => hclosed

end Sound

end Providers

end Draht
