import Draht.ProxyStream
import Draht.SplitOn

/-!
# What a sequence of proxy events says

The blocks that a sequence of events tells of, each with its deltas. As long as the events follow
the protocol, the message that is built up has these blocks, whatever the chunks in which the lines
come.
-/

namespace Draht.Proxy
open List Option

inductive BlockTag where
  | text
  | thinking
  | toolCall
deriving DecidableEq

inductive BlockKind where
  | text
  | thinking
  | toolCall (id name : JsText)
deriving DecidableEq

def BlockKind.tag : BlockKind → BlockTag
  | .text => .text
  | .thinking => .thinking
  | .toolCall _ _ => .toolCall

/-- A block with its deltas and, when it has ended, the signature of its end event. -/
structure BlockRecord where
  kind : BlockKind
  deltas : List JsText
  ended : Option (Option JsText)
deriving DecidableEq

/-- Texts are the deltas one after another, and arguments are parsed from them. -/
def BlockRecord.block (F : ProxyFormat) (r : BlockRecord) : ProxyBlock :=
  match r.kind with
  | .text => .text r.deltas.flatten r.ended.join
  | .thinking => .thinking r.deltas.flatten r.ended.join
  | .toolCall id name =>
    .toolCall id name (argumentsOf F r.deltas.flatten)
      (if r.ended.isSome then none else some r.deltas.flatten)

inductive BlockChange where
  | opens (contentIndex : ℕ) (kind : BlockKind)
  | extends (contentIndex : ℕ) (tag : BlockTag) (delta : JsText)
  | ends (contentIndex : ℕ) (tag : BlockTag) (signature : Option JsText)

def ProxyEvent.change? : ProxyEvent → Option BlockChange
  | .textStart i => some (.opens i .text)
  | .textDelta i delta => some (.extends i .text delta)
  | .textEnd i signature => some (.ends i .text signature)
  | .thinkingStart i => some (.opens i .thinking)
  | .thinkingDelta i delta => some (.extends i .thinking delta)
  | .thinkingEnd i signature => some (.ends i .thinking signature)
  | .toolcallStart i id toolName => some (.opens i (.toolCall id toolName))
  | .toolcallDelta i delta => some (.extends i .toolCall delta)
  | .toolcallEnd i => some (.ends i .toolCall none)
  | .start => none
  | .done _ _ => none
  | .error _ _ _ => none
  | .other => none

def ProxyEvent.isTerminal : ProxyEvent → Bool
  | .done _ _ => true
  | .error _ _ _ => true
  | _ => false

/-- The block at an index, if it is of the kind and has not ended. -/
def openBlock (records : List BlockRecord) (contentIndex : ℕ) (tag : BlockTag) :
    Option BlockRecord :=
  records[contentIndex]?.filter fun r => r.kind.tag = tag ∧ r.ended = none

/-- A block is opened behind the others; only open blocks are extended and ended. -/
def BlockChange.apply (records : List BlockRecord) : BlockChange → Option (List BlockRecord)
  | .opens i kind => if i = records.length then some (records ++ [⟨kind, [], none⟩]) else none
  | .extends i tag delta =>
    (openBlock records i tag).map fun r => records.set i { r with deltas := r.deltas ++ [delta] }
  | .ends i tag signature =>
    (openBlock records i tag).map fun r => records.set i { r with ended := some signature }

def nextRecords (records : List BlockRecord) (e : ProxyEvent) : List BlockRecord :=
  (e.change?.bind (·.apply records)).getD records

def recordsAfter (es : List ProxyEvent) : List BlockRecord := es.foldl nextRecords []

/-- Content events that open, extend and end blocks, and a terminal event at the end. -/
def ConformsFrom : List BlockRecord → List ProxyEvent → Prop
  | _, [] => True
  | records, e :: es =>
    if e.isTerminal then es = []
    else
      match e.change?.bind (·.apply records) with
      | none => False
      | some records => ConformsFrom records es

/-- A sequence that follows the protocol, as far as it has come. -/
def Conforms (es : List ProxyEvent) : Prop :=
  ConformsFrom [] es ∨ ∃ rest, es = .start :: rest ∧ ConformsFrom [] rest

def FollowsProtocol (es : List ProxyEvent) : Prop :=
  Conforms es ∧ ∃ before last, es = before ++ [last] ∧ last.isTerminal = true

/-- The event that is pushed for an event, with the blocks after it. -/
def ProxyEvent.output (F : ProxyFormat) (records : List BlockRecord) : ProxyEvent → ProxyOutput
  | .start => .start
  | .textStart i => .textStart i
  | .textDelta i delta => .textDelta i delta
  | .textEnd i _ => .textEnd i ((records[i]?.map fun r => r.deltas.flatten).getD [])
  | .thinkingStart i => .thinkingStart i
  | .thinkingDelta i delta => .thinkingDelta i delta
  | .thinkingEnd i _ => .thinkingEnd i ((records[i]?.map fun r => r.deltas.flatten).getD [])
  | .toolcallStart i _ _ => .toolcallStart i
  | .toolcallDelta i delta => .toolcallDelta i delta
  | .toolcallEnd i =>
    .toolcallEnd i ((records[i]?.map (BlockRecord.block F)).getD (.text [] none))
  | .done reason _ => .done reason
  | .error reason _ _ => .error reason
  | .other => .start

def outputsFrom (F : ProxyFormat) : List BlockRecord → List ProxyEvent → List ProxyOutput
  | _, [] => []
  | records, e :: es =>
    e.output F (nextRecords records e) :: outputsFrom F (nextRecords records e) es

def outputs (F : ProxyFormat) (es : List ProxyEvent) : List ProxyOutput := outputsFrom F [] es

def contentOf (F : ProxyFormat) (records : List BlockRecord) : List (Option ProxyBlock) :=
  records.map fun r => some (r.block F)

def withTerminal (message : ProxyMessage) : Option ProxyEvent → ProxyMessage
  | some (.done reason usage) => { message with stopReason := reason, usage }
  | some (.error reason errorMessage usage) =>
    { message with stopReason := reason, errorMessage, usage }
  | _ => message

def foldMessage (F : ProxyFormat) (start : ProxyMessage) (es : List ProxyEvent) : ProxyMessage :=
  withTerminal { start with content := contentOf F (recordsAfter es) } es.getLast?

variable {es : List ProxyEvent} {e : ProxyEvent} {i : ℕ} {tag : BlockTag}

variable {r : BlockRecord} {change : BlockChange} {rest : List ProxyEvent} {p : Progress}
  {start : ProxyMessage}

theorem ConformsFrom.of_append {records : List BlockRecord} (h : ConformsFrom records (es ++ rest)) :
    ConformsFrom records es := by
  induction es generalizing records with
  | nil => trivial
  | cons e es ih =>
    rw [cons_append, ConformsFrom] at h
    rw [ConformsFrom]
    by_cases hterminal : e.isTerminal = true
    · rw [if_pos hterminal] at h ⊢
      exact (append_eq_nil_iff.mp h).1
    · rw [if_neg hterminal] at h ⊢
      cases hchange : e.change?.bind (·.apply records) with
      | none =>
        rw [hchange] at h
        exact h
      | some records' =>
        rw [hchange] at h
        exact ih h

theorem Conforms.of_append (h : Conforms (es ++ rest)) : Conforms es := by
  obtain h | ⟨rest', heq, h⟩ := h
  · exact .inl h.of_append
  · cases es with
    | nil => exact .inl trivial
    | cons e es =>
      cases heq
      exact .inr ⟨es, rfl, h.of_append⟩

theorem ConformsFrom.concat {records : List BlockRecord}
    (h : ConformsFrom records (es ++ [e])) :
    (∀ x ∈ es, x.isTerminal = false) ∧
      (e.isTerminal = true ∨ ∃ change, e.change? = some change ∧
        (change.apply (es.foldl nextRecords records)).isSome) := by
  induction es generalizing records with
  | nil =>
    refine ⟨by simp, ?_⟩
    rw [nil_append, ConformsFrom] at h
    by_cases hterminal : e.isTerminal = true
    · exact .inl hterminal
    · rw [if_neg hterminal] at h
      cases hchange : e.change? with
      | none => simp [hchange] at h
      | some change =>
        refine .inr ⟨change, rfl, ?_⟩
        rw [hchange, bind_some] at h
        cases hrecords : change.apply records with
        | none => simp [hrecords] at h
        | some records' => simp [hrecords]
  | cons x es ih =>
    rw [cons_append, ConformsFrom] at h
    by_cases hterminal : x.isTerminal = true
    · rw [if_pos hterminal] at h
      simp at h
    · rw [if_neg hterminal] at h
      have hnext : ConformsFrom (nextRecords records x) (es ++ [e]) := by
        rw [nextRecords]
        cases hchange : x.change?.bind (·.apply records) with
        | none =>
          rw [hchange] at h
          exact h.elim
        | some records' =>
          rw [hchange] at h
          exact h
      obtain ⟨hnone, hlast⟩ := ih hnext
      refine ⟨?_, hlast⟩
      intro y hy
      obtain rfl | hy := mem_cons.mp hy
      · simpa using hterminal
      · exact hnone y hy

theorem Conforms.concat (h : Conforms (es ++ [e])) :
    (∀ x ∈ es, x.isTerminal = false) ∧
      (e.isTerminal = true ∨ (es = [] ∧ e = .start) ∨ ∃ change, e.change? = some change ∧
        (change.apply (recordsAfter es)).isSome) := by
  obtain h | ⟨rest, heq, h⟩ := h
  · obtain ⟨hnone, hlast⟩ := h.concat
    exact ⟨hnone, hlast.imp_right .inr⟩
  · cases es with
    | nil =>
      cases heq
      exact ⟨by simp, .inr (.inl ⟨rfl, rfl⟩)⟩
    | cons x es =>
      cases heq
      obtain ⟨hnone, hlast⟩ := h.concat
      refine ⟨?_, hlast.imp_right .inr⟩
      intro y hy
      obtain rfl | hy := mem_cons.mp hy
      · rfl
      · exact hnone y hy

theorem outputsFrom_concat (F : ProxyFormat) (records : List BlockRecord) (es : List ProxyEvent)
    (e : ProxyEvent) : outputsFrom F records (es ++ [e]) =
      outputsFrom F records es ++ [e.output F ((es ++ [e]).foldl nextRecords records)] := by
  induction es generalizing records with
  | nil => rfl
  | cons x es ih =>
    rw [cons_append, outputsFrom, outputsFrom, ih, cons_append]
    rfl

theorem recordsAfter_concat (es : List ProxyEvent) (e : ProxyEvent) :
    recordsAfter (es ++ [e]) = nextRecords (recordsAfter es) e := by
  rw [recordsAfter, foldl_append]
  rfl

theorem outputs_concat (F : ProxyFormat) (es : List ProxyEvent) (e : ProxyEvent) :
    outputs F (es ++ [e]) = outputs F es ++ [e.output F (recordsAfter (es ++ [e]))] :=
  outputsFrom_concat F [] es e

variable {F : ProxyFormat} {message : ProxyMessage} {records records' : List BlockRecord}

theorem blockAt_of_content (hm : message.content = contentOf F records) (i : ℕ) :
    blockAt message i = records[i]?.map (BlockRecord.block F) := by
  rw [blockAt, hm, contentOf, getElem?_map]
  cases records[i]? <;> rfl

theorem withBlock_concat (hm : message.content = contentOf F records) (r : BlockRecord) :
    withBlock message records.length (r.block F) =
      { message with content := contentOf F (records ++ [r]) } := by
  have hlength : message.content.length = records.length := by rw [hm, contentOf, length_map]
  rw [withBlock, setBlock, hlength, Nat.add_sub_cancel_left, replicate_one,
    ← hlength, set_append_right _ _ le_rfl, Nat.sub_self, hm, contentOf, contentOf,
    map_append]
  rfl

theorem withBlock_set (hm : message.content = contentOf F records)
    (hi : i < records.length) (r : BlockRecord) :
    withBlock message i (r.block F) =
      { message with content := contentOf F (records.set i r) } := by
  have hlength : message.content.length = records.length := by rw [hm, contentOf, length_map]
  have hzero : i + 1 - message.content.length = 0 := by omega
  rw [withBlock, setBlock, hzero, replicate_zero, append_nil, hm, contentOf, contentOf, map_set]

theorem openBlock_eq_some (h : openBlock records i tag = some r) :
    records[i]? = some r ∧ i < records.length ∧ r.kind.tag = tag ∧ r.ended = none := by
  rw [openBlock, filter_eq_some_iff] at h
  obtain ⟨hget, hr⟩ := h
  have hr' : r.kind.tag = tag ∧ r.ended = none := by simpa using hr
  exact ⟨hget, (List.getElem?_eq_some_iff.mp hget).1, hr'⟩

theorem apply_opens {kind : BlockKind}
    (h : (BlockChange.opens i kind).apply records = some records') :
    i = records.length ∧ records' = records ++ [⟨kind, [], none⟩] := by
  rw [BlockChange.apply] at h
  split_ifs at h with hi
  exact ⟨hi, (some.inj h).symm⟩

theorem apply_extends {delta : JsText}
    (h : (BlockChange.extends i tag delta).apply records = some records') :
    ∃ r, openBlock records i tag = some r ∧
      records' = records.set i { r with deltas := r.deltas ++ [delta] } := by
  obtain ⟨r, hr, rfl⟩ := map_eq_some_iff.mp h
  exact ⟨r, hr, rfl⟩

theorem apply_ends {signature : Option JsText}
    (h : (BlockChange.ends i tag signature).apply records = some records') :
    ∃ r, openBlock records i tag = some r ∧
      records' = records.set i { r with ended := some signature } := by
  obtain ⟨r, hr, rfl⟩ := map_eq_some_iff.mp h
  exact ⟨r, hr, rfl⟩

theorem withBlock_opens (hm : message.content = contentOf F records) {kind : BlockKind}
    (h : (BlockChange.opens i kind).apply records = some records') :
    withBlock message i ((⟨kind, [], none⟩ : BlockRecord).block F) =
      { message with content := contentOf F records' } := by
  obtain ⟨rfl, rfl⟩ := apply_opens h
  exact withBlock_concat hm _

theorem blockAt_openBlock (hm : message.content = contentOf F records)
    (h : openBlock records i tag = some r) : blockAt message i = some (r.block F) := by
  rw [blockAt_of_content hm, (openBlock_eq_some h).1, map_some]

theorem getElem?_set_openBlock {r' : BlockRecord} (h : openBlock records i tag = some r) :
    (records.set i r')[i]? = some r' := by
  rw [getElem?_set_self (openBlock_eq_some h).2.1]

theorem processProxyEvent_change (hm : message.content = contentOf F records)
    (he : e.change? = some change) (h : change.apply records = some records') :
    processProxyEvent F message e =
      .ok ({ message with content := contentOf F records' }, some (e.output F records')) := by
  cases e with
  | start => simp [ProxyEvent.change?] at he
  | done reason usage => simp [ProxyEvent.change?] at he
  | error reason errorMessage usage => simp [ProxyEvent.change?] at he
  | other => simp [ProxyEvent.change?] at he
  | textStart i =>
    cases he
    rw [← withBlock_opens hm h]
    rfl
  | thinkingStart i =>
    cases he
    rw [← withBlock_opens hm h]
    rfl
  | toolcallStart i id toolName =>
    cases he
    rw [← withBlock_opens hm h]
    rfl
  | textDelta i delta =>
    cases he
    obtain ⟨⟨kind, deltas, ended⟩, hr, rfl⟩ := apply_extends h
    obtain ⟨_, hi, htag, hended⟩ := openBlock_eq_some hr
    obtain rfl : ended = none := hended
    obtain rfl : kind = .text := by cases kind <;> simp_all [BlockKind.tag]
    rw [← withBlock_set hm hi, processProxyEvent, blockAt_openBlock hm hr]
    simp [BlockRecord.block, ProxyEvent.output]
  | thinkingDelta i delta =>
    cases he
    obtain ⟨⟨kind, deltas, ended⟩, hr, rfl⟩ := apply_extends h
    obtain ⟨_, hi, htag, hended⟩ := openBlock_eq_some hr
    obtain rfl : ended = none := hended
    obtain rfl : kind = .thinking := by cases kind <;> simp_all [BlockKind.tag]
    rw [← withBlock_set hm hi, processProxyEvent, blockAt_openBlock hm hr]
    simp [BlockRecord.block, ProxyEvent.output]
  | toolcallDelta i delta =>
    cases he
    obtain ⟨⟨kind, deltas, ended⟩, hr, rfl⟩ := apply_extends h
    obtain ⟨_, hi, htag, hended⟩ := openBlock_eq_some hr
    obtain rfl : ended = none := hended
    obtain ⟨id, name, rfl⟩ : ∃ id name, kind = .toolCall id name := by
      cases kind <;> simp_all [BlockKind.tag]
    rw [← withBlock_set hm hi, processProxyEvent, blockAt_openBlock hm hr]
    simp [BlockRecord.block, ProxyEvent.output]
  | textEnd i signature =>
    cases he
    obtain ⟨⟨kind, deltas, ended⟩, hr, rfl⟩ := apply_ends h
    obtain ⟨_, hi, htag, _⟩ := openBlock_eq_some hr
    obtain rfl : kind = .text := by cases kind <;> simp_all [BlockKind.tag]
    rw [← withBlock_set hm hi, processProxyEvent, blockAt_openBlock hm hr]
    simp [BlockRecord.block, ProxyEvent.output, getElem?_set_openBlock hr]
  | thinkingEnd i signature =>
    cases he
    obtain ⟨⟨kind, deltas, ended⟩, hr, rfl⟩ := apply_ends h
    obtain ⟨_, hi, htag, _⟩ := openBlock_eq_some hr
    obtain rfl : kind = .thinking := by cases kind <;> simp_all [BlockKind.tag]
    rw [← withBlock_set hm hi, processProxyEvent, blockAt_openBlock hm hr]
    simp [BlockRecord.block, ProxyEvent.output, getElem?_set_openBlock hr]
  | toolcallEnd i =>
    cases he
    obtain ⟨⟨kind, deltas, ended⟩, hr, rfl⟩ := apply_ends h
    obtain ⟨_, hi, htag, _⟩ := openBlock_eq_some hr
    obtain ⟨id, name, rfl⟩ : ∃ id name, kind = .toolCall id name := by
      cases kind <;> simp_all [BlockKind.tag]
    rw [← withBlock_set hm hi, processProxyEvent, blockAt_openBlock hm hr]
    simp [BlockRecord.block, ProxyEvent.output, getElem?_set_openBlock hr]

structure Built (F : ProxyFormat) (start : ProxyMessage) (es : List ProxyEvent) (p : Progress) :
    Prop where
  message : p.message = foldMessage F start es
  pushed : p.pushed = outputs F es

theorem nextRecords_of_change (he : e.change? = some change)
    (h : change.apply records = some records') : nextRecords records e = records' := by
  rw [nextRecords, he, bind_some, h, getD_some]

theorem withTerminal_of_not_terminal {e : Option ProxyEvent}
    (h : ∀ x ∈ e, x.isTerminal = false) : withTerminal message e = message := by
  cases e with
  | none => rfl
  | some x => cases x <;> first | rfl | exact absurd (h _ rfl) (by simp [ProxyEvent.isTerminal])

theorem foldMessage_of_not_terminal (h : ∀ e ∈ es, e.isTerminal = false) :
    foldMessage F start es = { start with content := contentOf F (recordsAfter es) } :=
  withTerminal_of_not_terminal fun x hx => h x (mem_of_getLast? hx)

theorem Built.concat (h : Built F start es p) (hconforms : Conforms (es ++ [e])) :
    ∃ message' output, processProxyEvent F p.message e = .ok (message', some output) ∧
      Built F start (es ++ [e]) ⟨message', p.pushed ++ [output]⟩ := by
  obtain ⟨hnone, hlast⟩ := hconforms.concat
  have hmessage := h.message
  rw [foldMessage_of_not_terminal hnone] at hmessage
  have houtputs := outputs_concat F es e
  rw [← h.pushed] at houtputs
  have hfold : foldMessage F start (es ++ [e]) =
      withTerminal { start with content := contentOf F (recordsAfter (es ++ [e])) } (some e) := by
    rw [foldMessage, getLast?_concat]
  obtain hterminal | ⟨rfl, rfl⟩ | ⟨change, hchange, happly⟩ := hlast
  · have hsame : recordsAfter (es ++ [e]) = recordsAfter es := by
      rw [recordsAfter_concat, nextRecords]
      cases e <;> first | rfl | exact absurd hterminal (by simp [ProxyEvent.isTerminal])
    rw [hsame] at hfold houtputs
    cases e with
    | done reason usage =>
      refine ⟨_, _, rfl, ?_, houtputs.symm⟩
      rw [hfold, hmessage]
      rfl
    | error reason errorMessage usage =>
      refine ⟨_, _, rfl, ?_, houtputs.symm⟩
      rw [hfold, hmessage]
      rfl
    | _ => exact absurd hterminal (by simp [ProxyEvent.isTerminal])
  · refine ⟨_, _, rfl, ?_, houtputs.symm⟩
    rw [hmessage]
    rfl
  · obtain ⟨records', hrecords⟩ := isSome_iff_exists.mp happly
    have hnext := nextRecords_of_change hchange hrecords
    have hcontent : p.message.content = contentOf F (recordsAfter es) := by rw [hmessage]
    refine ⟨_, _, processProxyEvent_change hcontent hchange hrecords, ?_, ?_⟩
    · rw [hfold, recordsAfter_concat, hnext, hmessage]
      cases e <;> first | rfl | simp [ProxyEvent.change?] at hchange
    · rw [houtputs, recordsAfter_concat, hnext]

def lineEvent (F : ProxyFormat) (line : List Char) : Option ProxyEvent :=
  (lineData line).bind fun data => (F.parseEvent data).toOption

def lineEvents (F : ProxyFormat) (lines : List (List Char)) : List ProxyEvent :=
  lines.filterMap (lineEvent F)

def Parses (F : ProxyFormat) (lines : List (List Char)) : Prop :=
  ∀ line ∈ lines, ∀ data, lineData line = some data → ∃ e, F.parseEvent data = .ok e

theorem processLines_built {lines : List (List Char)} (hbuilt : Built F start es p)
    (hparses : Parses F lines) (hconforms : Conforms (es ++ lineEvents F lines)) :
    ∃ p', p.processLines F lines = (p', none) ∧ Built F start (es ++ lineEvents F lines) p' := by
  induction lines generalizing es p with
  | nil => exact ⟨p, rfl, by simpa [lineEvents] using hbuilt⟩
  | cons line lines ih =>
    have hrest : Parses F lines := fun x hx => hparses x (mem_cons_of_mem _ hx)
    cases hdata : lineData line with
    | none =>
      have hevent : lineEvents F (line :: lines) = lineEvents F lines := by
        rw [lineEvents, filterMap_cons_none (by rw [lineEvent, hdata]; rfl), lineEvents]
      rw [hevent] at hconforms ⊢
      rw [Progress.processLines, Progress.processLine, hdata]
      exact ih hbuilt hrest hconforms
    | some data =>
      obtain ⟨e, he⟩ := hparses line mem_cons_self data hdata
      have hevent : lineEvents F (line :: lines) = e :: lineEvents F lines := by
        have hline : lineEvent F line = some e := by
          rw [lineEvent, hdata, bind_some, he]
          rfl
        rw [lineEvents, filterMap_cons_some hline, lineEvents]
      rw [hevent, append_cons] at hconforms ⊢
      obtain ⟨message', output, hprocess, hnext⟩ := hbuilt.concat hconforms.of_append
      rw [Progress.processLines, Progress.processLine, hdata]
      simp only [he, hprocess]
      exact ih hnext hrest hconforms

end Draht.Proxy
