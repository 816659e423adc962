import Draht.EventsWatcher
import Draht.SessionInvariant
import Draht.Text

/-!
# Syncing the log of a channel

What users wrote in a channel is added to a session that does not have it. The texts of the session
are compared without time stamp and attachments, those of the log as they are, so a text may be
added again by the next sync.
-/

namespace Draht.LogSync
open List

/-- What the sync takes from the platform: `JSON.parse`, the text of a value, and the time of a
date. -/
structure LogFormat where
  parse : List Char → Option Json
  display : Json → String
  msgTime : Json → ℕ

/-- `[YYYY-MM-DD HH:MM:SS+HH:MM] `. -/
def stampPattern : List Char := "[0000-00-00 00:00:00+00:00] ".toList

def fitsStamp : Char → Char → Bool
  | '0', c => c.isDigit
  | '+', c => c = '+' || c = '-'
  | p, c => p = c

def stripStamp (text : List Char) : List Char :=
  if stampPattern.length ≤ text.length ∧
      ((stampPattern.zip text).all fun p => fitsStamp p.1 p.2) then
    text.drop stampPattern.length
  else text

def stripAttachments : List Char → List Char
  | [] => []
  | c :: text =>
    if "\n\n<slack_attachments>\n".toList.isPrefixOf (c :: text) then []
    else c :: stripAttachments text

def normalise (text : String) : String :=
  String.ofList (stripAttachments (stripStamp text.toList))

def userTexts : UserContent → List String
  | .string text => [text]
  | .blocks blocks => blocks.filterMap fun
    | .text block => some block.text
    | .image _ => none

def entryTexts (e : SessionEntry) : List String :=
  match e.body with
  | .message (.user m) => (userTexts m.content).map normalise
  | _ => []

def existingMessages (s : SessionManager) : List String := s.getEntries.flatMap entryTexts

variable (F : LogFormat) (s : SessionManager) (log : Option (List Char))
  (excludeSlackTs : Option String)

/-- The text and the time of the message of a line, unless the line is skipped whatever the session
has. -/
def readLine (line : List Char) : Option (String × ℕ) := do
  let logMsg ← F.parse line
  let slackTs ← EventsWatcher.field "ts" logMsg
  let date ← EventsWatcher.field "date" logMsg
  if excludeSlackTs.any fun ts => ts ≠ "" && slackTs = .string ts then none
  else if (EventsWatcher.field "isBot" logMsg).isSome then none
  else
    let user := EventsWatcher.field "userName" logMsg <|> EventsWatcher.field "user" logMsg
    let text := EventsWatcher.field "text" logMsg
    some ("[" ++ (user.map F.display).getD "unknown" ++ "]: " ++ (text.map F.display).getD "",
      F.msgTime date)

def loggedMessages : List (String × ℕ) :=
  match log with
  | none => []
  | some logContent =>
    (((trim isWhiteSpace logContent).splitOn '\n').filter (· ≠ [])).filterMap
      (readLine F excludeSlackTs)

def newMessages (existing : List String) : List (String × ℕ) → List (String × ℕ)
  | [] => []
  | m :: later =>
    if m.1 ∈ existing then newMessages existing later
    else m :: newMessages (m.1 :: existing) later

def appendUserMessage (entropy : ℕ → SessionManager.Entropy) (s : SessionManager)
    (m : (String × ℕ) × ℕ) : SessionManager :=
  s.appendMessage (entropy m.2) (.user ⟨.blocks [.text ⟨m.1.1, none⟩], m.1.2⟩)

/-- `log` is the content of `log.jsonl`, if there is such a file. -/
def syncLogToSessionManager (entropy : ℕ → SessionManager.Entropy) : SessionManager × ℕ :=
  let found := newMessages (existingMessages s) (loggedMessages F log excludeSlackTs)
  ((found.mergeSort fun a b => a.2 ≤ b.2).zipIdx.foldl (appendUserMessage entropy) s, found.length)

variable {F s log excludeSlackTs} {existing : List String} {messages : List (String × ℕ)}
  {entropy entropy' : ℕ → SessionManager.Entropy} {text : String}

theorem newMessages_eq_nil_iff :
    newMessages existing messages = [] ↔ ∀ m ∈ messages, m.1 ∈ existing := by
  induction messages with
  | nil => simp [newMessages]
  | cons m later ih =>
    unfold newMessages
    split_ifs with hmem
    · simp [ih, hmem]
    · simp [hmem]

theorem mem_newMessages_texts : text ∈ (newMessages existing messages).map Prod.fst ↔
    text ∉ existing ∧ text ∈ messages.map Prod.fst := by
  induction messages generalizing existing with
  | nil => simp [newMessages]
  | cons m later ih =>
    unfold newMessages
    split_ifs with hmem
    · rw [ih, map_cons, mem_cons]
      refine and_congr_right fun hnew => (or_iff_right ?_).symm
      rintro rfl
      exact hnew hmem
    · rw [map_cons, map_cons, mem_cons, mem_cons, ih, mem_cons, not_or]
      by_cases heq : text = m.1
      · simp [heq, hmem]
      · simp [heq]

theorem existingMessages_append (messages : List ((String × ℕ) × ℕ)) :
    existingMessages (messages.foldl (appendUserMessage entropy) s) =
      existingMessages s ++ messages.map fun m => normalise m.1.1 := by
  induction messages generalizing s with
  | nil => exact (append_nil _).symm
  | cons m messages ih =>
    have happend : existingMessages (appendUserMessage entropy s m) =
        existingMessages s ++ [normalise m.1.1] := by
      unfold existingMessages appendUserMessage
      rw [SessionManager.appendMessage, SessionManager.appendBody,
        SessionManager.getEntries_appendEntry, flatMap_append]
      rfl
    rw [foldl_cons, ih, happend, append_assoc, map_cons, singleton_append]

theorem mem_existingMessages_sync :
    text ∈ existingMessages (syncLogToSessionManager F s log excludeSlackTs entropy).1 ↔
      text ∈ existingMessages s ∨ ∃ new ∈ (loggedMessages F log excludeSlackTs).map Prod.fst,
        new ∉ existingMessages s ∧ normalise new = text := by
  rw [syncLogToSessionManager, existingMessages_append, mem_append]
  refine or_congr_right ?_
  rw [show (fun m : (String × ℕ) × ℕ => normalise m.1.1) = (normalise ∘ Prod.fst) ∘ Prod.fst
    from rfl, ← List.map_map, zipIdx_map_fst, ← List.map_map, mem_map]
  refine exists_congr fun new => ?_
  rw [((mergeSort_perm _ _).map Prod.fst).mem_iff, mem_newMessages_texts, and_comm (a := _ ∉ _),
    and_assoc]

theorem nodup_newMessages : ((newMessages existing messages).map Prod.fst).Nodup := by
  induction messages generalizing existing with
  | nil => exact nodup_nil
  | cons m later ih =>
    unfold newMessages
    split_ifs
    · exact ih
    · refine nodup_cons.mpr ⟨fun hmem => ?_, ih⟩
      exact (mem_newMessages_texts.mp hmem).1 mem_cons_self

/-- A sync adds every text of the log that the session does not have, each once and the older ones
first, behind what the session has. -/
theorem sync_appends (F : LogFormat) (s : SessionManager) (log : Option (List Char))
    (excludeSlackTs : Option String) (entropy : ℕ → SessionManager.Entropy) :
    ∃ added : List (String × ℕ),
    existingMessages (syncLogToSessionManager F s log excludeSlackTs entropy).1 =
      existingMessages s ++ added.map (fun m => normalise m.1) ∧
    added.Pairwise (fun m m' => m.2 ≤ m'.2) ∧ (added.map Prod.fst).Nodup ∧
    ∀ text, text ∈ added.map Prod.fst ↔
      text ∉ existingMessages s ∧ text ∈ (loggedMessages F log excludeSlackTs).map Prod.fst := by
  obtain ⟨found, hfound⟩ : ∃ found, found = newMessages (existingMessages s)
    (loggedMessages F log excludeSlackTs) := ⟨_, rfl⟩
  have hperm := mergeSort_perm found fun a b => a.2 ≤ b.2
  refine ⟨found.mergeSort fun a b => a.2 ≤ b.2, ?_, ?_, ?_, fun text => ?_⟩
  · rw [syncLogToSessionManager, ← hfound, existingMessages_append]
    conv_rhs => rw [← zipIdx_map_fst 0 (found.mergeSort _), List.map_map]
    rfl
  · refine (pairwise_mergeSort (fun a b c => ?_) (fun a b => ?_) found).imp of_decide_eq_true
    · simpa using le_trans
    · simpa using le_total _ _
  · rw [(hperm.map Prod.fst).nodup_iff, hfound]
    exact nodup_newMessages
  · rw [(hperm.map Prod.fst).mem_iff, hfound, mem_newMessages_texts]

theorem sync_eq_iff : syncLogToSessionManager F s log excludeSlackTs entropy = (s, 0) ↔
    ∀ m ∈ loggedMessages F log excludeSlackTs, m.1 ∈ existingMessages s := by
  rw [← newMessages_eq_nil_iff]
  refine ⟨fun h => length_eq_zero_iff.mp (congrArg Prod.snd h), fun h => ?_⟩
  rw [syncLogToSessionManager, h, mergeSort_nil]
  rfl

/-- A second sync adds nothing exactly if every text of the log is in the session, or is what is
compared of a text that the first sync added. -/
theorem sync_idempotent_iff (F : LogFormat) (s : SessionManager) (log : Option (List Char))
    (excludeSlackTs : Option String) (entropy entropy' : ℕ → SessionManager.Entropy) :
    let synced := (syncLogToSessionManager F s log excludeSlackTs entropy).1
    syncLogToSessionManager F synced log excludeSlackTs entropy' = (synced, 0) ↔
      ∀ text ∈ (loggedMessages F log excludeSlackTs).map Prod.fst, text ∈ existingMessages s ∨
        ∃ new ∈ (loggedMessages F log excludeSlackTs).map Prod.fst,
          new ∉ existingMessages s ∧ normalise new = text := by
  intro synced
  rw [sync_eq_iff, forall_mem_map]
  exact forall₂_congr fun m _ => mem_existingMessages_sync

/-- A message that names the section of the attachments. -/
def loggedLine : String :=
  "\x7b\"ts\":\"1.0\",\"date\":\"2026-01-01\",\"user\":\"U1\"," ++
    "\"text\":\"hi\\n\\n<slack_attachments>\\n\"\x7d"

/-- `JSON.parse` on that line. -/
def oneLine : LogFormat where
  parse := fun line =>
    if line = loggedLine.toList then
      some (.object (.cons "ts" (.string "1.0") (.cons "date" (.string "2026-01-01")
        (.cons "user" (.string "U1") (.cons "text" (.string "hi\n\n<slack_attachments>\n") .nil)))))
    else none
  display := fun value => match value with
    | .string text => text
    | _ => ""
  msgTime := fun _ => 1767225600000

theorem attachmentsText_added_again :
    let s := SessionManager.blank "/w" "/s" false
    let sync := fun s n => syncLogToSessionManager oneLine s (some loggedLine.toList) none
      fun i => SessionManager.callOf (n + i)
    sync (sync s 0).1 1 ≠ ((sync s 0).1, 0) := by
  intro s sync h
  have hlogged : loggedMessages oneLine (some loggedLine.toList) none =
      [("[U1]: hi\n\n<slack_attachments>\n", 1767225600000)] := by
    rfl
  obtain hmem | ⟨new, hnew, -, hnormalise⟩ := mem_existingMessages_sync.mp
    (sync_eq_iff.mp h _ (hlogged ▸ mem_singleton_self _))
  · cases hmem
  · rw [hlogged, map_singleton, mem_singleton] at hnew
    rw [hnew] at hnormalise
    exact absurd hnormalise (by decide)

end Draht.LogSync
