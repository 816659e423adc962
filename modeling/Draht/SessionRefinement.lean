import Draht.GuardedRun
import Draht.SessionBranching
import Draht.SessionFile
import Draht.Utf16

/-!
# The session file and the log in memory

A text to which lines are appended still reads as the entries written so far, as long as it ends
after a line feed. The lazily written file of a session reads as the log as soon as the log has an
assistant message.
-/

namespace Draht

/-- White space between the tokens of a JSON text, line feeds aside. -/
def isJsonBlank (c : UInt16) : Bool := c = 0x20 || c = 0x09 || c = 0x0D

namespace EntryFormat

variable {F : EntryFormat} {content : JsText} {es : List FileEntry} {e : FileEntry}

/-- What JSON promises of one entry: its text is an object on one line, and reads as the entry
also after blanks. -/
structure ReadsBack (F : EntryFormat) (e : FileEntry) : Prop where
  object : ∃ members, F.stringify e = 0x7B :: (members ++ [0x7D])
  oneLine : 10 ∉ F.stringify e
  reads : ∀ blank, (∀ c ∈ blank, isJsonBlank c = true) → F.parse (blank ++ F.stringify e) = some e

/-- The text reads as the entries. After its last line feed there is nothing but blanks, and its
lines read the same when the end of the text is not trimmed. -/
structure Settled (F : EntryFormat) (content : JsText) (es : List FileEntry) : Prop where
  parsed : F.parseSessionEntries content = es
  last : ∀ c ∈ ((trimStart isSpace content).splitOn 10).getLastD [], isJsonBlank c = true
  lines : ((trimStart isSpace content).splitOn 10).dropLast.filterMap F.parseLine = es

instance (F : EntryFormat) (content : JsText) (es : List FileEntry) :
    Decidable (F.Settled content es) :=
  decidable_of_iff
    (F.parseSessionEntries content = es ∧
      (((trimStart isSpace content).splitOn 10).getLastD []).all isJsonBlank = true ∧
      ((trimStart isSpace content).splitOn 10).dropLast.filterMap F.parseLine = es)
    ⟨fun ⟨h₁, h₂, h₃⟩ => ⟨h₁, List.all_eq_true.mp h₂, h₃⟩,
      fun h => ⟨h.parsed, List.all_eq_true.mpr h.last, h.lines⟩⟩

theorem settled_nil : Settled F [] [] where
  parsed := rfl
  last := by simp [trimStart]
  lines := rfl

theorem ReadsBack.parseLine (he : F.ReadsBack e) {blank : JsText}
    (hblank : ∀ c ∈ blank, isJsonBlank c = true) :
    F.parseLine (blank ++ F.stringify e) = some e := by
  obtain ⟨members, hobject⟩ := he.object
  have hne : trim isSpace (blank ++ F.stringify e) ≠ [] := by
    apply trim_ne_nil (c := 0x7B)
    · rw [hobject]
      simp
    · decide
  rw [EntryFormat.parseLine, if_neg hne, he.reads blank hblank]

theorem ReadsBack.trimStart_append (he : F.ReadsBack e) (content : JsText) :
    trimStart isSpace (content ++ F.line e) =
      trimStart isSpace content ++ F.stringify e ++ [10] := by
  obtain ⟨members, hobject⟩ := he.object
  have hline : (F.line e).dropWhile isSpace = F.line e := by
    rw [line, hobject, List.cons_append, List.dropWhile_cons_of_neg (by decide)]
  rw [trimStart, List.dropWhile_append, hline, trimStart]
  split_ifs with hnil
  · rw [List.isEmpty_iff.mp hnil, List.nil_append, line]
  · rw [line, List.append_assoc]

theorem ReadsBack.trim_append (he : F.ReadsBack e) (content : JsText) :
    trim isSpace (content ++ F.line e) = trimStart isSpace content ++ F.stringify e := by
  obtain ⟨members, hobject⟩ := he.object
  have hend : trimStart isSpace content ++ F.stringify e =
      trimStart isSpace content ++ (0x7B :: members) ++ [0x7D] := by
    rw [hobject, List.append_assoc, List.cons_append]
  rw [trim, he.trimStart_append, trimEnd, List.rdropWhile_concat_pos _ _ _ (by decide), hend,
    List.rdropWhile_concat_neg _ _ _ (by decide)]

theorem Settled.append (h : Settled F content es) (he : F.ReadsBack e) :
    Settled F (content ++ F.line e) (es ++ [e]) := by
  let lines := (trimStart isSpace content).splitOn 10
  have hne : lines ≠ [] := List.splitOn_ne_nil _ _
  have hlast : lines.getLastD [] = lines.getLast hne := List.getLastD_eq_getLast?.trans
    (by rw [List.getLast?_eq_some_getLast hne, Option.getD_some])
  have hlines : (trimStart isSpace content).splitOn 10 = lines.dropLast ++ [lines.getLastD []] := by
    rw [hlast, List.dropLast_append_getLast]
  have hjoined : (trimStart isSpace content ++ F.stringify e).splitOn 10 =
      lines.dropLast ++ [lines.getLastD [] ++ F.stringify e] :=
    splitOn_append hlines (List.splitOn_eq_singleton he.oneLine)
  have hread : (lines.dropLast ++ [lines.getLastD [] ++ F.stringify e]).filterMap F.parseLine =
      es ++ [e] := by
    have hone : [lines.getLastD [] ++ F.stringify e].filterMap F.parseLine = [e] := by
      rw [List.filterMap_cons_some (he.parseLine h.last), List.filterMap_nil]
    rw [List.filterMap_append, h.lines, hone]
  have hsplit : (trimStart isSpace (content ++ F.line e)).splitOn 10 =
      lines.dropLast ++ [lines.getLastD [] ++ F.stringify e] ++ [[]] := by
    rw [he.trimStart_append, List.splitOn_append_cons_self, hjoined, List.splitOn_nil]
  refine ⟨?_, ?_, ?_⟩
  · rw [parseSessionEntries, he.trim_append, hjoined, hread]
  · rw [hsplit]
    simp
  · rw [hsplit, List.dropLast_concat, hread]

theorem Settled.appendAll {es' : List FileEntry} (h : Settled F content es)
    (hes' : ∀ e ∈ es', F.ReadsBack e) :
    Settled F (content ++ es'.flatMap F.line) (es ++ es') := by
  induction es' generalizing content es with
  | nil => simpa using h
  | cons e es' ih =>
    have he := h.append (hes' e List.mem_cons_self)
    have hrest := ih he fun e' he' => hes' e' (List.mem_cons_of_mem _ he')
    simpa using hrest

theorem settled_lines (hes : ∀ e ∈ es, F.ReadsBack e) : Settled F (es.flatMap F.line) es :=
  settled_nil.appendAll hes

end EntryFormat

theorem appendFiles_content (F : EntryFormat) (files : SessionFiles) (path : String)
    (es : List FileEntry) :
    ((es.map (FileOp.appendFile path)).foldl (writeSession F) files path).getD [] =
      (files path).getD [] ++ es.flatMap F.line := by
  induction es generalizing files with
  | nil => simp
  | cons e es ih =>
    rw [List.map_cons, List.foldl_cons, ih]
    simp [writeSession]

theorem appendFiles_isSome (F : EntryFormat) (files : SessionFiles) (path : String)
    {es : List FileEntry} (hes : es ≠ []) :
    ((es.map (FileOp.appendFile path)).foldl (writeSession F) files path).isSome = true := by
  obtain ⟨es, e, rfl⟩ := (List.eq_nil_or_concat' es).resolve_left hes
  simp [writeSession]

namespace SessionManager

structure FileFields where
  persist : Bool
  flushed : Bool
  sessionFile : Option String
  fileEntries : List FileEntry
  io : List FileOp

def fileFields (s : SessionManager) : FileFields :=
  ⟨s.persist, s.flushed, s.sessionFile, s.fileEntries, s.io⟩

theorem indexEntry_fileFields (s : SessionManager) (e : SessionEntry) :
    (s.indexEntry e).fileFields = s.fileFields := by
  unfold indexEntry
  dsimp only
  repeat' split
  all_goals rfl

theorem buildIndex_fileFields (s : SessionManager) : s.buildIndex.fileFields = s.fileFields := by
  have hfold (es : List SessionEntry) (s : SessionManager) :
      (es.foldl indexEntry s).fileFields = s.fileFields := by
    induction es generalizing s with
    | nil => rfl
    | cons e es ih => rw [List.foldl_cons, ih, indexEntry_fileFields]
  exact hfold _ _

theorem loaded_fileFields (s : SessionManager) :
    { s.buildIndex with flushed := true }.fileFields = { s.fileFields with flushed := true } :=
  congrArg (fun m : FileFields => { m with flushed := true }) (buildIndex_fileFields s)

theorem branchedLog_fileFields (s : SessionManager) (r : BranchEntropy)
    (path : List SessionEntry) :
    ∃ header, (s.branchedLog r path).fileFields =
      ⟨s.persist, s.flushed,
        if s.persist then some (s.newSessionPath r.now r.sessionUuid.text) else s.sessionFile,
        .session header :: (s.branchedEntries r path).map .entry, s.io⟩ :=
  ⟨_, buildIndex_fileFields _⟩

theorem setLabel_fileFields (s : SessionManager) (targetId : String) (label : Option String)
    (timestamp : ℕ) : (s.setLabel targetId label timestamp).fileFields = s.fileFields := by
  unfold setLabel
  split <;> rfl

variable {path : String}

theorem rewriteFile_fileFields {s : SessionManager} (hpersist : s.persist = true)
    (hfile : s.sessionFile = some path) :
    s.rewriteFile.fileFields =
      { s.fileFields with io := s.io ++ [.writeFile path s.fileEntries] } := by
  unfold rewriteFile
  rw [if_pos hpersist]
  split
  · rename_i hnone
    simp [hfile] at hnone
  · rename_i path' hpath'
    obtain rfl := Option.some.inj (hfile.symm.trans hpath')
    rfl

/-- What `_persist` appends once there is an assistant message. -/
def persistOps (s : SessionManager) (path : String) (e : SessionEntry) : List FileOp :=
  if s.flushed then [.appendFile path (.entry e)] else s.fileEntries.map (.appendFile path)

theorem persistEntry_fileFields {s : SessionManager} (hpersist : s.persist = true)
    (hfile : s.sessionFile = some path) (e : SessionEntry) :
    (s.persistEntry e).fileFields =
      if s.hasAssistant then
        { s.fileFields with flushed := true, io := s.io ++ s.persistOps path e }
      else { s.fileFields with flushed := false } := by
  unfold persistEntry
  rw [if_pos hpersist]
  split
  · rename_i hnone
    simp [hfile] at hnone
  · rename_i path' hpath'
    obtain rfl := Option.some.inj (hfile.symm.trans hpath')
    cases hassistant : s.hasAssistant with
    | false => simp [fileFields]
    | true => cases hflushed : s.flushed <;> simp [fileFields, persistOps, hflushed]

end SessionManager

def oneHeader : List FileEntry → Bool
  | .session _ :: es => es.all fun e => e.header?.isNone
  | _ => false

theorem oneHeader_append {es : List FileEntry} (h : oneHeader es = true) (e : SessionEntry) :
    oneHeader (es ++ [.entry e]) = true := by
  unfold oneHeader at h
  split at h
  · simp only [List.cons_append, oneHeader, List.all_append, h]
    rfl
  · simp at h

theorem oneHeader_entries (header : SessionHeader) (es : List SessionEntry) :
    oneHeader (.session header :: es.map .entry) = true := by
  simp [oneHeader, FileEntry.header?]

theorem exists_header {es : List FileEntry} (h : oneHeader es = true) :
    ∃ header, es = .session header :: (es.filterMap FileEntry.entry?).map .entry := by
  unfold oneHeader at h
  split at h
  · rename_i header es
    refine ⟨header, congrArg _ ?_⟩
    rw [List.filterMap_cons_none rfl]
    induction es with
    | nil => rfl
    | cons e es ih =>
      obtain ⟨he, hes⟩ := (Bool.and_eq_true _ _).mp h
      cases e with
      | session header => simp [FileEntry.header?] at he
      | entry e =>
        have hentry : FileEntry.entry? (.entry e) = some e := rfl
        rw [List.filterMap_cons_some hentry, List.map_cons, ← ih hes]
  · simp at h

open SessionManager (FileFields)

/-- The log against the files, once what the manager has recorded is written: an unflushed log has
no assistant message, and the file of a flushed one reads as the log. -/
structure Synced (F : EntryFormat) (m : FileFields) (files : SessionFiles) : Prop where
  persist : m.persist = true
  opened : m.fileEntries ≠ [] → (∃ path, m.sessionFile = some path) ∧ oneHeader m.fileEntries = true
  unflushed : m.flushed = false → m.fileEntries.any FileEntry.isAssistantMessage = false
  flushed : m.flushed = true → (∀ e ∈ m.fileEntries, F.ReadsBack e) →
    ∃ path content, m.sessionFile = some path ∧
      m.io.foldl (writeSession F) files path = some content ∧ F.Settled content m.fileEntries

namespace Synced

variable {F : EntryFormat} {s : SessionManager} {files : SessionFiles}

theorem save (h : Synced F s.fileFields files) :
    Synced F (FileSession.save F files s).manager.fileFields (FileSession.save F files s).files :=
  ⟨h.persist, h.opened, h.unflushed, h.flushed⟩

theorem of_unflushed {m : FileFields} (hpersist : m.persist = true)
    (hfile : m.sessionFile = some path) (hheader : oneHeader m.fileEntries = true)
    (hflushed : m.flushed = false)
    (hassistant : m.fileEntries.any FileEntry.isAssistantMessage = false) : Synced F m files where
  persist := hpersist
  opened := fun _ => ⟨⟨path, hfile⟩, hheader⟩
  unflushed := fun _ => hassistant
  flushed := fun h => by simp [hflushed] at h

theorem of_rewritten {m : FileFields} {io : List FileOp}
    (hpersist : m.persist = true) (hfile : m.sessionFile = some path)
    (hheader : oneHeader m.fileEntries = true) (hflushed : m.flushed = true)
    (hio : m.io = io ++ [.writeFile path m.fileEntries]) : Synced F m files where
  persist := hpersist
  opened := fun _ => ⟨⟨path, hfile⟩, hheader⟩
  unflushed := fun h => by simp [hflushed] at h
  flushed := fun _ hread => by
    refine ⟨path, _, hfile, ?_, EntryFormat.settled_lines hread⟩
    rw [hio, List.foldl_append]
    exact Function.update_self ..

theorem appendEntry (h : Synced F s.fileFields files) (hopened : s.fileEntries ≠ [])
    (e : SessionEntry)
    (hnew : (FileEntry.entry e).isAssistantMessage = true → s.flushed = false →
      s.sessionFile.bind (s.io.foldl (writeSession F) files) = none) :
    Synced F (s.appendEntry e).fileFields files := by
  obtain ⟨⟨path, hpath⟩, hheader⟩ := h.opened hopened
  have hfile : s.sessionFile = some path := hpath
  have hheader' := oneHeader_append hheader e
  let s' : SessionManager :=
    { s with
      fileEntries := s.fileEntries ++ [.entry e]
      byId := s.byId.set e.id e
      leafId := some e.id }
  have hfields := SessionManager.persistEntry_fileFields (s := s') h.persist hfile e
  rw [show s.appendEntry e = s'.persistEntry e from rfl, hfields]
  cases hassistant : s'.hasAssistant with
  | false => exact of_unflushed h.persist hfile hheader' rfl hassistant
  | true =>
    refine ⟨h.persist, fun _ => ⟨⟨path, hfile⟩, hheader'⟩, fun hflushed => ?_, fun _ hread => ?_⟩
    · simp at hflushed
    · cases hflushed : s.flushed with
      | true =>
        -- the line of the entry is added to the file
        obtain ⟨path', content, hpath', hcontent, hsettled⟩ := h.flushed hflushed
          fun e' he' => hread e' (List.mem_append_left _ he')
        obtain rfl := Option.some.inj (hfile.symm.trans hpath')
        refine ⟨path, _, hfile, ?_,
          hsettled.append (hread (.entry e) (List.mem_append_right _ List.mem_cons_self))⟩
        change (s.io ++ s'.persistOps path e).foldl (writeSession F) files path = _
        have hops : s'.persistOps path e = [.appendFile path (.entry e)] := if_pos hflushed
        have hcontent' : s.io.foldl (writeSession F) files path = some content := hcontent
        rw [hops, List.foldl_append, List.foldl_cons, List.foldl_nil, writeSession,
          Function.update_self, hcontent', Option.getD_some]
      | false =>
        -- the first assistant message: all the lines are written to a file that was not there
        have hnone : s.fileEntries.any FileEntry.isAssistantMessage = false :=
          h.unflushed hflushed
        have he : (FileEntry.entry e).isAssistantMessage = true := by
          have hany : (s.fileEntries ++ [FileEntry.entry e]).any FileEntry.isAssistantMessage =
              true := hassistant
          rw [List.any_append, hnone, Bool.false_or] at hany
          simpa using hany
        have habsent : s.io.foldl (writeSession F) files path = none := by
          have hbind := hnew he hflushed
          rwa [hfile, Option.bind_some] at hbind
        have hops : s'.persistOps path e = s'.fileEntries.map (.appendFile path) :=
          if_neg (by simp [s', hflushed])
        have hne : s'.fileEntries ≠ [] := by simp [s']
        obtain ⟨content, hcontent⟩ := Option.isSome_iff_exists.mp
          (appendFiles_isSome F (s.io.foldl (writeSession F) files) path hne)
        have hlines := appendFiles_content F (s.io.foldl (writeSession F) files) path
          s'.fileEntries
        rw [hcontent, habsent, Option.getD_some, Option.getD_none, List.nil_append] at hlines
        refine ⟨path, content, hfile, ?_, ?_⟩
        · change (s.io ++ s'.persistOps path e).foldl (writeSession F) files path = _
          rw [hops, List.foldl_append, hcontent]
        · rw [hlines]
          exact EntryFormat.settled_lines hread

theorem rewriteFile (hpersist : s.persist = true)
    (hfile : s.sessionFile = some path) (hheader : oneHeader s.fileEntries = true) :
    Synced F { s.rewriteFile.fileFields with flushed := true } files := by
  rw [SessionManager.rewriteFile_fileFields hpersist hfile]
  exact of_rewritten hpersist hfile hheader rfl rfl

theorem apply {s' : SessionManager} {en : SessionManager.Entropy} {op : SessionManager.SessionOp}
    (h : Synced F s.fileFields files) (hopened : s.fileEntries ≠ [])
    (hnew : ∀ message, op = .appendMessage message → message.isAssistant = true →
      s.flushed = false → s.sessionFile.bind (s.io.foldl (writeSession F) files) = none)
    (hs : s.apply en op = .ok s') : Synced F s'.fileFields files := by
  cases SessionManager.apply_cases hs with
  | append _ body _ hmessage =>
    refine h.appendEntry hopened _ fun hassistant => ?_
    cases body with
    | message message =>
      refine hnew message (hmessage message rfl) ?_
      cases message with
      | assistant => rfl
      | _ => cases hassistant
    | _ => cases hassistant
  | label targetId label =>
    rw [SessionManager.setLabel_fileFields]
    exact h.appendEntry hopened _ fun hassistant => by cases hassistant
  | move => exact h
  | summarize _ leaf =>
    have hmoved : Synced F { s with leafId := leaf }.fileFields files := h
    exact hmoved.appendEntry hopened _ fun hassistant => by cases hassistant

theorem newSession (h : Synced F s.fileFields files) (options : SessionManager.NewSessionOptions)
    (uuid : Uuid) (timestamp : ℕ) :
    Synced F (s.newSession options uuid timestamp).fileFields files :=
  of_unflushed h.persist (if_pos h.persist) rfl rfl rfl

theorem branchedFrom (h : Synced F s.fileFields files) (r : SessionManager.BranchEntropy)
    (path : List SessionEntry) : Synced F (s.branchedFrom r path).1.fileFields files := by
  obtain ⟨header, hlog⟩ := s.branchedLog_fileFields r path
  have hpersist : (s.branchedLog r path).persist = true :=
    (congrArg FileFields.persist hlog).trans h.persist
  have hfile : (s.branchedLog r path).sessionFile =
      some (s.newSessionPath r.now r.sessionUuid.text) :=
    (congrArg FileFields.sessionFile hlog).trans (if_pos h.persist)
  have hheader : oneHeader (s.branchedLog r path).fileEntries = true := by
    rw [show (s.branchedLog r path).fileEntries = _ from congrArg FileFields.fileEntries hlog]
    exact oneHeader_entries _ _
  unfold SessionManager.branchedFrom
  dsimp only
  have hs : s.persist = true := h.persist
  rw [if_pos hs]
  split_ifs with hassistant
  · exact rewriteFile hpersist hfile hheader
  · exact of_unflushed hpersist hfile hheader rfl (Bool.eq_false_iff.mpr hassistant)

end Synced

/-- A file that lines can be added to after it was opened: one header in front of its entries, and
its text settled unless the migration writes it anew. -/
def Opens (F : EntryFormat) (migrate : Migration) (content : JsText) : Prop :=
  match migrate (F.loadEntriesFromFile content) with
  | some migrated => oneHeader migrated = true
  | none =>
    oneHeader (F.loadEntriesFromFile content) = true ∧
      F.Settled content (F.loadEntriesFromFile content)

instance (F : EntryFormat) (migrate : Migration) (content : JsText) :
    Decidable (Opens F migrate content) :=
  match hmigrate : migrate (F.loadEntriesFromFile content) with
  | some migrated => decidable_of_iff (oneHeader migrated = true) (by rw [Opens, hmigrate])
  | none =>
    decidable_of_iff (oneHeader (F.loadEntriesFromFile content) = true ∧
      F.Settled content (F.loadEntriesFromFile content)) (by rw [Opens, hmigrate])

namespace FileSession

variable {F : EntryFormat} {migrate : Migration} {s s' : FileSession}

/-- A file with entries that is opened can be added to, and no assistant message meets a log that
counts as unflushed while its file exists. -/
def KeepsFile (F : EntryFormat) (migrate : Migration) (s : FileSession) : FileSessionOp → Prop
  | .setSessionFile path _ _ =>
    ∀ content ∈ s.files path, F.loadEntriesFromFile content ≠ [] → Opens F migrate content
  | .call _ (.appendMessage message) =>
    message.isAssistant = true → s.manager.flushed = false →
      s.manager.sessionFile.bind s.files = none
  | _ => True

instance (F : EntryFormat) (migrate : Migration) (s : FileSession) (op : FileSessionOp) :
    Decidable (KeepsFile F migrate s op) :=
  match op with
  | .setSessionFile path _ _ =>
    inferInstanceAs (Decidable (∀ content ∈ s.files path,
      F.loadEntriesFromFile content ≠ [] → Opens F migrate content))
  | .call _ op => by unfold KeepsFile; split <;> infer_instance
  | .newSession _ _ _ | .createBranchedSession _ _ => inferInstanceAs (Decidable True)

theorem setSessionFile_synced (h : Synced F s.manager.fileFields s.files)
    {uuid : Uuid} {timestamp : ℕ}
    (hopens : ∀ content ∈ s.files path, F.loadEntriesFromFile content ≠ [] →
      Opens F migrate content) (hio : s.manager.io = []) :
    Synced F (s.manager.setSessionFile F migrate path (s.files path) uuid timestamp).fileFields
      s.files := by
  let fresh : SessionManager :=
    { s.manager.newSession ⟨none, none⟩ uuid timestamp with sessionFile := some path }
  unfold SessionManager.setSessionFile
  cases hcontent : s.files path with
  | none =>
    have hfile : fresh.fileFields.sessionFile = some path := rfl
    exact Synced.of_unflushed h.persist hfile rfl rfl rfl
  | some content =>
    by_cases hentries : F.loadEntriesFromFile content = []
    · simp only [hentries, if_true]
      exact Synced.rewriteFile (s := fresh) h.persist rfl rfl
    · have hload := hopens content hcontent hentries
      simp only [hentries, if_false]
      let opened : SessionManager :=
        { s.manager with
          sessionFile := some path
          sessionId := ((F.loadEntriesFromFile content).findSome? FileEntry.header?).elim
            uuid.text SessionHeader.id }
      unfold Opens at hload
      cases hmigrate : migrate (F.loadEntriesFromFile content) with
      | some migrated =>
        rw [hmigrate] at hload
        let replaced : SessionManager := { opened with fileEntries := migrated }
        have hrewritten : Synced F { replaced.rewriteFile.fileFields with flushed := true }
            s.files := Synced.rewriteFile h.persist rfl hload
        rw [← SessionManager.loaded_fileFields] at hrewritten
        exact hrewritten
      | none =>
        rw [hmigrate] at hload
        let loaded : SessionManager :=
          { opened with fileEntries := F.loadEntriesFromFile content }
        have hread : Synced F { loaded.fileFields with flushed := true } s.files :=
          { persist := h.persist
            opened := fun _ => ⟨⟨path, rfl⟩, hload.1⟩
            unflushed := fun h => by simp at h
            flushed := fun _ _ => by
              refine ⟨path, content, rfl, ?_, hload.2⟩
              rw [show loaded.fileFields.io = [] from hio]
              exact hcontent }
        rw [← SessionManager.loaded_fileFields] at hread
        exact hread

theorem step_synced {op : FileSessionOp}
    (h : Synced F s.manager.fileFields s.files ∧ s.manager.io = []) (hop : KeepsFile F migrate s op)
    (hs : step F migrate s op = some s') :
    Synced F s'.manager.fileFields s'.files ∧ s'.manager.io = [] := by
  obtain ⟨hsynced, hio⟩ := h
  cases step_cases hs with
  | newSession options uuid timestamp =>
    exact ⟨(hsynced.newSession options uuid timestamp).save, rfl⟩
  | setSessionFile => exact ⟨(setSessionFile_synced hsynced hop hio).save, rfl⟩
  | call hopened happly =>
    refine ⟨(hsynced.apply hopened (fun message hmessage => ?_) happly).save, rfl⟩
    subst hmessage
    rw [hio]
    exact hop
  | createBranchedSession entropy path => exact ⟨(hsynced.branchedFrom entropy path).save, rfl⟩
  | throws => exact ⟨hsynced, hio⟩

/-- In every run whose steps keep the file, the file reads as the log whenever the log has an
assistant message. -/
theorem file_refines_log (F : EntryFormat) (migrate : Migration) (cwd sessionDir : String)
    (files : SessionFiles) {steps : List (Transition FileSession FileSessionOp)} {s : FileSession}
    (h : GuardedRun (step F migrate) (KeepsFile F migrate) (start cwd sessionDir true files)
      steps s)
    (hread : ∀ e ∈ s.manager.fileEntries, F.ReadsBack e)
    (hassistant : s.manager.hasAssistant = true) :
    ∃ path content header,
      s.manager.sessionFile = some path ∧ s.files path = some content ∧
      F.loadEntriesFromFile content = s.manager.fileEntries ∧
      s.manager.fileEntries = .session header :: s.manager.getEntries.map .entry := by
  have hstart : Synced F (start cwd sessionDir true files).manager.fileFields files :=
    { persist := rfl
      opened := fun h => absurd rfl h
      unflushed := fun _ => rfl
      flushed := fun h => by simp [start, SessionManager.blank, SessionManager.fileFields] at h }
  obtain ⟨hsynced, hio⟩ := h.invariant
    (I := fun s => Synced F s.manager.fileFields s.files ∧ s.manager.io = []) ⟨hstart, rfl⟩
    fun _ _ _ hI hop hs => step_synced hI hop hs
  have hflushed : s.manager.flushed = true := by
    by_contra hunflushed
    have hnone := hsynced.unflushed (Bool.eq_false_iff.mpr hunflushed)
    exact absurd (hassistant.symm.trans hnone) (by decide)
  obtain ⟨path, content, hpath, hcontent, hsettled⟩ := hsynced.flushed hflushed hread
  have hopened : s.manager.fileEntries ≠ [] := by
    intro hnil
    simp [SessionManager.hasAssistant, hnil] at hassistant
  obtain ⟨header, hheader⟩ := exists_header (hsynced.opened hopened).2
  have hload : F.loadEntriesFromFile content = s.manager.fileEntries := by
    rw [EntryFormat.loadEntriesFromFile, hsettled.parsed]
    simp only [show s.manager.fileFields.fileEntries = s.manager.fileEntries from rfl] at hheader ⊢
    rw [hheader]
    rfl
  rw [show s.manager.fileFields.io = [] from hio] at hcontent
  exact ⟨path, content, header, hpath, hcontent, hload, hheader⟩

/-- The texts of some entries, as `JSON.stringify` writes them. -/
def tableFormat (table : List (FileEntry × JsText)) : EntryFormat where
  stringify e := ((table.find? fun p => p.1 = e).map Prod.snd).getD []
  parse line := (table.find? fun p => p.2 = trim isJsonBlank line).map Prod.fst

theorem tableFormat_readsBack {table : List (FileEntry × JsText)} {e : FileEntry}
    {members : JsText}
    (htext : (tableFormat table).stringify e = 0x7B :: (members ++ [0x7D]))
    (hline : 10 ∉ (tableFormat table).stringify e)
    (hparse : (tableFormat table).parse ((tableFormat table).stringify e) = some e) :
    (tableFormat table).ReadsBack e where
  object := ⟨members, htext⟩
  oneLine := hline
  reads blank hblank := by
    have htrim (blank : JsText) (hblank : ∀ c ∈ blank, isJsonBlank c = true) :
        trim isJsonBlank (blank ++ (tableFormat table).stringify e) =
          (tableFormat table).stringify e := by
      have hobject : (0x7B :: (members ++ [0x7D]) : JsText) = 0x7B :: members ++ [0x7D] := rfl
      rw [trim, trimStart, List.dropWhile_append, List.dropWhile_eq_nil_iff.mpr hblank, htext,
        List.dropWhile_cons_of_neg (by decide)]
      simp only [List.isEmpty_nil, if_true]
      rw [trimEnd, hobject, List.rdropWhile_concat_neg _ _ _ (by decide)]
    have hself := htrim [] (fun c hc => absurd hc List.not_mem_nil)
    rw [List.nil_append] at hself
    have hfind (line : JsText) : (tableFormat table).parse line =
        (table.find? fun p => p.2 = trim isJsonBlank line).map Prod.fst := rfl
    rw [← hparse, hfind, hfind, htrim blank hblank, hself]

def savedHeader : FileEntry :=
  .session { version := some 3, id := "s1", timestamp := 0, cwd := "/w", parentSession := none }

def savedQuestion : FileEntry :=
  .entry { id := "aaaaaaaa", parentId := none, timestamp := 1
           body := .message (SessionManager.userText "first") }

def emptyAnswer : AgentMessage :=
  .assistant { content := [], api := "openai-completions", provider := "openai", model := "gpt-4o"
               usage := ⟨0, 0, 0, 0, 0⟩, stopReason := .stop, errorMessage := none, timestamp := 0 }

def laterQuestion : FileEntry :=
  .entry { id := "10000002", parentId := some "aaaaaaaa", timestamp := 2
           body := .message (SessionManager.userText "second") }

def laterAnswer : FileEntry :=
  .entry { id := "10000003", parentId := some "aaaaaaaa", timestamp := 3
           body := .message emptyAnswer }

def savedHeaderText : JsText :=
  utf16 "\x7b\"type\":\"session\",\"version\":3,\"id\":\"s1\",\"timestamp\":" ++
    utf16 "\"1970-01-01T00:00:00.000Z\",\"cwd\":\"/w\"\x7d"

def savedQuestionText : JsText :=
  utf16 "\x7b\"type\":\"message\",\"id\":\"aaaaaaaa\",\"parentId\":null,\"timestamp\":" ++
    utf16 "\"1970-01-01T00:00:00.001Z\",\"message\":\x7b\"role\":\"user\"," ++
    utf16 "\"content\":\"first\",\"timestamp\":0\x7d\x7d"

def laterQuestionText : JsText :=
  utf16 "\x7b\"type\":\"message\",\"id\":\"10000002\",\"parentId\":\"aaaaaaaa\",\"timestamp\":" ++
    utf16 "\"1970-01-01T00:00:00.002Z\",\"message\":\x7b\"role\":\"user\"," ++
    utf16 "\"content\":\"second\",\"timestamp\":0\x7d\x7d"

def laterAnswerText : JsText :=
  utf16 "\x7b\"type\":\"message\",\"id\":\"10000003\",\"parentId\":\"aaaaaaaa\",\"timestamp\":" ++
    utf16 "\"1970-01-01T00:00:00.003Z\",\"message\":\x7b\"role\":\"assistant\",\"content\":[]," ++
    utf16 "\"api\":\"openai-completions\",\"provider\":\"openai\",\"model\":\"gpt-4o\"," ++
    utf16 "\"usage\":\x7b\"input\":0,\"output\":0,\"cacheRead\":0,\"cacheWrite\":0," ++
    utf16 "\"totalTokens\":0\x7d," ++
    utf16 "\"stopReason\":\"stop\",\"timestamp\":0\x7d\x7d"

def savedFormat : EntryFormat := tableFormat
  [(savedHeader, savedHeaderText), (savedQuestion, savedQuestionText),
    (laterQuestion, laterQuestionText), (laterAnswer, laterAnswerText)]

def savedFiles : SessionFiles := fun path =>
  if path = "/s/a.jsonl" then
    some ([savedHeader, savedQuestion].flatMap savedFormat.line)
  else none

/-- The file is opened, and a message is appended first or not; then the answer is. -/
def resume (first : List FileSessionOp) : List FileSessionOp :=
  .setSessionFile "/s/a.jsonl" (SessionManager.uuidOf 1) 1 :: first ++
    [.call (SessionManager.callOf 3) (.appendMessage emptyAnswer)]

theorem savedFormat_readsBack {e : FileEntry}
    (he : e ∈ [savedHeader, savedQuestion, laterQuestion, laterAnswer]) :
    savedFormat.ReadsBack e := by
  have hall : ∀ e ∈ [savedHeader, savedQuestion, laterQuestion, laterAnswer],
      savedFormat.stringify e =
          0x7B :: ((savedFormat.stringify e).tail.dropLast ++ [0x7D]) ∧
        10 ∉ savedFormat.stringify e ∧
        savedFormat.parse (savedFormat.stringify e) = some e := by
    rw [savedFormat, savedHeaderText, savedQuestionText, laterQuestionText, laterAnswerText]
    repeat rw [utf16_ofList]
    decide +kernel
  obtain ⟨htext, hline, hparse⟩ := hall e he
  exact tableFormat_readsBack htext hline hparse

theorem file_refines_log_resumed :
    ∃ steps s path content header,
      GuardedRun (step savedFormat fun _ => none) (KeepsFile savedFormat fun _ => none)
        (start "/w" "/s" true savedFiles) steps s ∧
      s.manager.fileEntries = [savedHeader, savedQuestion, laterAnswer] ∧
      s.manager.sessionFile = some path ∧ s.files path = some content ∧
      savedFormat.loadEntriesFromFile content = s.manager.fileEntries ∧
      s.manager.fileEntries = .session header :: s.manager.getEntries.map .entry := by
  have hopens : KeepsFile savedFormat (fun _ => none) (start "/w" "/s" true savedFiles)
      (.setSessionFile "/s/a.jsonl" (SessionManager.uuidOf 1) 1) := by
    intro content hcontent _
    obtain rfl : [savedHeader, savedQuestion].flatMap savedFormat.line = content :=
      Option.some.inj hcontent
    have hsettled := EntryFormat.settled_lines fun e (he : e ∈ [savedHeader, savedQuestion]) =>
      savedFormat_readsBack (List.mem_append_left [laterQuestion, laterAnswer] he)
    have hload : savedFormat.loadEntriesFromFile
        ([savedHeader, savedQuestion].flatMap savedFormat.line) =
          [savedHeader, savedQuestion] := by
      rw [EntryFormat.loadEntriesFromFile, hsettled.parsed]
      rfl
    rw [Opens, hload]
    exact ⟨rfl, hsettled⟩
  obtain ⟨s₁, hs₁, s, hs, hflushed, hentries⟩ : ∃ s₁,
      step savedFormat (fun _ => none) (start "/w" "/s" true savedFiles)
        (.setSessionFile "/s/a.jsonl" (SessionManager.uuidOf 1) 1) = some s₁ ∧
      ∃ s, step savedFormat (fun _ => none) s₁
          (.call (SessionManager.callOf 3) (.appendMessage emptyAnswer)) = some s ∧
        s₁.manager.flushed = true ∧
        s.manager.fileEntries = [savedHeader, savedQuestion, laterAnswer] := by
    have hsteps : ((step savedFormat (fun _ => none) (start "/w" "/s" true savedFiles)
        (.setSessionFile "/s/a.jsonl" (SessionManager.uuidOf 1) 1)).any fun s₁ =>
      (step savedFormat (fun _ => none) s₁
        (.call (SessionManager.callOf 3) (.appendMessage emptyAnswer))).any fun s =>
      s₁.manager.flushed = true ∧
        s.manager.fileEntries = [savedHeader, savedQuestion, laterAnswer]) = true := by
      unfold savedFiles savedFormat savedHeaderText savedQuestionText laterQuestionText
        laterAnswerText
      repeat rw [utf16_ofList]
      decide +kernel
    obtain ⟨s₁, hs₁, hany⟩ := (Option.any_eq_true _ _).mp hsteps
    obtain ⟨s, hs, hall⟩ := (Option.any_eq_true _ _).mp hany
    exact ⟨s₁, hs₁, s, hs, of_decide_eq_true hall⟩
  have hanswer : KeepsFile savedFormat (fun _ => none) s₁
      (.call (SessionManager.callOf 3) (.appendMessage emptyAnswer)) := by
    intro _ hunflushed
    exact absurd (hflushed.symm.trans hunflushed) (by decide)
  have hrun := GuardedRun.step _ (GuardedRun.step _ .start hopens hs₁) hanswer hs
  have hread : ∀ e ∈ s.manager.fileEntries, savedFormat.ReadsBack e := by
    intro e he
    rw [hentries] at he
    have hsubset : [savedHeader, savedQuestion, laterAnswer] ⊆
        [savedHeader, savedQuestion, laterQuestion, laterAnswer] :=
      List.cons_subset_cons _ (List.cons_subset_cons _ (List.subset_cons_self _ _))
    exact savedFormat_readsBack (hsubset he)
  have hassistant : s.manager.hasAssistant = true := by
    rw [SessionManager.hasAssistant, hentries]
    rfl
  obtain ⟨path, content, header, h⟩ :=
    file_refines_log savedFormat (fun _ => none) "/w" "/s" savedFiles hrun hread hassistant
  exact ⟨_, s, path, content, header, hrun, hentries, h⟩

/-- A question is appended before the answer: the answer then writes the header and the first
question to the file a second time. -/
theorem resumed_file_repeats_entries :
    ∃ steps s content,
      GuardedRun (step savedFormat fun _ => none) (fun _ _ => True)
        (start "/w" "/s" true savedFiles) steps s ∧
      s.manager.hasAssistant = true ∧
      s.manager.fileEntries = [savedHeader, savedQuestion, laterQuestion, laterAnswer] ∧
      s.manager.sessionFile = some "/s/a.jsonl" ∧ s.files "/s/a.jsonl" = some content ∧
      savedFormat.loadEntriesFromFile content =
        [savedHeader, savedQuestion, savedHeader, savedQuestion, laterQuestion, laterAnswer] := by
  obtain ⟨steps, s, hrun, hassistant, hentries, hfile, hload⟩ :=
    GuardedRun.exists_of_play (step savedFormat fun _ => none) (fun _ _ => True)
      (start "/w" "/s" true savedFiles)
      (resume
        [.call (SessionManager.callOf 2) (.appendMessage (SessionManager.userText "second")),
         .call (SessionManager.callOf 2) (.branch "aaaaaaaa")])
      (fun _ s => s.manager.hasAssistant = true ∧
        s.manager.fileEntries = [savedHeader, savedQuestion, laterQuestion, laterAnswer] ∧
        s.manager.sessionFile = some "/s/a.jsonl" ∧
        (s.files "/s/a.jsonl").map savedFormat.loadEntriesFromFile =
          some [savedHeader, savedQuestion, savedHeader, savedQuestion, laterQuestion,
            laterAnswer])
      (by
        unfold savedFiles savedFormat savedHeaderText savedQuestionText laterQuestionText
          laterAnswerText
        repeat rw [utf16_ofList]
        decide +kernel)
  obtain ⟨content, hcontent, hload⟩ := Option.map_eq_some_iff.mp hload
  exact ⟨steps, s, content, hrun, hassistant, hentries, hfile, hcontent, hload⟩

end FileSession

end Draht
