import Draht.SessionRefinement

/-!
# The most recent session

`findMostRecentSession` tells a session file by the first 512 bytes, while a file that is opened is
read line by line. The two agree on the files that a session manager writes as long as the header
line is among these bytes.
-/

namespace Draht
open List

open Utf8

/-- `buffer.toString("utf8")`. -/
def utf8Text (bytes : List UInt8) : JsText := utf16Chars (decode bytes)

structure DirectoryFile where
  path : String
  bytes : List UInt8
  mtime : ℕ

namespace EntryFormat

variable (F : EntryFormat)

/-- `loadEntriesFromFile` on the bytes of a file. -/
def loadEntriesFromBytes (bytes : List UInt8) : List FileEntry :=
  F.loadEntriesFromFile (utf8Text bytes)

/-- What `JSON.parse` throws counts as no header. -/
def isValidSessionFile (bytes : List UInt8) : Bool :=
  let firstLine := ((utf8Text (bytes.take 512)).splitOn 10).headD []
  if firstLine = [] then false
  else ((F.parse firstLine).bind FileEntry.header?).isSome

def findMostRecentSession (files : List DirectoryFile) : Option String :=
  let sessions := (files.filter fun f => f.path.endsWith ".jsonl").filter fun f =>
    F.isValidSessionFile f.bytes
  (sessions.mergeSort fun a b => b.mtime ≤ a.mtime).head?.map DirectoryFile.path

/-- What the constructor does for `continueRecent`. -/
def continueRecent (files : List DirectoryFile) (uuid : Uuid) (timestamp : ℕ) : FileSessionOp :=
  match F.findMostRecentSession files with
  | some mostRecent => .setSessionFile mostRecent uuid timestamp
  | none => .newSession ⟨none, none⟩ uuid timestamp

end EntryFormat

/-- The bytes of a file with some entries, given the characters that `JSON.stringify` writes. -/
def writtenBytes (chars : FileEntry → List Char) (entries : List FileEntry) : List UInt8 :=
  encode (entries.flatMap fun e => chars e ++ ['\n'])

/-- A file that loads counts as a session, and is continued unless there is a newer one. -/
structure ValidatorsAgree (F : EntryFormat) (bytes : List UInt8) : Prop where
  valid : F.loadEntriesFromBytes bytes ≠ [] → F.isValidSessionFile bytes = true
  found : F.loadEntriesFromBytes bytes ≠ [] → ∀ files : List DirectoryFile, ∀ f ∈ files,
    f.bytes = bytes → f.path.endsWith ".jsonl" = true → ∀ uuid timestamp,
      ∃ g ∈ files, f.mtime ≤ g.mtime ∧
        F.continueRecent files uuid timestamp = .setSessionFile g.path uuid timestamp

/-- What JSON promises of a text that breaks off: it does not parse, also with replaced
characters at its end. -/
def BrokenOffFails (F : EntryFormat) (text : List Char) : Prop :=
  ∀ kept lost k, text = kept ++ lost → lost ≠ [] →
    F.parse (utf16Chars (kept ++ List.replicate k replacement)) = none

variable {F : EntryFormat} {chars : FileEntry → List Char} {header : SessionHeader}
  {entries : List FileEntry}

theorem utf16Chars_append (a b : List Char) :
    utf16Chars (a ++ b) = utf16Chars a ++ utf16Chars b := flatMap_append

theorem utf8Text_writtenBytes {es : List FileEntry}
    (hchars : ∀ e ∈ es, F.stringify e = utf16Chars (chars e)) :
    utf8Text (writtenBytes chars es) = es.flatMap F.line := by
  rw [utf8Text, writtenBytes, decode_encode, utf16Chars, flatMap_assoc]
  refine flatMap_congr fun e he => ?_
  rw [EntryFormat.line, hchars e he]
  exact utf16Chars_append (chars e) ['\n']

theorem loadEntries_writtenBytes
    (hchars : ∀ e ∈ .session header :: entries, F.stringify e = utf16Chars (chars e))
    (hread : ∀ e ∈ .session header :: entries, F.ReadsBack e) :
    F.loadEntriesFromBytes (writtenBytes chars (.session header :: entries)) =
      .session header :: entries := by
  rw [EntryFormat.loadEntriesFromBytes, utf8Text_writtenBytes hchars,
    EntryFormat.loadEntriesFromFile, (EntryFormat.settled_lines hread).parsed]
  rfl

theorem headD_splitOn {line rest : JsText} (hline : 10 ∉ line) (hrest : rest = [] ∨ ∃ more,
    rest = 10 :: more) : ((line ++ rest).splitOn 10).headD [] = line := by
  obtain rfl | ⟨more, rfl⟩ := hrest
  · rw [append_nil, splitOn_eq_singleton hline]
    rfl
  · rw [splitOn_append_cons_self, splitOn_eq_singleton hline]
    rfl

theorem newline_not_mem_utf16Chars {text : List Char} (h : '\n' ∉ text) :
    10 ∉ utf16Chars text := by
  intro hmem
  obtain ⟨c, hc, hunit⟩ := mem_flatMap.mp hmem
  split_ifs at hunit with hsmall
  · have hten := congrArg UInt16.toNat (mem_singleton.mp hunit)
    have hcode : c.toNat = 10 := by
      rw [UInt16.toNat_ofNat', Nat.mod_eq_of_lt hsmall] at hten
      exact hten.symm
    have heq : c = '\n' := Char.ext (UInt32.toNat_inj.mp hcode)
    exact h (heq ▸ hc)
  · have hvalid := toNat_valid c
    obtain heq | heq := mem_cons.mp hunit
    · have hten := congrArg UInt16.toNat heq
      rw [UInt16.toNat_ofNat', Nat.mod_eq_of_lt (by omega)] at hten
      change 10 = _ at hten
      omega
    · have hten := congrArg UInt16.toNat (mem_singleton.mp heq)
      rw [UInt16.toNat_ofNat', Nat.mod_eq_of_lt (by omega)] at hten
      change 10 = _ at hten
      omega

theorem writtenBytes_cons (e : FileEntry) (es : List FileEntry) :
    writtenBytes chars (e :: es) = encode (chars e) ++ 10 :: writtenBytes chars es := by
  rw [writtenBytes, flatMap_cons, append_assoc]
  exact flatMap_append

theorem isValidSessionFile_of_short (hread : F.ReadsBack (.session header))
    (htext : F.stringify (.session header) = utf16Chars (chars (.session header)))
    (h : byteLength (chars (.session header)) ≤ 512) :
    F.isValidSessionFile (writtenBytes chars (.session header :: entries)) = true := by
  have htake : (writtenBytes chars (.session header :: entries)).take 512 =
      encode (chars (.session header)) ++
        (10 :: writtenBytes chars entries).take (512 - byteLength (chars (.session header))) := by
    rw [writtenBytes_cons, take_append, take_of_length_le h]
    rfl
  have hbehind (n : ℕ) (bytes : List UInt8) : utf16Chars (decode ((10 :: bytes).take n)) = [] ∨
      ∃ more, utf16Chars (decode ((10 :: bytes).take n)) = 10 :: more := by
    cases n with
    | zero => exact .inl rfl
    | succ n => exact .inr ⟨utf16Chars (decode (bytes.take n)), rfl⟩
  have hfirst : ((utf8Text ((writtenBytes chars (.session header :: entries)).take 512)).splitOn
      10).headD [] = F.stringify (.session header) := by
    rw [htake, utf8Text, decode_encode_append, utf16Chars_append, ← htext]
    exact headD_splitOn hread.oneLine (hbehind _ _)
  obtain ⟨members, hobject⟩ := hread.object
  have hparse := hread.reads [] nofun
  rw [EntryFormat.isValidSessionFile]
  simp only [hfirst]
  rw [if_neg (by rw [hobject]; exact cons_ne_nil _ _), ← nil_append (F.stringify _), hparse]
  rfl

theorem isValidSessionFile_of_long (hread : F.ReadsBack (.session header))
    (htext : F.stringify (.session header) = utf16Chars (chars (.session header)))
    (hbroken : BrokenOffFails F (chars (.session header)))
    (h : 512 < byteLength (chars (.session header))) :
    F.isValidSessionFile (writtenBytes chars (.session header :: entries)) = false := by
  have htake : (writtenBytes chars (.session header :: entries)).take 512 =
      (encode (chars (.session header))).take 512 := by
    rw [writtenBytes_cons, take_append_of_le_length (Nat.le_of_lt h)]
  obtain ⟨kept, lost, k, hsplit, hlost, hdecode⟩ := decode_take_encode h
  have hline : '\n' ∉ kept ++ List.replicate k replacement := by
    intro hmem
    obtain hmem | hmem := mem_append.mp hmem
    · apply hread.oneLine
      rw [htext, hsplit, utf16Chars_append]
      exact mem_append_left _ (mem_flatMap.mpr ⟨'\n', hmem, mem_singleton_self _⟩)
    · exact absurd (eq_of_mem_replicate hmem) (by decide)
  have hfirst : ((utf8Text ((writtenBytes chars (.session header :: entries)).take 512)).splitOn
      10).headD [] = utf16Chars (kept ++ List.replicate k replacement) := by
    rw [htake, utf8Text, hdecode, splitOn_eq_singleton (newline_not_mem_utf16Chars hline)]
    rfl
  rw [EntryFormat.isValidSessionFile]
  simp only [hfirst, hbroken kept lost k hsplit hlost]
  split_ifs <;> rfl

theorem findMostRecentSession_of_valid {files : List DirectoryFile} {f : DirectoryFile}
    (hf : f ∈ files) (hname : f.path.endsWith ".jsonl" = true)
    (hvalid : F.isValidSessionFile f.bytes = true) :
    ∃ g ∈ files, f.mtime ≤ g.mtime ∧ F.findMostRecentSession files = some g.path := by
  rw [EntryFormat.findMostRecentSession]
  generalize hsessions : (files.filter fun f => f.path.endsWith ".jsonl").filter (fun f =>
    F.isValidSessionFile f.bytes) = sessions
  have hmem : f ∈ sessions := by
    rw [← hsessions, mem_filter, mem_filter]
    exact ⟨⟨hf, hname⟩, hvalid⟩
  have hsorted : (sessions.mergeSort fun a b : DirectoryFile => b.mtime ≤ a.mtime).Pairwise
      fun a b => decide (b.mtime ≤ a.mtime) = true :=
    pairwise_mergeSort
      (by simp only [decide_eq_true_eq]; intro a b c hab hbc; omega)
      (by simp only [Bool.or_eq_true, decide_eq_true_eq]; intro a b; omega) sessions
  have hperm := mergeSort_perm sessions fun a b : DirectoryFile => b.mtime ≤ a.mtime
  have hmem' := hperm.mem_iff.mpr hmem
  cases hcons : sessions.mergeSort fun a b : DirectoryFile => b.mtime ≤ a.mtime with
  | nil =>
    rw [hcons] at hmem'
    cases hmem'
  | cons g rest =>
    rw [hcons] at hsorted hmem' hperm
    have hg : g ∈ sessions := hperm.mem_iff.mp mem_cons_self
    rw [← hsessions] at hg
    refine ⟨g, mem_of_mem_filter (mem_of_mem_filter hg), ?_, rfl⟩
    obtain rfl | hrest := mem_cons.mp hmem'
    · exact Nat.le_refl _
    · exact of_decide_eq_true ((pairwise_cons.mp hsorted).1 f hrest)

/-- On a file that a session manager writes the two validators agree exactly when the header line
has at most 512 bytes. -/
theorem validatorsAgree_iff (F : EntryFormat) (chars : FileEntry → List Char)
    (header : SessionHeader) (entries : List FileEntry)
    (hchars : ∀ e ∈ .session header :: entries, F.stringify e = utf16Chars (chars e))
    (hread : ∀ e ∈ .session header :: entries, F.ReadsBack e)
    (hbroken : BrokenOffFails F (chars (.session header))) :
    ValidatorsAgree F (writtenBytes chars (.session header :: entries)) ↔
      byteLength (chars (.session header)) ≤ 512 := by
  have hheader := hread (.session header) mem_cons_self
  have htext := hchars (.session header) mem_cons_self
  constructor
  · intro h
    by_contra hlong
    have hload := loadEntries_writtenBytes hchars hread
    have hvalid := h.valid (by rw [hload]; exact cons_ne_nil _ _)
    rw [isValidSessionFile_of_long hheader htext hbroken (Nat.lt_of_not_le hlong)] at hvalid
    exact absurd hvalid Bool.false_ne_true
  · intro hshort
    have hvalid : F.isValidSessionFile (writtenBytes chars (.session header :: entries)) = true :=
      isValidSessionFile_of_short hheader htext hshort
    refine ⟨fun _ => hvalid, fun _ files f hf hbytes hname uuid timestamp => ?_⟩
    obtain ⟨g, hg, hnewer, hfound⟩ := findMostRecentSession_of_valid hf hname
      (show F.isValidSessionFile f.bytes = true from hbytes ▸ hvalid)
    refine ⟨g, hg, hnewer, ?_⟩
    rw [EntryFormat.continueRecent, hfound]

def headerFields : List Char :=
  ("\"type\":\"session\",\"version\":3,\"id\":\"s1\"," ++
    "\"timestamp\":\"1970-01-01T00:00:00.000Z\",\"cwd\":\"").toList

/-- The line of a header without a parent session whose directory needs no escapes. -/
def headerChars (cwd : List Char) : List Char :=
  '\x7b' :: (headerFields ++ cwd ++ ['"']) ++ ['\x7d']

def headerOf (cwd : List Char) : SessionHeader :=
  { version := some 3, id := "s1", timestamp := 0, cwd := String.ofList cwd, parentSession := none }

def headerFormat (cwd : List Char) : EntryFormat :=
  FileSession.tableFormat [(.session (headerOf cwd), utf16Chars (headerChars cwd))]

variable (cwd : List Char)

theorem headerFormat_stringify :
    (headerFormat cwd).stringify (.session (headerOf cwd)) = utf16Chars (headerChars cwd) := by
  simp [headerFormat, FileSession.tableFormat]

theorem utf16Chars_headerChars : ∃ members,
    utf16Chars (headerChars cwd) = 0x7B :: members ++ [0x7D] := by
  refine ⟨utf16Chars (headerFields ++ cwd ++ ['"']), ?_⟩
  rw [headerChars, utf16Chars_append]
  rfl

theorem trim_braces (members : JsText) :
    trim isJsonBlank (0x7B :: members ++ [0x7D]) = 0x7B :: members ++ [0x7D] := by
  rw [trim, trimStart, cons_append, dropWhile_cons_of_neg (by decide), trimEnd,
    ← cons_append, rdropWhile_concat_neg _ _ _ (by decide)]

theorem headerFormat_readsBack {cwd : List Char} (hcwd : '\n' ∉ cwd) :
    (headerFormat cwd).ReadsBack (.session (headerOf cwd)) := by
  obtain ⟨members, hmembers⟩ := utf16Chars_headerChars cwd
  have htext := headerFormat_stringify cwd
  refine FileSession.tableFormat_readsBack (htext.trans hmembers) ?_ ?_
  · have hline : '\n' ∉ headerChars cwd := by
      have hfields : '\n' ∉ headerFields := by decide
      simp [headerChars, hcwd, hfields]
    change 10 ∉ (headerFormat cwd).stringify _
    rw [htext]
    exact newline_not_mem_utf16Chars hline
  · have hparse (line : JsText) : (headerFormat cwd).parse line =
        ([(FileEntry.session (headerOf cwd), utf16Chars (headerChars cwd))].find? fun p =>
          p.2 = trim isJsonBlank line).map Prod.fst := rfl
    rw [← headerFormat, htext, hparse, hmembers, trim_braces, find?_cons_of_pos (by simp)]
    rfl

theorem headerFormat_brokenOff : BrokenOffFails (headerFormat cwd) (headerChars cwd) := by
  intro kept lost k hsplit hlost
  obtain ⟨members, hmembers⟩ := utf16Chars_headerChars cwd
  have hne : utf16Chars (headerChars cwd) ≠
      trim isJsonBlank (utf16Chars (kept ++ List.replicate k replacement)) := by
    intro heq
    cases k with
    | zero =>
      have hle : (trim isJsonBlank (utf16Chars kept)).length ≤ (utf16Chars kept).length :=
        ((List.rdropWhile_prefix _ _).length_le).trans (dropWhile_sublist _).length_le
      have hunits : utf16Chars lost ≠ [] := fun h =>
        hlost (utf16Chars_injective (h.trans utf16Chars_nil.symm))
      have hlength := congrArg List.length heq
      rw [replicate_zero, append_nil] at hlength
      rw [← hlength, hsplit, utf16Chars_append, length_append] at hle
      have hpos := length_pos_of_ne_nil hunits
      omega
    | succ k =>
      -- The replaced character stays at the end.
      have hend : utf16Chars (kept ++ List.replicate (k + 1) replacement) =
          utf16Chars (kept ++ List.replicate k replacement) ++ [0xFFFD] := by
        rw [replicate_succ', ← append_assoc, utf16Chars_append]
        rfl
      obtain ⟨start, hstart⟩ : ∃ start, trim isJsonBlank
          (utf16Chars (kept ++ List.replicate (k + 1) replacement)) = start ++ [0xFFFD] := by
        rw [hend, trim, trimStart, dropWhile_append]
        split_ifs
        · exact ⟨[], by decide⟩
        · exact ⟨_, rdropWhile_concat_neg _ _ _ (by decide)⟩
      rw [hstart, hmembers] at heq
      exact absurd (append_inj' heq rfl).2 (by decide)
  have hparse (line : JsText) : (headerFormat cwd).parse line =
      ([(FileEntry.session (headerOf cwd), utf16Chars (headerChars cwd))].find? fun p =>
        p.2 = trim isJsonBlank line).map Prod.fst := rfl
  rw [hparse, find?_cons_of_neg (by simpa using hne)]
  rfl

def deepDirectory : List Char := '/' :: List.replicate 500 'a'

theorem newline_not_mem_deepDirectory : '\n' ∉ deepDirectory := by
  intro h
  obtain h | h := mem_cons.mp h
  · exact absurd h (by decide)
  · exact absurd (eq_of_mem_replicate h) (by decide)

/-- A session in a directory with a path of 501 characters loads, and is not found. -/
theorem deepDirectory_disagree :
    ¬ValidatorsAgree (headerFormat deepDirectory)
      (writtenBytes (fun _ => headerChars deepDirectory) [.session (headerOf deepDirectory)]) := by
  intro h
  have hread : ∀ e ∈ [FileEntry.session (headerOf deepDirectory)],
      (headerFormat deepDirectory).ReadsBack e := by
    intro e he
    rw [mem_singleton.mp he]
    exact headerFormat_readsBack newline_not_mem_deepDirectory
  have hchars : ∀ e ∈ [FileEntry.session (headerOf deepDirectory)],
      (headerFormat deepDirectory).stringify e =
        utf16Chars ((fun _ => headerChars deepDirectory) e) := by
    intro e he
    rw [mem_singleton.mp he]
    exact headerFormat_stringify deepDirectory
  have hload := loadEntries_writtenBytes hchars hread
  have hlong : 512 < byteLength (headerChars deepDirectory) := by decide +kernel
  have hvalid := h.valid (by rw [hload]; exact cons_ne_nil _ _)
  rw [isValidSessionFile_of_long (hread _ mem_cons_self)
    (headerFormat_stringify deepDirectory) (headerFormat_brokenOff deepDirectory) hlong] at hvalid
  exact absurd hvalid Bool.false_ne_true

theorem shallowDirectory_agree_iff :
    ValidatorsAgree (headerFormat ['/', 'w'])
        (writtenBytes (fun _ => headerChars ['/', 'w']) [.session (headerOf ['/', 'w'])]) ↔
      byteLength (headerChars ['/', 'w']) ≤ 512 :=
  validatorsAgree_iff (headerFormat ['/', 'w']) (fun _ => headerChars ['/', 'w'])
    (headerOf ['/', 'w']) []
    (fun e he => by rw [mem_singleton.mp he]; exact headerFormat_stringify _)
    (fun e he => by rw [mem_singleton.mp he]; exact headerFormat_readsBack (by decide))
    (headerFormat_brokenOff ['/', 'w'])

end Draht
