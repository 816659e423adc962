import Draht.PosixPath
import Mathlib.Data.List.Infix

/-!
# Two walks for skills

Loading skills and listing skill entries walk the same directories by two recursions: a `SKILL.md`
ends the descent, loose Markdown files count at the root only, and the ignore rules of every
directory entered so far apply. A path is the list of its names.
-/

namespace Draht.SkillWalk
open List PosixPath

abbrev Path := List JsText

inductive FileType where
  | file | directory | symbolicLink | other
deriving DecidableEq

structure Dirent where
  name : JsText
  type : FileType

/-- What the calls answer; `none` where one throws. The system takes no path of more than `limit`
names, also through a cycle of links. -/
structure FileSystem where
  existsSync : Path → Bool
  readdirSync : Path → Option (List Dirent)
  statSync : Path → Option FileType
  readFileSync : Path → Option JsText
  limit : ℕ
  length_le : ∀ path, existsSync path = true → path.length ≤ limit

/-- The matcher of the `ignore` package. Its `ignores` throws for a path that is not relative only,
and the walks ask for none. -/
structure Ignore (ι : Type*) where
  empty : ι
  add : ι → List JsText → ι
  ignores : ι → JsText → Bool

def isSpace (c : UInt16) : Bool := isWhiteSpaceCode c.toNat

def backslash : UInt16 := 0x5C

/-- `content.split(/\r?\n/)`. -/
def splitLines (content : JsText) : List JsText :=
  let lines := content.splitOn 10
  lines.dropLast.map (fun line => if line.getLast? = some 13 then line.dropLast else line) ++
    [lines.getLastD []]

def prefixIgnorePattern (line dirPrefix : JsText) : Option JsText :=
  let trimmed := trim isSpace line
  if trimmed = [] then none
  else if trimmed.head? = some 0x23 ∧ ¬ [backslash, 0x23].isPrefixOf trimmed then none
  else
    let negated := line.head? = some 0x21
    let pattern := if negated ∨ [backslash, 0x21].isPrefixOf line then line.drop 1 else line
    let pattern := if pattern.head? = some slash then pattern.drop 1 else pattern
    some ((if negated then [0x21] else []) ++ dirPrefix ++ pattern)

def ignoreFileNames : List JsText := [utf16 ".gitignore", utf16 ".ignore", utf16 ".fdignore"]

def skillFileName : JsText := utf16 "SKILL.md"

structure SkillFrontmatter where
  name : Option JsText
  description : Option JsText
  disableModelInvocation : Bool

inductive SourceScope where
  | user | project | temporary

inductive SourceOrigin where
  | package | topLevel

structure SourceInfo where
  path : Path
  source : JsText
  scope : SourceScope
  origin : SourceOrigin
  baseDir : Path

structure Skill where
  name : JsText
  description : JsText
  filePath : Path
  baseDir : Path
  sourceInfo : SourceInfo
  disableModelInvocation : Bool

/-- A warning; no other type is reported here. -/
structure ResourceDiagnostic where
  message : JsText
  path : Path

structure LoadSkillsResult where
  skills : List Skill
  diagnostics : List ResourceDiagnostic

def maxNameLength : ℕ := 64

def maxDescriptionLength : ℕ := 1024

def count (n : ℕ) : JsText := utf16 (toString n)

def isNameUnit (c : UInt16) : Bool := (0x61 ≤ c && c ≤ 0x7A) || isDigitUnit c || c == 0x2D

def validateName (name parentDirName : JsText) : List JsText :=
  (if name ≠ parentDirName then
    [utf16 "name \"" ++ name ++ utf16 "\" does not match parent directory \"" ++ parentDirName ++
      utf16 "\""] else []) ++
  (if maxNameLength < name.length then
    [utf16 "name exceeds " ++ count maxNameLength ++ utf16 " characters (" ++ count name.length ++
      utf16 ")"] else []) ++
  (if name = [] ∨ ¬ name.all isNameUnit then
    [utf16 "name contains invalid characters (must be lowercase a-z, 0-9, hyphens only)"]
    else []) ++
  (if name.head? = some 0x2D ∨ name.getLast? = some 0x2D then
    [utf16 "name must not start or end with a hyphen"] else []) ++
  if [0x2D, 0x2D] <:+: name then [utf16 "name must not contain consecutive hyphens"] else []

/-- `!description || description.trim() === ""`. -/
def isBlank (description : Option JsText) : Bool := (description.map (trim isSpace)).getD [] = []

def validateDescription (description : Option JsText) : List JsText :=
  if isBlank description then [utf16 "description is required"]
  else
    let length := (description.getD []).length
    if maxDescriptionLength < length then
      [utf16 "description exceeds " ++ count maxDescriptionLength ++ utf16 " characters (" ++
        count length ++ utf16 ")"]
    else []

def createSkillSourceInfo (filePath baseDir : Path) (source : JsText) : SourceInfo :=
  if source = utf16 "user" then ⟨filePath, utf16 "local", .user, .topLevel, baseDir⟩
  else if source = utf16 "project" then ⟨filePath, utf16 "local", .project, .topLevel, baseDir⟩
  else if source = utf16 "path" then ⟨filePath, utf16 "local", .temporary, .topLevel, baseDir⟩
  else ⟨filePath, source, .temporary, .topLevel, baseDir⟩

variable {ι : Type*} (fs : FileSystem) (m : Ignore ι)

def addIgnoreRules (ig : ι) (dir root : Path) : ι :=
  let relativeDir := dir.drop root.length
  let dirPrefix := if relativeDir = [] then [] else joinNames relativeDir ++ [slash]
  ignoreFileNames.foldl (fun ig filename =>
    if fs.existsSync (dir ++ [filename]) then
      match fs.readFileSync (dir ++ [filename]) with
      | none => ig
      | some content =>
        let patterns := (splitLines content).filterMap fun line =>
          (prefixIgnorePattern line dirPrefix).filter (· ≠ [])
        if patterns = [] then ig else m.add ig patterns
    else ig) ig

/-- The type of an entry, a link followed; `none` for a broken link. -/
def resolvedType (dir : Path) (entry : Dirent) : Option FileType :=
  if entry.type = .symbolicLink then fs.statSync (dir ++ [entry.name]) else some entry.type

def relPath (dir root : Path) (entry : Dirent) : JsText :=
  joinNames ((dir ++ [entry.name]).drop root.length)

def isHidden (entry : Dirent) : Bool := entry.name.head? = some 0x2E

def isMarkdown (entry : Dirent) : Bool := utf16 ".md" <:+ entry.name

/-- `parse` is `parseFrontmatter`, and `unreadable` what `readFileSync` throws: an error is its
message. -/
structure SkillReader where
  parse : JsText → Except JsText SkillFrontmatter
  unreadable : Path → JsText
  source : JsText

def loadSkillFromFile (reader : SkillReader) (filePath : Path) : LoadSkillsResult :=
  let parsed : Except JsText SkillFrontmatter := match fs.readFileSync filePath with
    | none => .error (reader.unreadable filePath)
    | some rawContent => reader.parse rawContent
  match parsed with
  | .error message => ⟨[], [⟨message, filePath⟩]⟩
  | .ok frontmatter =>
    let skillDir := filePath.dropLast
    let parentDirName := skillDir.getLastD []
    let name := if frontmatter.name.getD [] = [] then parentDirName else frontmatter.name.getD []
    let diagnostics := (validateDescription frontmatter.description ++
      validateName name parentDirName).map fun error => ⟨error, filePath⟩
    if isBlank frontmatter.description then ⟨[], diagnostics⟩
    else
      ⟨[⟨name, frontmatter.description.getD [], filePath, skillDir,
        createSkillSourceInfo filePath skillDir reader.source,
        frontmatter.disableModelInvocation⟩], diagnostics⟩

def LoadSkillsResult.append (a b : LoadSkillsResult) : LoadSkillsResult :=
  ⟨a.skills ++ b.skills, a.diagnostics ++ b.diagnostics⟩

def loadSkillsFromDirInternal (reader : SkillReader) (root dir : Path) (includeRootFiles : Bool)
    (ig : ι) : LoadSkillsResult × ι :=
  if _h : fs.existsSync dir = true then
    let ig := addIgnoreRules fs m ig dir root
    match fs.readdirSync dir with
    | none => (⟨[], []⟩, ig)
    | some entries =>
      match entries.find? fun entry => entry.name = skillFileName ∧
          ¬ (resolvedType fs dir entry ≠ some .file ∨ m.ignores ig (relPath dir root entry)) with
      | some entry => (loadSkillFromFile fs reader (dir ++ [entry.name]), ig)
      | none => entries.foldl (fun (found, ig) entry =>
        if isHidden entry then (found, ig)
        else if entry.name = utf16 "node_modules" then (found, ig)
        else
          match resolvedType fs dir entry with
          | none => (found, ig)
          | some type =>
            let ignorePath := relPath dir root entry ++ if type = .directory then [slash] else []
            if m.ignores ig ignorePath then (found, ig)
            else if type = .directory then
              let (sub, ig) :=
                loadSkillsFromDirInternal reader root (dir ++ [entry.name]) false ig
              (found.append sub, ig)
            else if type ≠ .file ∨ ¬ includeRootFiles ∨ ¬ isMarkdown entry then (found, ig)
            else (found.append (loadSkillFromFile fs reader (dir ++ [entry.name])), ig))
        (⟨[], []⟩, ig)
  else (⟨[], []⟩, ig)
termination_by fs.limit + 1 - dir.length
decreasing_by
  have := fs.length_le dir _h
  simp only [length_append, length_singleton]
  omega

def loadSkillsFromDir (reader : SkillReader) (dir : Path) : LoadSkillsResult :=
  (loadSkillsFromDirInternal fs m reader dir dir true m.empty).1

inductive SkillDiscoveryMode where
  | draht | agents
deriving DecidableEq

def collectSkillEntriesFrom (mode : SkillDiscoveryMode) (root dir : Path) (ig : ι) :
    List Path × ι :=
  if _h : fs.existsSync dir = true then
    let ig := addIgnoreRules fs m ig dir root
    match fs.readdirSync dir with
    | none => ([], ig)
    | some dirEntries =>
      match dirEntries.find? fun entry => entry.name = skillFileName ∧
          resolvedType fs dir entry = some .file ∧ ¬ m.ignores ig (relPath dir root entry) with
      | some entry => ([dir ++ [entry.name]], ig)
      | none => dirEntries.foldl (fun (entries, ig) entry =>
        if isHidden entry then (entries, ig)
        else if entry.name = utf16 "node_modules" then (entries, ig)
        else
          match resolvedType fs dir entry with
          | none => (entries, ig)
          | some type =>
            if mode = .draht ∧ dir = root ∧ type = .file ∧ isMarkdown entry ∧
                ¬ m.ignores ig (relPath dir root entry) then
              (entries ++ [dir ++ [entry.name]], ig)
            else if type ≠ .directory then (entries, ig)
            else if m.ignores ig (relPath dir root entry ++ [slash]) then (entries, ig)
            else
              let (sub, ig) := collectSkillEntriesFrom mode root (dir ++ [entry.name]) ig
              (entries ++ sub, ig))
        ([], ig)
  else ([], ig)
termination_by fs.limit + 1 - dir.length
decreasing_by
  have := fs.length_le dir _h
  simp only [length_append, length_singleton]
  omega

def collectSkillEntries (mode : SkillDiscoveryMode) (dir : Path) : List Path :=
  (collectSkillEntriesFrom fs m mode dir dir m.empty).1

/-- What loading the listed files one after the other gives. -/
def loadFiles (reader : SkillReader) (files : List Path) : LoadSkillsResult :=
  ⟨files.flatMap fun f => (loadSkillFromFile fs reader f).skills,
    files.flatMap fun f => (loadSkillFromFile fs reader f).diagnostics⟩

variable {fs m}

theorem loadFiles_append {reader : SkillReader} (files more : List Path) :
    loadFiles fs reader (files ++ more) =
      (loadFiles fs reader files).append (loadFiles fs reader more) := by
  simp [loadFiles, LoadSkillsResult.append]

theorem loadFiles_singleton {reader : SkillReader} (file : Path) :
    loadFiles fs reader [file] = loadSkillFromFile fs reader file := by
  simp [loadFiles]

theorem validateDescription_ne_nil {description : Option JsText} (h : isBlank description = true) :
    validateDescription description ≠ [] := by
  simp [validateDescription, h]

/-- A visited file leaves a trace, and only under its own path. -/
theorem loadSkillFromFile_mentions (reader : SkillReader) (file : Path) :
    ((loadSkillFromFile fs reader file).skills ≠ [] ∨
      (loadSkillFromFile fs reader file).diagnostics ≠ []) ∧
    (∀ s ∈ (loadSkillFromFile fs reader file).skills, s.filePath = file) ∧
    ∀ d ∈ (loadSkillFromFile fs reader file).diagnostics, d.path = file := by
  unfold loadSkillFromFile
  dsimp only
  split
  · simp
  · split
    · rename_i hblank
      refine ⟨.inr ?_, by simp, ?_⟩
      · simp [validateDescription_ne_nil hblank]
      · intro d hd
        obtain ⟨error, -, rfl⟩ := List.mem_map.mp hd
        rfl
    · refine ⟨.inl (by simp), by simp, ?_⟩
      intro d hd
      obtain ⟨error, -, rfl⟩ := List.mem_map.mp hd
      rfl

/-- The two recursions step by step: the loader finds what loading the listed files gives, and both
leave the same rules in the matcher. -/
theorem loadSkillsFromDirInternal_eq (reader : SkillReader) {root dir : Path}
    (hle : root.length ≤ dir.length) (ig : ι) :
    loadSkillsFromDirInternal fs m reader root dir (dir = root) ig =
      (loadFiles fs reader (collectSkillEntriesFrom fs m .draht root dir ig).1,
        (collectSkillEntriesFrom fs m .draht root dir ig).2) := by
  generalize hn : fs.limit + 1 - dir.length = n
  induction n using Nat.strong_induction_on generalizing dir ig with
  | _ n ih =>
    unfold loadSkillsFromDirInternal collectSkillEntriesFrom
    by_cases hex : fs.existsSync dir = true
    · rw [dif_pos hex, dif_pos hex]
      have hshort := fs.length_le dir hex
      cases fs.readdirSync dir with
      | none => rfl
      | some entries =>
        simp only [ne_eq, not_or, not_not]
        split
        · simp [loadFiles_singleton]
        · refine foldl_rel (r := fun (found : LoadSkillsResult × ι) (listed : List Path × ι) =>
            found = (loadFiles fs reader listed.1, listed.2)) rfl ?_
          rintro entry - _ ⟨listed, ig⟩ rfl
          have hchild : dir ++ [entry.name] ≠ root := by
            rintro rfl
            simp only [length_append, length_singleton] at hle
            omega
          have hlength : (dir ++ [entry.name]).length = dir.length + 1 := length_append
          have hsub := ih (fs.limit + 1 - (dir ++ [entry.name]).length) (by omega)
            (show root.length ≤ (dir ++ [entry.name]).length by omega) ig rfl
          simp only [hchild, decide_false] at hsub
          by_cases hhidden : isHidden entry = true
          · simp [hhidden]
          by_cases hmodules : entry.name = utf16 "node_modules"
          · simp [hmodules]
          cases resolvedType fs dir entry with
          | none => simp only [ite_self]
          | some type =>
            cases type with
            | directory =>
              by_cases hignored : m.ignores ig (relPath dir root entry ++ [slash]) = true
              · simp [hhidden, hmodules, hignored]
              · simp [hhidden, hmodules, hignored, hsub, loadFiles_append]
            | file =>
              by_cases hignored : m.ignores ig (relPath dir root entry) = true
              · simp [hhidden, hmodules, hignored]
              · by_cases hroot : dir = root
                · subst hroot
                  by_cases hmd : isMarkdown entry = true
                  · simp [hhidden, hmodules, hignored, hmd, loadFiles_append, loadFiles_singleton]
                  · simp [hhidden, hmodules, hignored, hmd]
                · simp [hhidden, hmodules, hignored, hroot]
            | symbolicLink | other => simp [hhidden, hmodules]
    · rw [dif_neg hex, dif_neg hex]
      rfl

/-- Loading finds exactly the listed files, in their order: its skills and its diagnostics are those
of the listed files one after the other, and every listed file has a skill or a diagnostic. -/
theorem loadSkillsFromDir_agrees (fs : FileSystem) (m : Ignore ι) (reader : SkillReader)
    (dir : Path) :
    let result := loadSkillsFromDir fs m reader dir
    let listed := collectSkillEntries fs m .draht dir
    result = loadFiles fs reader listed ∧
      ∀ file, file ∈ listed ↔
        (∃ s ∈ result.skills, s.filePath = file) ∨ ∃ d ∈ result.diagnostics, d.path = file := by
  intro result listed
  have heq : result = loadFiles fs reader listed := by
    have h := @loadSkillsFromDirInternal_eq ι fs m reader dir dir le_rfl m.empty
    rw [decide_eq_true rfl] at h
    exact congrArg Prod.fst h
  refine ⟨heq, fun file => ⟨fun hfile => ?_, ?_⟩⟩
  · obtain ⟨hfound, hskills, hdiagnostics⟩ := @loadSkillFromFile_mentions fs reader file
    simp only [heq, loadFiles, mem_flatMap]
    obtain hne | hne := hfound
    · obtain ⟨s, hs⟩ := exists_mem_of_ne_nil _ hne
      exact .inl ⟨s, ⟨file, hfile, hs⟩, hskills s hs⟩
    · obtain ⟨d, hd⟩ := exists_mem_of_ne_nil _ hne
      exact .inr ⟨d, ⟨file, hfile, hd⟩, hdiagnostics d hd⟩
  · simp only [heq, loadFiles, mem_flatMap]
    rintro (⟨s, ⟨f, hf, hs⟩, rfl⟩ | ⟨d, ⟨f, hf, hd⟩, rfl⟩)
    · rwa [(loadSkillFromFile_mentions reader f).2.1 s hs]
    · rwa [(loadSkillFromFile_mentions reader f).2.2 d hd]

end Draht.SkillWalk
