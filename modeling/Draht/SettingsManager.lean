import Mathlib.Data.Int.Notation
import Draht.Json

/-!
# The settings manager

A setter changes the settings in memory, marks what it has changed, and puts a write of everything
that is marked into a queue. A write that succeeds takes all marks of its file away. Settings are
looked up by key; fields that hold an object of settings are merged key by key.
-/

namespace Draht.SettingsManager

inductive NestedField where
  | compaction | branchSummary | retry | terminal | images | thinkingBudgets | markdown
deriving DecidableEq

inductive Field where
  | plain (name : String)
  | nested (field : NestedField)
deriving DecidableEq

inductive Key where
  | field (name : String)
  | nestedKey (field : NestedField) (key : String)
deriving DecidableEq

structure Settings where
  field : String → Option Json
  nested : NestedField → Option (String → Option Json)

def Settings.empty : Settings := { field := fun _ => none, nested := fun _ => none }

def Settings.get (s : Settings) : Key → Option Json
  | .field name => s.field name
  | .nestedKey field key => (s.nested field).bind fun keys => keys key

def Settings.setField (s : Settings) (name : String) (value : Option Json) : Settings :=
  { s with field := Function.update s.field name value }

def Settings.setNested (s : Settings) (field : NestedField)
    (value : Option (String → Option Json)) : Settings :=
  { s with nested := Function.update s.nested field value }

def migrateQueueMode (s : Settings) : Settings :=
  if (s.field "queueMode").isSome ∧ (s.field "steeringMode").isNone then
    (s.setField "steeringMode" (s.field "queueMode")).setField "queueMode" none
  else s

def migrateWebsockets (s : Settings) : Settings :=
  match s.field "transport", s.field "websockets" with
  | none, some (.bool websockets) =>
    (s.setField "transport" (some (.string (if websockets then "websocket" else "sse")))).setField
      "websockets" none
  | _, _ => s

def migrateSkills (s : Settings) : Settings :=
  match s.field "skills" with
  | some (.object skillsSettings) =>
    let s := match skillsSettings.get "enableSkillCommands", s.field "enableSkillCommands" with
      | some enabled, none => s.setField "enableSkillCommands" (some enabled)
      | _, _ => s
    match skillsSettings.get "customDirectories" with
    | some (.array (.cons directory rest)) =>
      s.setField "skills" (some (.array (.cons directory rest)))
    | _ => s.setField "skills" none
  | _ => s

def migrateSettings (s : Settings) : Settings :=
  migrateSkills (migrateWebsockets (migrateQueueMode s))

def Settings.oldFormat (s : Settings) : Bool :=
  (s.field "queueMode").isSome && (s.field "steeringMode").isNone ||
    (match s.field "transport", s.field "websockets" with
    | none, some (.bool _) => true
    | _, _ => false) ||
    match s.field "skills" with
    | some (.object _) => true
    | _ => false

theorem migrateSettings_of_not_oldFormat {s : Settings} (h : s.oldFormat = false) :
    migrateSettings s = s := by
  simp only [Settings.oldFormat, Bool.or_eq_false_iff] at h
  obtain ⟨⟨hqueue, hwebsockets⟩, hskills⟩ := h
  have h₁ : migrateQueueMode s = s := by
    apply if_neg
    rintro ⟨hsome, hnone⟩
    rw [hsome, hnone] at hqueue
    cases hqueue
  have h₂ : migrateWebsockets s = s := by
    unfold migrateWebsockets
    split at hwebsockets
    · cases hwebsockets
    · rfl
  have h₃ : migrateSkills s = s := by
    unfold migrateSkills
    split at hskills
    · cases hskills
    · rfl
  rw [migrateSettings, h₁, h₂, h₃]

inductive SettingsScope where
  | global | project
deriving DecidableEq

/-- What a setter does to the settings in memory; a field without a value is removed. -/
inductive Modification where
  | field (name : String) (value : Option Json)
  | nestedKey (field : NestedField) (key : String) (value : Json)

def Modification.key : Modification → Key
  | .field name _ => .field name
  | .nestedKey parent key _ => .nestedKey parent key

def Modification.value : Modification → Option Json
  | .field _ value => value
  | .nestedKey _ _ value => some value

def jsonArray (xs : List Json) : Json := .array (xs.foldr .cons .nil)

def strings (xs : List String) : Json := jsonArray (xs.map .string)

inductive Setter where
  | setLastChangelogVersion (version : String)
  | setDefaultProvider (provider : String)
  | setDefaultModel (modelId : String)
  | setDefaultModelAndProvider (provider modelId : String)
  | setSteeringMode (mode : String)
  | setFollowUpMode (mode : String)
  | setTheme (theme : String)
  | setDefaultThinkingLevel (level : String)
  | setTransport (transport : String)
  | setCompactionEnabled (enabled : Bool)
  | setRetryEnabled (enabled : Bool)
  | setHideThinkingBlock (hide : Bool)
  | setShellPath (path : Option String)
  | setQuietStartup (quiet : Bool)
  | setShellCommandPrefix (commandPrefix : Option String)
  | setNpmCommand (command : Option (List String))
  | setCollapseChangelog (collapse : Bool)
  | setPackages (packages : List Json)
  | setProjectPackages (packages : List Json)
  | setExtensionPaths (paths : List String)
  | setProjectExtensionPaths (paths : List String)
  | setSkillPaths (paths : List String)
  | setProjectSkillPaths (paths : List String)
  | setPromptTemplatePaths (paths : List String)
  | setProjectPromptTemplatePaths (paths : List String)
  | setThemePaths (paths : List String)
  | setProjectThemePaths (paths : List String)
  | setEnableSkillCommands (enabled : Bool)
  | setShowImages (shown : Bool)
  | setClearOnShrink (enabled : Bool)
  | setImageAutoResize (enabled : Bool)
  | setBlockImages (blocked : Bool)
  | setEnabledModels (patterns : Option (List String))
  | setDoubleEscapeAction (action : String)
  | setTreeFilterMode (mode : String)
  | setShowHardwareCursor (enabled : Bool)
  | setEditorPaddingX (padding : ℤ)
  | setAutocompleteMaxVisible (maxVisible : ℤ)

def Setter.scope : Setter → SettingsScope
  | .setProjectPackages _ | .setProjectExtensionPaths _ | .setProjectSkillPaths _
  | .setProjectPromptTemplatePaths _ | .setProjectThemePaths _ => .project
  | _ => .global

def Setter.modifications : Setter → List Modification
  | .setLastChangelogVersion version => [.field "lastChangelogVersion" (some (.string version))]
  | .setDefaultProvider provider => [.field "defaultProvider" (some (.string provider))]
  | .setDefaultModel modelId => [.field "defaultModel" (some (.string modelId))]
  | .setDefaultModelAndProvider provider modelId =>
    [.field "defaultProvider" (some (.string provider)),
      .field "defaultModel" (some (.string modelId))]
  | .setSteeringMode mode => [.field "steeringMode" (some (.string mode))]
  | .setFollowUpMode mode => [.field "followUpMode" (some (.string mode))]
  | .setTheme theme => [.field "theme" (some (.string theme))]
  | .setDefaultThinkingLevel level => [.field "defaultThinkingLevel" (some (.string level))]
  | .setTransport transport => [.field "transport" (some (.string transport))]
  | .setCompactionEnabled enabled => [.nestedKey .compaction "enabled" (.bool enabled)]
  | .setRetryEnabled enabled => [.nestedKey .retry "enabled" (.bool enabled)]
  | .setHideThinkingBlock hide => [.field "hideThinkingBlock" (some (.bool hide))]
  | .setShellPath path => [.field "shellPath" (path.map .string)]
  | .setQuietStartup quiet => [.field "quietStartup" (some (.bool quiet))]
  | .setShellCommandPrefix commandPrefix =>
    [.field "shellCommandPrefix" (commandPrefix.map .string)]
  | .setNpmCommand command => [.field "npmCommand" (command.map strings)]
  | .setCollapseChangelog collapse => [.field "collapseChangelog" (some (.bool collapse))]
  | .setPackages packages | .setProjectPackages packages =>
    [.field "packages" (some (jsonArray packages))]
  | .setExtensionPaths paths | .setProjectExtensionPaths paths =>
    [.field "extensions" (some (strings paths))]
  | .setSkillPaths paths | .setProjectSkillPaths paths => [.field "skills" (some (strings paths))]
  | .setPromptTemplatePaths paths | .setProjectPromptTemplatePaths paths =>
    [.field "prompts" (some (strings paths))]
  | .setThemePaths paths | .setProjectThemePaths paths => [.field "themes" (some (strings paths))]
  | .setEnableSkillCommands enabled => [.field "enableSkillCommands" (some (.bool enabled))]
  | .setShowImages shown => [.nestedKey .terminal "showImages" (.bool shown)]
  | .setClearOnShrink enabled => [.nestedKey .terminal "clearOnShrink" (.bool enabled)]
  | .setImageAutoResize enabled => [.nestedKey .images "autoResize" (.bool enabled)]
  | .setBlockImages blocked => [.nestedKey .images "blockImages" (.bool blocked)]
  | .setEnabledModels patterns => [.field "enabledModels" (patterns.map strings)]
  | .setDoubleEscapeAction action => [.field "doubleEscapeAction" (some (.string action))]
  | .setTreeFilterMode mode => [.field "treeFilterMode" (some (.string mode))]
  | .setShowHardwareCursor enabled => [.field "showHardwareCursor" (some (.bool enabled))]
  | .setEditorPaddingX padding =>
    [.field "editorPaddingX" (some (.number (toString (max 0 (min 3 padding)))))]
  | .setAutocompleteMaxVisible maxVisible =>
    [.field "autocompleteMaxVisible" (some (.number (toString (max 3 (min 20 maxVisible)))))]

def Settings.assign (s : Settings) : Modification → Settings
  | .field name value => s.setField name value
  | .nestedKey field key value =>
    s.setNested field
      (some (Function.update ((s.nested field).getD fun _ => none) key (some value)))

/-- `modifiedFields` and `modifiedNestedFields` of one file. -/
structure Marks where
  fields : List Field
  nestedKeys : List (NestedField × String)

def Marks.none : Marks := { fields := [], nestedKeys := [] }

/-- `markModified` and `markProjectModified`. -/
def Marks.mark (m : Marks) : Modification → Marks
  | .field name _ => { m with fields := m.fields.insert (.plain name) }
  | .nestedKey field key _ =>
    { fields := m.fields.insert (.nested field), nestedKeys := m.nestedKeys.insert (field, key) }

def Marks.keysOf (m : Marks) (field : NestedField) : List String :=
  (m.nestedKeys.filter fun p => p.1 = field).map Prod.snd

def mergeNested (baseNested inMemoryNested : String → Option Json) (nestedModified : List String) :
    String → Option Json :=
  nestedModified.foldl (fun merged key => Function.update merged key (inMemoryNested key))
    baseNested

def mergedValue (current snapshot : Settings) (m : Marks) (field : NestedField) :
    Option (String → Option Json) :=
  match m.keysOf field, snapshot.nested field with
  | key :: keys, some value =>
    some (mergeNested ((current.nested field).getD fun _ => Option.none) value (key :: keys))
  | _, value => value

def mergeField (current snapshot : Settings) (m : Marks) (merged : Settings) : Field → Settings
  | .plain name => merged.setField name (snapshot.field name)
  | .nested field => merged.setNested field (mergedValue current snapshot m field)

/-- The new content of a file that has the given content. -/
def persistScopedSettings (content snapshot : Settings) (m : Marks) : Settings :=
  m.fields.foldl (mergeField (migrateSettings content) snapshot m) (migrateSettings content)

structure WriteTask where
  scope : SettingsScope
  snapshot : Settings
  modified : Marks

/-- `disk` is what is in the two files, as other programs may change it too. -/
structure State where
  disk : SettingsScope → Settings
  memory : SettingsScope → Settings
  modified : SettingsScope → Marks
  writeQueue : List WriteTask
  errors : List SettingsScope

def created (disk : SettingsScope → Settings) : State :=
  { disk
    memory := fun scope => migrateSettings (disk scope)
    modified := fun _ => .none
    writeQueue := []
    errors := [] }

/-- A setter is called, the first write of the queue runs and succeeds or fails, or another program
changes a file. -/
inductive Action where
  | set (setter : Setter)
  | write (succeeds : Bool)
  | edit (scope : SettingsScope) (content : Settings)

def State.set (s : State) (scope : SettingsScope) (modifications : List Modification) : State :=
  let memory := modifications.foldl Settings.assign (s.memory scope)
  let modified := modifications.foldl Marks.mark (s.modified scope)
  { s with
    memory := Function.update s.memory scope memory
    modified := Function.update s.modified scope modified
    writeQueue := s.writeQueue ++ [{ scope, snapshot := memory, modified }] }

def State.write (s : State) (task : WriteTask) (rest : List WriteTask) : Bool → State
  | true =>
    { s with
      disk := Function.update s.disk task.scope
        (persistScopedSettings (s.disk task.scope) task.snapshot task.modified)
      modified := Function.update s.modified task.scope .none
      writeQueue := rest }
  | false => { s with errors := s.errors ++ [task.scope], writeQueue := rest }

def step (s : State) : Action → Option State
  | .set setter => some (s.set setter.scope setter.modifications)
  | .write succeeds =>
    match s.writeQueue with
    | [] => none
    | task :: rest => some (s.write task rest succeeds)
  | .edit scope content => some { s with disk := Function.update s.disk scope content }

end Draht.SettingsManager
