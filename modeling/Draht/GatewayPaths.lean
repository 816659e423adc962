import Draht.PosixPath

/-!
# The directories a gateway session may run in

The request that creates a session names a working directory, which the gateway checks against the
directories of its configuration. The check compares texts; what it stands for is that one directory
lies below the other.
-/

namespace Draht.Gateway
open List

open PosixPath

structure GatewaySettings where
  allowedPaths : List JsText

/-- `~/` is the home directory. -/
def expandHome (homedir path : JsText) : JsText :=
  if [0x7E, slash].isPrefixOf path then join [homedir, path.drop 2] else path

def isPathAllowed (homedir path : JsText) (config : GatewaySettings) : Bool :=
  config.allowedPaths.any fun allowed =>
    (expandHome homedir allowed).isPrefixOf (expandHome homedir path)

/-- A parsed value, as far as the handler tells values apart. -/
inductive BodyValue where
  | string (s : JsText)
  | array (xs : List BodyValue)
  | object (fields : List (JsText × BodyValue))
  | other

def BodyValue.field (key : JsText) : BodyValue → Option BodyValue
  | .object fields => fields.lookup key
  | _ => none

/-- The body as the handler reads it: it has none if the content type is not JSON or the text is
blank. -/
inductive RequestBody where
  | none
  | invalid
  | json (value : BodyValue)

inductive CreateOutcome where
  /-- the status, the message, and the allowed paths if these are sent along -/
  | refused (status : ℕ) (error : JsText) (allowedPaths : Option (List JsText))
  | created (command : Option (List JsText)) (cwd : Option JsText)

def validateCommandFrom : ℕ → List BodyValue → Except JsText (List JsText)
  | _, [] => .ok []
  | i, .string (c :: s) :: xs => (validateCommandFrom (i + 1) xs).map ((c :: s) :: ·)
  | i, _ :: _ =>
    .error (utf16 "command[" ++ utf16 (Nat.repr i) ++ utf16 "] must be a non-empty string")

/-- `validateCommand`; an acceptable value is returned. -/
def validateCommand : BodyValue → Except JsText (List JsText)
  | .array [] => .error (utf16 "command must be a non-empty array")
  | .array xs => validateCommandFrom 0 xs
  | _ => .error (utf16 "command must be an array")

/-- The part of `POST /` that reads `cwd`. -/
def createWithCwd (homedir : JsText) (config : Option GatewaySettings)
    (command : Option (List JsText)) : Option BodyValue → CreateOutcome
  | none => .created command none
  | some (.string (c :: cwd)) =>
    match config with
    | some settings =>
      if isPathAllowed homedir (c :: cwd) settings then .created command (some (c :: cwd))
      else .refused 403 (utf16 "cwd path not allowed") (some settings.allowedPaths)
    | none => .created command (some (c :: cwd))
  | some _ => .refused 400 (utf16 "cwd must be a non-empty string") none

/-- `POST /`: what `manager.create` is called with, or the response that refuses. -/
def createSession (homedir : JsText) (config : Option GatewaySettings) :
    RequestBody → CreateOutcome
  | .none => .created none none
  | .invalid => .refused 400 (utf16 "Invalid JSON body") none
  | .json body =>
    match (body.field (utf16 "command")).map validateCommand with
    | some (.error message) => .refused 400 message none
    | some (.ok command) => createWithCwd homedir config (some command) (body.field (utf16 "cwd"))
    | none => createWithCwd homedir config none (body.field (utf16 "cwd"))

/-- A request for a session in `cwd`: its command, if it has one, is acceptable. -/
def RequestsCwd (request : RequestBody) (cwd : JsText) : Prop :=
  ∃ body, request = .json body ∧ body.field (utf16 "cwd") = some (.string cwd) ∧ cwd ≠ [] ∧
    ∀ command, body.field (utf16 "command") = some command → ∃ c, validateCommand command = .ok c

def CreatesIn (homedir : JsText) (config : GatewaySettings) (request : RequestBody)
    (cwd : JsText) : Prop :=
  ∃ command, createSession homedir (some config) request = .created command (some cwd)

/-- The directory is one of the allowed ones or lies below one, both with `~/` expanded and
resolved. -/
def InsideAllowed (homedir : JsText) (config : GatewaySettings) (cwd : JsText) : Prop :=
  isAbsolute (expandHome homedir cwd) = true ∧
    ∃ allowed ∈ config.allowedPaths,
      names (expandHome homedir allowed) <+: names (expandHome homedir cwd)

instance (homedir : JsText) (config : GatewaySettings) (cwd : JsText) :
    Decidable (InsideAllowed homedir config cwd) :=
  inferInstanceAs (Decidable (_ = true ∧ ∃ allowed ∈ config.allowedPaths, _ <+: _))

/-- The allowed paths are absolute or start with `~/`. -/
def AbsolutePaths (config : GatewaySettings) : Prop :=
  ∀ allowed ∈ config.allowedPaths,
    isAbsolute allowed = true ∨ [0x7E, slash].isPrefixOf allowed = true

variable {homedir cwd p : JsText} {config : GatewaySettings}

theorem createSession_iff {request : RequestBody}
    (h : RequestsCwd request cwd) :
    CreatesIn homedir config request cwd ↔ isPathAllowed homedir cwd config = true := by
  obtain ⟨body, rfl, hcwd, hne, hcommand⟩ := h
  obtain ⟨c, rest, rfl⟩ := exists_cons_of_ne_nil hne
  have hcreate (command : Option (List JsText)) :
      (∃ command', createWithCwd homedir (some config) command (some (.string (c :: rest))) =
        .created command' (some (c :: rest))) ↔
      isPathAllowed homedir (c :: rest) config = true := by
    unfold createWithCwd
    by_cases hallowed : isPathAllowed homedir (c :: rest) config = true <;> simp [hallowed]
  unfold CreatesIn createSession
  simp only [hcwd]
  cases hfield : body.field (utf16 "command") with
  | none => exact hcreate none
  | some command =>
    obtain ⟨accepted, haccepted⟩ := hcommand command hfield
    simp only [Option.map_some, haccepted]
    exact hcreate (some accepted)

theorem exists_requestsCwd (h : cwd ≠ []) : ∃ request, RequestsCwd request cwd := by
  let body : BodyValue := .object [(utf16 "cwd", .string cwd)]
  have hcommand : body.field (utf16 "command") = none := by
    have hkeys : utf16 "command" ≠ utf16 "cwd" := by decide
    simp [body, BodyValue.field, hkeys]
  refine ⟨.json body, body, rfl, ?_, h, fun command hfield => ?_⟩
  · simp [body, BodyValue.field]
  · simp [hcommand] at hfield

theorem expandHome_of_absolute (h : isAbsolute p = true) :
    expandHome homedir p = p := by
  cases p with
  | nil => simp [isAbsolute] at h
  | cons c p =>
    have hc : c = slash := by simpa [isAbsolute] using h
    simp [expandHome, hc, slash]

theorem isAbsolute_expandHome (hhome : isAbsolute homedir = true)
    (h : isAbsolute p = true ∨ [0x7E, slash].isPrefixOf p = true) :
    isAbsolute (expandHome homedir p) = true := by
  obtain h | h := h
  · rwa [expandHome_of_absolute h]
  · rw [expandHome, if_pos h]
    exact isAbsolute_join hhome _

theorem isPathAllowed_iff {path : JsText} :
    isPathAllowed homedir path config = true ↔
      ∃ allowed ∈ config.allowedPaths, expandHome homedir allowed <+: expandHome homedir path := by
  simp [isPathAllowed]

/-- An absolute path without `.`, `..`, empty segments or a trailing slash. -/
def Resolved (p : JsText) : Prop := render (names p) = p

instance (p : JsText) : Decidable (Resolved p) := inferInstanceAs (Decidable (_ = _))

/-- The text of `allowed` is a part of the text of `p` that ends where a name of `p` ends. -/
def EndsAtName (allowed p : JsText) : Prop :=
  allowed = [slash] ∨ allowed = p ∨ allowed ++ [slash] <+: p

/-- The text of `allowed` is a part of the text of `p` that ends inside a name, like that of a
sibling directory. -/
def StopsInsideName (allowed p : JsText) : Prop := allowed <+: p ∧ ¬EndsAtName allowed p

instance (allowed p : JsText) : Decidable (EndsAtName allowed p) :=
  inferInstanceAs (Decidable (_ ∨ _ ∨ _))

instance (allowed p : JsText) : Decidable (StopsInsideName allowed p) :=
  inferInstanceAs (Decidable (_ ∧ _))

theorem Resolved.isAbsolute (h : Resolved p) : PosixPath.isAbsolute p = true := by
  rw [← h]
  exact isAbsolute_render _

theorem EndsAtName.isPrefix {allowed : JsText} (h : EndsAtName allowed p)
    (hp : PosixPath.isAbsolute p = true) : allowed <+: p := by
  obtain rfl | rfl | h := h
  · cases p with
    | nil => simp [PosixPath.isAbsolute] at hp
    | cons c p =>
      have hc : c = slash := by simpa [PosixPath.isAbsolute] using hp
      exact ⟨p, by rw [hc]; rfl⟩
  · exact prefix_rfl
  · exact (prefix_append allowed [slash]).trans h

theorem Resolved.endsAtName_iff {allowed : JsText} (hallowed : Resolved allowed)
    (hp : Resolved p) : EndsAtName allowed p ↔ names allowed <+: names p := by
  rw [prefix_iff (names_isName hallowed.isAbsolute) (names_isName hp.isAbsolute), hallowed, hp]
  have hroot : names allowed = [] ↔ allowed = [slash] := by
    constructor
    · intro h
      rw [← show render (names allowed) = allowed from hallowed, h]
      rfl
    · rintro rfl
      decide
  rw [hroot]
  exact Iff.rfl

theorem allowed_iff_of_resolved
    (hcwd : Resolved (expandHome homedir cwd))
    (hallowed : ∀ allowed ∈ config.allowedPaths, Resolved (expandHome homedir allowed)) :
    (isPathAllowed homedir cwd config = true ↔ InsideAllowed homedir config cwd) ↔
      ((∃ allowed ∈ config.allowedPaths,
          StopsInsideName (expandHome homedir allowed) (expandHome homedir cwd)) →
        ∃ allowed ∈ config.allowedPaths,
          EndsAtName (expandHome homedir allowed) (expandHome homedir cwd)) := by
  have hinside : InsideAllowed homedir config cwd ↔
      ∃ allowed ∈ config.allowedPaths,
        EndsAtName (expandHome homedir allowed) (expandHome homedir cwd) := by
    constructor
    · rintro ⟨-, allowed, hmem, hnames⟩
      exact ⟨allowed, hmem, ((hallowed allowed hmem).endsAtName_iff hcwd).mpr hnames⟩
    · rintro ⟨allowed, hmem, hends⟩
      exact ⟨hcwd.isAbsolute, allowed, hmem, ((hallowed allowed hmem).endsAtName_iff hcwd).mp hends⟩
  rw [hinside, isPathAllowed_iff]
  constructor
  · rintro h ⟨allowed, hmem, hstarts, -⟩
    exact h.mp ⟨allowed, hmem, hstarts⟩
  · intro h
    constructor
    · rintro ⟨allowed, hmem, hstarts⟩
      by_cases hends : EndsAtName (expandHome homedir allowed) (expandHome homedir cwd)
      · exact ⟨allowed, hmem, hends⟩
      · exact h ⟨allowed, hmem, hstarts, hends⟩
    · rintro ⟨allowed, hmem, hends⟩
      exact ⟨allowed, hmem, hends.isPrefix hcwd.isAbsolute⟩

/-- The path with `/..` written `n` times after it. -/
def climb (p : JsText) : ℕ → JsText
  | 0 => p
  | n + 1 => climb p n ++ slash :: dotDot

theorem climb_spec (h : PosixPath.isAbsolute p = true) (n : ℕ) :
    PosixPath.isAbsolute (climb p n) = true ∧ p <+: climb p n ∧
      names (climb p n) = (names p).take ((names p).length - n) := by
  induction n with
  | zero => exact ⟨h, prefix_rfl, by simp [climb]⟩
  | succ n ih =>
    obtain ⟨habs, hstarts, hnames⟩ := ih
    refine ⟨isAbsolute_append habs _, hstarts.trans (prefix_append _ _), ?_⟩
    rw [climb, names_append_dotDot habs, hnames, dropLast_eq_take, take_take, length_take]
    congr 1
    omega

theorem allowed_of_root
    (hhome : PosixPath.isAbsolute homedir = true) (hpaths : AbsolutePaths config)
    (hroot : ∃ allowed ∈ config.allowedPaths, expandHome homedir allowed = [slash]) :
    isPathAllowed homedir cwd config = true ↔ InsideAllowed homedir config cwd := by
  rw [isPathAllowed_iff]
  obtain ⟨root, hmem, hroot⟩ := hroot
  constructor
  · rintro ⟨allowed, hallowed, rest, hrest⟩
    have habs := isAbsolute_expandHome hhome (hpaths allowed hallowed)
    refine ⟨?_, root, hmem, ?_⟩
    · rw [← hrest]
      exact isAbsolute_append habs _
    · rw [hroot]
      exact nil_prefix
  · rintro ⟨habs, -⟩
    exact ⟨root, hmem, EndsAtName.isPrefix (.inl hroot) habs⟩

theorem exists_disagreement
    (hhome : PosixPath.isAbsolute homedir = true) (hpaths : AbsolutePaths config)
    (hne : config.allowedPaths ≠ [])
    (hroot : ∀ allowed ∈ config.allowedPaths, expandHome homedir allowed ≠ [slash]) :
    ∃ cwd, cwd ≠ [] ∧
      ¬(isPathAllowed homedir cwd config = true ↔ InsideAllowed homedir config cwd) := by
  have hexpand (cwd : JsText) (h : PosixPath.isAbsolute cwd = true) :
      expandHome homedir cwd = cwd := expandHome_of_absolute h
  by_cases htop : ∃ allowed ∈ config.allowedPaths, names (expandHome homedir allowed) = []
  · -- the root itself is inside, and no text but its own begins it
    obtain ⟨allowed, hmem, hnames⟩ := htop
    refine ⟨[slash], by simp, fun h => ?_⟩
    have hinside : InsideAllowed homedir config [slash] :=
      ⟨by rw [hexpand [slash] rfl]; rfl, allowed, hmem, by rw [hnames]; exact nil_prefix⟩
    obtain ⟨found, hfound, hstarts⟩ := isPathAllowed_iff.mp (h.mpr hinside)
    have habs := isAbsolute_expandHome hhome (hpaths found hfound)
    obtain hnil | ⟨rest, heq, hrest⟩ := prefix_cons_iff.mp hstarts
    · rw [hnil] at habs
      simp [PosixPath.isAbsolute] at habs
    · rw [prefix_nil.mp hrest] at heq
      exact hroot found hfound heq
  · -- climbing out of an allowed directory reaches the root, which is outside
    obtain ⟨allowed, hmem⟩ := exists_mem_of_ne_nil _ hne
    have habs := isAbsolute_expandHome hhome (hpaths allowed hmem)
    obtain ⟨hclimb, hstarts, hnames⟩ :=
      climb_spec habs (names (expandHome homedir allowed)).length
    rw [Nat.sub_self, take_zero] at hnames
    refine ⟨climb (expandHome homedir allowed) (names (expandHome homedir allowed)).length, ?_,
      fun h => ?_⟩
    · intro hnil
      rw [hnil] at hclimb
      simp [PosixPath.isAbsolute] at hclimb
    · obtain ⟨-, found, hfound, hinside⟩ := h.mp (isPathAllowed_iff.mpr
        ⟨allowed, hmem, by rwa [hexpand _ hclimb]⟩)
      rw [hexpand _ hclimb, hnames, prefix_nil] at hinside
      exact htop ⟨found, hfound, hinside⟩

/-- A configuration treats every request as it should exactly if nothing is allowed or `/` is. Where
all paths are written resolved, one request is treated so exactly if no allowed path ends inside a
name of the directory, or another one ends where a name does. -/
theorem sessions_inside_iff (homedir : JsText) (config : GatewaySettings)
    (hhome : PosixPath.isAbsolute homedir = true) (hpaths : AbsolutePaths config) :
    ((∀ request cwd, RequestsCwd request cwd →
        (CreatesIn homedir config request cwd ↔ InsideAllowed homedir config cwd)) ↔
      (config.allowedPaths = [] ∨
        ∃ allowed ∈ config.allowedPaths, expandHome homedir allowed = [slash])) ∧
    ∀ request cwd, RequestsCwd request cwd → Resolved (expandHome homedir cwd) →
      (∀ allowed ∈ config.allowedPaths, Resolved (expandHome homedir allowed)) →
      ((CreatesIn homedir config request cwd ↔ InsideAllowed homedir config cwd) ↔
        ((∃ allowed ∈ config.allowedPaths,
            StopsInsideName (expandHome homedir allowed) (expandHome homedir cwd)) →
          ∃ allowed ∈ config.allowedPaths,
            EndsAtName (expandHome homedir allowed) (expandHome homedir cwd))) := by
  constructor
  · constructor
    · intro hall
      by_contra hnot
      push Not at hnot
      obtain ⟨cwd, hcwd, hdisagree⟩ := exists_disagreement hhome hpaths hnot.1 hnot.2
      obtain ⟨request, hrequest⟩ := exists_requestsCwd hcwd
      have hagree := hall request cwd hrequest
      rw [createSession_iff hrequest] at hagree
      exact hdisagree hagree
    · rintro hconfig request cwd hrequest
      rw [createSession_iff hrequest]
      obtain hnil | hroot := hconfig
      · rw [isPathAllowed_iff, InsideAllowed, hnil]
        simp
      · exact allowed_of_root hhome hpaths hroot
  · intro request cwd hrequest hcwd hallowed
    rw [createSession_iff hrequest]
    exact allowed_iff_of_resolved hcwd hallowed

def homeConfig : GatewaySettings := ⟨[utf16 "~/projects"]⟩

theorem homeConfig_absolutePaths : AbsolutePaths homeConfig := by
  intro allowed hmem
  rw [mem_singleton.mp hmem]
  exact .inr (by decide)

theorem sessions_inside_iff_homeConfig :
    isAbsolute (utf16 "/home/user") = true ∧ AbsolutePaths homeConfig ∧
    ¬(∀ request cwd, RequestsCwd request cwd →
      (CreatesIn (utf16 "/home/user") homeConfig request cwd ↔
        InsideAllowed (utf16 "/home/user") homeConfig cwd)) ∧
    ∀ request, RequestsCwd request (utf16 "/home/user/projects/site") →
      (CreatesIn (utf16 "/home/user") homeConfig request (utf16 "/home/user/projects/site") ↔
        InsideAllowed (utf16 "/home/user") homeConfig (utf16 "/home/user/projects/site")) := by
  have habs : isAbsolute (utf16 "/home/user") = true := by decide
  have hiff := sessions_inside_iff (utf16 "/home/user") homeConfig habs homeConfig_absolutePaths
  refine ⟨habs, homeConfig_absolutePaths, fun hall => ?_, fun request hrequest => ?_⟩
  · have hconfig := hiff.1.mp hall
    revert hconfig
    decide +kernel
  · exact (hiff.2 request _ hrequest (by decide +kernel) (by decide +kernel)).mpr
      (by decide +kernel)

/-- Next to the allowed directory, and above it by `..`, sessions are created. -/
theorem sibling_session_created :
    (∃ request, RequestsCwd request (utf16 "/home/user/projects-private") ∧
      CreatesIn (utf16 "/home/user") homeConfig request (utf16 "/home/user/projects-private") ∧
      ¬InsideAllowed (utf16 "/home/user") homeConfig (utf16 "/home/user/projects-private")) ∧
    ∃ request, RequestsCwd request (utf16 "/home/user/projects/../.ssh") ∧
      CreatesIn (utf16 "/home/user") homeConfig request (utf16 "/home/user/projects/../.ssh") ∧
      ¬InsideAllowed (utf16 "/home/user") homeConfig (utf16 "/home/user/projects/../.ssh") := by
  constructor
  · obtain ⟨request, hrequest⟩ :=
      exists_requestsCwd (show utf16 "/home/user/projects-private" ≠ [] by decide +kernel)
    exact ⟨request, hrequest, (createSession_iff hrequest).mpr (by decide +kernel),
      by decide +kernel⟩
  · obtain ⟨request, hrequest⟩ :=
      exists_requestsCwd (show utf16 "/home/user/projects/../.ssh" ≠ [] by decide +kernel)
    exact ⟨request, hrequest, (createSession_iff hrequest).mpr (by decide +kernel),
      by decide +kernel⟩

end Draht.Gateway
