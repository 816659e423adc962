import Draht.GitSource

/-!
# The directories of git packages

Where a git package is cloned to, and which directories go when it is removed: its own, and then the
parents that are left empty, up to the install root.
-/

namespace Draht

open PosixPath

inductive SourceScope where
  | user
  | project
  | temporary
deriving DecidableEq

/-- The directories of a package manager; `processCwd` is what `resolve` starts from. -/
structure PackageDirs where
  agentDir : JsText
  cwd : JsText
  processCwd : JsText
  temporaryDir : JsText → JsText → JsText

/-- What the file system says of a directory when it is looked at. -/
inductive DirectoryLook where
  | missing
  | occupied
  | empty
  | locked
deriving DecidableEq

namespace PackageDirs

variable (dirs : PackageDirs)

def getGitInstallPath (source : GitSource) : SourceScope → JsText
  | .temporary => dirs.temporaryDir (utf16 "git-" ++ source.host) source.path
  | .project => join [dirs.cwd, utf16 ".draht", utf16 "git", source.host, source.path]
  | .user => join [dirs.agentDir, utf16 "git", source.host, source.path]

def getGitInstallRoot : SourceScope → Option JsText
  | .temporary => none
  | .project => some (join [dirs.cwd, utf16 ".draht", utf16 "git"])
  | .user => some (join [dirs.agentDir, utf16 "git"])

/-- The loop of `pruneEmptyGitParents`, for some number of turns: the directories that it removes.
`look i` is what the `i`-th turn finds. -/
def pruneFrom (look : ℕ → DirectoryLook) (resolvedRoot : JsText) : ℕ → ℕ → JsText → List JsText
  | 0, _, _ => []
  | turns + 1, i, current =>
    if resolvedRoot.isPrefixOf current ∧ current ≠ resolvedRoot then
      match look i with
      | .missing => pruneFrom look resolvedRoot turns (i + 1) (dirname current)
      | .occupied | .locked => []
      | .empty => current :: pruneFrom look resolvedRoot turns (i + 1) (dirname current)
    else []

def pruneEmptyGitParents (look : ℕ → DirectoryLook) (turns : ℕ) (targetDir : JsText) :
    Option JsText → List JsText
  | none => []
  | some installRoot =>
    pruneFrom look (resolve dirs.processCwd installRoot) turns 0 (dirname targetDir)

/-- The directories that `removeGit` removes, if there is a directory to remove. -/
def removeGit (look : ℕ → DirectoryLook) (turns : ℕ) (source : GitSource) (scope : SourceScope) :
    List JsText :=
  let targetDir := dirs.getGitInstallPath source scope
  targetDir :: dirs.pruneEmptyGitParents look turns targetDir (dirs.getGitInstallRoot scope)

/-- `path` lies below `root`, and is not `root` itself. -/
def StrictlyBelow (root path : JsText) : Prop :=
  located dirs.processCwd root <+: located dirs.processCwd path ∧
    located dirs.processCwd root ≠ located dirs.processCwd path

/-- The directory that is cloned into and removed, and all the parents that are removed with it,
are strictly below the root. -/
def RemovesBelow (source : GitSource) (scope : SourceScope) (root : JsText) : Prop :=
  dirs.StrictlyBelow root (dirs.getGitInstallPath source scope) ∧
    ∀ look turns, ∀ path ∈ dirs.removeGit look turns source scope, dirs.StrictlyBelow root path

/-- The host and the path, resolved by themselves, go at least one level down; the levels that they
climb first they come down again by the same names. -/
def StaysBelow (rootNames : List JsText) (host path : JsText) : Prop :=
  let way := relative (segments host ++ segments path)
  rootNames.drop (rootNames.length - way.ups) <+: way.names ∧
    rootNames.drop (rootNames.length - way.ups) ≠ way.names

instance (rootNames : List JsText) (host path : JsText) :
    Decidable (StaysBelow rootNames host path) :=
  inferInstanceAs (Decidable (_ ∧ _))

variable {dirs} {source : GitSource} {scope : SourceScope} {root : JsText}

theorem located_getGitInstallPath (hcwd : isAbsolute dirs.processCwd = true)
    (hroot : dirs.getGitInstallRoot scope = some root) :
    located dirs.processCwd (dirs.getGitInstallPath source scope) =
      (segments source.host ++ segments source.path).foldl (descend false)
        (located dirs.processCwd root) := by
  have hflat (start : List JsText) :
      (start ++ [source.host, source.path]).flatMap segments =
        start.flatMap segments ++ (segments source.host ++ segments source.path) := by
    simp
  cases scope with
  | temporary => simp [getGitInstallRoot] at hroot
  | project =>
    cases hroot
    have hall := hflat [utf16 ".draht", utf16 "git"]
    rw [getGitInstallPath, located_join_cons hcwd _ (by decide) (by decide),
      located_join_cons hcwd _ (by decide) (by decide), ← List.foldl_append, ← hall]
    rfl
  | user =>
    cases hroot
    have hall := hflat [utf16 "git"]
    rw [getGitInstallPath, located_join_cons hcwd _ (by decide) (by decide),
      located_join_cons hcwd _ (by decide) (by decide), ← List.foldl_append, ← hall]
    rfl

theorem strictlyBelow_iff {rootNames segments : List JsText}
    (hroot : ∀ n ∈ rootNames, n ≠ dotDot) :
    (rootNames <+: segments.foldl (descend false) rootNames ∧
        rootNames ≠ segments.foldl (descend false) rootNames) ↔
      rootNames.drop (rootNames.length - (relative segments).ups) <+: (relative segments).names ∧
        rootNames.drop (rootNames.length - (relative segments).ups) ≠
          (relative segments).names := by
  have hcancel (start xs ys : List JsText) :
      (start ++ xs <+: start ++ ys ∧ start ++ xs ≠ start ++ ys) ↔ xs <+: ys ∧ xs ≠ ys := by
    rw [List.prefix_append_right_inj, ne_eq, List.append_right_inj]
  have h := hcancel (rootNames.take (rootNames.length - (relative segments).ups))
    (rootNames.drop (rootNames.length - (relative segments).ups)) (relative segments).names
  rwa [List.take_append_drop, ← foldl_descend_eq segments hroot] at h

theorem target_strictlyBelow_iff (hcwd : isAbsolute dirs.processCwd = true)
    (hroot : dirs.getGitInstallRoot scope = some root) :
    dirs.StrictlyBelow root (dirs.getGitInstallPath source scope) ↔
      StaysBelow (located dirs.processCwd root) source.host source.path := by
  rw [StrictlyBelow, located_getGitInstallPath hcwd hroot]
  exact strictlyBelow_iff fun n hn => (located_clean hcwd n hn).ne_dotDot

theorem isPrefixOf_relative {root path : JsText} (hroot : isAbsolute root = true)
    (hpath : isAbsolute path = false) : root.isPrefixOf path = false := by
  cases root with
  | nil => simp [isAbsolute] at hroot
  | cons c root =>
    cases path with
    | nil => rfl
    | cons d path =>
      have hc : c = slash := by simpa [isAbsolute] using hroot
      have hd : d ≠ slash := by simpa [isAbsolute] using hpath
      simp [List.isPrefixOf, hc, Ne.symm hd]

theorem isAbsolute_dirname {p : JsText} (h : isAbsolute p = false) :
    isAbsolute (dirname p) = false := by
  cases p with
  | nil => rfl
  | cons c p =>
    have hc : c ≠ slash := by simpa [isAbsolute] using h
    rw [dirname]
    split_ifs
    · rfl
    · simp_all
    · simpa [isAbsolute] using hc

theorem pruneFrom_below (cwd : JsText) (look : ℕ → DirectoryLook)
    {rootNames : List JsText} (turns i : ℕ) {down : List JsText}
    (hnames : ∀ n ∈ rootNames ++ down, IsName n) :
    ∀ path ∈ pruneFrom look (render rootNames) turns i (render (rootNames ++ down)),
      rootNames <+: located cwd path ∧ rootNames ≠ located cwd path := by
  induction turns generalizing i down with
  | zero => simp [pruneFrom]
  | succ turns ih =>
    rw [pruneFrom]
    by_cases hnil : down = []
    · simp [hnil]
    · have hdown : down.dropLast <+: down := List.dropLast_prefix down
      have hparent : dirname (render (rootNames ++ down)) =
          render (rootNames ++ down.dropLast) := by
        have h := dirname_render hnames false
        rwa [if_neg Bool.false_ne_true, List.append_nil, List.dropLast_append_of_ne_nil hnil] at h
      have hclean : ∀ n ∈ rootNames ++ down.dropLast, IsName n := by
        intro n hn
        obtain hn | hn := List.mem_append.mp hn
        · exact hnames n (List.mem_append_left _ hn)
        · exact hnames n (List.mem_append_right _ (hdown.subset hn))
      have hrest := ih (i + 1) hclean
      have hself : located cwd (render (rootNames ++ down)) = rootNames ++ down := by
        have h := located_render hnames cwd false
        rwa [if_neg Bool.false_ne_true, List.append_nil] at h
      have hbelow : rootNames <+: located cwd (render (rootNames ++ down)) ∧
          rootNames ≠ located cwd (render (rootNames ++ down)) := by
        rw [hself]
        refine ⟨List.prefix_append _ _, fun h => hnil ?_⟩
        simpa using h.symm
      rw [hparent]
      intro path hpath
      split_ifs at hpath
      · split at hpath
        · exact hrest path hpath
        · simp at hpath
        · simp at hpath
        · obtain rfl | hpath := List.mem_cons.mp hpath
          · exact hbelow
          · exact hrest path hpath
      · simp at hpath

theorem isAbsolute_resolve (cwd p : JsText) : isAbsolute (resolve cwd p) = true :=
  isAbsolute_render _

theorem pruneFrom_relative (look : ℕ → DirectoryLook) {resolvedRoot current : JsText}
    (hroot : isAbsolute resolvedRoot = true) (hcurrent : isAbsolute current = false)
    (turns i : ℕ) : pruneFrom look resolvedRoot turns i current = [] := by
  cases turns with
  | zero => rfl
  | succ turns =>
    rw [pruneFrom, if_neg]
    rintro ⟨hstarts, -⟩
    rw [isPrefixOf_relative hroot hcurrent] at hstarts
    simp at hstarts

theorem getGitInstallPath_form (hroot : dirs.getGitInstallRoot scope = some root) :
    ∃ parts, dirs.getGitInstallPath source scope = join parts := by
  cases scope with
  | temporary => simp [getGitInstallRoot] at hroot
  | project => exact ⟨_, rfl⟩
  | user => exact ⟨_, rfl⟩

theorem removeGit_below (hroot : dirs.getGitInstallRoot scope = some root)
    (htarget : dirs.StrictlyBelow root (dirs.getGitInstallPath source scope))
    (look : ℕ → DirectoryLook) (turns : ℕ) :
    ∀ path ∈ dirs.removeGit look turns source scope, dirs.StrictlyBelow root path := by
  rw [removeGit, hroot]
  intro path hpath
  obtain rfl | hpath := List.mem_cons.mp hpath
  · exact htarget
  rw [pruneEmptyGitParents] at hpath
  obtain ⟨parts, hparts⟩ := getGitInstallPath_form hroot
  cases habs : isAbsolute (dirs.getGitInstallPath source scope) with
  | false =>
    rw [pruneFrom_relative look (isAbsolute_resolve _ _) (isAbsolute_dirname habs)] at hpath
    simp at hpath
  | true =>
    rw [hparts] at habs
    obtain ⟨ns, trailing, hns, hform⟩ := join_form habs
    obtain ⟨⟨down, hdown⟩, hne⟩ := htarget
    rw [hparts, hform, located_render hns] at hdown hne
    have hnil : down ≠ [] := by
      rintro rfl
      exact hne (by rw [← hdown, List.append_nil])
    rw [hparts, hform, dirname_render hns, ← hdown, List.dropLast_append_of_ne_nil hnil] at hpath
    refine pruneFrom_below dirs.processCwd look turns 0 (fun n hn => hns n ?_) path hpath
    rw [← hdown]
    obtain hn | hn := List.mem_append.mp hn
    · exact List.mem_append_left _ hn
    · exact List.mem_append_right _ (List.dropLast_subset _ hn)

end PackageDirs

def GitLibraries.PlainHosts (libs : GitLibraries) : Prop :=
  ∀ text info, libs.fromUrl text = some info →
    IsName info.domain ∧ IsName info.user ∧ IsName info.project

namespace GitSource

variable {libs : GitLibraries}

theorem findHosted_plain (h : libs.PlainHosts) {ref : Option JsText} {candidates : List JsText}
    {info : HostedInfo} (hinfo : findHosted libs ref candidates = some info) :
    IsName info.domain ∧ IsName info.user ∧ IsName info.project := by
  obtain ⟨candidate, -, hfilter⟩ := List.exists_of_findSome?_eq_some hinfo
  exact h candidate info (Option.filter_eq_some_iff.mp hfilter).1

theorem parseHosted_form {url : JsText} {source : GitSource}
    (h : parseHosted libs url = some source) :
    ∃ ref candidates info repo, findHosted libs ref candidates = some info ∧
      source = hostedSource info repo ref := by
  unfold parseHosted at h
  dsimp only at h
  split at h
  · rename_i info hinfo
    exact ⟨_, _, info, _, hinfo, (Option.some.inj h).symm⟩
  · obtain ⟨info, hinfo, hsource⟩ := Option.map_eq_some_iff.mp h
    exact ⟨_, _, info, _, hinfo, hsource.symm⟩

theorem stripGitSuffix_hosted (user project : JsText) :
    ∃ rest, rest <+: project ∧
      stripGitSuffix (user ++ slash :: project) = user ++ slash :: rest := by
  unfold stripGitSuffix
  split_ifs with hsuffix
  · have hgit := List.isSuffixOf_iff_suffix.mp hsuffix
    have hlength : 4 ≤ project.length := by
      by_contra hshort
      have hslash := List.suffix_of_suffix_length_le (List.suffix_append user (slash :: project))
        hgit (by simp [utf16, utf16Chars]; omega)
      have hmem := hslash.subset (List.mem_cons_self)
      revert hmem
      decide
    refine ⟨project.take (project.length - 4), List.take_prefix _ _, ?_⟩
    have hcount : (user ++ slash :: project).length - 4 =
        user.length + (project.length - 4 + 1) := by
      simp only [List.length_append, List.length_cons]
      omega
    rw [hcount, List.take_length_add_append, List.take_succ_cons]
  · exact ⟨project, List.prefix_rfl, rfl⟩

theorem segments_of_no_slash {p : JsText} (h : slash ∉ p) : segments p = [] ∨ segments p = [p] := by
  rw [segments, List.splitOn_eq_singleton h]
  by_cases hp : p ≠ [] ∧ p ≠ dot
  · exact .inr (by simp [hp])
  · exact .inl (by simpa using hp)

theorem hosted_staysBelow (hlibs : libs.PlainHosts) {url : JsText} {source : GitSource}
    (h : parseHosted libs url = some source) (rootNames : List JsText) :
    PackageDirs.StaysBelow rootNames source.host source.path := by
  obtain ⟨ref, candidates, info, repo, hinfo, rfl⟩ := parseHosted_form h
  obtain ⟨hdomain, huser, hproject⟩ := findHosted_plain hlibs hinfo
  obtain ⟨rest, hrest, hpath⟩ := stripGitSuffix_hosted info.user info.project
  have hslash : slash ∉ rest := fun hmem => hproject.no_slash (hrest.subset hmem)
  have hbase : relative [info.domain, info.user] = ⟨0, [info.domain, info.user]⟩ := by
    simp [relative, Relative.descend, hdomain.ne_dotDot, huser.ne_dotDot]
  -- the last segment goes down by one name more or up again by one
  have hway : (relative ([info.domain, info.user] ++ segments rest)).ups = 0 ∧
      (relative ([info.domain, info.user] ++ segments rest)).names ≠ [] := by
    obtain hnil | hone := segments_of_no_slash hslash
    · rw [hnil, List.append_nil, hbase]
      simp
    · rw [hone, relative_concat, hbase, Relative.descend]
      split_ifs <;> simp_all
  have hsegments : segments info.domain ++ segments (info.user ++ slash :: rest) =
      [info.domain, info.user] ++ segments rest := by
    rw [segments_append, segments_of_isSegment hdomain.toIsSegment,
      segments_of_isSegment huser.toIsSegment]
    rfl
  unfold PackageDirs.StaysBelow hostedSource
  simp only [hpath, hsegments, hway.1, Nat.sub_zero, List.drop_length]
  exact ⟨List.nil_prefix, fun hnil => hway.2 hnil.symm⟩

end GitSource

namespace PackageDirs

/-- The directory of an accepted source, and the parents that are removed with it, are strictly
below the install root exactly if the host is a known one, or the host and the path that the source
names go down from the root. -/
theorem removesBelow_iff (libs : GitLibraries) (hlibs : libs.PlainHosts) (dirs : PackageDirs)
    (hcwd : isAbsolute dirs.processCwd = true) {text : JsText} {source : GitSource}
    (h : GitSource.parseGitUrl libs text = some source) {scope : SourceScope} {root : JsText}
    (hroot : dirs.getGitInstallRoot scope = some root) :
    dirs.RemovesBelow source scope root ↔
      (GitSource.parseHosted libs (GitSource.address text)).isSome = true ∨
        StaysBelow (located dirs.processCwd root) source.host source.path := by
  have htarget : dirs.StrictlyBelow root (dirs.getGitInstallPath source scope) ↔
      StaysBelow (located dirs.processCwd root) source.host source.path :=
    target_strictlyBelow_iff hcwd hroot
  have hremoves : dirs.RemovesBelow source scope root ↔
      StaysBelow (located dirs.processCwd root) source.host source.path := by
    rw [← htarget]
    exact ⟨And.left, fun hbelow => ⟨hbelow, removeGit_below hroot hbelow⟩⟩
  rw [hremoves]
  refine ⟨.inr, fun hor => ?_⟩
  obtain hhosted | hbelow := hor
  · obtain ⟨hosted, hhosted⟩ := Option.isSome_iff_exists.mp hhosted
    unfold GitSource.parseGitUrl at h
    dsimp only at h
    split_ifs at h
    rw [hhosted, Option.some_or] at h
    cases h
    exact GitSource.hosted_staysBelow hlibs hhosted _
  · exact hbelow

def noHosts : GitLibraries := ⟨fun _ => none, fun _ => none⟩

theorem noHosts_plainHosts : noHosts.PlainHosts := by
  intro text info h
  simp [noHosts] at h

def exampleDirs : PackageDirs where
  agentDir := utf16 "/home/user/.draht/agent"
  cwd := utf16 "/home/user/site"
  processCwd := utf16 "/home/user/site"
  temporaryDir _ suffix := suffix

theorem removesBelow_teamTools :
    ∃ source root,
      GitSource.parseGitUrl noHosts (utf16 "git:git@git.example.org:team/tools.git@v1") =
        some source ∧
      exampleDirs.getGitInstallRoot .user = some root ∧
      exampleDirs.RemovesBelow source .user root := by
  have hparse : GitSource.parseGitUrl noHosts (utf16 "git:git@git.example.org:team/tools.git@v1") =
      some ⟨utf16 "git@git.example.org:team/tools.git", utf16 "git.example.org",
        utf16 "team/tools", some (utf16 "v1"), true⟩ := by
    decide +kernel
  refine ⟨_, _, hparse, rfl, ?_⟩
  apply (removesBelow_iff noHosts noHosts_plainHosts exampleDirs (by decide) hparse rfl).mpr
  exact .inr (by decide +kernel)

/-- The `..` of an scp-like address lead out of the install root. -/
theorem dotDot_source_removes_outside :
    ∃ source,
      GitSource.parseGitUrl noHosts (utf16 "git:git@git.example.org:../../../../projects/site") =
        some source ∧
      exampleDirs.getGitInstallRoot .user = some (utf16 "/home/user/.draht/agent/git") ∧
      exampleDirs.getGitInstallPath source .user = utf16 "/home/user/projects/site" ∧
      ¬exampleDirs.RemovesBelow source .user (utf16 "/home/user/.draht/agent/git") := by
  have hparse : GitSource.parseGitUrl noHosts
      (utf16 "git:git@git.example.org:../../../../projects/site") =
      some ⟨utf16 "git@git.example.org:../../../../projects/site", utf16 "git.example.org",
        utf16 "../../../../projects/site", none, false⟩ := by
    decide +kernel
  refine ⟨_, hparse, by decide +kernel, by decide +kernel, fun h => ?_⟩
  exact absurd h.1.1 (by decide +kernel)

end PackageDirs

end Draht
