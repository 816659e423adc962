import Draht.PosixPath
import Draht.TextSearch

/-!
# Git sources

How the source text of a git package is read: an scp-like address, a URL, a shorthand, or anything
that the table of known hosts recognises, each with its own way to carry a ref.
-/

namespace Draht

open PosixPath (slash)

/-- What the table of known hosts says of an address; the user and the project as a template
string writes them. -/
structure HostedInfo where
  domain : JsText
  user : JsText
  project : JsText
  committish : JsText

/-- A parsed URL, with its text after the path is set. -/
structure ParsedUrl where
  hostname : JsText
  pathname : JsText
  withPathname : JsText → JsText

/-- `hostedGitInfo.fromUrl` and `new URL`, which may throw. -/
structure GitLibraries where
  fromUrl : JsText → Option HostedInfo
  url : JsText → Option ParsedUrl

structure GitSource where
  repo : JsText
  host : JsText
  path : JsText
  ref : Option JsText
  pinned : Bool
deriving DecidableEq

namespace GitSource

/-- Text with a `#` ref or without. -/
structure SplitRef where
  repo : JsText
  ref : Option JsText

def isLineTerminator (c : UInt16) : Bool := c = 10 || c = 13 || c = 0x2028 || c = 0x2029

def startsWith (text : JsText) (start : String) : Bool := (utf16 start).isPrefixOf text

/-- `text.match(/^git@([^:]+):(.+)$/)`: what stands before the first colon, and after it. -/
def scpLike (text : JsText) : Option (JsText × JsText) :=
  if startsWith text "git@" then
    let rest := text.drop 4
    match indexOf? (utf16 ":") rest with
    | some colon =>
      let host := rest.take colon
      let path := rest.drop (colon + 1)
      if host ≠ [] ∧ path ≠ [] ∧ path.all (fun c => !isLineTerminator c) then some (host, path)
      else none
    | none => none
  else none

/-- `pathname.replace(/^\/+/, "")`. -/
def stripLeadingSlashes (path : JsText) : JsText := path.dropWhile (· = slash)

/-- `path.replace(/\.git$/, "")`. -/
def stripGitSuffix (path : JsText) : JsText :=
  if (utf16 ".git").isSuffixOf path then path.take (path.length - 4) else path

/-- The path before the first `@`, and the ref after it, if neither is empty. -/
def splitAtRef (pathWithMaybeRef : JsText) : Option (JsText × JsText) :=
  match indexOf? (utf16 "@") pathWithMaybeRef with
  | some refSeparator =>
    let repoPath := pathWithMaybeRef.take refSeparator
    let ref := pathWithMaybeRef.drop (refSeparator + 1)
    if repoPath = [] ∨ ref = [] then none else some (repoPath, ref)
  | none => none

variable (libs : GitLibraries)

def splitRef (url : JsText) : SplitRef :=
  match scpLike url with
  | some (host, pathWithMaybeRef) =>
    match splitAtRef pathWithMaybeRef with
    | some (repoPath, ref) => ⟨utf16 "git@" ++ host ++ utf16 ":" ++ repoPath, some ref⟩
    | none => ⟨url, none⟩
  | none =>
    if (indexOf? (utf16 "://") url).isSome then
      match libs.url url with
      | some parsed =>
        match splitAtRef (stripLeadingSlashes parsed.pathname) with
        | some (repoPath, ref) =>
          let text := parsed.withPathname (slash :: repoPath)
          ⟨if text.getLast? = some slash then text.dropLast else text, some ref⟩
        | none => ⟨url, none⟩
      | none => ⟨url, none⟩
    else
      match indexOf? [slash] url with
      | some slashIndex =>
        match splitAtRef (url.drop (slashIndex + 1)) with
        | some (repoPath, ref) => ⟨url.take slashIndex ++ slash :: repoPath, some ref⟩
        | none => ⟨url, none⟩
      | none => ⟨url, none⟩

/-- The repository, host and path of an address, by its shape. -/
def hostAndPath (repo : JsText) : Option (JsText × JsText × JsText) :=
  match scpLike repo with
  | some (host, path) => some (repo, host, path)
  | none =>
    if startsWith repo "https://" ∨ startsWith repo "http://" ∨ startsWith repo "ssh://" ∨
        startsWith repo "git://" then
      (libs.url repo).map fun parsed =>
        (repo, parsed.hostname, stripLeadingSlashes parsed.pathname)
    else
      match indexOf? [slash] repo with
      | some slashIndex =>
        let host := repo.take slashIndex
        if (indexOf? (utf16 ".") host).isNone ∧ host ≠ utf16 "localhost" then none
        else some (utf16 "https://" ++ repo, host, repo.drop (slashIndex + 1))
      | none => none

def parseGenericGitUrl (url : JsText) : Option GitSource :=
  let split := splitRef libs url
  (hostAndPath libs split.repo).bind fun (repo, host, path) =>
    let normalizedPath := stripLeadingSlashes (stripGitSuffix path)
    if host = [] ∨ normalizedPath = [] ∨ (normalizedPath.splitOn slash).length < 2 then none
    else some ⟨repo, host, normalizedPath, split.ref, split.ref.isSome⟩

/-- `info.committish || split.ref || undefined`. -/
def hostedSource (info : HostedInfo) (repo : JsText) (ref : Option JsText) : GitSource :=
  let ref := if info.committish = [] then ref else some info.committish
  { repo := repo
    host := info.domain
    path := stripGitSuffix (info.user ++ slash :: info.project)
    ref := ref
    pinned := ref.isSome }

/-- The first candidate that the table knows; with a ref, projects with an `@` are passed over. -/
def findHosted (ref : Option JsText) (candidates : List JsText) : Option HostedInfo :=
  candidates.findSome? fun candidate =>
    (libs.fromUrl candidate).filter fun info =>
      !(ref.isSome && (indexOf? (utf16 "@") info.project).isSome)

def hasProtocol (url : JsText) : Bool :=
  startsWith url "http://" || startsWith url "https://" || startsWith url "ssh://" ||
    startsWith url "git://"

def candidates (start : String) (split : SplitRef) (url : JsText) : List JsText :=
  (split.ref.map fun ref => utf16 start ++ split.repo ++ utf16 "#" ++ ref).toList ++
    [utf16 start ++ url].filter (· ≠ [])

/-- What the table of known hosts makes of an address, as it is or with `https://` before it. -/
def parseHosted (url : JsText) : Option GitSource :=
  let split := splitRef libs url
  match findHosted libs split.ref (candidates "" split url) with
  | some info =>
    let useHttpsPrefix := !hasProtocol split.repo && !startsWith split.repo "git@"
    let repo := if useHttpsPrefix then utf16 "https://" ++ split.repo else split.repo
    some (hostedSource info repo split.ref)
  | none =>
    (findHosted libs split.ref (candidates "https://" split url)).map fun info =>
      hostedSource info (utf16 "https://" ++ split.repo) split.ref

def toLowerUnit (c : UInt16) : UInt16 := if 0x41 ≤ c ∧ c ≤ 0x5A then c + 0x20 else c

/-- `/^(https?|ssh|git):\/\//i.test(url)`. -/
def isProtocolUrl (url : JsText) : Bool := hasProtocol (url.map toLowerUnit)

/-- What follows `git:`, or the whole source. -/
def address (source : JsText) : JsText :=
  let trimmed := trim (fun c => isWhiteSpaceCode c.toNat) source
  if startsWith trimmed "git:" then trim (fun c => isWhiteSpaceCode c.toNat) (trimmed.drop 4)
  else trimmed

def parseGitUrl (source : JsText) : Option GitSource :=
  let hasGitPrefix := startsWith (trim (fun c => isWhiteSpaceCode c.toNat) source) "git:"
  let url := address source
  if !hasGitPrefix && !isProtocolUrl url then none
  else (parseHosted libs url).or (parseGenericGitUrl libs url)

end GitSource

end Draht
