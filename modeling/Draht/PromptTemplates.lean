import Draht.Text

/-!
# Prompt templates

The placeholders of a template are replaced by arguments in four passes, one for each kind of
placeholder. A pass goes over what the passes before it left, with a pattern that matches at some
positions of the text.
-/

namespace Draht.PromptTemplates

section

variable {α β : Type*}

/-- The pattern gives what a match at the beginning of a text captures, and its length; `skip`
units of the last match are still ahead, and `before` is the text up to here. -/
def replaceFrom (matchAt : List α → Option (β × ℕ))
    (replacement : List α → β → List α → List α → List α) : ℕ → List α → List α → List α
  | _, _, [] => []
  | skip + 1, before, c :: text =>
    replaceFrom matchAt replacement skip (before ++ [c]) text
  | 0, before, c :: text =>
    match matchAt (c :: text) with
    | none => c :: replaceFrom matchAt replacement 0 (before ++ [c]) text
    | some (captured, length) =>
      replacement before captured ((c :: text).take length) ((c :: text).drop length) ++
        replaceFrom matchAt replacement (length - 1) (before ++ [c]) text

/-- `text.replace(pattern, replacement)` for a global pattern; the replacement is computed from the
text before the match, the captures, the match and the text after it. -/
def replaceAll (matchAt : List α → Option (β × ℕ))
    (replacement : List α → β → List α → List α → List α) (text : List α) : List α :=
  replaceFrom matchAt replacement 0 [] text

def hits (matchAt : List α → Option (β × ℕ)) : List α → ℕ
  | [] => 0
  | c :: text => (if (matchAt (c :: text)).isSome then 1 else 0) + hits matchAt text

end

def dollar : UInt16 := 0x24

/-- A replacement string for a pattern without groups: two dollar signs are one, and a dollar sign
before an ampersand, a backtick or an apostrophe stands for the match or the text around it. -/
def expandReplacement (before matched after : JsText) : JsText → JsText
  | [] => []
  | [c] => [c]
  | c :: d :: text =>
    if c = dollar ∧ d = dollar then dollar :: expandReplacement before matched after text
    else if c = dollar ∧ d = 0x26 then matched ++ expandReplacement before matched after text
    else if c = dollar ∧ d = 0x60 then before ++ expandReplacement before matched after text
    else if c = dollar ∧ d = 0x27 then after ++ expandReplacement before matched after text
    else c :: expandReplacement before matched after (d :: text)

/-- What a placeholder stands for: `$N`, `${@:N}` or `${@:N:L}`, `$ARGUMENTS` and `$@`. -/
inductive Placeholder where
  | positional (num : ℕ)
  | slice (start : ℕ) (length : Option ℕ)
  | arguments
  | all
deriving DecidableEq

inductive PlaceholderKind where
  | positional | slice | arguments | all
deriving DecidableEq

def Placeholder.kind : Placeholder → PlaceholderKind
  | positional _ => .positional
  | slice _ _ => .slice
  | arguments => .arguments
  | all => .all

/-- `/\$(\d+)/`. -/
def positionalAt (text : JsText) : Option (Placeholder × ℕ) :=
  let digits := text.tail.takeWhile isDigitUnit
  if text.head? = some dollar ∧ digits ≠ [] then
    some (.positional (parseDigits digits), digits.length + 1)
  else none

/-- `/\$\{@:(\d+)(?::(\d+))?\}/`. -/
def sliceAt (text : JsText) : Option (Placeholder × ℕ) :=
  let start := (text.drop 4).takeWhile isDigitUnit
  let rest := (text.drop 4).dropWhile isDigitUnit
  let length := rest.tail.takeWhile isDigitUnit
  if (utf16 "$\x7b@:").isPrefixOf text ∧ start ≠ [] then
    if rest.head? = some 0x7D then
      some (.slice (parseDigits start) none, 4 + (start.length + 1))
    else if rest.head? = some 0x3A ∧ length ≠ [] ∧
        (rest.tail.dropWhile isDigitUnit).head? = some 0x7D then
      some (.slice (parseDigits start) (some (parseDigits length)),
        4 + (start.length + (1 + (length.length + 1))))
    else none
  else none

/-- `/\$ARGUMENTS/`. -/
def argumentsAt (text : JsText) : Option (Placeholder × ℕ) :=
  if (utf16 "$ARGUMENTS").isPrefixOf text then some (.arguments, 10) else none

/-- `/\$@/`. -/
def allAt (text : JsText) : Option (Placeholder × ℕ) :=
  if (utf16 "$@").isPrefixOf text then some (.all, 2) else none

def matchAt : PlaceholderKind → JsText → Option (Placeholder × ℕ)
  | .positional => positionalAt
  | .slice => sliceAt
  | .arguments => argumentsAt
  | .all => allAt

/-- `args.join(" ")`. -/
def joinArgs (args : List JsText) : JsText := List.intercalate [0x20] args

/-- Positions are counted from one; zero is out of range for `$N` and one for slices. -/
def Placeholder.value (args : List JsText) : Placeholder → JsText
  | positional num => if num = 0 then [] else args.getD (num - 1) []
  | slice start none => joinArgs (args.drop (start - 1))
  | slice start (some length) => joinArgs ((args.drop (start - 1)).take length)
  | arguments | all => joinArgs args

def substitutePass (kind : PlaceholderKind) (args : List JsText) (text : JsText) : JsText :=
  replaceAll (matchAt kind) (fun _ p _ _ => p.value args) text

def expandPass (kind : PlaceholderKind) (allArgs text : JsText) : JsText :=
  replaceAll (matchAt kind)
    (fun before _ matched after => expandReplacement before matched after allArgs) text

def substituteArgs (content : JsText) (args : List JsText) : JsText :=
  let result := substitutePass .positional args content
  let result := substitutePass .slice args result
  let allArgs := joinArgs args
  let result := expandPass .arguments allArgs result
  expandPass .all allArgs result

/-- A placeholder of any kind; no two of them match at one position. -/
def placeholderAt (text : JsText) : Option (Placeholder × ℕ) :=
  (positionalAt text).or ((sliceAt text).or ((argumentsAt text).or (allAt text)))

/-- A unit of a template that stands for itself, or a placeholder with its spelling. -/
inductive TemplateToken where
  | unit (c : UInt16)
  | placeholder (p : Placeholder) (text : JsText)
deriving DecidableEq

def tokensFrom : ℕ → JsText → List TemplateToken
  | _, [] => []
  | skip + 1, _ :: text => tokensFrom skip text
  | 0, c :: text =>
    match placeholderAt (c :: text) with
    | none => .unit c :: tokensFrom 0 text
    | some (p, length) =>
      .placeholder p ((c :: text).take length) :: tokensFrom (length - 1) text

def templateTokens (content : JsText) : List TemplateToken := tokensFrom 0 content

def TemplateToken.value (args : List JsText) : TemplateToken → JsText
  | unit c => [c]
  | placeholder p _ => p.value args

/-- The template with each placeholder replaced by what it denotes, and nothing else. -/
def singlePass (content : JsText) (args : List JsText) : JsText :=
  (templateTokens content).flatMap (TemplateToken.value args)

end Draht.PromptTemplates
