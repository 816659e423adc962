import Draht.Text

/-!
# Text with terminal codes

A text is a list of cells: grapheme clusters, spaces, tabs, newlines, and codes that set the style
or a link. What a grapheme is, how wide it is and whether it is whitespace are parameters.
-/

namespace Draht.AnsiText

/-- A style code by its parameters, or a link. -/
inductive AnsiCode where
  | sgr (params : List String)
  | osc8 (text : String)
deriving DecidableEq

inductive Cell (γ : Type) where
  | grapheme (g : γ)
  | space | tab | newline
  | code (c : AnsiCode)
deriving DecidableEq

abbrev Text (γ : Type) := List (Cell γ)

/-- The columns that a grapheme takes, and whether `trim` removes it. -/
structure Graphemes (γ : Type) where
  graphemeWidth : γ → ℕ
  isWhitespace : γ → Bool

variable {γ : Type} (G : Graphemes γ)

/-- A tab counts as three spaces, and a code takes no column. -/
def Cell.width : Cell γ → ℕ
  | .grapheme g => G.graphemeWidth g
  | .space => 1
  | .tab => 3
  | .newline | .code _ => 0

def Cell.isWhitespace : Cell γ → Bool
  | .grapheme g => G.isWhitespace g
  | .space | .tab | .newline => true
  | .code _ => false

def visibleWidth : Text γ → ℕ
  | [] => 0
  | c :: text => c.width G + visibleWidth text

def visible (text : Text γ) : Text γ :=
  text.filter fun c => match c with
    | .code _ => false
    | c => !c.isWhitespace G

def trimLine (text : Text γ) : Text γ := trimEnd (Cell.isWhitespace G) text

/-- `token.trim() === ""`. -/
def isBlank (token : Text γ) : Bool := token.all (Cell.isWhitespace G)

structure AnsiCodeTracker where
  bold : Bool
  dim : Bool
  italic : Bool
  underline : Bool
  blink : Bool
  inverse : Bool
  hidden : Bool
  strikethrough : Bool
  fgColor : Option (List String)
  bgColor : Option (List String)
deriving DecidableEq

namespace AnsiCodeTracker

def reset : AnsiCodeTracker :=
  { bold := false, dim := false, italic := false, underline := false, blink := false
    inverse := false, hidden := false, strikethrough := false, fgColor := none, bgColor := none }

/-- The parameters that set a colour and are more than one. -/
def colorParams (part : String) : List String → Option (List String)
  | "5" :: n :: _ => some [part, "5", n]
  | "2" :: r :: g :: b :: _ => some [part, "2", r, g, b]
  | _ => none

/-- The `switch` over the standard codes. -/
def standardCode (t : AnsiCodeTracker) (code : ℕ) : AnsiCodeTracker :=
  match code with
  | 0 => reset
  | 1 => { t with bold := true }
  | 2 => { t with dim := true }
  | 3 => { t with italic := true }
  | 4 => { t with underline := true }
  | 5 => { t with blink := true }
  | 7 => { t with inverse := true }
  | 8 => { t with hidden := true }
  | 9 => { t with strikethrough := true }
  | 21 => { t with bold := false }
  | 22 => { t with bold := false, dim := false }
  | 23 => { t with italic := false }
  | 24 => { t with underline := false }
  | 25 => { t with blink := false }
  | 27 => { t with inverse := false }
  | 28 => { t with hidden := false }
  | 29 => { t with strikethrough := false }
  | 39 => { t with fgColor := none }
  | 49 => { t with bgColor := none }
  | code =>
    if (30 ≤ code ∧ code ≤ 37) ∨ (90 ≤ code ∧ code ≤ 97) then
      { t with fgColor := some [toString code] }
    else if (40 ≤ code ∧ code ≤ 47) ∨ (100 ≤ code ∧ code ≤ 107) then
      { t with bgColor := some [toString code] }
    else t

/-- `Number.parseInt(part, 10)` of a parameter, which is digits or empty. -/
def parseInt (part : String) : Option ℕ :=
  if part = "" then none
  else some (part.toList.foldl (fun n c => 10 * n + (c.toNat - '0'.toNat)) 0)

/-- One turn of the loop: the new state, and how many further parameters it has taken. -/
def processPart (t : AnsiCodeTracker) (part : String) (rest : List String) : AnsiCodeTracker × ℕ :=
  match parseInt part with
  | none => (t, 0)
  | some code =>
    match if code = 38 ∨ code = 48 then colorParams part rest else none with
    | some color =>
      (if code = 38 then { t with fgColor := some color } else { t with bgColor := some color },
        color.length - 1)
    | none => (t.standardCode code, 0)

/-- The loop over the parameters; `taken` of them belong to the one before. -/
def processParts (t : AnsiCodeTracker) : ℕ → List String → AnsiCodeTracker
  | _, [] => t
  | taken + 1, _ :: rest => processParts t taken rest
  | 0, part :: rest =>
    let (t', taken) := processPart t part rest
    processParts t' taken rest

def process (t : AnsiCodeTracker) : AnsiCode → AnsiCodeTracker
  | .osc8 _ => t
  | .sgr params => if params = [""] ∨ params = ["0"] then reset else processParts t 0 params

def codes (t : AnsiCodeTracker) : List String :=
  (if t.bold then ["1"] else []) ++ (if t.dim then ["2"] else []) ++
    (if t.italic then ["3"] else []) ++ (if t.underline then ["4"] else []) ++
    (if t.blink then ["5"] else []) ++ (if t.inverse then ["7"] else []) ++
    (if t.hidden then ["8"] else []) ++ (if t.strikethrough then ["9"] else []) ++
    t.fgColor.getD [] ++ t.bgColor.getD []

def getActiveCodes (t : AnsiCodeTracker) : Text γ :=
  if t.codes = [] then [] else [.code (.sgr t.codes)]

def getLineEndReset (t : AnsiCodeTracker) : Text γ :=
  if t.underline then [.code (.sgr ["24"])] else []

end AnsiCodeTracker

def updateTracker (t : AnsiCodeTracker) : Cell γ → AnsiCodeTracker
  | .code c => t.process c
  | _ => t

def updateTrackerFromText (text : Text γ) (t : AnsiCodeTracker) : AnsiCodeTracker :=
  text.foldl updateTracker t

structure TokenState (γ : Type) where
  tokens : List (Text γ)
  current : Text γ
  pendingAnsi : Text γ
  inWhitespace : Bool

def splitStep (s : TokenState γ) (c : Cell γ) : TokenState γ :=
  match c with
  | .code code => { s with pendingAnsi := s.pendingAnsi ++ [.code code] }
  | c =>
    let charIsSpace := match c with
      | .space => true
      | _ => false
    let s := if charIsSpace ≠ s.inWhitespace ∧ s.current ≠ [] then
      { s with tokens := s.tokens ++ [s.current], current := [] } else s
    { s with
      current := s.current ++ s.pendingAnsi ++ [c], pendingAnsi := [],
      inWhitespace := charIsSpace }

def splitIntoTokensWithAnsi (text : Text γ) : List (Text γ) :=
  let s := text.foldl splitStep
    { tokens := [], current := [], pendingAnsi := [], inWhitespace := false }
  let current := s.current ++ s.pendingAnsi
  if current = [] then s.tokens else s.tokens ++ [current]

structure BreakState (γ : Type) where
  lines : List (Text γ)
  currentLine : Text γ
  currentWidth : ℕ
  tracker : AnsiCodeTracker

def breakStep (width : ℕ) (s : BreakState γ) (c : Cell γ) : BreakState γ :=
  match c with
  | .code code =>
    { s with currentLine := s.currentLine ++ [.code code], tracker := s.tracker.process code }
  | c =>
    let s := if s.currentWidth + c.width G > width then
      { s with
        lines := s.lines ++ [s.currentLine ++ s.tracker.getLineEndReset]
        currentLine := s.tracker.getActiveCodes, currentWidth := 0 } else s
    { s with currentLine := s.currentLine ++ [c], currentWidth := s.currentWidth + c.width G }

def breakLongWord (word : Text γ) (width : ℕ) (tracker : AnsiCodeTracker) :
    List (Text γ) × AnsiCodeTracker :=
  let s := word.foldl (breakStep G width)
    { lines := [], currentLine := tracker.getActiveCodes, currentWidth := 0, tracker }
  let lines := if s.currentLine = [] then s.lines else s.lines ++ [s.currentLine]
  (if lines = [] then [[]] else lines, s.tracker)

structure WrapState (γ : Type) where
  wrapped : List (Text γ)
  currentLine : Text γ
  currentVisibleLength : ℕ
  tracker : AnsiCodeTracker

/-- A token that is too long is broken; its last part begins the next line. -/
def wrapLongToken (width : ℕ) (s : WrapState γ) (token : Text γ) : WrapState γ :=
  let wrapped := if s.currentLine = [] then s.wrapped
    else s.wrapped ++ [s.currentLine ++ s.tracker.getLineEndReset]
  let (broken, tracker) := breakLongWord G token width s.tracker
  let currentLine := broken.getLast?.getD []
  { wrapped := wrapped ++ broken.dropLast, currentLine
    currentVisibleLength := visibleWidth G currentLine, tracker }

def wrapToken (width : ℕ) (s : WrapState γ) (token : Text γ) : WrapState γ :=
  let tokenVisibleLength := visibleWidth G token
  if tokenVisibleLength > width ∧ isBlank G token = false then wrapLongToken G width s token
  else
    let totalNeeded := s.currentVisibleLength + tokenVisibleLength
    let s := if totalNeeded > width ∧ s.currentVisibleLength > 0 then
        let wrapped := s.wrapped ++ [trimLine G s.currentLine ++ s.tracker.getLineEndReset]
        if isBlank G token then
          { s with wrapped, currentLine := s.tracker.getActiveCodes, currentVisibleLength := 0 }
        else
          { s with
            wrapped, currentLine := s.tracker.getActiveCodes ++ token
            currentVisibleLength := tokenVisibleLength }
      else
        { s with
          currentLine := s.currentLine ++ token
          currentVisibleLength := s.currentVisibleLength + tokenVisibleLength }
    { s with tracker := updateTrackerFromText token s.tracker }

def wrapStart : WrapState γ :=
  { wrapped := [], currentLine := [], currentVisibleLength := 0, tracker := .reset }

def wrapSingleLine (line : Text γ) (width : ℕ) : List (Text γ) :=
  if line = [] then [[]]
  else if visibleWidth G line ≤ width then [line]
  else
    let s := (splitIntoTokensWithAnsi line).foldl (wrapToken G width) wrapStart
    let wrapped := if s.currentLine = [] then s.wrapped else s.wrapped ++ [s.currentLine]
    if wrapped = [] then [[]] else wrapped.map (trimLine G)

/-- `text.split("\n")`. -/
def splitLines : Text γ → List (Text γ)
  | [] => [[]]
  | c :: rest =>
    match c, splitLines rest with
    | .newline, lines => [] :: lines
    | c, [] => [[c]]
    | c, line :: lines => (c :: line) :: lines

def wrapInputLine (width : ℕ) (s : List (Text γ) × AnsiCodeTracker) (inputLine : Text γ) :
    List (Text γ) × AnsiCodeTracker :=
  let codes := if s.1 = [] then [] else s.2.getActiveCodes
  (s.1 ++ wrapSingleLine G (codes ++ inputLine) width, updateTrackerFromText inputLine s.2)

def wrapTextWithAnsi (text : Text γ) (width : ℕ) : List (Text γ) :=
  if text = [] then [[]]
  else
    let result := ((splitLines text).foldl (wrapInputLine G width) ([], .reset)).1
    if result = [] then [[]] else result

end Draht.AnsiText
