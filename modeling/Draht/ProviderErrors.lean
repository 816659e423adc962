import Draht.Messages
import Draht.Text
import Mathlib.Data.List.Infix

/-!
# Errors of a provider

The patterns by which the text of an error counts as a context overflow or as worth a retry.
A pattern is a row of items; an alternation of the source is written out as several patterns.
-/

namespace Draht

inductive PatternItem where
  | one (p : Char → Bool)
  | optional (p : Char → Bool)
  | many (p : Char → Bool)

/-- A regular expression with the flag `i`; `anchored` stands for a leading `^`. -/
structure ErrorPattern where
  anchored : Bool
  items : List PatternItem

/-- What is left of a text after any number of leading characters that satisfy `p`. -/
def afterRun (p : Char → Bool) : List Char → List (List Char)
  | [] => [[]]
  | c :: text => (c :: text) :: if p c then afterRun p text else []

def matchesFrom : List PatternItem → List Char → Bool
  | [], _ => true
  | .one p :: items, text =>
    match text with
    | [] => false
    | c :: rest => p c && matchesFrom items rest
  | .optional p :: items, text =>
    matchesFrom items text ||
      match text with
      | [] => false
      | c :: rest => p c && matchesFrom items rest
  | .many p :: items, text => (afterRun p text).any (fun rest => matchesFrom items rest)

/-- `pattern.test(text)`. -/
def ErrorPattern.test (pattern : ErrorPattern) (text : String) : Bool :=
  if pattern.anchored then matchesFrom pattern.items text.toList
  else text.toList.tails.any (matchesFrom pattern.items)

def literal (text : String) : List PatternItem :=
  text.toList.map fun c => .one fun x => x.toLower == c.toLower

/-- `.`: any character but the four line terminators. -/
def isDot (c : Char) : Bool :=
  !(c.toNat == 0x0A || c.toNat == 0x0D || c.toNat == 0x2028 || c.toNat == 0x2029)

/-- `.?`. -/
def anyOne : List PatternItem := [.optional isDot]

/-- `.*`. -/
def anyRun : List PatternItem := [.many isDot]

/-- `\d+`. -/
def digits : List PatternItem := [.one Char.isDigit, .many Char.isDigit]

/-- `\s*`. -/
def spaces : List PatternItem := [.many isWhiteSpace]

/-- `[_ ]`. -/
def underscoreOrSpace : List PatternItem := [.one fun c => c == '_' || c == ' ']

def anywhere (items : List PatternItem) : ErrorPattern := { anchored := false, items }

def atStart (items : List PatternItem) : ErrorPattern := { anchored := true, items }

def OVERFLOW_PATTERNS : List ErrorPattern :=
  [anywhere (literal "prompt is too long"),
    anywhere (literal "request_too_large"),
    anywhere (literal "input is too long for requested model"),
    anywhere (literal "exceeds the context window"),
    anywhere (literal "input token count" ++ anyRun ++ literal "exceeds the maximum"),
    anywhere (literal "maximum prompt length is " ++ digits),
    anywhere (literal "reduce the length of the messages"),
    anywhere (literal "maximum context length is " ++ digits ++ literal " tokens"),
    anywhere (literal "exceeds the limit of " ++ digits),
    anywhere (literal "exceeds the available context size"),
    anywhere (literal "greater than the context length"),
    anywhere (literal "context window exceeds limit"),
    anywhere (literal "exceeded model token limit"),
    anywhere (literal "too large for model with " ++ digits ++ literal " maximum context length"),
    anywhere (literal "model_context_window_exceeded"),
    anywhere (literal "prompt too long; exceeded max context length"),
    anywhere (literal "prompt too long; exceeded context length"),
    anywhere (literal "context" ++ underscoreOrSpace ++ literal "length" ++ underscoreOrSpace ++
      literal "exceeded"),
    anywhere (literal "too many tokens"),
    anywhere (literal "token limit exceeded"),
    atStart (literal "400" ++ spaces ++ literal "status code" ++ spaces ++ literal "(no body)"),
    atStart (literal "413" ++ spaces ++ literal "status code" ++ spaces ++ literal "(no body)"),
    atStart (literal "400" ++ spaces ++ spaces ++ literal "(no body)"),
    atStart (literal "413" ++ spaces ++ spaces ++ literal "(no body)")]

def NON_OVERFLOW_PATTERNS : List ErrorPattern :=
  [atStart (literal "Throttling error:"),
    atStart (literal "Service unavailable:"),
    anywhere (literal "rate limit"),
    anywhere (literal "too many requests")]

/-- The error text of a failed message; an empty one counts as none. -/
def AssistantMessage.errorText (m : AssistantMessage) : Option String :=
  if m.stopReason = .error then m.errorMessage.filter (fun text => text ≠ "") else none

def isContextOverflow (message : AssistantMessage) (contextWindow : ℕ) : Bool :=
  message.errorText.any (fun text =>
      !NON_OVERFLOW_PATTERNS.any (fun p => p.test text) &&
        OVERFLOW_PATTERNS.any (fun p => p.test text)) ||
    (contextWindow ≠ 0 && message.stopReason = .stop &&
      message.usage.input + message.usage.cacheRead > contextWindow)

/-- The alternatives of the expression in `_isRetryableError`. -/
def RETRYABLE_PATTERNS : List ErrorPattern :=
  [anywhere (literal "overloaded"),
    anywhere (literal "provider" ++ anyOne ++ literal "returned" ++ anyOne ++ literal "error"),
    anywhere (literal "rate" ++ anyOne ++ literal "limit"),
    anywhere (literal "too many requests"),
    anywhere (literal "429"),
    anywhere (literal "500"),
    anywhere (literal "502"),
    anywhere (literal "503"),
    anywhere (literal "504"),
    anywhere (literal "service" ++ anyOne ++ literal "unavailable"),
    anywhere (literal "server" ++ anyOne ++ literal "error"),
    anywhere (literal "internal" ++ anyOne ++ literal "error"),
    anywhere (literal "network" ++ anyOne ++ literal "error"),
    anywhere (literal "connection" ++ anyOne ++ literal "error"),
    anywhere (literal "connection" ++ anyOne ++ literal "refused"),
    anywhere (literal "connection" ++ anyOne ++ literal "reset"),
    anywhere (literal "peer closed"),
    anywhere (literal "other side closed"),
    anywhere (literal "fetch failed"),
    anywhere (literal "upstream" ++ anyOne ++ literal "connect"),
    anywhere (literal "reset before headers"),
    anywhere (literal "socket hang up"),
    anywhere (literal "ended without"),
    anywhere (literal "incomplete" ++ anyOne ++ literal "chunked" ++ anyOne ++ literal "read"),
    anywhere (literal "chunked" ++ anyOne ++ literal "read"),
    anywhere (literal "premature" ++ anyOne ++ literal "close"),
    anywhere (literal "timed out"),
    anywhere (literal "time out"),
    anywhere (literal "timeout"),
    anywhere (literal "terminated"),
    anywhere (literal "retry delay")]

/-- `_isRetryableError`: an overflow is left to compaction. -/
def isRetryableError (message : AssistantMessage) (contextWindow : ℕ) : Bool :=
  message.errorText.any fun text =>
    !isContextOverflow message contextWindow && RETRYABLE_PATTERNS.any (fun p => p.test text)

variable {m : AssistantMessage} {contextWindow : ℕ}

theorem isContextOverflow_of_isRetryableError (h : isRetryableError m contextWindow = true) :
    isContextOverflow m contextWindow = false := by
  cases htext : m.errorText with
  | none => simp [isRetryableError, htext] at h
  | some text =>
    simp only [isRetryableError, htext, Option.any_some, Bool.and_eq_true] at h
    simpa using h.1

theorem stopReason_of_isRetryableError (h : isRetryableError m contextWindow = true) :
    m.stopReason = .error := by
  by_contra hne
  simp [isRetryableError, AssistantMessage.errorText, hne] at h

end Draht
