import Draht.Text

/-!
# The arguments of a command

The text after the name of a command is cut into arguments at spaces and tabs, except inside of
quotes. An argument can be quoted in many ways; parsing takes every one of them back.
-/

namespace Draht
open List

/-- What the loop over the characters keeps; `inQuote` is the quote that is open. -/
structure ArgsState where
  args : List JsText
  current : JsText
  inQuote : Option UInt16
deriving DecidableEq

def IsQuote (char : UInt16) : Prop := char = 0x22 ∨ char = 0x27

def IsBlank (char : UInt16) : Prop := char = 0x20 ∨ char = 0x09

instance (char : UInt16) : Decidable (IsQuote char) := inferInstanceAs (Decidable (_ ∨ _))

instance (char : UInt16) : Decidable (IsBlank char) := inferInstanceAs (Decidable (_ ∨ _))

namespace ArgsState

def initial : ArgsState := { args := [], current := [], inQuote := none }

def push (s : ArgsState) : ArgsState :=
  if s.current ≠ [] then { s with args := s.args ++ [s.current], current := [] } else s

def add (s : ArgsState) (char : UInt16) : ArgsState := { s with current := s.current ++ [char] }

def step (s : ArgsState) (char : UInt16) : ArgsState :=
  match s.inQuote with
  | some quote => if char = quote then { s with inQuote := none } else s.add char
  | none =>
    if IsQuote char then { s with inQuote := some char }
    else if IsBlank char then s.push
    else s.add char

end ArgsState

def parseCommandArgs (argsString : JsText) : List JsText :=
  (argsString.foldl ArgsState.step .initial).push.args

/-- A piece of a quoted argument: a character that stands for itself, or a run in quotes. -/
inductive ArgPiece where
  | bare (char : UInt16) (hquote : ¬IsQuote char) (hblank : ¬IsBlank char)
  | quoted (quote : UInt16) (run : JsText) (hquote : IsQuote quote) (hrun : quote ∉ run)

namespace ArgPiece

def value : ArgPiece → JsText
  | bare char _ _ => [char]
  | quoted _ run _ _ => run

def encoded : ArgPiece → JsText
  | bare char _ _ => [char]
  | quoted quote run _ _ => quote :: (run ++ [quote])

/-- A character that is quoted, in the other quote if it is one. -/
def ofChar (char : UInt16) : ArgPiece :=
  if h : char = 0x22 then
    quoted 0x27 [char] (Or.inr rfl) (by rw [h]; decide)
  else quoted 0x22 [char] (Or.inl rfl) (by simpa [eq_comm] using h)

theorem value_ofChar (char : UInt16) : (ofChar char).value = [char] := by
  unfold ofChar
  split_ifs <;> rfl

end ArgPiece

def argValue (pieces : List ArgPiece) : JsText := pieces.flatMap ArgPiece.value

def argEncoded (pieces : List ArgPiece) : JsText := pieces.flatMap ArgPiece.encoded

/-- The line has the arguments one after another, each in some encoding, with spaces and tabs
between them. -/
inductive Encodes : List JsText → JsText → Prop
  | nil : Encodes [] []
  | last (pieces : List ArgPiece) : Encodes [argValue pieces] (argEncoded pieces)
  | cons {next : JsText} {args : List JsText} {line : JsText} (pieces : List ArgPiece)
      (blanks : JsText) (hne : blanks ≠ []) (hblanks : ∀ char ∈ blanks, IsBlank char)
      (hrest : Encodes (next :: args) line) :
      Encodes (argValue pieces :: next :: args) (argEncoded pieces ++ (blanks ++ line))

namespace ArgsState

variable {args : List JsText} {current : JsText}

theorem foldl_run {quote : UInt16} {run : JsText} (hrun : quote ∉ run) :
    run.foldl step ⟨args, current, some quote⟩ = ⟨args, current ++ run, some quote⟩ := by
  induction run generalizing current with
  | nil => rw [append_nil, foldl_nil]
  | cons char run ih =>
    rw [mem_cons, not_or] at hrun
    obtain ⟨hne, hrun⟩ := hrun
    have hstep : step ⟨args, current, some quote⟩ char =
        ⟨args, current ++ [char], some quote⟩ := if_neg fun h => hne h.symm
    rw [foldl_cons, hstep, ih hrun, append_assoc]
    rfl

theorem foldl_piece (piece : ArgPiece) :
    piece.encoded.foldl step ⟨args, current, none⟩ = ⟨args, current ++ piece.value, none⟩ := by
  cases piece with
  | bare char hquote hblank => exact (if_neg hquote).trans (if_neg hblank)
  | quoted quote run hquote hrun =>
    have hopen : step ⟨args, current, none⟩ quote = ⟨args, current, some quote⟩ :=
      if_pos hquote
    have hclose : step ⟨args, current ++ run, some quote⟩ quote =
        ⟨args, current ++ run, none⟩ := if_pos rfl
    rw [ArgPiece.encoded, foldl_cons, hopen, foldl_append, foldl_run hrun]
    exact hclose

theorem foldl_pieces (pieces : List ArgPiece) :
    (argEncoded pieces).foldl step ⟨args, current, none⟩ =
      ⟨args, current ++ argValue pieces, none⟩ := by
  induction pieces generalizing current with
  | nil =>
    rw [argValue, flatMap_nil, append_nil]
    rfl
  | cons piece pieces ih =>
    rw [argEncoded, argValue, flatMap_cons, flatMap_cons, foldl_append, foldl_piece, ← append_assoc]
    exact ih

theorem step_blank {s : ArgsState} {char : UInt16} (hquote : s.inQuote = none)
    (hblank : IsBlank char) : s.step char = s.push := by
  have hnot : ¬IsQuote char := by
    obtain rfl | rfl := hblank
    · decide
    · decide
  rw [step, hquote]
  exact (if_neg hnot).trans (if_pos hblank)

theorem foldl_blanks {blanks : JsText} (hblanks : ∀ char ∈ blanks, IsBlank char) :
    blanks.foldl step ⟨args, [], none⟩ = ⟨args, [], none⟩ := by
  induction blanks with
  | nil => rfl
  | cons char blanks ih =>
    have hstep : step ⟨args, [], none⟩ char = ⟨args, [], none⟩ :=
      step_blank rfl (hblanks char mem_cons_self)
    rw [foldl_cons, hstep]
    exact ih fun c hc => hblanks c (mem_cons_of_mem _ hc)

theorem foldl_separator {blanks : JsText} (hne : blanks ≠ [])
    (hblanks : ∀ char ∈ blanks, IsBlank char) (hcurrent : current ≠ []) :
    blanks.foldl step ⟨args, current, none⟩ = ⟨args ++ [current], [], none⟩ := by
  cases blanks with
  | nil => exact absurd rfl hne
  | cons char blanks =>
    have hstep : step ⟨args, current, none⟩ char = ⟨args ++ [current], [], none⟩ :=
      (step_blank rfl (hblanks char mem_cons_self)).trans (if_pos hcurrent)
    rw [foldl_cons, hstep]
    exact foldl_blanks fun c hc => hblanks c (mem_cons_of_mem _ hc)

theorem foldl_encodes {words : List JsText} {line : JsText} (h : Encodes words line)
    (hwords : ∀ word ∈ words, word ≠ []) :
    (line.foldl step ⟨args, [], none⟩).push.args = args ++ words := by
  induction h generalizing args with
  | nil => exact (append_nil args).symm
  | last pieces =>
    have hvalue := hwords _ mem_cons_self
    rw [foldl_pieces, nil_append, push, if_pos hvalue]
  | cons pieces blanks hne hblanks _ ih =>
    have hvalue := hwords _ mem_cons_self
    rw [foldl_append, foldl_pieces, nil_append, foldl_append,
      foldl_separator hne hblanks hvalue, ih fun w hw => hwords w (mem_cons_of_mem _ hw),
      append_assoc]
    rfl

end ArgsState

theorem argValue_ofChar (word : JsText) : argValue (word.map ArgPiece.ofChar) = word := by
  rw [argValue, flatMap_map]
  simp only [ArgPiece.value_ofChar]
  exact flatMap_singleton' word

theorem exists_encodes (words : List JsText) : ∃ line, Encodes words line := by
  induction words with
  | nil => exact ⟨[], .nil⟩
  | cons word words ih =>
    obtain ⟨line, hline⟩ := ih
    rw [← argValue_ofChar word]
    cases words with
    | nil => exact ⟨_, .last _⟩
    | cons next words =>
      exact ⟨_, .cons _ [0x20] (cons_ne_nil _ _) (forall_mem_singleton.mpr (.inl rfl)) hline⟩

/-- Parsing gives back the arguments from every encoding of theirs, and there is one. -/
theorem parseCommandArgs_encodes {words : List JsText} (hwords : ∀ word ∈ words, word ≠ []) :
    (∃ line, Encodes words line) ∧
      ∀ line, Encodes words line → parseCommandArgs line = words :=
  ⟨exists_encodes words, fun _ h => ArgsState.foldl_encodes h hwords⟩

/-- A double quote in single quotes, a single quote in double quotes, and bare characters. -/
def quotedPieces : List ArgPiece :=
  [.quoted 0x27 (utf16 "say \"") (Or.inr rfl) (by decide), .bare 0x61 (by decide) (by decide),
    .quoted 0x22 (utf16 "it's") (Or.inl rfl) (by decide)]

theorem parseCommandArgs_encodes_quotedPieces :
    Encodes [utf16 "say \"ait's", utf16 "b"] (utf16 "'say \"'a\"it's\"\t b") ∧
      parseCommandArgs (utf16 "'say \"'a\"it's\"\t b") = [utf16 "say \"ait's", utf16 "b"] := by
  have hblanks : ∀ char ∈ utf16 "\t ", IsBlank char := by
    have hunits : utf16 "\t " = [0x09, 0x20] := by decide
    rw [hunits, forall_mem_cons, forall_mem_singleton]
    exact ⟨.inr rfl, .inl rfl⟩
  have hencodes : Encodes [utf16 "say \"ait's", utf16 "b"] (utf16 "'say \"'a\"it's\"\t b") :=
    .cons quotedPieces (utf16 "\t ") (by decide) hblanks
      (.last [.bare 0x62 (by decide) (by decide)])
  exact ⟨hencodes, (parseCommandArgs_encodes (by decide)).2 _ hencodes⟩

end Draht
