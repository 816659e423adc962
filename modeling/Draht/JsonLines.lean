import Draht.TextSearch
import Draht.Utf16
import Draht.Utf8Chunks

/-!
# Lines of JSON

Values are written as one line each, and the reader cuts a stream of chunks at line feeds only. No
character that is written is a control character, so the lines come back whatever the strings hold
and wherever the chunks end.
-/

namespace Draht
open List

/-- The text of a number: digits, a sign, a point, an exponent. -/
structure JsonNumeral where
  text : List Char
  plain : text.all (fun c => c.isDigit || c ∈ ['-', '+', '.', 'e']) = true

mutual
/-- What `JSON.stringify` is given; the strings are UTF-16 and may have lone surrogates. -/
inductive JsonValue where
  | null
  | bool (b : Bool)
  | number (n : JsonNumeral)
  | string (s : JsText)
  | array (xs : JsonValues)
  | object (members : JsonMembers)

inductive JsonValues where
  | nil
  | cons (head : JsonValue) (tail : JsonValues)

inductive JsonMembers where
  | nil
  | cons (key : JsText) (value : JsonValue) (tail : JsonMembers)
end

def isHighUnit (u : UInt16) : Bool := 0xD800 ≤ u && u ≤ 0xDBFF

def isLowUnit (u : UInt16) : Bool := 0xDC00 ≤ u && u ≤ 0xDFFF

/-- A unit that is no half of a pair: a lone surrogate is written as an escape. -/
def jsonEscapeUnit (u : UInt16) : List Char :=
  if isHighUnit u || isLowUnit u then
    ['\\', 'u', hexDigit (u.toNat / 0x1000), hexDigit (u.toNat / 0x100 % 0x10),
      hexDigit (u.toNat / 0x10 % 0x10), hexDigit (u.toNat % 0x10)]
  else jsonEscape (Char.ofNat u.toNat)

def jsonEscapeUnits : JsText → List Char
  | [] => []
  | [u] => jsonEscapeUnit u
  | u :: v :: rest =>
    if isHighUnit u && isLowUnit v then
      Char.ofNat (0x10000 + (u.toNat - 0xD800) * 0x400 + (v.toNat - 0xDC00)) ::
        jsonEscapeUnits rest
    else jsonEscapeUnit u ++ jsonEscapeUnits (v :: rest)

def jsonQuoteUnits (s : JsText) : List Char := '"' :: (jsonEscapeUnits s ++ ['"'])

mutual
/-- `JSON.stringify(value)`. -/
def JsonValue.stringify : JsonValue → List Char
  | .null => "null".toList
  | .bool b => if b then "true".toList else "false".toList
  | .number n => n.text
  | .string s => jsonQuoteUnits s
  | .array xs => '[' :: (xs.stringify ++ [']'])
  | .object members => '{' :: (members.stringify ++ ['}'])

def JsonValues.stringify : JsonValues → List Char
  | .nil => []
  | .cons x .nil => x.stringify
  | .cons x (.cons y xs) => x.stringify ++ ',' :: (JsonValues.cons y xs).stringify

def JsonMembers.stringify : JsonMembers → List Char
  | .nil => []
  | .cons k v .nil => jsonQuoteUnits k ++ ':' :: v.stringify
  | .cons k v (.cons k' v' members) =>
    jsonQuoteUnits k ++ ':' :: (v.stringify ++ ',' :: (JsonMembers.cons k' v' members).stringify)
end

def serializeJsonLine (value : JsonValue) : List Char := value.stringify ++ ['\n']

/-- A chunk of the stream: a string, or the bytes of a `Buffer`. -/
inductive StreamChunk where
  | text (str : JsText)
  | bytes (data : List UInt8)

/-- The closures of the reader, and the lines that it has reported. -/
structure JsonLineReader where
  decoder : Utf8.Decoder
  buffer : JsText
  lines : List JsText

/-- The line that is reported: one carriage return before the line feed is taken off. -/
def reportedLine (line : JsText) : JsText :=
  if line.getLast? = some 0x0D then line.dropLast else line

/-- The loop over the line feeds in the buffer: the lines, and the buffer after it. -/
def takeJsonLines : ℕ → JsText → List JsText × JsText
  | 0, buffer => ([], buffer)
  | fuel + 1, buffer =>
    match indexOf? [0x0A] buffer with
    | none => ([], buffer)
    | some newlineIndex =>
      let rest := takeJsonLines fuel (buffer.drop (newlineIndex + 1))
      (reportedLine (buffer.take newlineIndex) :: rest.1, rest.2)

namespace JsonLineReader

/-- `attachJsonlLineReader`. -/
def attached : JsonLineReader := { decoder := Utf8.start, buffer := [], lines := [] }

variable (r : JsonLineReader)

def onData (chunk : StreamChunk) : JsonLineReader :=
  let decoded :=
    match chunk with
    | .text str => (str, r.decoder)
    | .bytes data =>
      (utf16Chars (r.decoder.readAll data).1, (r.decoder.readAll data).2)
  let buffer := r.buffer ++ decoded.1
  let taken := takeJsonLines (buffer.length + 1) buffer
  { decoder := decoded.2, buffer := taken.2, lines := r.lines ++ taken.1 }

def onEnd : JsonLineReader :=
  let buffer := r.buffer ++ utf16Chars r.decoder.flush
  if 0 < buffer.length then
    { decoder := Utf8.start, buffer := [], lines := r.lines ++ [reportedLine buffer] }
  else { r with decoder := Utf8.start, buffer }

def readStream (chunks : List (List UInt8)) : JsonLineReader :=
  ((chunks.map StreamChunk.bytes).foldl onData attached).onEnd

end JsonLineReader

def Visible (text : List Char) : Prop := ∀ c ∈ text, 0x20 ≤ c.toNat

theorem visible_of_all {text : List Char} (h : text.all (fun c => 0x20 ≤ c.toNat) = true) :
    Visible text := fun c hc => of_decide_eq_true (all_eq_true.mp h c hc)

theorem Visible.append {text rest : List Char} (h : Visible text) (hrest : Visible rest) :
    Visible (text ++ rest) := by
  intro c hc
  exact (mem_append.mp hc).elim (h c) (hrest c)

theorem Visible.cons {c : Char} {text : List Char} (hc : 0x20 ≤ c.toNat) (h : Visible text) :
    Visible (c :: text) := forall_mem_cons.mpr ⟨hc, h⟩

theorem visible_nil : Visible [] := nofun

theorem visible_hexDigit (n : ℕ) : 0x20 ≤ (hexDigit (n % 0x10)).toNat := by
  have hall : ∀ k < 0x10, 0x20 ≤ (hexDigit k).toNat := by decide
  exact hall _ (Nat.mod_lt n (by decide))

theorem visible_jsonEscape (c : Char) : Visible (jsonEscape c) := by
  unfold jsonEscape
  split_ifs with h₁ h₂ h₃ h₄ h₅ h₆ h₇ h₈
  · exact visible_of_all (by decide)
  · exact visible_of_all (by decide)
  · exact visible_of_all (by decide)
  · exact visible_of_all (by decide)
  · exact visible_of_all (by decide)
  · exact visible_of_all (by decide)
  · exact visible_of_all (by decide)
  · have hhigh : c.toNat / 16 = c.toNat / 16 % 0x10 := by omega
    rw [hhigh]
    exact .cons (by decide) (.cons (by decide) (.cons (by decide) (.cons (by decide)
      (.cons (visible_hexDigit _) (.cons (visible_hexDigit _) visible_nil)))))
  · exact .cons (Nat.le_of_not_lt h₈) visible_nil

theorem visible_jsonEscapeUnit (u : UInt16) : Visible (jsonEscapeUnit u) := by
  unfold jsonEscapeUnit
  split_ifs
  · have hhigh : u.toNat / 0x1000 = u.toNat / 0x1000 % 0x10 := by
      have hlt := u.toNat_lt
      omega
    rw [hhigh]
    exact .cons (by decide) (.cons (by decide) (.cons (visible_hexDigit _)
      (.cons (visible_hexDigit _) (.cons (visible_hexDigit _)
        (.cons (visible_hexDigit _) visible_nil)))))
  · exact visible_jsonEscape _

theorem visible_jsonEscapeUnits (s : JsText) : Visible (jsonEscapeUnits s) := by
  induction hlength : s.length using Nat.strong_induction_on generalizing s with
  | h length ih =>
    cases s with
    | nil => exact visible_nil
    | cons u s =>
      cases s with
      | nil => exact visible_jsonEscapeUnit u
      | cons v rest =>
        rw [length_cons, length_cons] at hlength
        rw [jsonEscapeUnits]
        split_ifs with hpair
        · refine .cons ?_ (ih rest.length (by omega) rest rfl)
          simp only [isHighUnit, isLowUnit, Bool.and_eq_true, decide_eq_true_eq,
            UInt16.le_iff_toNat_le, UInt16.toNat_ofNat] at hpair
          rw [Utf8.toNat_ofNat_char (by omega)]
          omega
        · have hrest := ih (rest.length + 1) (by omega) (v :: rest) (length_cons ..)
          exact (visible_jsonEscapeUnit u).append hrest

theorem visible_jsonQuoteUnits (s : JsText) : Visible (jsonQuoteUnits s) :=
  .cons (by decide) ((visible_jsonEscapeUnits s).append (.cons (by decide) visible_nil))

theorem visible_numeral (n : JsonNumeral) : Visible n.text := by
  intro c hc
  have hplain := all_eq_true.mp n.plain c hc
  rw [Bool.or_eq_true, decide_eq_true_eq] at hplain
  obtain hdigit | hmem := hplain
  · simp only [Char.isDigit, Bool.and_eq_true, decide_eq_true_eq] at hdigit
    have hlow := UInt32.le_iff_toNat_le.mp hdigit.1
    exact Nat.le_trans (by decide) hlow
  · have hsigns : Visible ['-', '+', '.', 'e'] := visible_of_all (by decide)
    exact hsigns c hmem

theorem visible_stringify (v : JsonValue) : Visible v.stringify := by
  refine @JsonValue.rec (fun v => Visible v.stringify) (fun xs => Visible xs.stringify)
    (fun members => Visible members.stringify) ?_ ?_ visible_numeral visible_jsonQuoteUnits
    ?_ ?_ visible_nil ?_ visible_nil ?_ v
  · exact visible_of_all (by decide)
  · intro b
    cases b
    · exact visible_of_all (by decide)
    · exact visible_of_all (by decide)
  · intro xs hxs
    exact .cons (by decide) (hxs.append (.cons (by decide) visible_nil))
  · intro members hmembers
    exact .cons (by decide) (hmembers.append (.cons (by decide) visible_nil))
  · intro x xs hx hxs
    cases xs with
    | nil => exact hx
    | cons y xs => exact hx.append (.cons (by decide) hxs)
  · intro k v members hv hmembers
    cases members with
    | nil => exact (visible_jsonQuoteUnits k).append (.cons (by decide) hv)
    | cons k' v' members =>
      exact (visible_jsonQuoteUnits k).append
        (.cons (by decide) (hv.append (.cons (by decide) hmembers)))

theorem exists_position_of_mem {c : UInt16} {text : JsText} (h : c ∈ text) :
    ∃ i < text.length, i ∈ positions [c] text := by
  obtain ⟨before, after, rfl⟩ := append_of_mem h
  refine ⟨before.length, ?_, mem_positions_append before after [c]⟩
  rw [length_append, length_cons]
  omega

theorem takeJsonLines_eq {fuel : ℕ} {buffer : JsText} (hfuel : buffer.length < fuel) :
    takeJsonLines fuel buffer =
      ((wholeLines 0x0A buffer).map reportedLine, openLine 0x0A buffer) := by
  induction fuel generalizing buffer with
  | zero => exact absurd hfuel (Nat.not_lt_zero _)
  | succ fuel ih =>
    rw [takeJsonLines]
    cases hindex : indexOf? [0x0A] buffer with
    | none =>
      have hnone : (0x0A : UInt16) ∉ buffer := by
        intro hmem
        obtain ⟨i, -, hi⟩ := exists_position_of_mem hmem
        exact indexOf?_eq_none_iff.mp hindex i hi
      obtain ⟨hwhole, hopen⟩ := lines_of_not_mem hnone
      rw [hwhole, hopen]
      rfl
    | some newlineIndex =>
      obtain ⟨hposition, hfirst⟩ := indexOf?_eq_some_iff.mp hindex
      have hbound := add_length_le_of_mem_positions hposition
      rw [length_singleton] at hbound
      have hline : (0x0A : UInt16) ∉ buffer.take newlineIndex := by
        intro hmem
        obtain ⟨i, hlt, hi⟩ := exists_position_of_mem hmem
        rw [length_take] at hlt
        refine hfirst i (by omega) ?_
        rw [← take_append_drop newlineIndex buffer]
        exact (mem_positions_left.mp hi).1
      have hsplit : buffer =
          buffer.take newlineIndex ++ 0x0A :: buffer.drop (newlineIndex + 1) :=
        indexOf?_split hindex
      have hrest : (buffer.drop (newlineIndex + 1)).length < fuel := by
        rw [length_drop]
        omega
      have hlines := lines_cons hline (buffer.drop (newlineIndex + 1))
      rw [← hsplit] at hlines
      simp [ih hrest, hlines.1, hlines.2]

namespace JsonLineReader

theorem foldl_onData (r : JsonLineReader) (hbuffer : 0x0A ∉ r.buffer)
    (chunks : List (List UInt8)) :
    (chunks.map StreamChunk.bytes).foldl onData r =
      { decoder := (r.decoder.readAll chunks.flatten).2
        buffer := openLine 0x0A (r.buffer ++ utf16Chars (r.decoder.readAll chunks.flatten).1)
        lines := r.lines ++ (wholeLines 0x0A
          (r.buffer ++ utf16Chars (r.decoder.readAll chunks.flatten).1)).map reportedLine } := by
  induction chunks generalizing r with
  | nil =>
    obtain ⟨hwhole, hopen⟩ := lines_of_not_mem hbuffer
    have hnil : r.buffer ++ utf16Chars (r.decoder.readAll []).1 = r.buffer := append_nil _
    rw [flatten_nil, hnil, hwhole, hopen]
    simp only [map_nil, foldl_nil, append_nil]
    rfl
  | cons chunk chunks ih =>
    have hread := Utf8.readAll_append r.decoder chunk chunks.flatten
    have hstep : r.onData (.bytes chunk) =
        { decoder := (r.decoder.readAll chunk).2
          buffer := openLine 0x0A (r.buffer ++ utf16Chars (r.decoder.readAll chunk).1)
          lines := r.lines ++ (wholeLines 0x0A
            (r.buffer ++ utf16Chars (r.decoder.readAll chunk).1)).map reportedLine } := by
      rw [onData, takeJsonLines_eq (Nat.lt_succ_self _)]
    rw [map_cons, foldl_cons, hstep, ih _ (not_mem_openLine _), flatten_cons, hread]
    have htext : utf16Chars ((r.decoder.readAll chunk).1 ++
        ((r.decoder.readAll chunk).2.readAll chunks.flatten).1) =
        utf16Chars (r.decoder.readAll chunk).1 ++
          utf16Chars ((r.decoder.readAll chunk).2.readAll chunks.flatten).1 :=
      flatMap_append
    obtain ⟨hwhole, hopen⟩ := lines_append 0x0A
      (r.buffer ++ utf16Chars (r.decoder.readAll chunk).1)
      (utf16Chars ((r.decoder.readAll chunk).2.readAll chunks.flatten).1)
    rw [htext, ← append_assoc, hwhole, hopen, map_append, append_assoc]

end JsonLineReader

theorem visible_units {text : List Char} (h : Visible text) :
    ∀ u ∈ utf16Chars text, 0x20 ≤ u.toNat := by
  intro u hu
  obtain ⟨c, hc, hu⟩ := mem_flatMap.mp hu
  have hvisible := h c hc
  split_ifs at hu with hsmall
  · obtain rfl := mem_singleton.mp hu
    rw [UInt16.toNat_ofNat', Nat.mod_eq_of_lt hsmall]
    exact hvisible
  · have hvalid := Utf8.toNat_valid c
    obtain rfl | hu := mem_cons.mp hu
    · rw [UInt16.toNat_ofNat']
      omega
    · obtain rfl := mem_singleton.mp hu
      rw [UInt16.toNat_ofNat']
      omega

def encodedLine (value : JsonValue) : JsText := utf16Chars value.stringify

theorem not_mem_encodedLine {u : UInt16} (hu : u.toNat < 0x20) (value : JsonValue) :
    u ∉ encodedLine value := by
  intro hmem
  have hvisible := visible_units (visible_stringify value) u hmem
  omega

theorem reportedLine_encodedLine (value : JsonValue) :
    reportedLine (encodedLine value) = encodedLine value := by
  refine if_neg fun hlast => ?_
  exact not_mem_encodedLine (by decide) value (mem_of_getLast? hlast)

theorem utf16Chars_serialized (values : List JsonValue) :
    utf16Chars (values.flatMap serializeJsonLine) = framed 0x0A (values.map encodedLine) := by
  rw [utf16Chars, flatMap_assoc, framed, flatMap_map]
  refine flatMap_congr fun value _ => ?_
  rw [serializeJsonLine, flatMap_append]
  rfl

/-- The lines of the values are reported in order, wherever the bytes are cut: the last one before
the stream ends. -/
theorem readStream_serialized {values : List JsonValue} {chunks : List (List UInt8)}
    (h : chunks.flatten = Utf8.encode (values.flatMap serializeJsonLine)) :
    (JsonLineReader.readStream chunks).lines = values.map encodedLine ∧
      ((chunks.map StreamChunk.bytes).foldl JsonLineReader.onData .attached).lines =
        values.map encodedLine := by
  obtain ⟨htext, hneeded⟩ := Utf8.readAll_encode (values.flatMap serializeJsonLine)
  have hlines : ∀ line ∈ values.map encodedLine, (0x0A : UInt16) ∉ line := by
    intro line hline
    obtain ⟨value, -, rfl⟩ := mem_map.mp hline
    exact not_mem_encodedLine (by decide) value
  obtain ⟨hwhole, hopen⟩ := lines_framed hlines
  have hreported : (values.map encodedLine).map reportedLine = values.map encodedLine := by
    rw [map_map]
    exact map_congr_left fun value _ => reportedLine_encodedLine value
  have hread : (chunks.map StreamChunk.bytes).foldl JsonLineReader.onData .attached =
      { decoder := (Utf8.start.readAll (Utf8.encode (values.flatMap serializeJsonLine))).2
        buffer := [], lines := values.map encodedLine } := by
    have hdata := JsonLineReader.foldl_onData .attached not_mem_nil chunks
    have hdecoder : JsonLineReader.attached.decoder = Utf8.start := rfl
    have hbuffer : JsonLineReader.attached.buffer = [] := rfl
    rw [h, hdecoder, htext, utf16Chars_serialized, hbuffer, nil_append, hwhole, hopen,
      hreported] at hdata
    exact hdata
  rw [JsonLineReader.readStream, hread]
  refine ⟨?_, rfl⟩
  rw [JsonLineReader.onEnd, Utf8.Decoder.flush, if_pos hneeded]
  rfl

/-- A string with a line separator, a carriage return, a lone surrogate and a pair. -/
def awkwardValue : JsonValue :=
  .object (.cons (utf16 "k") (.string (utf16 "\u2028\r\n😀" ++ [0xD800])) .nil)

/-- The first cut is inside of the line separator. -/
theorem readStream_serialized_awkwardValue :
    (JsonLineReader.readStream
      [(Utf8.encode (serializeJsonLine awkwardValue)).take 8,
        (Utf8.encode (serializeJsonLine awkwardValue)).drop 8,
        Utf8.encode (serializeJsonLine .null)]).lines =
      [encodedLine awkwardValue, utf16 "null"] := by
  have hchunks : [(Utf8.encode (serializeJsonLine awkwardValue)).take 8,
      (Utf8.encode (serializeJsonLine awkwardValue)).drop 8,
      Utf8.encode (serializeJsonLine .null)].flatten =
      Utf8.encode ([awkwardValue, .null].flatMap serializeJsonLine) := by
    decide +kernel
  exact (readStream_serialized hchunks).1

end Draht
