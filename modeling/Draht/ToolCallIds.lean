import Draht.TransformMessages
import Draht.Utf16

/-!
# Tool-call ids on the wire

How three providers rewrite the ids of other models' tool calls. Two of them cut ids by a fixed
rule; the third remembers which id it gave to which call, and searches on when a candidate is
taken.
-/

namespace Draht.ToolCallIds

open TransformMessages
open Utf8 (toNat_ofNat_char)

/-- `[a-zA-Z0-9_-]`. -/
def isWireUnit (u : UInt16) : Bool :=
  (0x61 ≤ u && u ≤ 0x7A) || (0x41 ≤ u && u ≤ 0x5A) || isDigitUnit u || u == 0x5F || u == 0x2D

def wireChar (u : UInt16) : Char := if isWireUnit u then Char.ofNat u.toNat else '_'

/-- `replace(/[^a-zA-Z0-9_-]/g, "_")`. -/
def sanitize (text : JsText) : List Char := text.map wireChar

def wireUnit (u : UInt16) : UInt16 := if isWireUnit u then u else 0x5F

def isPlainUnit (u : UInt16) : Bool := isWireUnit u && u != 0x5F

def Alike (u v : UInt16) : Prop := u = v ∨ (isPlainUnit u = false ∧ isPlainUnit v = false)

theorem wireUnit_eq_iff {u v : UInt16} : wireUnit u = wireUnit v ↔ Alike u v := by
  by_cases hu : isWireUnit u = true <;> by_cases hv : isWireUnit v = true
  · simp only [wireUnit, hu, hv, if_true, Alike, isPlainUnit, Bool.true_and, bne_eq_false_iff_eq]
    constructor
    · exact Or.inl
    · rintro (h | ⟨rfl, rfl⟩)
      · exact h
      · rfl
  · simp only [wireUnit, hu, hv, if_true, Alike, isPlainUnit, Bool.true_and,
      bne_eq_false_iff_eq, Bool.false_and, and_true]
    constructor
    · exact Or.inr
    · rintro (rfl | h)
      · exact absurd hu hv
      · exact h
  · simp only [wireUnit, hu, hv, if_true, Alike, isPlainUnit, Bool.true_and,
      bne_eq_false_iff_eq, Bool.false_and, true_and]
    constructor
    · exact fun h => Or.inr h.symm
    · rintro (rfl | h)
      · exact absurd hv hu
      · exact h.symm
  · simp [wireUnit, hu, hv, Alike, isPlainUnit]

theorem wireChar_toNat (u : UInt16) : (wireChar u).toNat = (wireUnit u).toNat := by
  rw [wireChar, wireUnit]
  by_cases hu : isWireUnit u = true
  · rw [if_pos hu, if_pos hu, toNat_ofNat_char]
    simp only [isWireUnit, isDigitUnit, Bool.or_eq_true, Bool.and_eq_true, decide_eq_true_eq,
      beq_iff_eq, UInt16.le_iff_toNat_le, ← UInt16.toNat_inj] at hu
    have h7A : (0x7A : UInt16).toNat = 0x7A := rfl
    have h5A : (0x5A : UInt16).toNat = 0x5A := rfl
    have h39 : (0x39 : UInt16).toNat = 0x39 := rfl
    have h5F : (0x5F : UInt16).toNat = 0x5F := rfl
    have h2D : (0x2D : UInt16).toNat = 0x2D := rfl
    omega
  · rw [if_neg hu, if_neg hu]
    rfl

theorem wireChar_lt (u : UInt16) : (wireChar u).toNat < 0x10000 := by
  rw [wireChar_toNat]
  exact (wireUnit u).toNat_lt

theorem utf16Chars_sanitize (text : JsText) : utf16Chars (sanitize text) = text.map wireUnit := by
  induction text with
  | nil => rfl
  | cons u text ih =>
    have hunit : UInt16.ofNat (wireChar u).toNat = wireUnit u := by
      rw [wireChar_toNat, UInt16.ofNat_toNat]
    rw [sanitize, List.map_cons, utf16Chars_small (wireChar_lt u), hunit, List.map_cons, ← ih]
    rfl

theorem utf16_sanitize_take (text : JsText) (n : ℕ) :
    utf16 (String.ofList ((sanitize text).take n)) = (text.take n).map wireUnit := by
  rw [utf16, String.toList_ofList, sanitize, ← List.map_take]
  exact utf16Chars_sanitize _

theorem map_eq_map_iff_forall₂ {α β γ : Type*} {f : α → γ} {g : β → γ} {xs : List α} {ys : List β} :
    xs.map f = ys.map g ↔ List.Forall₂ (fun x y => f x = g y) xs ys := by
  rw [← List.forall₂_eq_eq_eq, List.forall₂_map_left_iff, List.forall₂_map_right_iff]

theorem sanitize_take_eq_iff (a b : JsText) (n : ℕ) :
    String.ofList ((sanitize a).take n) = String.ofList ((sanitize b).take n) ↔
      List.Forall₂ Alike (a.take n) (b.take n) := by
  rw [← utf16_inj, utf16_sanitize_take, utf16_sanitize_take, map_eq_map_iff_forall₂]
  simp only [wireUnit_eq_iff]

/-- `normalizeToolCallId` of the Anthropic provider. -/
def anthropicToolCallId (id : String) : String := String.ofList ((sanitize (utf16 id)).take 64)

/-- The part before the first `|`. -/
def callPart (id : String) : JsText := (utf16 id).takeWhile (· ≠ 0x7C)

/-- `normalizeToolCallId` of the OpenAI completions provider. -/
def completionsToolCallId (model : Model) (id : String) : String :=
  if 0x7C ∈ utf16 id then String.ofList ((sanitize (callPart id)).take 40)
  else if model.provider = "openai" then
    if 40 < jsLength id then String.ofList (sliceUnits 40 id.toList) else id
  else id

/-- What is left of an id without `|`. -/
def wholePart (model : Model) (id : String) : JsText :=
  if model.provider = "openai" then (utf16 id).take 40 else utf16 id

def SameCompletionsId (model : Model) (a b : String) : Prop :=
  if 0x7C ∈ utf16 a then
    if 0x7C ∈ utf16 b then List.Forall₂ Alike ((callPart a).take 40) ((callPart b).take 40)
    else ((callPart a).take 40).map wireUnit = wholePart model b
  else if 0x7C ∈ utf16 b then wholePart model a = ((callPart b).take 40).map wireUnit
  else wholePart model a = wholePart model b

variable {id given : String} {s : MistralIds}

theorem completionsToolCallId_piped (model : Model) (h : 0x7C ∈ utf16 id) :
    completionsToolCallId model id = String.ofList ((sanitize (callPart id)).take 40) := by
  rw [completionsToolCallId, if_pos h]

theorem completionsToolCallId_whole (model : Model) (h : 0x7C ∉ utf16 id) :
    completionsToolCallId model id =
      if model.provider = "openai" then String.ofList (sliceUnits 40 id.toList) else id := by
  rw [completionsToolCallId, if_neg h]
  by_cases hlength : 40 < jsLength id
  · rw [if_pos hlength]
  · rw [jsLength_eq, not_lt] at hlength
    rw [jsLength_eq, if_neg (not_lt.mpr hlength), sliceUnits_of_length_le hlength,
      String.ofList_toList, ite_self]

theorem length_wireUnits (id : String) : (((callPart id).take 40).map wireUnit).length ≤ 40 := by
  rw [List.length_map, List.length_take]
  omega

theorem eq_whole_iff (model : Model) (hgiven : (utf16 given).length ≤ 40) :
    (given = if model.provider = "openai" then String.ofList (sliceUnits 40 id.toList) else id) ↔
      utf16 given = wholePart model id := by
  rw [wholePart]
  by_cases hopenai : model.provider = "openai"
  · rw [if_pos hopenai, if_pos hopenai]
    have hself : sliceUnits 40 given.toList = given.toList := sliceUnits_of_length_le hgiven
    have htake : (utf16 given).take 40 = utf16 given := List.take_of_length_le hgiven
    rw [← String.toList_inj, String.toList_ofList, ← hself, sliceUnits_eq_iff, ← utf16, ← utf16,
      htake]
  · rw [if_neg hopenai, if_neg hopenai, utf16_inj]

theorem completionsToolCallId_eq_iff (model : Model) (a b : String) :
    completionsToolCallId model a = completionsToolCallId model b ↔
      SameCompletionsId model a b := by
  rw [SameCompletionsId]
  by_cases ha : 0x7C ∈ utf16 a <;> by_cases hb : 0x7C ∈ utf16 b
  · rw [if_pos ha, if_pos hb, completionsToolCallId_piped model ha,
      completionsToolCallId_piped model hb, sanitize_take_eq_iff]
  · rw [if_pos ha, if_neg hb, completionsToolCallId_piped model ha,
      completionsToolCallId_whole model hb, eq_whole_iff, utf16_sanitize_take]
    rw [utf16_sanitize_take]
    exact length_wireUnits a
  · rw [if_neg ha, if_pos hb, completionsToolCallId_piped model hb,
      completionsToolCallId_whole model ha, eq_comm, eq_whole_iff, utf16_sanitize_take, eq_comm]
    rw [utf16_sanitize_take]
    exact length_wireUnits b
  · rw [if_neg ha, if_neg hb, completionsToolCallId_whole model ha,
      completionsToolCallId_whole model hb, wholePart, wholePart]
    by_cases hopenai : model.provider = "openai"
    · rw [if_pos hopenai, if_pos hopenai, if_pos hopenai, if_pos hopenai, String.ofList_inj,
        sliceUnits_eq_iff, utf16, utf16]
    · rw [if_neg hopenai, if_neg hopenai, if_neg hopenai, if_neg hopenai, utf16_inj]

theorem utf16_eq_nil_iff : utf16 id = [] ↔ id = "" := by
  rw [← utf16_inj]
  rfl

theorem anthropicToolCallId_eq_empty (h : anthropicToolCallId id = "") : id = "" := by
  rw [anthropicToolCallId, ← utf16_eq_nil_iff, utf16_sanitize_take] at h
  rw [← utf16_eq_nil_iff]
  simpa using h

theorem completionsToolCallId_eq_empty_iff (model : Model) (hid : id ≠ "") :
    completionsToolCallId model id = "" ↔ (utf16 id).head? = some 0x7C := by
  have hne : utf16 id ≠ [] := fun h => hid (utf16_eq_nil_iff.mp h)
  by_cases h : 0x7C ∈ utf16 id
  · rw [completionsToolCallId_piped model h, ← utf16_eq_nil_iff, utf16_sanitize_take, callPart]
    cases hunits : utf16 id with
    | nil => exact absurd hunits hne
    | cons u us => simp [List.takeWhile_cons]
  · rw [completionsToolCallId_whole model h]
    have hhead : (utf16 id).head? ≠ some 0x7C := fun hhead => h (List.mem_of_head? hhead)
    have hslice : sliceUnits 40 id.toList ≠ [] := by
      have hiff := sliceUnits_eq_iff 40 id.toList []
      rw [show sliceUnits 40 [] = [] from rfl] at hiff
      rw [Ne, hiff]
      rw [utf16Chars_nil, List.take_nil, List.take_eq_nil_iff]
      rintro (h | h)
      · omega
      · exact hne h
    by_cases hopenai : model.provider = "openai"
    · rw [if_pos hopenai]
      simp [hhead, hslice]
    · rw [if_neg hopenai]
      simp [hhead, hid]

def base36Digit (d : ℕ) : Char := if d < 10 then Char.ofNat (48 + d) else Char.ofNat (87 + d)

/-- `n.toString(36)`, with at most so many digits. -/
def base36 : ℕ → ℕ → List Char
  | 0, n => [base36Digit (n % 36)]
  | digits + 1, n =>
    if n < 36 then [base36Digit n] else base36 digits (n / 36) ++ [base36Digit (n % 36)]

/-- `Math.imul`. -/
def imul (a b : UInt32) : UInt32 := a * b

def hashUnits (start factor : UInt32) (text : JsText) : UInt32 :=
  text.foldl (fun h ch => imul (h ^^^ ch.toUInt32) factor) start

def shortHash (text : String) : List Char :=
  let h1 := hashUnits 0xdeadbeef 2654435761 (utf16 text)
  let h2 := hashUnits 0x41c6ce57 1597334677 (utf16 text)
  let h1 := imul (h1 ^^^ (h1 >>> 16)) 2246822507 ^^^ imul (h2 ^^^ (h2 >>> 13)) 3266489909
  let h2 := imul (h2 ^^^ (h2 >>> 16)) 2246822507 ^^^ imul (h1 ^^^ (h1 >>> 13)) 3266489909
  base36 6 h2.toNat ++ base36 6 h1.toNat

def deriveMistralToolCallId (id : String) (attempt : ℕ) : String :=
  let normalized := id.toList.filter Char.isAlphanum
  if attempt = 0 ∧ normalized.length = 9 then String.ofList normalized
  else
    let seedBase := if normalized = [] then id else String.ofList normalized
    let seed := if attempt = 0 then seedBase else seedBase ++ ":" ++ Nat.repr attempt
    String.ofList (((shortHash seed).filter Char.isAlphanum).take 9)

/-- What `createMistralToolCallIdNormalizer` remembers. -/
structure MistralIds where
  idMap : OrderedMap String String
  reverseMap : OrderedMap String String

namespace MistralIds

def empty : MistralIds := ⟨.empty, .empty⟩

/-- The search for a candidate that no other id owns, for some number of attempts. -/
def search (s : MistralIds) (id : String) : ℕ → ℕ → Option (String × MistralIds)
  | 0, _ => none
  | attempts + 1, attempt =>
    let candidate := deriveMistralToolCallId id attempt
    let owner := (s.reverseMap.get candidate).getD ""
    if owner = "" ∨ owner = id then
      some (candidate, ⟨s.idMap.set id candidate, s.reverseMap.set candidate id⟩)
    else s.search id attempts (attempt + 1)

def normalize (attempts : ℕ) (s : MistralIds) (id : String) : Option (String × MistralIds) :=
  let existing := (s.idMap.get id).getD ""
  if existing ≠ "" then some (existing, s) else s.search id attempts 0

def normalizeAll (attempts : ℕ) (s : MistralIds) : List String → Option MistralIds
  | [] => some s
  | id :: ids => (s.normalize attempts id).bind fun (_, s) => s.normalizeAll attempts ids

end MistralIds

theorem isAlphanum_base36Digit {d : ℕ} (hd : d < 36) : (base36Digit d).isAlphanum = true := by
  have hall : ∀ d < 36, (base36Digit d).isAlphanum = true := by decide
  exact hall d hd

theorem exists_mem_base36 (digits n : ℕ) : ∃ c ∈ base36 digits n, c.isAlphanum = true := by
  cases digits with
  | zero =>
    exact ⟨_, List.mem_singleton_self _, isAlphanum_base36Digit (Nat.mod_lt n (by omega))⟩
  | succ digits =>
    rw [base36]
    split_ifs with h
    · exact ⟨_, List.mem_singleton_self _, isAlphanum_base36Digit h⟩
    · exact ⟨_, List.mem_append_right _ (List.mem_singleton_self _),
        isAlphanum_base36Digit (Nat.mod_lt n (by omega))⟩

theorem deriveMistralToolCallId_ne_empty (id : String) (attempt : ℕ) :
    deriveMistralToolCallId id attempt ≠ "" := by
  rw [deriveMistralToolCallId, Ne, ← String.toList_inj]
  split_ifs with h
  · rw [String.toList_ofList]
    intro hnil
    rw [hnil] at h
    simp at h
  all_goals
    rw [String.toList_ofList, String.toList_empty, List.take_eq_nil_iff, not_or]
    refine ⟨by omega, ?_⟩
    rw [List.filter_eq_nil_iff, shortHash]
    intro hnone
    obtain ⟨c, hc, hdigit⟩ := exists_mem_base36 6 _
    exact hnone c (List.mem_append_left _ hc) hdigit

namespace MistralIds

/-- Each id that was given is owned by the one it was given to. -/
def Owned (s : MistralIds) : Prop :=
  ∀ id given, s.idMap.get id = some given → id ≠ "" ∧ given ≠ "" ∧ s.reverseMap.get given = some id

def Extends (s t : MistralIds) : Prop :=
  ∀ id given, s.idMap.get id = some given → t.idMap.get id = some given

theorem Owned.empty : empty.Owned := by
  intro id given h
  simp [MistralIds.empty] at h

theorem Owned.injective (h : s.Owned) {a b : String}
    (ha : s.idMap.get a = some given) (hb : s.idMap.get b = some given) : a = b := by
  obtain ⟨_, _, hownerA⟩ := h a given ha
  obtain ⟨_, _, hownerB⟩ := h b given hb
  exact Option.some.inj (hownerA.symm.trans hownerB)

theorem search_spec {t : MistralIds} (hs : s.Owned) (hid : id ≠ "")
    (hnew : s.idMap.get id = none) {attempts attempt : ℕ}
    (h : s.search id attempts attempt = some (given, t)) :
    t.Owned ∧ t.idMap.get id = some given ∧ s.Extends t := by
  induction attempts generalizing attempt with
  | zero => simp [search] at h
  | succ attempts ih =>
    rw [search] at h
    by_cases howner : (s.reverseMap.get (deriveMistralToolCallId id attempt)).getD "" = "" ∨
        (s.reverseMap.get (deriveMistralToolCallId id attempt)).getD "" = id
    · rw [if_pos howner] at h
      obtain ⟨rfl, rfl⟩ := Prod.mk.inj (Option.some.inj h)
      refine ⟨?_, by simp, ?_⟩
      · intro other taken hother
        simp only [OrderedMap.get_set] at hother ⊢
        by_cases hsame : id = other
        · rw [if_pos hsame] at hother
          obtain rfl := Option.some.inj hother
          rw [if_pos rfl, ← hsame]
          exact ⟨hid, deriveMistralToolCallId_ne_empty id attempt, rfl⟩
        · rw [if_neg hsame] at hother
          obtain ⟨hne, htaken, hreverse⟩ := hs other taken hother
          refine ⟨hne, htaken, ?_⟩
          rw [if_neg]
          · exact hreverse
          · -- a taken candidate would have been passed over
            intro hcandidate
            rw [hcandidate, hreverse, Option.getD_some] at howner
            exact howner.elim hne (fun h => hsame h.symm)
      · intro other taken hother
        have hne : id ≠ other := by
          rintro rfl
          rw [hnew] at hother
          exact absurd hother (by simp)
        simp only [OrderedMap.get_set]
        rw [if_neg hne]
        exact hother
    · rw [if_neg howner] at h
      exact ih h

theorem normalize_spec {t : MistralIds} (hs : s.Owned) (hid : id ≠ "")
    {attempts : ℕ} (h : s.normalize attempts id = some (given, t)) :
    t.Owned ∧ t.idMap.get id = some given ∧ s.Extends t := by
  rw [normalize] at h
  cases hget : s.idMap.get id with
  | none =>
    rw [hget, Option.getD_none, if_neg (by simp)] at h
    exact search_spec hs hid hget h
  | some existing =>
    obtain ⟨_, hne, _⟩ := hs id existing hget
    rw [hget, Option.getD_some, if_pos hne] at h
    obtain ⟨rfl, rfl⟩ := Prod.mk.inj (Option.some.inj h)
    exact ⟨hs, hget, fun _ _ h => h⟩

theorem normalizeAll_spec {t : MistralIds} (hs : s.Owned) {ids : List String}
    (hids : ∀ id ∈ ids, id ≠ "") {attempts : ℕ} (h : s.normalizeAll attempts ids = some t) :
    t.Owned ∧ (∀ id ∈ ids, ∃ given, t.idMap.get id = some given) ∧ s.Extends t := by
  induction ids generalizing s with
  | nil =>
    obtain rfl := Option.some.inj h
    exact ⟨hs, by simp, fun _ _ h => h⟩
  | cons id ids ih =>
    rw [normalizeAll, Option.bind_eq_some_iff] at h
    obtain ⟨⟨given, s'⟩, hone, hrest⟩ := h
    obtain ⟨hs', hget, hextends⟩ := normalize_spec hs (hids id List.mem_cons_self) hone
    obtain ⟨ht, hall, hextends'⟩ :=
      ih hs' (fun id hid => hids id (List.mem_cons_of_mem _ hid)) hrest
    refine ⟨ht, ?_, fun a b hab => hextends' a b (hextends a b hab)⟩
    intro a ha
    obtain rfl | ha := List.mem_cons.mp ha
    · exact ⟨given, hextends' _ _ hget⟩
    · exact hall a ha

end MistralIds

def idsToNormalize (model : Model) (messages : List Message) : List String :=
  messages.flatMap fun m =>
    match m with
    | .assistant a => if isSameModel model a then [] else a.toolCalls.map ToolCall.id
    | _ => []

inductive WireApi where
  | anthropicMessages
  | openaiCompletions
  | mistralConversations
deriving DecidableEq

/-- The id that a call of another model is given. The Mistral provider gives what its normaliser
has returned for the call; there is none while a search does not end. -/
def givenId (attempts : ℕ) (model : Model) (messages : List Message) :
    WireApi → Option (String → String)
  | .anthropicMessages => some anthropicToolCallId
  | .openaiCompletions => some (completionsToolCallId model)
  | .mistralConversations =>
    (MistralIds.empty.normalizeAll attempts (idsToNormalize model messages)).map
      fun ids id => (ids.idMap.get id).getD id

end Draht.ToolCallIds
