import Draht.Text

/-!
# Applying a completion

The suggestions for a text come from its attachments, commands, command arguments or paths, and a
chosen one replaces its prefix. Which of them it was is guessed again from the prefix and the text
before it; the replacement is right just when the guess inserts the same text.
-/

namespace Draht.Autocomplete
open List Option

def slash : UInt16 := 0x2F

def space : UInt16 := 0x20

def quote : UInt16 := 0x22

def atSign : UInt16 := 0x40

/-- `PATH_DELIMITERS`. -/
def isDelimiter (c : UInt16) : Bool := c ∈ [space, 0x09, quote, 0x27, 0x3D]

def startsWith (text : JsText) (c : UInt16) : Bool := text.head? = some c

def endsWith (text : JsText) (c : UInt16) : Bool := text.getLast? = some c

def isBlank (text : JsText) : Bool := trim (fun c => isWhiteSpaceCode c.toNat) text = []

def findLastDelimiter (text : JsText) : Option ℕ :=
  (List.range text.length).reverse.find? fun i => text[i]?.any isDelimiter

/-- The text behind the last delimiter begins here. -/
def tokenStart (text : JsText) : ℕ := (findLastDelimiter text).elim 0 (· + 1)

def findUnclosedQuoteStart (text : JsText) : Option ℕ :=
  text.zipIdx.foldl (fun quoteStart p =>
    if p.1 = quote then if quoteStart.isNone then some p.2 else none else quoteStart) none

def isTokenStart (text : JsText) (index : ℕ) : Bool :=
  index = 0 || text[index - 1]?.any isDelimiter

def extractQuotedPrefix (text : JsText) : Option JsText :=
  (findUnclosedQuoteStart text).bind fun quoteStart =>
    if 0 < quoteStart ∧ text[quoteStart - 1]? = some atSign then
      if isTokenStart text (quoteStart - 1) then some (text.drop (quoteStart - 1)) else none
    else if isTokenStart text quoteStart then some (text.drop quoteStart) else none

structure PathPrefix where
  rawPrefix : JsText
  isAtPrefix : Bool
  isQuotedPrefix : Bool

def parsePathPrefix (text : JsText) : PathPrefix :=
  if [atSign, quote].isPrefixOf text then ⟨text.drop 2, true, true⟩
  else if startsWith text quote then ⟨text.drop 1, false, true⟩
  else if startsWith text atSign then ⟨text.drop 1, true, false⟩
  else ⟨text, false, false⟩

structure AutocompleteItem where
  value : JsText
  label : JsText
  description : Option JsText
deriving DecidableEq

/-- A slash command; a plain item counts as one with its value for a name. -/
structure SlashCommand where
  name : JsText
  label : JsText
  description : Option JsText
  getArgumentCompletions : Option (JsText → Option (List AutocompleteItem))

/-- The items the provider finds: the files for a query or a path, as the directories have them, and
the commands that match. -/
structure Listing where
  getFuzzyFileSuggestions (query : JsText) (isQuotedPrefix : Bool) : List AutocompleteItem
  getFileSuggestions (pathMatch : JsText) : List AutocompleteItem
  fuzzyFilter : List SlashCommand → JsText → List SlashCommand

variable (listing : Listing)

def extractAtPrefix (text : JsText) : Option JsText :=
  match (extractQuotedPrefix text).filter [atSign, quote].isPrefixOf with
  | some quotedPrefix => some quotedPrefix
  | none =>
    if text[tokenStart text]? = some atSign then some (text.drop (tokenStart text)) else none

def extractPathPrefix (text : JsText) (forceExtract : Bool) : Option JsText :=
  match extractQuotedPrefix text with
  | some quotedPrefix => some quotedPrefix
  | none =>
    let pathPrefix := text.drop (tokenStart text)
    if forceExtract || pathPrefix.contains slash || startsWith pathPrefix 0x2E ||
        (pathPrefix = [] && endsWith text space) then some pathPrefix
    else none

inductive Kind where
  | attachment
  | command
  | argument
  | path
deriving DecidableEq

/-- The suggestions, with the branch they come from; the source keeps no record of it. -/
structure AutocompleteSuggestions where
  items : List AutocompleteItem
  prefixText : JsText
  kind : Kind

def suggest (kind : Kind) (text : JsText) (items : List AutocompleteItem) :
    Option AutocompleteSuggestions :=
  if items = [] then none else some ⟨items, text, kind⟩

/-- The suggestions for the text before the cursor. -/
def getSuggestions (commands : List SlashCommand) (textBeforeCursor : JsText) (force : Bool) :
    Option AutocompleteSuggestions :=
  match extractAtPrefix textBeforeCursor with
  | some atPrefix =>
    let parsed := parsePathPrefix atPrefix
    suggest .attachment atPrefix
      (listing.getFuzzyFileSuggestions parsed.rawPrefix parsed.isQuotedPrefix)
  | none =>
    if !force && startsWith textBeforeCursor slash then
      match textBeforeCursor.findIdx? (· = space) with
      | none =>
        let found := listing.fuzzyFilter commands (textBeforeCursor.drop 1)
        suggest .command textBeforeCursor (found.map
          fun item => ⟨item.name, item.label, item.description⟩)
      | some spaceIndex =>
        let commandName := (textBeforeCursor.take spaceIndex).drop 1
        let argumentText := textBeforeCursor.drop (spaceIndex + 1)
        let completions := (commands.find? (·.name = commandName)).bind (·.getArgumentCompletions)
        suggest .argument argumentText ((completions.bind (· argumentText)).getD [])
    else
      (extractPathPrefix textBeforeCursor force).bind fun pathMatch =>
        suggest .path pathMatch (listing.getFileSuggestions pathMatch)

/-- A place in a text: one of its lines, and a column of that line. -/
structure Cursor (lines : List JsText) where
  line : Fin lines.length
  col : ℕ
  col_le : col ≤ (lines.get line).length

def Cursor.textBefore {lines : List JsText} (cursor : Cursor lines) : JsText :=
  (lines.get cursor.line).take cursor.col

def Cursor.textAfter {lines : List JsText} (cursor : Cursor lines) : JsText :=
  (lines.get cursor.line).drop cursor.col

structure Completion where
  lines : List JsText
  cursorLine : ℕ
  cursorCol : ℕ
deriving DecidableEq

/-- Only the labels of directories end with a slash. -/
def AutocompleteItem.isDirectory (item : AutocompleteItem) : Bool := endsWith item.label slash

def isQuotedPrefix (text : JsText) : Bool :=
  startsWith text quote || [atSign, quote].isPrefixOf text

def isSlashCommand (beforePrefix text : JsText) : Bool :=
  startsWith text slash && isBlank beforePrefix && !(text.drop 1).contains slash

/-- Where the cursor goes in the value, before the closing quote of a directory. -/
def AutocompleteItem.cursorOffset (item : AutocompleteItem) : ℕ :=
  if item.isDirectory && endsWith item.value quote then item.value.length - 1 else item.value.length

def applyCompletion (lines : List JsText) (cursor : Cursor lines) (item : AutocompleteItem)
    (text : JsText) : Completion :=
  let beforePrefix := (lines.get cursor.line).take (cursor.col - text.length)
  let adjustedAfterCursor :=
    if isQuotedPrefix text && endsWith item.value quote && startsWith cursor.textAfter quote then
      cursor.textAfter.drop 1
    else cursor.textAfter
  let place := fun (inserted : JsText) offset =>
    Completion.mk (lines.set cursor.line (beforePrefix ++ inserted ++ adjustedAfterCursor))
      cursor.line (beforePrefix.length + offset)
  if isSlashCommand beforePrefix text then
    place (slash :: item.value ++ [space]) (item.value.length + 2)
  else if startsWith text atSign then
    let suffix := if item.isDirectory then [] else [space]
    place (item.value ++ suffix) (item.cursorOffset + suffix.length)
  else
    -- the source does the same for what may be a command's argument
    place item.value item.cursorOffset

/-- What an item is to put in place of its prefix. -/
def Kind.inserted (item : AutocompleteItem) : Kind → JsText
  | .command => slash :: item.value ++ [space]
  | .attachment => item.value ++ if item.isDirectory then [] else [space]
  | .argument | .path => item.value

/-- Only what was inserted, and perhaps a closing quote behind a quoted prefix, has changed. -/
structure Replaces (kind : Kind) {lines : List JsText} (cursor : Cursor lines)
    (item : AutocompleteItem) (text : JsText) (result : Completion) : Prop where
  replaced : ∃ before after, cursor.textBefore = before ++ text ∧
    (after = cursor.textAfter ∨ isQuotedPrefix text ∧ cursor.textAfter = quote :: after) ∧
    result.lines = lines.set cursor.line (before ++ kind.inserted item ++ after) ∧
    result.cursorCol = before.length + (kind.inserted item).length -
      if item.isDirectory ∧ endsWith (kind.inserted item) quote then 1 else 0
  cursorLine : result.cursorLine = cursor.line

/-- The prefix and the text before it are taken for what they are. -/
def Kind.Recognised (beforePrefix text : JsText) (item : AutocompleteItem) : Kind → Prop
  | .attachment => True
  | .command => ¬ (text.drop 1).contains slash
  | .argument => startsWith text atSign → item.isDirectory
  | .path => ¬ isSlashCommand beforePrefix text

section

variable {force : Bool} {s : AutocompleteSuggestions} {text before : JsText}

theorem suggest_eq_some {kind : Kind} {items : List AutocompleteItem}
    (h : suggest kind text items = some s) : s = ⟨items, text, kind⟩ := by
  rw [suggest] at h
  split at h
  · cases h
  · exact (some.inj h).symm

theorem getElem_findUnclosedQuoteStart :
    ∀ i ∈ findUnclosedQuoteStart text, text[i]? = some quote := by
  refine List.foldlRecOn (motive := fun quoteStart => ∀ i ∈ quoteStart, text[i]? = some quote)
    text.zipIdx _ (by simp) fun quoteStart ih p hp => ?_
  split_ifs with hquote
  · rintro _ ⟨rfl⟩
    rw [← hquote]
    exact mem_zipIdx_iff_getElem?.mp hp
  · simp
  · exact ih

/-- A quoted prefix begins with its quote, or with an at sign before it. -/
theorem extractQuotedPrefix_spec {quoted : JsText} (h : extractQuotedPrefix text = some quoted) :
    quoted <:+ text ∧ (startsWith quoted atSign → [atSign, quote].isPrefixOf quoted) := by
  obtain ⟨i, hi, h⟩ := bind_eq_some_iff.mp h
  have hquote := getElem_findUnclosedQuoteStart i hi
  split_ifs at h with hat
  · obtain ⟨j, rfl⟩ := Nat.exists_eq_succ_of_ne_zero hat.1.ne'
    cases h
    refine ⟨drop_suffix _ _, fun _ => ?_⟩
    have hdrop : text.drop j = atSign :: quote :: text.drop (j + 2) := by
      rw [drop_eq_getElem?_toList_append, drop_eq_getElem?_toList_append, hquote,
        show text[j]? = some atSign from hat.2]
      rfl
    simp [hdrop]
  · cases h
    refine ⟨drop_suffix _ _, fun hstart => ?_⟩
    rw [startsWith, decide_eq_true_eq, head?_drop, hquote] at hstart
    cases hstart

/-- What is known of a prefix and of the text before it by the branch they come from. -/
def Kind.Fits (beforePrefix text : JsText) : Kind → Prop
  | .attachment => startsWith text atSign
  | .command => beforePrefix = [] ∧ startsWith text slash
  | .argument => slash ∈ beforePrefix
  | .path => ¬ startsWith text atSign

theorem extractAtPrefix_spec {atPrefix : JsText} (h : extractAtPrefix text = some atPrefix) :
    atPrefix <:+ text ∧ startsWith atPrefix atSign := by
  rw [extractAtPrefix] at h
  split at h
  · rename_i quoted hquoted
    cases h
    obtain ⟨hquoted, hprefix⟩ := filter_eq_some_iff.mp hquoted
    obtain ⟨rest, rfl⟩ := isPrefixOf_iff_prefix.mp hprefix
    exact ⟨(extractQuotedPrefix_spec hquoted).1, rfl⟩
  · split_ifs at h with hat
    cases h
    refine ⟨drop_suffix _ _, ?_⟩
    rw [startsWith, head?_drop, hat]
    exact decide_eq_true rfl

/-- What begins with an at sign has been taken for an attachment. -/
theorem extractPathPrefix_spec {pathMatch : JsText} (hat : extractAtPrefix text = none)
    (h : extractPathPrefix text force = some pathMatch) :
    pathMatch <:+ text ∧ ¬ startsWith pathMatch atSign := by
  rw [extractAtPrefix] at hat
  rw [extractPathPrefix] at h
  split at hat
  · cases hat
  rename_i hnone
  split_ifs at hat with hstart
  split at h
  · rename_i quoted hquoted
    cases h
    obtain ⟨hsuffix, hbegins⟩ := extractQuotedPrefix_spec hquoted
    refine ⟨hsuffix, fun hstart => ?_⟩
    rw [hquoted, filter_some, if_pos (hbegins hstart)] at hnone
    cases hnone
  · dsimp only at h
    split_ifs at h
    cases h
    refine ⟨drop_suffix _ _, fun h => hstart ?_⟩
    rwa [startsWith, head?_drop, decide_eq_true_eq] at h

theorem getSuggestions_spec {commands : List SlashCommand}
    (h : getSuggestions listing commands text force = some s) :
    ∃ before, text = before ++ s.prefixText ∧ s.kind.Fits before s.prefixText := by
  rw [getSuggestions] at h
  split at h
  · rename_i atPrefix hat
    obtain ⟨⟨before, hbefore⟩, hstart⟩ := extractAtPrefix_spec hat
    rw [suggest_eq_some h]
    exact ⟨before, hbefore.symm, hstart⟩
  rename_i hat
  split_ifs at h with hslash
  · rw [Bool.and_eq_true] at hslash
    split at h
    · rw [suggest_eq_some h]
      exact ⟨[], rfl, rfl, hslash.2⟩
    · rename_i spaceIndex _
      rw [suggest_eq_some h]
      refine ⟨_, (take_append_drop (spaceIndex + 1) text).symm, ?_⟩
      cases text with
      | nil => cases hslash.2
      | cons c rest =>
        cases of_decide_eq_true hslash.2
        exact mem_cons_self
  · obtain ⟨pathMatch, hpath, h⟩ := bind_eq_some_iff.mp h
    obtain ⟨⟨before, hbefore⟩, hstart⟩ := extractPathPrefix_spec hat hpath
    rw [suggest_eq_some h]
    exact ⟨before, hbefore.symm, hstart⟩

theorem take_before {lines : List JsText} {cursor : Cursor lines}
    (h : cursor.textBefore = before ++ text) :
    (lines.get cursor.line).take (cursor.col - text.length) = before := by
  have hlength := congrArg List.length h
  rw [Cursor.textBefore, length_take_of_le cursor.col_le, length_append] at hlength
  rw [← Nat.min_eq_left (Nat.sub_le cursor.col text.length), ← take_take,
    ← Cursor.textBefore, h, hlength, Nat.add_sub_cancel]
  exact take_left

/-- What `applyCompletion` takes a prefix for. -/
def guess (beforePrefix text : JsText) : Kind :=
  if isSlashCommand beforePrefix text then .command
  else if startsWith text atSign then .attachment
  else .path

theorem cursorOffset_add (item : AutocompleteItem) :
    item.cursorOffset + (if item.isDirectory ∧ endsWith item.value quote then 1 else 0) =
      item.value.length := by
  simp only [AutocompleteItem.cursorOffset, Bool.and_eq_true]
  split_ifs with h
  · have hne : item.value ≠ [] := ne_nil_of_mem (mem_of_getLast? (of_decide_eq_true h.2))
    exact Nat.sub_add_cancel (length_pos_iff.mpr hne)
  · rfl

theorem applyCompletion_guess {lines : List JsText} {cursor : Cursor lines}
    (h : cursor.textBefore = before ++ text) (item : AutocompleteItem) :
    Replaces (guess before text) cursor item text (applyCompletion lines cursor item text) := by
  have hafter : ∃ after,
      (if isQuotedPrefix text && endsWith item.value quote && startsWith cursor.textAfter quote then
        cursor.textAfter.drop 1 else cursor.textAfter) = after ∧
      (after = cursor.textAfter ∨ isQuotedPrefix text ∧ cursor.textAfter = quote :: after) := by
    refine ⟨_, rfl, ?_⟩
    split_ifs with hquote
    · simp only [Bool.and_eq_true] at hquote
      obtain ⟨rest, hrest⟩ := head?_eq_some_iff.mp (of_decide_eq_true hquote.2)
      rw [hrest]
      exact .inr ⟨hquote.1.1, rfl⟩
    · exact .inl rfl
  obtain ⟨after, heq, hafter⟩ := hafter
  have hoffset := cursorOffset_add item
  simp only [applyCompletion, take_before h, heq, guess]
  by_cases hslash : isSlashCommand before text
  · rw [if_pos hslash, if_pos hslash]
    have hspace : endsWith (Kind.command.inserted item) quote = false := by
      rw [endsWith, Kind.inserted, getLast?_concat]
      rfl
    refine ⟨⟨before, after, h, hafter, rfl, ?_⟩, rfl⟩
    simp only [hspace, Bool.false_eq_true, and_false, if_false]
    simp [Kind.inserted]
  rw [if_neg hslash, if_neg hslash]
  by_cases hat : startsWith text atSign
  · rw [if_pos hat, if_pos hat]
    refine ⟨⟨before, after, h, hafter, rfl, ?_⟩, rfl⟩
    cases hdirectory : item.isDirectory <;> simp [hdirectory, Kind.inserted] at hoffset ⊢ <;> omega
  · rw [if_neg hat, if_neg hat]
    refine ⟨⟨before, after, h, hafter, rfl, ?_⟩, rfl⟩
    change before.length + item.cursorOffset = before.length + item.value.length - _
    rw [Kind.inserted]
    omega

theorem inserted_cases (kind : Kind) (item : AutocompleteItem) :
    kind.inserted item = item.value ∨
      item.value.length < (kind.inserted item).length ∧
        (kind.inserted item).getLast? = some space := by
  cases kind with
  | command =>
    refine .inr ⟨?_, getLast?_concat⟩
    simp only [Kind.inserted, length_append, length_cons]
    omega
  | attachment =>
    rw [Kind.inserted]
    split_ifs
    · exact .inl (append_nil _)
    · exact .inr ⟨by simp, getLast?_concat⟩
  | argument | path => exact .inl rfl

/-- No text that is inserted takes the quote behind another with it. -/
theorem inserted_append_quote_ne (kind other : Kind) (item : AutocompleteItem) :
    kind.inserted item ++ [quote] ≠ other.inserted item := by
  intro h
  obtain hvalue | ⟨-, hspace⟩ := inserted_cases other item
  · have hlength := congrArg List.length (h.trans hvalue)
    rw [length_append] at hlength
    obtain hkind | hkind := inserted_cases kind item
    · rw [hkind] at hlength
      exact Nat.succ_ne_self _ hlength
    · exact absurd hkind.1 (by omega)
  · rw [← h, getLast?_concat] at hspace
    cases hspace

theorem inserted_eq_of_append {kind other : Kind} {item : AutocompleteItem}
    {behind after after' : JsText} (h : after = behind ∨ behind = quote :: after)
    (h' : after' = behind ∨ behind = quote :: after')
    (heq : before ++ kind.inserted item ++ after = before ++ other.inserted item ++ after') :
    kind.inserted item = other.inserted item := by
  rw [append_assoc, append_assoc] at heq
  have heq := append_cancel_left heq
  rcases h with rfl | rfl <;> rcases h' with rfl | h'
  · exact append_cancel_right heq
  · rw [h', append_cons] at heq
    exact absurd (append_cancel_right heq) (inserted_append_quote_ne kind other item)
  · rw [append_cons] at heq
    exact absurd (append_cancel_right heq).symm (inserted_append_quote_ne other kind item)
  · rw [tail_eq_of_cons_eq h'] at heq
    exact append_cancel_right heq

/-- The replacement is right just when the guess inserts the same text. -/
theorem replaces_iff {lines : List JsText} {cursor : Cursor lines}
    (h : cursor.textBefore = before ++ text) (kind : Kind) (item : AutocompleteItem) :
    Replaces kind cursor item text (applyCompletion lines cursor item text) ↔
      kind.inserted item = (guess before text).inserted item := by
  obtain ⟨⟨before', after, hbefore, hafter, hlines, hcol⟩, hline⟩ := applyCompletion_guess h item
  cases append_cancel_right (h.symm.trans hbefore)
  refine ⟨?_, fun heq => ⟨⟨before, after, h, hafter, heq ▸ hlines, heq ▸ hcol⟩, hline⟩⟩
  rintro ⟨⟨before', after', hbefore', hafter', hlines', -⟩, -⟩
  cases append_cancel_right (h.symm.trans hbefore')
  have hget := congrArg (·[cursor.line.val]?) (hlines.symm.trans hlines')
  simp only [getElem?_set_self cursor.line.isLt, some.injEq] at hget
  exact inserted_eq_of_append (hafter'.imp_right And.right) (hafter.imp_right And.right) hget.symm

theorem guess_eq_iff {kind : Kind} (hfits : kind.Fits before text) (item : AutocompleteItem) :
    kind.inserted item = (guess before text).inserted item ↔ kind.Recognised before text item := by
  have hlength : (Kind.command.inserted item).length = item.value.length + 2 := by
    simp [Kind.inserted]
  have hne : Kind.command.inserted item ≠ item.value := fun heq => by
    rw [heq] at hlength
    omega
  rw [guess]
  cases kind with
  | attachment =>
    have hslash : isSlashCommand before text = false := by
      simp [isSlashCommand, startsWith, of_decide_eq_true hfits, atSign, slash]
    simp [hslash, show startsWith text atSign = true from hfits, Kind.Recognised]
  | command =>
    obtain ⟨rfl, hstart⟩ := hfits
    have hat : startsWith text atSign = false := by
      simp [startsWith, of_decide_eq_true hstart, atSign, slash]
    have hslash : isSlashCommand [] text = !(text.drop 1).contains slash := by
      rw [isSlashCommand, hstart]
      rfl
    rw [hslash, hat, Kind.Recognised]
    cases (text.drop 1).contains slash
    · simp
    · exact iff_of_false hne (by simp)
  | argument =>
    have hslash : isSlashCommand before text = false := by
      have hblank : isBlank before = false := decide_eq_false (trim_ne_nil hfits rfl)
      rw [isSlashCommand, hblank, Bool.and_false, Bool.false_and]
    rw [hslash, Kind.Recognised]
    cases startsWith text atSign
    · simp [Kind.inserted]
    · cases hdirectory : item.isDirectory <;> simp [hdirectory, Kind.inserted]
  | path =>
    rw [Kind.Recognised]
    cases isSlashCommand before text
    · simp [Bool.eq_false_iff.mpr hfits, Kind.inserted]
    · exact iff_of_false hne.symm (by simp)

end

/-- A completion replaces its prefix, and nothing else, just when the prefix is taken for what it
is: a command's name has no slash in it, only an `@` file's prefix begins with an at sign (a
directory's may), and a path does not look like a command. -/
theorem applyCompletion_replaces_iff (commands : List SlashCommand) {lines : List JsText}
    (cursor : Cursor lines) (force : Bool) {s : AutocompleteSuggestions}
    (h : getSuggestions listing commands cursor.textBefore force = some s) :
    ∃ before, cursor.textBefore = before ++ s.prefixText ∧ ∀ item ∈ s.items,
      (Replaces s.kind cursor item s.prefixText (applyCompletion lines cursor item s.prefixText) ↔
        s.kind.Recognised before s.prefixText item) := by
  obtain ⟨before, hbefore, hfits⟩ := getSuggestions_spec listing h
  exact ⟨before, hbefore, fun item _ =>
    (replaces_iff hbefore s.kind item).trans (guess_eq_iff hfits item)⟩

/-- One directory in the root. -/
def usrItem : AutocompleteItem := ⟨utf16 "/usr/", utf16 "usr/", none⟩

def oneDirectory : Listing := ⟨fun _ _ => [], fun _ => [usrItem], fun commands _ => commands⟩

def typed (line : JsText) : Cursor [line] := ⟨⟨0, Nat.one_pos⟩, line.length, le_rfl⟩

def modelCommand : SlashCommand := ⟨utf16 "model", utf16 "model", none, none⟩

theorem applyCompletion_replaces_iff_command :
    ∃ before, (typed (utf16 "/mo")).textBefore = before ++ utf16 "/mo" ∧
      ∀ item ∈ [AutocompleteItem.mk (utf16 "model") (utf16 "model") none],
        (Replaces .command (typed (utf16 "/mo")) item (utf16 "/mo")
            (applyCompletion _ (typed (utf16 "/mo")) item (utf16 "/mo")) ↔
          Kind.command.Recognised before (utf16 "/mo") item) :=
  applyCompletion_replaces_iff oneDirectory [modelCommand] (typed (utf16 "/mo")) false rfl

/-- A path behind two spaces is completed like a command: `  /us` becomes `  //usr/ `. -/
theorem indentedPath_misplaced :
    getSuggestions oneDirectory [] (typed (utf16 "  /us")).textBefore false =
      some ⟨[usrItem], utf16 "/us", .path⟩ ∧
    ¬ Replaces .path (typed (utf16 "  /us")) usrItem (utf16 "/us")
      (applyCompletion _ (typed (utf16 "  /us")) usrItem (utf16 "/us")) := by
  have hbefore : (typed (utf16 "  /us")).textBefore = utf16 "  " ++ utf16 "/us" := rfl
  refine ⟨rfl, ?_⟩
  rw [replaces_iff hbefore]
  decide

end Draht.Autocomplete
