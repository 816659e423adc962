import Draht.Utf16

/-!
# Nested markdown lists

A list is rendered to lines, and the lines of a list in an item are told from its other lines by
how they look. Every bullet keeps its column just when the bullets of nested lists have the one
colour that is looked for, and no item begins with a line that looks like theirs.
-/

namespace Draht.Markdown
open List

/-- A bullet that was written into a line: its list's depth, and the columns before it. -/
structure Bullet where
  depth : ℕ
  text : JsText
  column : ℕ
deriving DecidableEq

/-- A rendered line, with the record of its bullets. -/
structure Line where
  text : JsText
  bullets : List Bullet

inductive ListToken (ι : Type) where
  | list (ordered : Bool) (start : Option ℕ) (items : List (List (ListToken ι)))
  | text (tokens : List ι) (text : JsText)
  | paragraph (tokens : List ι)
  | code (lang text : JsText)
  | other (token : ι)

/-- What the lists use of the theme and of the component. -/
structure Renderer (ι : Type) where
  listBullet : JsText → JsText
  codeBlockIndent : Option JsText
  codeBlockBorder : JsText → JsText
  codeBlock : JsText → JsText
  highlightCode : Option (JsText → JsText → List JsText)
  renderInlineTokens : List ι → JsText

variable {ι : Type} (R : Renderer ι)

def spaces (n : ℕ) : JsText := List.replicate n 0x20

def isSpaceUnit (u : UInt16) : Bool := isWhiteSpaceCode u.toNat

def cyan : JsText := utf16 "\x1b[36m"

/-- `/^\s+\x1b\[36m[-\d]/.test(line)`. -/
def looksNested (line : JsText) : Bool :=
  let rest := line.dropWhile isSpaceUnit
  line.head?.any isSpaceUnit && cyan.isPrefixOf rest &&
    (rest.drop cyan.length).head?.any fun c => c == 0x2D || isDigitUnit c

def Bullet.shift (n : ℕ) (b : Bullet) : Bullet := { b with column := b.column + n }

/-- The line behind a text that takes `columns` columns. -/
def Line.behind (before : JsText) (columns : ℕ) (line : Line) : Line :=
  ⟨before ++ line.text, line.bullets.map (Bullet.shift columns)⟩

def bulletText (ordered : Bool) (start : Option ℕ) (i : ℕ) : JsText :=
  if ordered then utf16 (toString (start.getD 1 + i)) ++ utf16 ". " else utf16 "- "

/-- `indent + this.theme.listBullet(bullet) + line`; the codes of the theme take no column. -/
def bulletLine (depth : ℕ) (bullet : JsText) (line : Line) : Line :=
  let placed := line.behind (spaces (2 * depth) ++ R.listBullet bullet) (2 * depth + bullet.length)
  { placed with bullets := ⟨depth, bullet, 2 * depth⟩ :: placed.bullets }

def continuedLine (depth : ℕ) (line : Line) : Line :=
  if looksNested line.text then line else line.behind (spaces (2 * depth + 2)) (2 * depth + 2)

/-- What `renderList` makes of the lines of an item. -/
def placeItem (depth : ℕ) (bullet : JsText) : List Line → List Line
  | [] => [bulletLine R depth bullet ⟨[], []⟩]
  | firstLine :: rest =>
    (if looksNested firstLine.text then firstLine else bulletLine R depth bullet firstLine) ::
      rest.map (continuedLine depth)

/-- The lines of an item's token that is no list. -/
def ownLines : ListToken ι → List JsText
  | .list _ _ _ => []
  | .text tokens text => [if 0 < tokens.length then R.renderInlineTokens tokens else text]
  | .paragraph tokens => [R.renderInlineTokens tokens]
  | .code lang text =>
    let codeLines := match R.highlightCode with
      | some highlightCode => highlightCode text lang
      | none => (text.splitOn 0x0A).map R.codeBlock
    R.codeBlockBorder (utf16 "```" ++ lang) ::
      (codeLines.map fun line => R.codeBlockIndent.getD (utf16 "  ") ++ line) ++
        [R.codeBlockBorder (utf16 "```")]
  | .other token =>
    let text := R.renderInlineTokens [token]
    if text = [] then [] else [text]

mutual

/-- The items from number `i` on. -/
def renderList (depth : ℕ) (ordered : Bool) (start : Option ℕ) (i : ℕ) :
    List (List (ListToken ι)) → List Line
  | [] => []
  | item :: items =>
    placeItem R depth (bulletText ordered start i) (renderListItem depth item) ++
      renderList depth ordered start (i + 1) items

def renderListItem (parentDepth : ℕ) : List (ListToken ι) → List Line
  | [] => []
  | token :: tokens => renderToken parentDepth token ++ renderListItem parentDepth tokens

def renderToken (parentDepth : ℕ) : ListToken ι → List Line
  | .list ordered start items => renderList (parentDepth + 1) ordered start 0 items
  | token => (ownLines R token).map fun line => ⟨line, []⟩

end

mutual

/-- The bullets of a list, each in its column. -/
def listBullets (depth : ℕ) (ordered : Bool) (start : Option ℕ) (i : ℕ) :
    List (List (ListToken ι)) → List Bullet
  | [] => []
  | item :: items =>
    ⟨depth, bulletText ordered start i, 2 * depth⟩ :: itemBullets depth item ++
      listBullets depth ordered start (i + 1) items

def itemBullets (parentDepth : ℕ) : List (ListToken ι) → List Bullet
  | [] => []
  | token :: tokens => tokenBullets parentDepth token ++ itemBullets parentDepth tokens

def tokenBullets (parentDepth : ℕ) : ListToken ι → List Bullet
  | .list ordered start items => listBullets (parentDepth + 1) ordered start 0 items
  | _ => []

end

/-- The theme only adds style codes around a bullet. -/
def IsCodes (text : JsText) : Prop :=
  ∃ codes : List JsText, (∀ params ∈ codes, ∀ u ∈ params, isDigitUnit u ∨ u = 0x3B) ∧
    text = codes.flatMap fun params => 0x1B :: 0x5B :: (params ++ [0x6D])

def AddsCodes : Prop :=
  ∀ b, ∃ before after, IsCodes before ∧ IsCodes after ∧ R.listBullet b = before ++ b ++ after

/-- Indentation and bullets, and the columns that they take; the codes take none. -/
inductive TakesColumns : JsText → ℕ → Prop
  | nil : TakesColumns [] 0
  | spaces (n : ℕ) {t : JsText} {m : ℕ} (h : TakesColumns t m) :
      TakesColumns (spaces n ++ t) (n + m)
  | bullet (b : JsText) {t : JsText} {m : ℕ} (h : TakesColumns t m) :
      TakesColumns (R.listBullet b ++ t) (b.length + m)

/-- The recorded bullets of a line are in its text, in their columns. -/
def Line.Shown (line : Line) : Prop :=
  ∀ b ∈ line.bullets, ∃ before after, line.text = before ++ R.listBullet b.text ++ after ∧
    TakesColumns R before b.column

/-- The bullet has the colour that is looked for, and no other style. -/
def InCyan (bullet : JsText) : Prop := cyan ++ bullet <+: R.listBullet bullet

/-- The first line of the item is no nested list's, and does not look like one. -/
def BeginsPlain : List (ListToken ι) → Prop
  | [] => True
  | .list _ _ (_ :: _) :: _ => False
  | token :: tokens =>
    match ownLines R token with
    | [] => BeginsPlain tokens
    | line :: _ => looksNested line = false

mutual

def ListKeeps : List (List (ListToken ι)) → Prop
  | [] => True
  | item :: items => BeginsPlain R item ∧ ItemKeeps item ∧ ListKeeps items

def ItemKeeps : List (ListToken ι) → Prop
  | [] => True
  | token :: tokens => TokenKeeps token ∧ ItemKeeps tokens

def TokenKeeps : ListToken ι → Prop
  | .list ordered start items =>
    ListKeeps items ∧ ∀ i < items.length, InCyan R (bulletText ordered start i)
  | _ => True

end

variable {R}

def IsBulletUnit (u : UInt16) : Prop := u = 0x2D ∨ isDigitUnit u

def IsBullet (text : JsText) : Prop := ∃ u rest, text = u :: rest ∧ IsBulletUnit u

theorem isBullet_bulletText (ordered : Bool) (start : Option ℕ) (i : ℕ) :
    IsBullet (bulletText ordered start i) := by
  cases ordered with
  | false => exact ⟨0x2D, [0x20], rfl, .inl rfl⟩
  | true =>
    rw [bulletText, if_pos rfl, Nat.toString_eq_ofList_toDigits, utf16_ofList]
    obtain ⟨c, digits, hdigits⟩ :=
      exists_cons_of_ne_nil (Nat.toDigits_ne_nil (n := start.getD 1 + i) (b := 10))
    have hc : c.isDigit = true := Nat.isDigit_of_mem_toDigits (n := start.getD 1 + i) (b := 10)
      (by omega) (by omega) (by simp [hdigits])
    have hrange : 48 ≤ c.toNat ∧ c.toNat ≤ 57 := by
      simpa [Char.isDigit, UInt32.le_iff_toNat_le] using hc
    have hsmall : c.toNat < 0x10000 := by omega
    rw [hdigits, utf16Chars_small hsmall]
    refine ⟨_, _, rfl, .inr ?_⟩
    rw [isDigitUnit, Bool.and_eq_true, decide_eq_true_eq, decide_eq_true_eq,
      UInt16.le_iff_toNat_le, UInt16.le_iff_toNat_le, UInt16.toNat_ofNat_of_lt' hsmall]
    exact hrange

variable {lines : List Line} {before : JsText} {expected : List Bullet} {n : ℕ} {keeps : Prop}

/-- Codes in front of a bullet that look like the expected colour are that colour and no more. -/
theorem eq_cyan_of_begins {rest : JsText} (hbefore : IsCodes before) {u v : UInt16}
    (hu : IsBulletUnit u) (hv : IsBulletUnit v) (h : cyan ++ [u] <+: before ++ v :: rest) :
    before = cyan := by
  have hescape : ¬IsBulletUnit 0x1B := by simp [IsBulletUnit, isDigitUnit]
  obtain ⟨codes, hparams, rfl⟩ := hbefore
  change 0x1B :: 0x5B :: 0x33 :: 0x36 :: 0x6D :: [u] <+: _ at h
  cases codes with
  | nil =>
    rw [flatMap_nil, nil_append, cons_prefix_cons] at h
    exact absurd (h.1 ▸ hv) hescape
  | cons params more =>
    have hfirst := hparams params mem_cons_self
    simp only [flatMap_cons, cons_append, append_assoc, cons_prefix_cons,
      nil_append, true_and] at h ⊢
    match params, hfirst, h with
    | [], _, h => simp at h
    | [_], _, h => simp at h
    | [x, y], _, h =>
      simp only [cons_append, nil_append, cons_prefix_cons, true_and] at h
      obtain ⟨rfl, rfl, h⟩ := h
      cases more with
      | nil => rfl
      | cons params more =>
        rw [flatMap_cons, cons_append, cons_append, cons_prefix_cons] at h
        exact absurd (h.1 ▸ hu) hescape
    | x :: y :: z :: _, hfirst, h =>
      simp only [cons_append, cons_prefix_cons] at h
      have hz := hfirst z (by simp)
      rw [← h.2.2.1] at hz
      simp [isDigitUnit] at hz

theorem looksNested_bullet (hcodes : AddsCodes R) {b : JsText} (hb : IsBullet b) (hn : 0 < n)
    (rest : JsText) : looksNested (spaces n ++ R.listBullet b ++ rest) = true ↔ InCyan R b := by
  obtain ⟨before, after, hbefore, -, hlist⟩ := hcodes b
  obtain ⟨u, b, rfl, hu⟩ := hb
  have hblank : ∀ v, v = 0x1B ∨ IsBulletUnit v → isSpaceUnit v = false := by
    rintro v (rfl | rfl | hv)
    · rfl
    · rfl
    · simp only [isDigitUnit, Bool.and_eq_true, decide_eq_true_eq, UInt16.le_iff_toNat_le] at hv
      have h48 : 48 ≤ v.toNat := hv.1
      have h57 : v.toNat ≤ 57 := hv.2
      simp only [isSpaceUnit, isWhiteSpaceCode, Bool.or_eq_false_iff, Bool.and_eq_false_iff,
        decide_eq_false_iff_not, beq_eq_false_iff_ne]
      omega
  have hspaces : (spaces n).dropWhile isSpaceUnit = [] := by
    refine dropWhile_eq_nil_iff.mpr fun v hv => ?_
    rw [eq_of_mem_replicate hv]
    rfl
  have htext : spaces n ++ R.listBullet (u :: b) ++ rest =
      spaces n ++ (before ++ u :: (b ++ (after ++ rest))) := by simp [hlist]
  have hdrop : (spaces n ++ R.listBullet (u :: b) ++ rest).dropWhile isSpaceUnit =
      before ++ u :: (b ++ (after ++ rest)) := by
    rw [htext, dropWhile_append, hspaces, isEmpty_nil, if_pos rfl]
    refine dropWhile_eq_self_iff.mpr fun hlength => ?_
    obtain ⟨codes, -, rfl⟩ := hbefore
    cases codes with
    | nil => simp [hblank u (.inr hu)]
    | cons params more => simp [hblank 0x1B (.inl rfl)]
  have hhead : (spaces n ++ R.listBullet (u :: b) ++ rest).head?.any isSpaceUnit = true := by
    obtain ⟨m, rfl⟩ := Nat.exists_eq_succ_of_ne_zero hn.ne'
    rfl
  rw [looksNested, hdrop, hhead, Bool.true_and, Bool.and_eq_true, isPrefixOf_iff_prefix,
    InCyan, hlist]
  constructor
  · rintro ⟨⟨after', hcyan⟩, hunit⟩
    rw [← hcyan, drop_left] at hunit
    cases after' with
    | nil => exact absurd hunit Bool.false_ne_true
    | cons v after' =>
      have hv : IsBulletUnit v := by simpa [IsBulletUnit] using hunit
      have hbegins : cyan ++ [v] <+: before ++ u :: (b ++ (after ++ rest)) :=
        ⟨after', by rw [← hcyan, append_assoc, singleton_append]⟩
      rw [eq_cyan_of_begins hbefore hv hu hbegins]
      exact prefix_append _ _
  · intro h
    have hbegins : cyan ++ [u] <+: before ++ u :: (b ++ after) := by
      obtain ⟨t, ht⟩ := h
      exact ⟨b ++ t, by simpa using ht⟩
    rw [eq_cyan_of_begins hbefore hu hu hbegins]
    refine ⟨prefix_append _ _, ?_⟩
    simpa [IsBulletUnit] using hu

def bulletsOf (lines : List Line) : List Bullet := lines.flatMap Line.bullets

theorem append_eq_append_iff_of_length {α : Type*} {a b c d : List α} (hac : a.length ≤ c.length)
    (hbd : b.length ≤ d.length) : a ++ b = c ++ d ↔ a = c ∧ b = d := by
  constructor
  · intro h
    have hlength := congrArg List.length h
    rw [length_append, length_append] at hlength
    exact append_inj h (by omega)
  · rintro ⟨rfl, rfl⟩
    rfl

/-- Lines within an item against the bullets that belong there. No bullet is before its column, and
all stay there just when `keeps` holds. -/
structure ItemSpec (lines : List Line) (expected : List Bullet) (keeps : Prop) : Prop where
  columns : ∀ b ∈ bulletsOf lines, 2 * b.depth ≤ b.column
  exact : ∀ b ∈ expected, b.column = 2 * b.depth
  length : (bulletsOf lines).length ≤ expected.length
  keeps_iff : (bulletsOf lines = expected ∧
    ∀ line ∈ lines, line.bullets ≠ [] → looksNested line.text = true) ↔ keeps

theorem ItemSpec.nil : ItemSpec [] [] True := by
  refine ⟨?_, ?_, le_refl _, ?_⟩ <;> simp [bulletsOf]

theorem ItemSpec.append {lines' : List Line} {expected' : List Bullet} {keeps' : Prop}
    (h : ItemSpec lines expected keeps) (h' : ItemSpec lines' expected' keeps') :
    ItemSpec (lines ++ lines') (expected ++ expected') (keeps ∧ keeps') := by
  have happend : bulletsOf (lines ++ lines') = bulletsOf lines ++ bulletsOf lines' :=
    flatMap_append
  refine ⟨?_, ?_, ?_, ?_⟩
  · intro b hb
    rw [happend, mem_append] at hb
    exact hb.elim (h.columns b) (h'.columns b)
  · intro b hb
    exact (mem_append.mp hb).elim (h.exact b) (h'.exact b)
  · rw [happend, length_append, length_append]
    exact Nat.add_le_add h.length h'.length
  · rw [happend, append_eq_append_iff_of_length h.length h'.length, ← h.keeps_iff, ← h'.keeps_iff]
    simp only [mem_append, or_imp, forall_and]
    tauto

theorem ItemSpec.plain (texts : List JsText) :
    ItemSpec (texts.map fun line => ⟨line, []⟩) [] True := by
  have hnone : bulletsOf (texts.map fun line => (⟨line, []⟩ : Line)) = [] := by
    simp [bulletsOf]
  refine ⟨?_, ?_, ?_, ?_⟩
  · simp [hnone]
  · simp
  · simp [hnone]
  · simp [hnone]

theorem Bullet.shift_ne {b : Bullet} (hb : 2 * b.depth ≤ b.column) (hn : 0 < n)
    (hexact : ∀ b ∈ expected, b.column = 2 * b.depth) : b.shift n ∉ expected := by
  intro hmem
  have hcolumn := hexact _ hmem
  simp only [Bullet.shift] at hcolumn
  omega

theorem bullets_continuedLine (depth : ℕ) (line : Line) :
    (continuedLine depth line).bullets = line.bullets ∨
      looksNested line.text = false ∧
        (continuedLine depth line).bullets = line.bullets.map (Bullet.shift (2 * depth + 2)) := by
  rw [continuedLine]
  cases hlooks : looksNested line.text with
  | true => exact .inl rfl
  | false => exact .inr ⟨rfl, rfl⟩

theorem length_continuedLines (depth : ℕ) (lines : List Line) :
    (bulletsOf (lines.map (continuedLine depth))).length = (bulletsOf lines).length := by
  induction lines with
  | nil => rfl
  | cons line lines ih =>
    have hline : (continuedLine depth line).bullets.length = line.bullets.length := by
      rcases bullets_continuedLine depth line with h | ⟨-, h⟩ <;> simp [h]
    simp only [bulletsOf, map_cons, flatMap_cons, length_append] at ih ⊢
    rw [hline, ih]

theorem columns_continuedLines (depth : ℕ) (h : ∀ b ∈ bulletsOf lines, 2 * b.depth ≤ b.column) :
    ∀ b ∈ bulletsOf (lines.map (continuedLine depth)), 2 * b.depth ≤ b.column := by
  intro b hb
  obtain ⟨placed, hplaced, hmem⟩ := mem_flatMap.mp hb
  obtain ⟨line, hline, rfl⟩ := mem_map.mp hplaced
  obtain heq | ⟨-, heq⟩ := bullets_continuedLine depth line
  · exact h b (mem_flatMap.mpr ⟨line, hline, heq ▸ hmem⟩)
  · rw [heq] at hmem
    obtain ⟨b', hb', rfl⟩ := mem_map.mp hmem
    exact (h b' (mem_flatMap.mpr ⟨line, hline, hb'⟩)).trans (Nat.le_add_right _ _)

/-- The lines behind the first keep their bullets if those that have any look nested. -/
theorem bulletsOf_continuedLines {depth : ℕ}
    (h : ∀ line ∈ lines, line.bullets ≠ [] → looksNested line.text = true) :
    bulletsOf (lines.map (continuedLine depth)) = bulletsOf lines := by
  rw [bulletsOf, bulletsOf, flatMap_map]
  refine flatMap_congr fun line hline => ?_
  obtain heq | ⟨hlooks, heq⟩ := bullets_continuedLine depth line
  · exact heq
  · have hnone : line.bullets = [] := by
      by_contra hne
      exact Bool.false_ne_true (hlooks.symm.trans (h line hline hne))
    rw [heq, hnone]
    rfl

/-- They look nested if all their bullets are where they belong. -/
theorem looksNested_of_exact {depth : ℕ} (hcolumns : ∀ b ∈ bulletsOf lines, 2 * b.depth ≤ b.column)
    (hexact : ∀ b ∈ expected, b.column = 2 * b.depth)
    (h : bulletsOf (lines.map (continuedLine depth)) = expected) :
    ∀ line ∈ lines, line.bullets ≠ [] → looksNested line.text = true := by
  intro line hline hne
  by_contra hlooks
  obtain ⟨b, hb⟩ := exists_mem_of_ne_nil _ hne
  refine Bullet.shift_ne (hcolumns b (mem_flatMap.mpr ⟨line, hline, hb⟩))
    (Nat.succ_pos (2 * depth + 1)) hexact ?_
  rw [← h]
  refine mem_flatMap.mpr ⟨continuedLine depth line, mem_map_of_mem hline, ?_⟩
  rw [continuedLine, if_neg hlooks]
  exact mem_map_of_mem hb

theorem bulletsOf_bulletLine (depth : ℕ) (bullet : JsText) (first : Line) (rest : List Line) :
    bulletsOf (bulletLine R depth bullet first :: rest) = ⟨depth, bullet, 2 * depth⟩ ::
      (first.bullets.map (Bullet.shift (2 * depth + bullet.length)) ++ bulletsOf rest) := rfl

/-- An item as it is placed: its own bullet is there, and those within it stay, just when its
first line does not look nested. -/
theorem ItemSpec.placed (h : ItemSpec lines expected keeps) (depth : ℕ) {bullet : JsText}
    (hbullet : bullet ≠ []) :
    (∀ b ∈ bulletsOf (placeItem R depth bullet lines), 2 * b.depth ≤ b.column) ∧
      (bulletsOf (placeItem R depth bullet lines)).length ≤ expected.length + 1 ∧
      (bulletsOf (placeItem R depth bullet lines) = ⟨depth, bullet, 2 * depth⟩ :: expected ↔
        keeps ∧ ∀ first ∈ lines.head?, looksNested first.text = false) := by
  have hpos : 0 < 2 * depth + bullet.length :=
    Nat.add_pos_right _ (length_pos_iff.mpr hbullet)
  cases lines with
  | nil =>
    have hkeeps := h.keeps_iff
    rw [placeItem, bulletsOf_bulletLine]
    simp only [bulletsOf, flatMap_nil, map_nil, append_nil] at hkeeps ⊢
    refine ⟨by simp, by simp, ?_⟩
    rw [← hkeeps]
    simp
  | cons first rest =>
    have hlength := h.length
    have hcolumns := h.columns
    have hkeeps := h.keeps_iff
    have hcons : bulletsOf (first :: rest) = first.bullets ++ bulletsOf rest := rfl
    have hrest := length_continuedLines depth rest
    rw [hcons] at hlength hcolumns hkeeps
    rw [length_append] at hlength
    have hcontinued := columns_continuedLines depth fun b hb =>
      hcolumns b (mem_append_right _ hb)
    cases hlooks : looksNested first.text with
    | true =>
      have hplaced : bulletsOf (placeItem R depth bullet (first :: rest)) =
          first.bullets ++ bulletsOf (rest.map (continuedLine depth)) := by
        rw [placeItem, if_pos hlooks]
        rfl
      rw [hplaced]
      refine ⟨?_, ?_, ?_⟩
      · intro b hb
        exact (mem_append.mp hb).elim (fun hb => hcolumns b (mem_append_left _ hb)) (hcontinued b)
      · rw [length_append]
        omega
      · refine iff_of_false (fun heq => ?_) (fun hfirst => ?_)
        · have hlengths := congrArg List.length heq
          rw [length_append, length_cons] at hlengths
          omega
        · exact Bool.false_ne_true ((hfirst.2 first rfl).symm.trans hlooks)
    | false =>
      rw [placeItem, if_neg (by simp [hlooks]), bulletsOf_bulletLine]
      refine ⟨?_, ?_, ?_⟩
      · rintro b (_ | ⟨_, hb⟩)
        · exact le_refl _
        · obtain hb | hb := mem_append.mp hb
          · obtain ⟨b, hb', rfl⟩ := mem_map.mp hb
            exact (hcolumns b (mem_append_left _ hb')).trans (Nat.le_add_right _ _)
          · exact hcontinued b hb
      · rw [length_cons, length_append, length_map]
        omega
      · rw [cons_inj_right, ← hkeeps]
        have hhead : ∀ f ∈ (first :: rest).head?, looksNested f.text = false := by
          simpa using hlooks
        rw [and_iff_left hhead]
        constructor
        · intro heq
          have hnone : first.bullets = [] := by
            refine eq_nil_iff_forall_not_mem.mpr fun b hb => ?_
            refine Bullet.shift_ne (hcolumns b (mem_append_left _ hb)) hpos h.exact ?_
            exact heq ▸ mem_append_left _ (mem_map_of_mem hb)
          rw [hnone, map_nil, nil_append] at heq
          have hnested := looksNested_of_exact
            (fun b hb => hcolumns b (mem_append_right _ hb)) h.exact heq
          rw [hnone, nil_append, ← bulletsOf_continuedLines hnested]
          exact ⟨heq, forall_mem_cons.mpr ⟨fun hne => absurd hnone hne, hnested⟩⟩
        · rintro ⟨heq, hnested⟩
          obtain ⟨hfirst, hnested⟩ := forall_mem_cons.mp hnested
          have hnone : first.bullets = [] := by
            by_contra hne
            exact Bool.false_ne_true (hlooks.symm.trans (hfirst hne))
          rw [hnone, nil_append] at heq
          rw [hnone, map_nil, nil_append, bulletsOf_continuedLines hnested, heq]

/-- The lines of a list from item `i` on, and those of its bullets that belong there. -/
structure ListSpec (R : Renderer ι) (depth : ℕ) (ordered : Bool) (start : Option ℕ) (i : ℕ)
    (items : List (List (ListToken ι))) : Prop where
  columns : ∀ b ∈ bulletsOf (renderList R depth ordered start i items), 2 * b.depth ≤ b.column
  exact : ∀ b ∈ listBullets depth ordered start i items, b.column = 2 * b.depth
  length : (bulletsOf (renderList R depth ordered start i items)).length ≤
    (listBullets depth ordered start i items).length
  keeps_iff : bulletsOf (renderList R depth ordered start i items) =
    listBullets depth ordered start i items ↔ ListKeeps R items
  nested_iff : 0 < depth → ListKeeps R items →
    ((∀ line ∈ renderList R depth ordered start i items, line.bullets ≠ [] →
      looksNested line.text = true) ↔
        ∀ j < items.length, InCyan R (bulletText ordered start (i + j)))
  begins : 0 < depth → ListKeeps R items → items ≠ [] → InCyan R (bulletText ordered start i) →
    ∃ first ∈ (renderList R depth ordered start i items).head?, looksNested first.text = true

theorem ListSpec.nil (depth : ℕ) (ordered : Bool) (start : Option ℕ) (i : ℕ) :
    ListSpec R depth ordered start i [] := by
  refine ⟨?_, ?_, ?_, ?_, ?_, ?_⟩ <;> simp [renderList, listBullets, ListKeeps, bulletsOf]

theorem placeItem_eq (depth : ℕ) (bullet : JsText)
    (hhead : ∀ first ∈ lines.head?, looksNested first.text = false) :
    ∃ (first : Line) (rest : List Line), placeItem R depth bullet lines =
      bulletLine R depth bullet first :: rest.map (continuedLine depth) ∧
        ∀ line ∈ rest, line ∈ lines := by
  cases lines with
  | nil => exact ⟨⟨[], []⟩, [], rfl, by simp⟩
  | cons first rest =>
    have hlooks : ¬looksNested first.text = true := by simp [hhead first rfl]
    refine ⟨first, rest, ?_, fun line hline => mem_cons_of_mem _ hline⟩
    rw [placeItem, if_neg hlooks]

/-- The lines of a placed item that have bullets look nested just when its own bullet does. -/
theorem nested_placeItem (hcodes : AddsCodes R) {depth : ℕ} (hdepth : 0 < depth) {bullet : JsText}
    (hbullet : IsBullet bullet) (hhead : ∀ first ∈ lines.head?, looksNested first.text = false)
    (hnested : ∀ line ∈ lines, line.bullets ≠ [] → looksNested line.text = true) :
    ((∀ line ∈ placeItem R depth bullet lines, line.bullets ≠ [] →
        looksNested line.text = true) ↔ InCyan R bullet) ∧
      (InCyan R bullet → ∃ first ∈ (placeItem R depth bullet lines).head?,
        looksNested first.text = true) := by
  obtain ⟨first, rest, hplace, hrest⟩ := placeItem_eq (R := R) depth bullet hhead
  have hfirst : looksNested (bulletLine R depth bullet first).text = true ↔ InCyan R bullet :=
    looksNested_bullet hcodes hbullet (Nat.mul_pos Nat.two_pos hdepth) first.text
  rw [hplace]
  refine ⟨?_, fun hcyan => ⟨_, rfl, hfirst.mpr hcyan⟩⟩
  rw [forall_mem_cons, ← hfirst]
  refine ⟨fun h => h.1 (cons_ne_nil _ _), fun h => ⟨fun _ => h, ?_⟩⟩
  intro placed hplaced hne
  obtain ⟨line, hline, rfl⟩ := mem_map.mp hplaced
  obtain heq | ⟨hlooks, heq⟩ := bullets_continuedLine depth line
  · have hlooks := hnested line (hrest line hline) (heq ▸ hne)
    rwa [continuedLine, if_pos hlooks]
  · have hline := hnested line (hrest line hline) fun hnone => hne (by rw [heq, hnone]; rfl)
    exact absurd (hlooks.symm.trans hline) Bool.false_ne_true

theorem ListSpec.cons (hcodes : AddsCodes R) {depth : ℕ} {ordered : Bool} {start : Option ℕ}
    {i : ℕ} {item : List (ListToken ι)} {items : List (List (ListToken ι))}
    (hitem : ItemSpec (renderListItem R depth item) (itemBullets depth item) (ItemKeeps R item))
    (hhead : ItemKeeps R item → (BeginsPlain R item ↔
      ∀ first ∈ (renderListItem R depth item).head?, looksNested first.text = false))
    (hrest : ListSpec R depth ordered start (i + 1) items) :
    ListSpec R depth ordered start i (item :: items) := by
  have hbullet := isBullet_bulletText ordered start i
  have hne : bulletText ordered start i ≠ [] := by
    obtain ⟨c, rest, heq, -⟩ := hbullet
    simp [heq]
  obtain ⟨hcolumns, hlength, hkeeps⟩ := hitem.placed (R := R) depth hne
  have happend : bulletsOf (renderList R depth ordered start i (item :: items)) =
      bulletsOf (placeItem R depth (bulletText ordered start i) (renderListItem R depth item)) ++
        bulletsOf (renderList R depth ordered start (i + 1) items) := by
    exact flatMap_append
  refine ⟨?_, ?_, ?_, ?_, ?_, ?_⟩
  · intro b hb
    rw [happend] at hb
    exact (mem_append.mp hb).elim (hcolumns b) (hrest.columns b)
  · intro b hb
    rw [listBullets, mem_append, mem_cons] at hb
    obtain (rfl | hb) | hb := hb
    · rfl
    · exact hitem.exact b hb
    · exact hrest.exact b hb
  · rw [happend, listBullets, length_append, length_append]
    exact Nat.add_le_add hlength hrest.length
  · rw [happend, listBullets, append_eq_append_iff_of_length hlength hrest.length, hkeeps,
      hrest.keeps_iff, ListKeeps, ← and_assoc, and_comm (a := BeginsPlain R item)]
    refine and_congr_left fun _ => and_congr_right fun h => (hhead h).symm
  · rintro hdepth ⟨hplain, hitemKeeps, hrestKeeps⟩
    have hplaced := (nested_placeItem hcodes hdepth hbullet ((hhead hitemKeeps).mp hplain)
      (hitem.keeps_iff.mpr hitemKeeps).2).1
    have hothers := hrest.nested_iff hdepth hrestKeeps
    rw [renderList, forall_mem_append, hplaced, hothers, length_cons, Nat.forall_lt_succ_left]
    simp [Nat.add_assoc, Nat.add_comm 1]
  · rintro hdepth ⟨hplain, hitemKeeps, -⟩ - hcyan
    obtain ⟨first, hfirst, hlooks⟩ := (nested_placeItem hcodes hdepth hbullet
      ((hhead hitemKeeps).mp hplain) (hitem.keeps_iff.mpr hitemKeeps).2).2 hcyan
    refine ⟨first, ?_, hlooks⟩
    rw [renderList, head?_append, Option.mem_def.mp hfirst]
    rfl

theorem beginsPlain_iff {depth : ℕ} {tokens : List (ListToken ι)}
    (hlists : ∀ ordered start items, .list ordered start items ∈ tokens →
      ListSpec R (depth + 1) ordered start 0 items) (hkeeps : ItemKeeps R tokens) :
    BeginsPlain R tokens ↔
      ∀ first ∈ (renderListItem R depth tokens).head?, looksNested first.text = false := by
  induction tokens with
  | nil => simp [BeginsPlain, renderListItem]
  | cons token tokens ih =>
    have hrest := ih (fun o s items hmem => hlists o s items (mem_cons_of_mem _ hmem)) hkeeps.2
    rw [renderListItem]
    cases token with
    | list ordered start items =>
      cases items with
      | nil =>
        rw [renderToken, renderList, nil_append, ← hrest]
        exact Iff.rfl
      | cons item items =>
        have hlist := hlists ordered start (item :: items) mem_cons_self
        obtain ⟨first, hfirst, hlooks⟩ := hlist.begins (Nat.succ_pos depth) hkeeps.1.1
          (cons_ne_nil _ _) (hkeeps.1.2 0 (Nat.succ_pos _))
        refine iff_of_false id fun h => ?_
        have hhead := h first (by
          rw [renderToken, head?_append, Option.mem_def.mp hfirst]
          rfl)
        exact Bool.false_ne_true (hhead.symm.trans hlooks)
    | _ =>
      rw [renderToken, BeginsPlain]
      · split
        · rename_i hown
          rw [hown]
          exact hrest
        · rename_i hown
          rw [hown]
          simp
      all_goals simp

mutual

theorem list_spec (hcodes : AddsCodes R) (depth : ℕ) (ordered : Bool) (start : Option ℕ) (i : ℕ) :
    ∀ items, ListSpec R depth ordered start i items
  | [] => ListSpec.nil depth ordered start i
  | item :: items =>
    have hitem := item_spec hcodes depth item
    ListSpec.cons hcodes hitem.1 (beginsPlain_iff hitem.2)
      (list_spec hcodes depth ordered start (i + 1) items)

theorem item_spec (hcodes : AddsCodes R) (depth : ℕ) : ∀ tokens,
    ItemSpec (renderListItem R depth tokens) (itemBullets depth tokens) (ItemKeeps R tokens) ∧
      ∀ ordered start items, .list ordered start items ∈ tokens →
        ListSpec R (depth + 1) ordered start 0 items
  | [] => ⟨ItemSpec.nil, by simp⟩
  | token :: tokens => by
    have htoken := token_spec hcodes depth token
    have htokens := item_spec hcodes depth tokens
    refine ⟨htoken.1.append htokens.1, fun ordered start items hmem => ?_⟩
    obtain heq | hmem := mem_cons.mp hmem
    · exact htoken.2 ordered start items heq.symm
    · exact htokens.2 ordered start items hmem

theorem token_spec (hcodes : AddsCodes R) (depth : ℕ) : ∀ token,
    ItemSpec (renderToken R depth token) (tokenBullets depth token) (TokenKeeps R token) ∧
      ∀ ordered start items, token = .list ordered start items →
        ListSpec R (depth + 1) ordered start 0 items
  | .list ordered start items => by
    have hlist := list_spec hcodes (depth + 1) ordered start 0 items
    refine ⟨⟨hlist.columns, hlist.exact, hlist.length, ?_⟩, ?_⟩
    · rw [renderToken, tokenBullets, hlist.keeps_iff, TokenKeeps]
      refine and_congr_right fun hkeeps => ?_
      simpa using hlist.nested_iff (Nat.succ_pos depth) hkeeps
    · intro ordered' start' items' heq
      obtain ⟨rfl, rfl, rfl⟩ := ListToken.list.inj heq
      exact hlist
  | .text tokens text => ⟨ItemSpec.plain _, by simp⟩
  | .paragraph tokens => ⟨ItemSpec.plain _, by simp⟩
  | .code lang text => ⟨ItemSpec.plain _, by simp⟩
  | .other token => ⟨ItemSpec.plain _, by simp⟩

end

theorem Line.Shown.behind {line : Line} (h : line.Shown R)
    (hbefore : ∀ t m, TakesColumns R t m → TakesColumns R (before ++ t) (n + m)) :
    (line.behind before n).Shown R := by
  intro b hb
  obtain ⟨b', hb', rfl⟩ := mem_map.mp hb
  obtain ⟨t, after, htext, ht⟩ := h b' hb'
  refine ⟨before ++ t, after, ?_, ?_⟩
  · rw [Line.behind, htext, Bullet.shift]
    simp
  · rw [Bullet.shift, Nat.add_comm]
    exact hbefore t _ ht

theorem shown_placeItem (depth : ℕ) (bullet : JsText) (h : ∀ line ∈ lines, line.Shown R) :
    ∀ line ∈ placeItem R depth bullet lines, line.Shown R := by
  have hbullet : ∀ line : Line, line.Shown R → (bulletLine R depth bullet line).Shown R := by
    rintro line hline b (_ | ⟨_, hb⟩)
    · exact ⟨spaces (2 * depth), line.text, rfl, by simpa using TakesColumns.nil.spaces (2 * depth)⟩
    · refine hline.behind (fun t m ht => ?_) b hb
      rw [append_assoc, Nat.add_assoc]
      exact (ht.bullet bullet).spaces _
  have hcontinued : ∀ line : Line, line.Shown R → (continuedLine depth line).Shown R := by
    intro line hline
    rw [continuedLine]
    split_ifs
    · exact hline
    · exact hline.behind fun t m ht => ht.spaces _
  cases lines with
  | nil => exact forall_mem_singleton.mpr (hbullet ⟨[], []⟩ (by simp [Line.Shown]))
  | cons first rest =>
    obtain ⟨hfirst, hrest⟩ := forall_mem_cons.mp h
    refine forall_mem_cons.mpr ⟨?_, forall_mem_map.mpr fun line hline =>
      hcontinued line (hrest line hline)⟩
    split_ifs
    · exact hfirst
    · exact hbullet first hfirst

mutual

theorem shown_renderList (depth : ℕ) (ordered : Bool) (start : Option ℕ) (i : ℕ) :
    ∀ items, ∀ line ∈ renderList R depth ordered start i items, line.Shown R
  | [] => by simp [renderList]
  | item :: items => by
    rw [renderList, List.forall_mem_append]
    exact ⟨shown_placeItem depth _ (shown_renderListItem depth item),
      shown_renderList depth ordered start (i + 1) items⟩

theorem shown_renderListItem (depth : ℕ) :
    ∀ tokens, ∀ line ∈ renderListItem R depth tokens, line.Shown R
  | [] => by simp [renderListItem]
  | token :: tokens => by
    rw [renderListItem, List.forall_mem_append]
    exact ⟨shown_renderToken depth token, shown_renderListItem depth tokens⟩

theorem shown_renderToken (depth : ℕ) : ∀ token, ∀ line ∈ renderToken R depth token, line.Shown R
  | .list ordered start items => shown_renderList (depth + 1) ordered start 0 items
  | .text _ _ | .paragraph _ | .code _ _ | .other _ => by
    rw [renderToken]
    · simp [Line.Shown]
    · simp

end

/-- The record tells what the lines show. Every bullet of a list is written once, in the column of
its depth, just when the bullets of the lists in it are opened by the expected colour, and every
item begins with a line of its own that does not look like theirs. -/
theorem renderList_bullets_iff (hcodes : AddsCodes R) (ordered : Bool) (start : Option ℕ)
    (items : List (List (ListToken ι))) :
    (∀ line ∈ renderList R 0 ordered start 0 items, line.Shown R) ∧
      (bulletsOf (renderList R 0 ordered start 0 items) = listBullets 0 ordered start 0 items ↔
        ListKeeps R items) :=
  ⟨shown_renderList 0 ordered start 0 items,
    (list_spec hcodes 0 ordered start 0 items).keeps_iff⟩

def yellowTheme : Renderer Unit :=
  { listBullet := fun b => utf16 "\x1b[33m" ++ b ++ utf16 "\x1b[39m"
    codeBlockIndent := none, codeBlockBorder := id, codeBlock := id, highlightCode := none
    renderInlineTokens := fun _ => [] }

def textItem (text : String) : List (ListToken Unit) := [.text [] (utf16 text)]

theorem yellowTheme_addsCodes : AddsCodes yellowTheme := fun b =>
  ⟨utf16 "\x1b[33m", utf16 "\x1b[39m", ⟨[[0x33, 0x33]], by simp [isDigitUnit], rfl⟩,
    ⟨[[0x33, 0x39]], by simp [isDigitUnit], rfl⟩, rfl⟩

theorem renderList_bullets_iff_flat :
    bulletsOf (renderList yellowTheme 0 true (some 3) 0 [textItem "a", textItem "b"]) =
      listBullets 0 true (some 3) 0 [textItem "a", textItem "b"] :=
  (renderList_bullets_iff yellowTheme_addsCodes true (some 3) _).2.mpr
    ⟨rfl, ⟨trivial, trivial⟩, rfl, ⟨trivial, trivial⟩, trivial⟩

/-- A list in a list whose theme has another colour: its bullet is in the fifth column. -/
theorem yellowBullet_misplaced : AddsCodes yellowTheme ∧
    bulletsOf (renderList yellowTheme 0 false none 0
      [textItem "a" ++ [.list false none [textItem "b"]]]) ≠
        listBullets 0 false none 0 [textItem "a" ++ [.list false none [textItem "b"]]] :=
  ⟨yellowTheme_addsCodes, by decide⟩

end Draht.Markdown
