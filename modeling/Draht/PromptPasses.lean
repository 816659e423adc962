import Draht.PromptTemplates

/-!
# One pass over a template

How placeholders are spelled, and what a pass does to a text that is put together from units and
spelled placeholders. Every placeholder has one dollar sign, so no two matches overlap, and each
match takes a dollar sign away.
-/

namespace Draht.PromptTemplates
open List Option

inductive Spelled : Placeholder → JsText → Prop
  | positional {digits : JsText} (hne : digits ≠ []) (hdigits : digits.all isDigitUnit = true) :
      Spelled (.positional (parseDigits digits)) (dollar :: digits)
  | from {start : JsText} (hne : start ≠ []) (hstart : start.all isDigitUnit = true) :
      Spelled (.slice (parseDigits start) none) (utf16 "$\x7b@:" ++ (start ++ [0x7D]))
  | slice {start length : JsText} (hne : start ≠ []) (hstart : start.all isDigitUnit = true)
      (hlength : length ≠ []) (hall : length.all isDigitUnit = true) :
      Spelled (.slice (parseDigits start) (some (parseDigits length)))
        (utf16 "$\x7b@:" ++ (start ++ (0x3A :: (length ++ [0x7D]))))
  | arguments : Spelled .arguments (utf16 "$ARGUMENTS")
  | all : Spelled .all (utf16 "$@")

/-- The kind that the unit after the dollar sign decides. -/
def kindOf (c : UInt16) : Option PlaceholderKind :=
  if isDigitUnit c then some .positional
  else if c = 0x7B then some .slice
  else if c = 0x41 then some .arguments
  else if c = 0x40 then some .all
  else none

variable {digits spelling : JsText} {n : ℕ} {c : UInt16} {p : Placeholder}

theorem not_mem_of_digits (h : digits.all isDigitUnit = true) : dollar ∉ digits := by
  intro hmem
  have hdollar := all_eq_true.mp h _ hmem
  exact absurd hdollar (by decide)

theorem Spelled.shape {text : JsText} (h : Spelled p text) :
    ∃ c tail, text = dollar :: c :: tail ∧ kindOf c = some p.kind ∧ dollar ∉ c :: tail := by
  cases h with
  | positional hne hdigits =>
    obtain ⟨c, tail, rfl⟩ := exists_cons_of_ne_nil hne
    have hc := all_eq_true.mp hdigits c mem_cons_self
    exact ⟨c, tail, rfl, if_pos hc, not_mem_of_digits hdigits⟩
  | «from» hne hstart =>
    refine ⟨0x7B, _, rfl, rfl, ?_⟩
    change dollar ∉ [0x7B, 0x40, 0x3A] ++ (_ ++ [0x7D])
    rw [mem_append, mem_append]
    rintro (h | h | h)
    · exact absurd h (by decide)
    · exact not_mem_of_digits hstart h
    · exact absurd h (by decide)
  | slice hne hstart hlength hall =>
    refine ⟨0x7B, _, rfl, rfl, ?_⟩
    change dollar ∉ [0x7B, 0x40, 0x3A] ++ (_ ++ ([0x3A] ++ (_ ++ [0x7D])))
    rw [mem_append, mem_append, mem_append, mem_append]
    rintro (h | h | h | h | h)
    · exact absurd h (by decide)
    · exact not_mem_of_digits hstart h
    · exact absurd h (by decide)
    · exact not_mem_of_digits hall h
    · exact absurd h (by decide)
  | arguments => exact ⟨0x41, _, rfl, rfl, by decide⟩
  | all => exact ⟨0x40, _, rfl, rfl, by decide⟩

theorem takeWhile_digits {rest : JsText} (hdigits : digits.all isDigitUnit = true)
    (hrest : ∀ c ∈ rest.head?, isDigitUnit c = false) :
    (digits ++ rest).takeWhile isDigitUnit = digits ∧
      (digits ++ rest).dropWhile isDigitUnit = rest := by
  rw [List.all_eq_true] at hdigits
  rw [takeWhile_append_of_pos hdigits, dropWhile_append_of_pos hdigits]
  cases rest with
  | nil => exact ⟨append_nil _, rfl⟩
  | cons c rest =>
    have hc := hrest c rfl
    rw [takeWhile_cons_of_neg (by simp [hc]), dropWhile_cons_of_neg (by simp [hc])]
    exact ⟨append_nil _, rfl⟩

theorem not_digit_head (c : UInt16) (rest : JsText) (hc : isDigitUnit c = false) :
    ∀ d ∈ (c :: rest).head?, isDigitUnit d = false := by
  rintro d hd
  cases hd
  exact hc

theorem all_takeWhile (text : JsText) : (text.takeWhile isDigitUnit).all isDigitUnit = true :=
  all_eq_true.mpr fun _ hc => mem_takeWhile_imp hc

theorem positionalAt_spelled {text : JsText} (h : positionalAt text = some (p, n)) :
    p.kind = .positional ∧ ∃ spelling rest, text = spelling ++ rest ∧ spelling.length = n ∧
      Spelled p spelling := by
  simp only [positionalAt] at h
  split_ifs at h with hdigits
  obtain ⟨hhead, hne⟩ := hdigits
  obtain ⟨rfl, rfl⟩ := Prod.ext_iff.mp (some.inj h)
  obtain ⟨tail, rfl⟩ := head?_eq_some_iff.mp hhead
  refine ⟨rfl, dollar :: tail.takeWhile isDigitUnit, tail.dropWhile isDigitUnit, ?_, rfl,
    .positional hne (all_takeWhile tail)⟩
  rw [cons_append, takeWhile_append_dropWhile]

theorem takeWhile_append_head {text : JsText} (h : (text.dropWhile isDigitUnit).head? = some c) :
    ∃ rest, text = text.takeWhile isDigitUnit ++ (c :: rest) ∧
      text.dropWhile isDigitUnit = c :: rest := by
  obtain ⟨rest, hrest⟩ := head?_eq_some_iff.mp h
  refine ⟨rest, ?_, hrest⟩
  rw [← hrest, takeWhile_append_dropWhile]

theorem sliceAt_spelled {text : JsText} (h : sliceAt text = some (p, n)) :
    p.kind = .slice ∧ ∃ spelling rest, text = spelling ++ rest ∧ spelling.length = n ∧
      Spelled p spelling := by
  simp only [sliceAt] at h
  split_ifs at h with hstart hclose hcolon
  · -- one number
    obtain ⟨hbegins, hne⟩ := hstart
    obtain ⟨rfl, rfl⟩ := Prod.ext_iff.mp (some.inj h)
    obtain ⟨after, rfl⟩ := isPrefixOf_iff_prefix.mp hbegins
    have hdrop : (utf16 "$\x7b@:" ++ after).drop 4 = after := rfl
    rw [hdrop] at hclose hne ⊢
    obtain ⟨rest, hafter, -⟩ := takeWhile_append_head hclose
    refine ⟨rfl, _, rest, ?_, ?_, .from hne (all_takeWhile after)⟩
    · conv_lhs => rw [hafter]
      simp
    · rw [length_append, length_append]
      rfl
  · -- two numbers
    obtain ⟨hbegins, hne⟩ := hstart
    obtain ⟨hcolon, hlength, hclose⟩ := hcolon
    obtain ⟨rfl, rfl⟩ := Prod.ext_iff.mp (some.inj h)
    obtain ⟨after, rfl⟩ := isPrefixOf_iff_prefix.mp hbegins
    have hdrop : (utf16 "$\x7b@:" ++ after).drop 4 = after := rfl
    rw [hdrop] at hcolon hlength hclose hne ⊢
    obtain ⟨rest, hafter, hrest⟩ := takeWhile_append_head hcolon
    rw [hrest, tail_cons] at hlength hclose ⊢
    obtain ⟨last, hlast, -⟩ := takeWhile_append_head hclose
    refine ⟨rfl, _, last, ?_, ?_, .slice hne (all_takeWhile after) hlength (all_takeWhile rest)⟩
    · conv_lhs => rw [hafter, hlast]
      simp
    · simp only [length_append, length_cons, length_nil]
      have hmarker : (utf16 "$\x7b@:").length = 4 := rfl
      omega

theorem matchAt_spelled {kind : PlaceholderKind} {text : JsText}
    (h : matchAt kind text = some (p, n)) :
    p.kind = kind ∧ ∃ spelling rest, text = spelling ++ rest ∧ spelling.length = n ∧
      Spelled p spelling := by
  cases kind with
  | positional => exact positionalAt_spelled h
  | slice => exact sliceAt_spelled h
  | arguments =>
    simp only [matchAt, argumentsAt] at h
    split_ifs at h with hbegins
    obtain ⟨rfl, rfl⟩ := Prod.ext_iff.mp (some.inj h)
    obtain ⟨rest, rfl⟩ := isPrefixOf_iff_prefix.mp hbegins
    exact ⟨rfl, _, rest, rfl, rfl, .arguments⟩
  | all =>
    simp only [matchAt, allAt] at h
    split_ifs at h with hbegins
    obtain ⟨rfl, rfl⟩ := Prod.ext_iff.mp (some.inj h)
    obtain ⟨rest, rfl⟩ := isPrefixOf_iff_prefix.mp hbegins
    exact ⟨rfl, _, rest, rfl, rfl, .all⟩

theorem matchAt_of_spelled {text : JsText} (h : Spelled p text) (hkind : p.kind ≠ .positional)
    (rest : JsText) : matchAt p.kind (text ++ rest) = some (p, text.length) := by
  cases h with
  | positional => exact absurd rfl hkind
  | @«from» start hne hstart =>
    have hdrop : (utf16 "$\x7b@:" ++ (start ++ [0x7D]) ++ rest).drop 4 =
        start ++ (0x7D :: rest) := by
      rw [append_assoc, append_assoc]
      rfl
    have hbegins : (utf16 "$\x7b@:").isPrefixOf
        (utf16 "$\x7b@:" ++ (start ++ [0x7D]) ++ rest) = true := rfl
    obtain ⟨htake, hrest⟩ := takeWhile_digits hstart (not_digit_head 0x7D rest rfl)
    simp only [Placeholder.kind, matchAt, sliceAt]
    rw [hdrop, htake, hrest, if_pos ⟨hbegins, hne⟩, if_pos (head?_cons ..),
      length_append, length_append]
    rfl
  | @slice start length hne hstart hlength hall =>
    have hdrop : (utf16 "$\x7b@:" ++ (start ++ (0x3A :: (length ++ [0x7D]))) ++ rest).drop 4 =
        start ++ (0x3A :: (length ++ (0x7D :: rest))) := by
      rw [append_assoc, append_assoc, cons_append, append_assoc]
      rfl
    have hbegins : (utf16 "$\x7b@:").isPrefixOf
        (utf16 "$\x7b@:" ++ (start ++ (0x3A :: (length ++ [0x7D]))) ++ rest) = true := rfl
    obtain ⟨htake, hafter⟩ := takeWhile_digits hstart
      (not_digit_head 0x3A (length ++ (0x7D :: rest)) rfl)
    obtain ⟨htake', hafter'⟩ := takeWhile_digits hall (not_digit_head 0x7D rest rfl)
    have hcolon : (0x3A :: (length ++ (0x7D :: rest))).head? ≠ some 0x7D := by
      rw [head?_cons]
      decide
    simp only [Placeholder.kind, matchAt, sliceAt]
    rw [hdrop, htake, hafter, if_pos ⟨hbegins, hne⟩, if_neg hcolon, tail_cons, htake',
      hafter', if_pos ⟨head?_cons .., hlength, head?_cons ..⟩]
    simp only [length_append, length_cons, length_nil]
    congr 2
    have hmarker : (utf16 "$\x7b@:").length = 4 := rfl
    omega
  | arguments => rfl
  | all => rfl

theorem matchAt_split {kind : PlaceholderKind} {text : JsText}
    (h : matchAt kind (c :: text) = some (p, n)) :
    p.kind = kind ∧ c = dollar ∧ ∃ tail rest, text = tail ++ rest ∧ n = tail.length + 1 ∧
      dollar ∉ tail ∧ tail.head?.bind kindOf = some kind ∧ Spelled p (dollar :: tail) := by
  obtain ⟨hkind, spelling, rest, htext, rfl, hspelled⟩ := matchAt_spelled h
  obtain ⟨d, tail, rfl, hd, hdollar⟩ := hspelled.shape
  obtain ⟨hc, htail⟩ := cons_eq_cons.mp htext
  exact ⟨hkind, hc, d :: tail, rest, htail, rfl, hdollar, hkind ▸ hd, hspelled⟩

theorem matchAt_shape {kind : PlaceholderKind} {text : JsText}
    (h : matchAt kind (c :: text) = some (p, n)) :
    c = dollar ∧ text.head?.bind kindOf = some kind ∧ dollar ∉ text.take (n - 1) := by
  obtain ⟨-, hc, tail, rest, rfl, rfl, hdollar, hkind, -⟩ := matchAt_split h
  rw [Nat.add_sub_cancel, take_left]
  refine ⟨hc, ?_, hdollar⟩
  cases tail with
  | nil => cases hkind
  | cons d tail => exact hkind

theorem matchAt_of_ne {kind : PlaceholderKind} (text : JsText) (hc : c ≠ dollar) :
    matchAt kind (c :: text) = none := by
  rw [eq_none_iff_forall_ne_some]
  exact fun x hx => hc (matchAt_shape hx).1

theorem matchAt_other {kind kind' : PlaceholderKind} {text : JsText}
    (h : matchAt kind (c :: text) = some (p, n)) (hne : kind ≠ kind') :
    matchAt kind' (c :: text) = none := by
  rw [eq_none_iff_forall_ne_some]
  intro x hx
  have hkind := (matchAt_shape h).2.1
  rw [(matchAt_shape hx).2.1] at hkind
  exact hne (some.inj hkind).symm

theorem placeholderAt_some {text : JsText} (h : placeholderAt text = some (p, n)) :
    matchAt p.kind text = some (p, n) := by
  have hkinds : ∃ kind, matchAt kind text = some (p, n) := by
    rw [placeholderAt, or_eq_some_iff, or_eq_some_iff, or_eq_some_iff] at h
    obtain h | ⟨-, h | ⟨-, h | ⟨-, h⟩⟩⟩ := h
    · exact ⟨.positional, h⟩
    · exact ⟨.slice, h⟩
    · exact ⟨.arguments, h⟩
    · exact ⟨.all, h⟩
  obtain ⟨kind, hkind⟩ := hkinds
  rwa [(matchAt_spelled hkind).1]

theorem placeholderAt_none {text : JsText} (h : placeholderAt text = none)
    (kind : PlaceholderKind) : matchAt kind text = none := by
  simp only [placeholderAt, or_eq_none_iff] at h
  obtain ⟨hpositional, hslice, harguments, hall⟩ := h
  cases kind with
  | positional => exact hpositional
  | slice => exact hslice
  | arguments => exact harguments
  | all => exact hall

section

variable {kind : PlaceholderKind} {f : JsText → Placeholder → JsText → JsText → JsText}

theorem replaceFrom_skip (taken before rest : JsText) :
    replaceFrom (matchAt kind) f taken.length before (taken ++ rest) =
      replaceFrom (matchAt kind) f 0 (before ++ taken) rest := by
  induction taken generalizing before with
  | nil => rw [append_nil, nil_append, length_nil]
  | cons c taken ih =>
    rw [length_cons, cons_append, replaceFrom, ih, append_assoc]
    rfl

theorem replaceFrom_keep {kept : JsText} (before rest : JsText) (h : dollar ∉ kept) :
    replaceFrom (matchAt kind) f 0 before (kept ++ rest) =
      kept ++ replaceFrom (matchAt kind) f 0 (before ++ kept) rest := by
  induction kept generalizing before with
  | nil => rw [append_nil, nil_append, nil_append]
  | cons c kept ih =>
    rw [mem_cons, not_or] at h
    have hnone : matchAt kind (c :: (kept ++ rest)) = none :=
      matchAt_of_ne _ fun hc => h.1 hc.symm
    rw [cons_append, replaceFrom, hnone]
    simp [ih _ h.2]

theorem hits_keep {kept : JsText} (rest : JsText) (h : dollar ∉ kept) :
    hits (matchAt kind) (kept ++ rest) = hits (matchAt kind) rest := by
  induction kept with
  | nil => rfl
  | cons c kept ih =>
    rw [mem_cons, not_or] at h
    have hnone : matchAt kind (c :: (kept ++ rest)) = none :=
      matchAt_of_ne _ fun hc => h.1 hc.symm
    rw [cons_append, hits, hnone, ih h.2]
    exact Nat.zero_add _

theorem count_replaceFrom (hf : ∀ before p matched after, dollar ∉ f before p matched after)
    {text : JsText} (skip : ℕ) (before : JsText) (hskip : dollar ∉ text.take skip) :
    (replaceFrom (matchAt kind) f skip before text).count dollar + hits (matchAt kind) text =
      text.count dollar := by
  induction text generalizing skip before with
  | nil => cases skip <;> rfl
  | cons c text ih =>
    cases skip with
    | succ skip =>
      rw [take_succ_cons, mem_cons, not_or] at hskip
      obtain ⟨hc, hskip⟩ := hskip
      rw [replaceFrom, hits, matchAt_of_ne text fun h => hc h.symm,
        count_cons_of_ne fun h => hc h.symm]
      have hrest := ih skip (before ++ [c]) hskip
      simp only [isSome_none, Bool.false_eq_true, if_false]
      omega
    | zero =>
      rw [replaceFrom, hits]
      cases hmatch : matchAt kind (c :: text) with
      | none =>
        have hrest := ih 0 (before ++ [c]) not_mem_nil
        simp only [isSome_none, Bool.false_eq_true, if_false, count_cons]
        omega
      | some found =>
        obtain ⟨p, n⟩ := found
        obtain ⟨rfl, -, hdollar⟩ := matchAt_shape hmatch
        have hrest := ih (n - 1) (before ++ [dollar]) hdollar
        have hzero := count_eq_zero_of_not_mem (hf before p ((dollar :: text).take n)
          ((dollar :: text).drop n))
        simp only [isSome_some, if_true, count_append, count_cons_self]
        omega

end

namespace TemplateToken

def text : TemplateToken → JsText
  | unit c => [c]
  | placeholder _ text => text

def fill (kinds : List PlaceholderKind) (args : List JsText) : TemplateToken → List TemplateToken
  | unit c => [unit c]
  | placeholder p text =>
    if p.kind ∈ kinds then (p.value args).map unit else [placeholder p text]

def hasKind (kind : PlaceholderKind) : TemplateToken → Bool
  | unit _ => false
  | placeholder p _ => p.kind = kind

def WellSpelled : TemplateToken → Prop
  | unit _ => True
  | placeholder p text => Spelled p text

def IsLater (t : TemplateToken) : Prop := t.hasKind .positional = false

end TemplateToken

open TemplateToken

def tokensText (ts : List TemplateToken) : JsText := ts.flatMap text

def fillTokens (kinds : List PlaceholderKind) (args : List JsText) (ts : List TemplateToken) :
    List TemplateToken := ts.flatMap (fill kinds args)

def countKind (kind : PlaceholderKind) (ts : List TemplateToken) : ℕ := ts.countP (hasKind kind)

def Intact (ts : List TemplateToken) : Prop := ∀ t ∈ ts, t.WellSpelled ∧ t.IsLater

variable {kind : PlaceholderKind} {args : List JsText} {ts : List TemplateToken}

theorem tokensText_units (text : JsText) (ts : List TemplateToken) :
    tokensText (text.map .unit ++ ts) = text ++ tokensText ts := by
  rw [tokensText, flatMap_append, flatMap_map]
  exact congrArg (· ++ ts.flatMap TemplateToken.text) (flatMap_singleton' text)

theorem countKind_units (text : JsText) (ts : List TemplateToken) :
    countKind kind (text.map .unit ++ ts) = countKind kind ts := by
  have hzero : (text.map TemplateToken.unit).countP (hasKind kind) = 0 := by
    rw [countP_eq_zero]
    intro t ht
    obtain ⟨c, -, rfl⟩ := mem_map.mp ht
    exact Bool.false_ne_true
  rw [countKind, countP_append, hzero, Nat.zero_add]
  rfl

theorem intact_units (text : JsText) (h : Intact ts) : Intact (text.map .unit ++ ts) := by
  intro t ht
  obtain ht | ht := mem_append.mp ht
  · obtain ⟨c, -, rfl⟩ := mem_map.mp ht
    exact ⟨trivial, rfl⟩
  · exact h t ht

theorem Intact.tail {t : TemplateToken} (h : Intact (t :: ts)) : Intact ts :=
  fun u hu => h u (mem_cons_of_mem _ hu)

theorem matchAt_intact (kind : PlaceholderKind) (h : Intact (.placeholder p spelling :: ts)) :
    ∃ tail, spelling = dollar :: tail ∧ dollar ∉ tail ∧
      matchAt kind (dollar :: (tail ++ tokensText ts)) =
        if p.kind = kind then some (p, spelling.length) else none := by
  obtain ⟨hspelled, hlater⟩ := h _ mem_cons_self
  obtain ⟨c, tail, rfl, -, hdollar⟩ := hspelled.shape
  have hmatch := matchAt_of_spelled hspelled (of_decide_eq_false hlater) (tokensText ts)
  refine ⟨c :: tail, rfl, hdollar, ?_⟩
  split_ifs with hkind
  · rw [← hkind]
    exact hmatch
  · exact matchAt_other hmatch hkind

theorem hits_placeholder (h : Intact (.placeholder p spelling :: ts)) :
    hits (matchAt kind) (tokensText (.placeholder p spelling :: ts)) =
      (if p.kind = kind then 1 else 0) + hits (matchAt kind) (tokensText ts) := by
  obtain ⟨tail, rfl, hdollar, hmatch⟩ := matchAt_intact kind h
  have htext : tokensText (.placeholder p (dollar :: tail) :: ts) =
      dollar :: (tail ++ tokensText ts) := rfl
  rw [htext, hits, hits_keep _ hdollar, hmatch]
  by_cases hkind : p.kind = kind
  · rw [if_pos hkind, if_pos hkind]
    rfl
  · rw [if_neg hkind, if_neg hkind]
    rfl

theorem countKind_placeholder (p : Placeholder) (spelling : JsText) (ts : List TemplateToken) :
    countKind kind (.placeholder p spelling :: ts) =
      (if p.kind = kind then 1 else 0) + countKind kind ts := by
  rw [countKind, countP_cons, Nat.add_comm]
  congr 1
  exact if_congr decide_eq_true_iff rfl rfl

theorem replaceFrom_placeholder {f : JsText → Placeholder → JsText → JsText → JsText}
    (before : JsText) (h : Intact (.placeholder p spelling :: ts)) :
    replaceFrom (matchAt kind) f 0 before (tokensText (.placeholder p spelling :: ts)) =
      (if p.kind = kind then f before p spelling (tokensText ts) else spelling) ++
        replaceFrom (matchAt kind) f 0 (before ++ spelling) (tokensText ts) := by
  obtain ⟨tail, rfl, hdollar, hmatch⟩ := matchAt_intact kind h
  have htext : tokensText (.placeholder p (dollar :: tail) :: ts) =
      dollar :: (tail ++ tokensText ts) := rfl
  have hafter : before ++ [dollar] ++ tail = before ++ dollar :: tail := by
    rw [append_assoc, singleton_append]
  rw [htext, replaceFrom, hmatch]
  split_ifs with hkind
  · have htake : (dollar :: (tail ++ tokensText ts)).take (tail.length + 1) = dollar :: tail := by
      rw [take_succ_cons, take_left]
    have hdrop : (dollar :: (tail ++ tokensText ts)).drop (tail.length + 1) = tokensText ts := by
      rw [drop_succ_cons, drop_left]
    simp [length_cons, replaceFrom_skip]
  · simp [replaceFrom_keep _ _ hdollar]

theorem countKind_le_hits (kind : PlaceholderKind) (h : Intact ts) :
    countKind kind ts ≤ hits (matchAt kind) (tokensText ts) := by
  induction ts with
  | nil => exact Nat.le_refl 0
  | cons t ts ih =>
    have hrest := ih h.tail
    cases t with
    | unit c => exact hrest.trans (Nat.le_add_left _ _)
    | placeholder p spelling =>
      rw [hits_placeholder h, countKind_placeholder]
      exact Nat.add_le_add_left hrest _

theorem replaceFrom_fill (before : JsText) (h : Intact ts)
    (hhits : hits (matchAt kind) (tokensText ts) = countKind kind ts) :
    replaceFrom (matchAt kind) (fun _ p _ _ => p.value args) 0 before (tokensText ts) =
      tokensText (fillTokens [kind] args ts) := by
  induction ts generalizing before with
  | nil => rfl
  | cons t ts ih =>
    have hle := countKind_le_hits kind h.tail
    cases t with
    | unit c =>
      have htext : tokensText (.unit c :: ts) = c :: tokensText ts := rfl
      have hcount : countKind kind (.unit c :: ts) = countKind kind ts := rfl
      rw [htext, hits, hcount] at hhits
      have hnone : matchAt kind (c :: tokensText ts) = none := by
        by_contra hsome
        rw [if_pos (isSome_iff_ne_none.mpr hsome)] at hhits
        omega
      rw [htext, replaceFrom, hnone]
      simp only [ih _ h.tail (by omega)]
      rfl
    | placeholder p spelling =>
      rw [hits_placeholder h, countKind_placeholder] at hhits
      rw [replaceFrom_placeholder _ h, ih _ h.tail (by omega), fillTokens, fillTokens,
        flatMap_cons, fill]
      by_cases hkind : p.kind = kind
      · rw [if_pos hkind, if_pos (mem_singleton.mpr hkind), tokensText_units]
      · rw [if_neg hkind, if_neg fun hmem => hkind (mem_singleton.mp hmem)]
        rfl

theorem replaceFrom_intact {f : JsText → Placeholder → JsText → JsText → JsText} (skip : ℕ)
    (before : JsText) (h : Intact ts) (hskip : dollar ∉ (tokensText ts).take skip) :
    ∃ us, replaceFrom (matchAt kind) f skip before (tokensText ts) = tokensText us ∧ Intact us ∧
      ∀ other ≠ kind, countKind other us = countKind other ts := by
  induction ts generalizing skip before with
  | nil =>
    refine ⟨[], ?_, h, fun _ _ => rfl⟩
    cases skip <;> rfl
  | cons t ts ih =>
    cases t with
    | unit c =>
      have htext : tokensText (.unit c :: ts) = c :: tokensText ts := rfl
      rw [htext] at hskip ⊢
      cases skip with
      | succ skip =>
        rw [take_succ_cons, mem_cons, not_or] at hskip
        exact ih skip (before ++ [c]) h.tail hskip.2
      | zero =>
        rw [replaceFrom]
        cases hmatch : matchAt kind (c :: tokensText ts) with
        | none =>
          obtain ⟨us, hus, hintact, hcount⟩ :=
            ih 0 (before ++ [c]) h.tail not_mem_nil
          refine ⟨.unit c :: us, congrArg (c :: ·) hus, ?_, hcount⟩
          exact intact_units [c] hintact
        | some found =>
          obtain ⟨p, n⟩ := found
          obtain ⟨-, -, hdollar⟩ := matchAt_shape hmatch
          obtain ⟨us, hus, hintact, hcount⟩ := ih (n - 1) (before ++ [c]) h.tail hdollar
          simp only [hus, ← tokensText_units]
          refine ⟨_, rfl, intact_units _ hintact, fun other hother => ?_⟩
          rw [countKind_units]
          exact hcount other hother
    | placeholder p spelling =>
      have hzero : skip = 0 := by
        obtain ⟨tail, rfl, -⟩ := matchAt_intact kind h
        cases skip with
        | zero => rfl
        | succ skip => exact absurd mem_cons_self hskip
      obtain ⟨us, hus, hintact, hcount⟩ :=
        ih 0 (before ++ spelling) h.tail not_mem_nil
      rw [hzero, replaceFrom_placeholder _ h, hus]
      by_cases hkind : p.kind = kind
      · rw [if_pos hkind, ← tokensText_units]
        refine ⟨_, rfl, intact_units _ hintact, fun other hother => ?_⟩
        rw [countKind_units, countKind_placeholder, hcount other hother,
          if_neg fun heq => hother (heq.symm.trans hkind), Nat.zero_add]
      · rw [if_neg hkind]
        refine ⟨.placeholder p spelling :: us, rfl, ?_, fun other hother => ?_⟩
        · exact forall_mem_cons.mpr ⟨h _ mem_cons_self, hintact⟩
        · rw [countKind_placeholder, countKind_placeholder, hcount other hother]

theorem substitutePass_intact (kind : PlaceholderKind) (args : List JsText) (h : Intact ts) :
    ∃ us, substitutePass kind args (tokensText ts) = tokensText us ∧ Intact us ∧
      ∀ other ≠ kind, countKind other us = countKind other ts :=
  replaceFrom_intact 0 [] h not_mem_nil

end Draht.PromptTemplates
