import Draht.PromptPasses

/-!
# Substitution in one pass

The four passes give what one pass over the template gives, unless a pass finds a placeholder that
the template does not have: one that argument text contains, or that it forms with the text around
it.
-/

namespace Draht.PromptTemplates
open List

open TemplateToken

variable {kind : PlaceholderKind} {args : List JsText} {ts : List TemplateToken}

theorem tokensFrom_skip (taken rest : JsText) :
    tokensFrom taken.length (taken ++ rest) = tokensFrom 0 rest := by
  induction taken with
  | nil => rfl
  | cons c taken ih => exact ih

theorem wellSpelled_tokensFrom {skip : ℕ} {content : JsText} :
    ∀ t ∈ tokensFrom skip content, t.WellSpelled := by
  induction content generalizing skip with
  | nil => cases skip <;> exact nofun
  | cons c content ih =>
    cases skip with
    | succ skip => exact ih
    | zero =>
      rw [tokensFrom]
      cases hmatch : placeholderAt (c :: content) with
      | none => exact forall_mem_cons.mpr ⟨trivial, ih⟩
      | some found =>
        obtain ⟨p, n⟩ := found
        refine forall_mem_cons.mpr ⟨?_, ih⟩
        obtain ⟨-, rfl, tail, rest, rfl, rfl, -, -, hspelled⟩ :=
          matchAt_split (placeholderAt_some hmatch)
        rw [take_succ_cons, take_left]
        exact hspelled

theorem replaceFrom_template (before content : JsText) :
    replaceFrom (matchAt .positional) (fun _ p _ _ => p.value args) 0 before content =
      tokensText (fillTokens [.positional] args (tokensFrom 0 content)) := by
  induction hlength : content.length using Nat.strong_induction_on generalizing before content with
  | h length ih =>
    cases content with
    | nil => rfl
    | cons c content =>
      rw [length_cons] at hlength
      rw [replaceFrom, tokensFrom]
      cases hmatch : placeholderAt (c :: content) with
      | none =>
        rw [placeholderAt_none hmatch .positional]
        simp only [ih content.length (by omega) (before ++ [c]) content rfl]
        rfl
      | some found =>
        obtain ⟨p, n⟩ := found
        have hkind := placeholderAt_some hmatch
        obtain ⟨-, rfl, tail, rest, rfl, rfl, hdollar, -, -⟩ := matchAt_split hkind
        have hrest (before : JsText) := ih rest.length
          (by rw [length_append] at hlength; omega) before rest rfl
        have htake : (dollar :: (tail ++ rest)).take (tail.length + 1) = dollar :: tail := by
          rw [take_succ_cons, take_left]
        simp only [Nat.add_sub_cancel, tokensFrom_skip, htake]
        rw [fillTokens, flatMap_cons, fill]
        by_cases hpositional : p.kind = .positional
        · rw [hpositional] at hkind
          rw [hkind]
          simp only [Nat.add_sub_cancel, replaceFrom_skip, hrest]
          rw [if_pos (mem_singleton.mpr hpositional), tokensText_units]
          rfl
        · rw [matchAt_other hkind hpositional]
          simp only [replaceFrom_keep _ _ hdollar, hrest]
          rw [if_neg fun hmem => hpositional (mem_singleton.mp hmem)]
          rfl

theorem fillTokens_fillTokens (kind : PlaceholderKind) (kinds : List PlaceholderKind)
    (args : List JsText) (ts : List TemplateToken) :
    fillTokens [kind] args (fillTokens kinds args ts) = fillTokens (kind :: kinds) args ts := by
  rw [fillTokens, fillTokens, fillTokens, flatMap_assoc]
  refine flatMap_congr fun t _ => ?_
  cases t with
  | unit c => rfl
  | placeholder p spelling =>
    by_cases hmem : p.kind ∈ kinds
    · rw [fill, if_pos hmem, fill, if_pos (mem_cons_of_mem _ hmem), flatMap_map]
      exact map_eq_flatMap.symm
    · have hiff : p.kind ∈ [kind] ↔ p.kind ∈ kind :: kinds :=
        (mem_singleton.trans (or_iff_left hmem).symm).trans mem_cons.symm
      rw [fill, if_neg hmem, flatMap_singleton]
      exact if_congr hiff rfl rfl

variable {kinds : List PlaceholderKind} {text : JsText}

theorem countKind_fillTokens (args : List JsText) (ts : List TemplateToken) (hkind : kind ∉ kinds) :
    countKind kind (fillTokens kinds args ts) = countKind kind ts := by
  induction ts with
  | nil => rfl
  | cons t ts ih =>
    rw [fillTokens, flatMap_cons]
    cases t with
    | unit c => exact ih
    | placeholder p spelling =>
      rw [fill, countKind_placeholder]
      split_ifs with hmem heq heq
      · exact absurd (heq ▸ hmem) hkind
      · rw [countKind_units, Nat.zero_add]
        exact ih
      · rw [singleton_append, countKind_placeholder, if_pos heq]
        exact congrArg (1 + ·) ih
      · rw [singleton_append, countKind_placeholder, if_neg heq]
        exact congrArg (0 + ·) ih

theorem intact_fillTokens (hkinds : .positional ∈ kinds) (h : ∀ t ∈ ts, t.WellSpelled) :
    Intact (fillTokens kinds args ts) := by
  intro u hu
  obtain ⟨t, ht, hu⟩ := mem_flatMap.mp hu
  cases t with
  | unit c =>
    obtain rfl := mem_singleton.mp hu
    exact ⟨trivial, rfl⟩
  | placeholder p spelling =>
    rw [fill] at hu
    split_ifs at hu with hmem
    · obtain ⟨c, -, rfl⟩ := mem_map.mp hu
      exact ⟨trivial, rfl⟩
    · obtain rfl := mem_singleton.mp hu
      exact ⟨h _ ht, decide_eq_false fun heq => hmem (heq ▸ hkinds)⟩

/-- The template with the placeholders of some kinds replaced by what they denote. -/
def render (kinds : List PlaceholderKind) (content : JsText) (args : List JsText) : JsText :=
  tokensText (fillTokens kinds args (templateTokens content))

variable {content : JsText}

theorem render_all :
    render [.all, .arguments, .slice, .positional] content args = singlePass content args := by
  rw [render, tokensText, fillTokens, flatMap_assoc, singlePass]
  refine flatMap_congr fun t _ => ?_
  cases t with
  | unit c => rfl
  | placeholder p spelling =>
    have hmem : p.kind ∈ [PlaceholderKind.all, .arguments, .slice, .positional] := by
      cases p.kind <;> decide
    rw [fill, if_pos hmem, flatMap_map]
    exact flatMap_singleton' _

theorem substitutePass_positional :
    substitutePass .positional args content = render [.positional] content args :=
  replaceFrom_template [] content

theorem substitutePass_render (hkinds : .positional ∈ kinds) (hkind : kind ∉ kinds)
    (hhits : hits (matchAt kind) (render kinds content args) =
      countKind kind (templateTokens content)) :
    substitutePass kind args (render kinds content args) = render (kind :: kinds) content args := by
  have hcount := countKind_fillTokens args (templateTokens content) hkind
  have hfilled : render (kind :: kinds) content args =
      tokensText (fillTokens [kind] args (fillTokens kinds args (templateTokens content))) := by
    rw [fillTokens_fillTokens]
    rfl
  rw [hfilled]
  exact replaceFrom_fill [] (intact_fillTokens hkinds wellSpelled_tokensFrom)
    (hhits.trans hcount.symm)

/-- No dollar sign of a replacement string has a meaning of its own. -/
def IsLiteral (text : JsText) : Prop :=
  text.IsChain fun c d => c = dollar → d ∉ [dollar, 0x26, 0x60, 0x27]

theorem expandReplacement_literal {before matched after : JsText} (h : IsLiteral text) :
    expandReplacement before matched after text = text := by
  induction text with
  | nil => rfl
  | cons c text ih =>
    cases text with
    | nil => rfl
    | cons d text =>
      obtain ⟨hpair, hrest⟩ := isChain_cons_cons.mp h
      have hnot {e : UInt16} (he : e ∈ [dollar, 0x26, 0x60, 0x27]) : ¬(c = dollar ∧ d = e) :=
        fun ⟨hc, hd⟩ => hpair hc (hd ▸ he)
      rw [expandReplacement, if_neg (hnot (by decide)), if_neg (hnot (by decide)),
        if_neg (hnot (by decide)), if_neg (hnot (by decide)), ih hrest]

theorem replaceFrom_congr {f g : JsText → Placeholder → JsText → JsText → JsText}
    (hfg : 0 < hits (matchAt kind) text → ∀ before p matched after, p.kind = kind →
      f before p matched after = g before p matched after) (skip : ℕ) (before : JsText) :
    replaceFrom (matchAt kind) f skip before text =
      replaceFrom (matchAt kind) g skip before text := by
  induction text generalizing skip before with
  | nil => cases skip <;> rfl
  | cons c text ih =>
    have hrest := ih fun hpos => hfg (Nat.lt_of_lt_of_le hpos (Nat.le_add_left _ _))
    cases skip with
    | succ skip => exact hrest skip _
    | zero =>
      rw [replaceFrom, replaceFrom]
      cases hmatch : matchAt kind (c :: text) with
      | none => simp only [hrest]
      | some found =>
        obtain ⟨p, n⟩ := found
        have hpos : 0 < hits (matchAt kind) (c :: text) := by
          rw [hits, hmatch]
          exact Nat.lt_of_lt_of_le Nat.one_pos (Nat.le_add_right _ _)
        simp [hrest, hfg hpos _ p _ _ (matchAt_split hmatch).1]

theorem expandPass_eq (hkind : kind = .arguments ∨ kind = .all)
    (h : 0 < hits (matchAt kind) text → IsLiteral (joinArgs args)) :
    expandPass kind (joinArgs args) text = substitutePass kind args text := by
  refine replaceFrom_congr (fun hpos before p matched after hp => ?_) 0 []
  rw [expandReplacement_literal (h hpos)]
  obtain rfl | rfl := hkind
  · cases p with
    | arguments => rfl
    | positional | slice | all => cases hp
  · cases p with
    | all => rfl
    | positional | slice | arguments => cases hp

/-- After each pass, the next kind of placeholder is found where the template has one and nowhere
else, and a joined text that is put in as a replacement string has no patterns. -/
structure Clean (content : JsText) (args : List JsText) : Prop where
  slices : hits (matchAt .slice) (render [.positional] content args) =
    countKind .slice (templateTokens content)
  arguments : hits (matchAt .arguments) (render [.slice, .positional] content args) =
    countKind .arguments (templateTokens content)
  all : hits (matchAt .all) (render [.arguments, .slice, .positional] content args) =
    countKind .all (templateTokens content)
  literal : 0 < countKind .arguments (templateTokens content) +
    countKind .all (templateTokens content) → IsLiteral (joinArgs args)

def afterPositional (content : JsText) (args : List JsText) : JsText :=
  substitutePass .positional args content

def afterSlices (content : JsText) (args : List JsText) : JsText :=
  substitutePass .slice args (afterPositional content args)

def afterArguments (content : JsText) (args : List JsText) : JsText :=
  expandPass .arguments (joinArgs args) (afterSlices content args)

/-- In the run of the code, no pass finds a placeholder that the template does not have, and no
replacement string has a pattern in it. -/
structure Uninterpreted (content : JsText) (args : List JsText) : Prop where
  slices : hits (matchAt .slice) (afterPositional content args) =
    countKind .slice (templateTokens content)
  arguments : hits (matchAt .arguments) (afterSlices content args) =
    countKind .arguments (templateTokens content)
  all : hits (matchAt .all) (afterArguments content args) =
    countKind .all (templateTokens content)
  literal : 0 < hits (matchAt .arguments) (afterSlices content args) +
    hits (matchAt .all) (afterArguments content args) → IsLiteral (joinArgs args)

theorem afterPositional_eq : afterPositional content args = render [.positional] content args :=
  substitutePass_positional

theorem afterSlices_eq (h : hits (matchAt .slice) (afterPositional content args) =
    countKind .slice (templateTokens content)) :
    afterSlices content args = render [.slice, .positional] content args := by
  rw [afterPositional_eq] at h
  rw [afterSlices, afterPositional_eq]
  exact substitutePass_render (by decide) (by decide) h

theorem afterArguments_eq (hslices : afterSlices content args =
      render [.slice, .positional] content args)
    (h : hits (matchAt .arguments) (afterSlices content args) =
      countKind .arguments (templateTokens content))
    (hliteral : 0 < countKind .arguments (templateTokens content) → IsLiteral (joinArgs args)) :
    afterArguments content args = render [.arguments, .slice, .positional] content args := by
  rw [afterArguments, expandPass_eq (.inl rfl) fun hpos => hliteral (h ▸ hpos), hslices]
  rw [hslices] at h
  exact substitutePass_render (by decide) (by decide) h

theorem substituteArgs_eq (harguments : afterArguments content args =
      render [.arguments, .slice, .positional] content args)
    (h : hits (matchAt .all) (afterArguments content args) =
      countKind .all (templateTokens content))
    (hliteral : 0 < countKind .all (templateTokens content) → IsLiteral (joinArgs args)) :
    substituteArgs content args = singlePass content args := by
  have hpasses : substituteArgs content args =
      expandPass .all (joinArgs args) (afterArguments content args) := rfl
  rw [hpasses, expandPass_eq (.inr rfl) fun hpos => hliteral (h ▸ hpos), harguments, ← render_all]
  rw [harguments] at h
  exact substitutePass_render (by decide) (by decide) h

theorem Clean.passes (h : Clean content args) :
    substituteArgs content args = singlePass content args ∧ Uninterpreted content args := by
  have hslices := h.slices
  rw [← afterPositional_eq] at hslices
  have hafterSlices := afterSlices_eq hslices
  have harguments := h.arguments
  rw [← hafterSlices] at harguments
  have hafterArguments := afterArguments_eq hafterSlices harguments fun hpos =>
    h.literal (Nat.add_pos_left hpos _)
  have hall := h.all
  rw [← hafterArguments] at hall
  refine ⟨substituteArgs_eq hafterArguments hall fun hpos => h.literal (Nat.add_pos_right _ hpos),
    hslices, harguments, hall, fun hpos => h.literal ?_⟩
  rwa [← harguments, ← hall]

theorem Uninterpreted.clean (h : Uninterpreted content args) : Clean content args := by
  have hliteral : 0 < countKind .arguments (templateTokens content) +
      countKind .all (templateTokens content) → IsLiteral (joinArgs args) := by
    rw [← h.arguments, ← h.all]
    exact h.literal
  have hafterSlices := afterSlices_eq h.slices
  have hafterArguments := afterArguments_eq hafterSlices h.arguments fun hpos =>
    hliteral (Nat.add_pos_left hpos _)
  refine ⟨?_, ?_, ?_, hliteral⟩
  · rw [← afterPositional_eq]
    exact h.slices
  · rw [← hafterSlices]
    exact h.arguments
  · rw [← hafterArguments]
    exact h.all

theorem not_mem_joinArgs (hargs : ∀ arg ∈ args, dollar ∉ arg) : dollar ∉ joinArgs args := by
  induction args with
  | nil => exact not_mem_nil
  | cons arg args ih =>
    obtain ⟨harg, hargs⟩ := forall_mem_cons.mp hargs
    cases args with
    | nil =>
      rw [joinArgs, intercalate_singleton]
      exact harg
    | cons next args =>
      have hjoin : joinArgs (arg :: next :: args) =
          arg ++ ([0x20] ++ joinArgs (next :: args)) := rfl
      rw [hjoin, mem_append, mem_append]
      rintro (h | h | h)
      · exact harg h
      · exact absurd h (by decide)
      · exact ih hargs h

theorem not_mem_value (hargs : ∀ arg ∈ args, dollar ∉ arg) (p : Placeholder) :
    dollar ∉ p.value args := by
  cases p with
  | positional num =>
    rw [Placeholder.value]
    split_ifs
    · exact not_mem_nil
    · rw [getD_eq_getElem?_getD]
      cases harg : args[num - 1]? with
      | none => exact not_mem_nil
      | some arg => exact hargs arg (mem_of_getElem? harg)
  | slice start length =>
    cases length with
    | none => exact not_mem_joinArgs fun arg harg => hargs arg (mem_of_mem_drop harg)
    | some length =>
      exact not_mem_joinArgs fun arg harg =>
        hargs arg (mem_of_mem_drop (mem_of_mem_take harg))
  | arguments => exact not_mem_joinArgs hargs
  | all => exact not_mem_joinArgs hargs

theorem isLiteral_of_not_mem (h : dollar ∉ text) : IsLiteral text := by
  induction text with
  | nil => exact .nil
  | cons c text ih =>
    rw [mem_cons, not_or] at h
    cases text with
    | nil => exact .singleton c
    | cons d text => exact .cons_cons (fun hc => absurd hc.symm h.1) (ih h.2)

theorem count_fillTokens (hargs : ∀ arg ∈ args, dollar ∉ arg) (h : Intact ts) :
    (tokensText (fillTokens [kind] args ts)).count dollar + countKind kind ts =
      (tokensText ts).count dollar := by
  induction ts with
  | nil => rfl
  | cons t ts ih =>
    have hrest := ih h.tail
    have htext : tokensText (t :: ts) = t.text ++ tokensText ts := rfl
    rw [fillTokens, flatMap_cons, htext, count_append]
    rw [fillTokens] at hrest
    cases t with
    | unit c =>
      have hfilled : tokensText (fill [kind] args (.unit c) ++ ts.flatMap (fill [kind] args)) =
          [c] ++ tokensText (ts.flatMap (fill [kind] args)) := rfl
      have hcount : countKind kind (.unit c :: ts) = countKind kind ts := rfl
      rw [hfilled, count_append, hcount, Nat.add_assoc, hrest]
      rfl
    | placeholder p spelling =>
      rw [fill, countKind_placeholder]
      by_cases hkind : p.kind = kind
      · obtain ⟨tail, rfl, hdollar, -⟩ := matchAt_intact kind h
        have hvalue := count_eq_zero_of_not_mem (not_mem_value hargs p)
        have hspelling : (dollar :: tail).count dollar = 1 := by
          rw [count_cons_self, count_eq_zero_of_not_mem hdollar]
        rw [if_pos (mem_singleton.mpr hkind), if_pos hkind, tokensText_units,
          count_append, hvalue, TemplateToken.text, hspelling]
        omega
      · have hfilled : tokensText ([.placeholder p spelling] ++ ts.flatMap (fill [kind] args)) =
            spelling ++ tokensText (ts.flatMap (fill [kind] args)) := rfl
        rw [if_neg fun hmem => hkind (mem_singleton.mp hmem), if_neg hkind, hfilled,
          count_append, Nat.zero_add, Nat.add_assoc, hrest]
        rfl

theorem count_render (kind : PlaceholderKind) (kinds : List PlaceholderKind)
    (content : JsText) (hargs : ∀ arg ∈ args, dollar ∉ arg)
    (hkinds : .positional ∈ kinds) (hkind : kind ∉ kinds) :
    (render (kind :: kinds) content args).count dollar +
        countKind kind (templateTokens content) =
      (render kinds content args).count dollar := by
  have hcount := countKind_fillTokens args (templateTokens content) hkind
  have hintact : Intact (fillTokens kinds args (templateTokens content)) :=
    intact_fillTokens hkinds wellSpelled_tokensFrom
  rw [← hcount, render, ← fillTokens_fillTokens]
  exact count_fillTokens hargs hintact

theorem count_substitutePass (kind : PlaceholderKind) (hargs : ∀ arg ∈ args, dollar ∉ arg)
    (text : JsText) :
    (substitutePass kind args text).count dollar + hits (matchAt kind) text = text.count dollar :=
  count_replaceFrom (fun _ p _ _ => not_mem_value hargs p) 0 [] not_mem_nil

/-- Each pass takes away a dollar sign for every match, the template in one pass one for each of
its placeholders; a pass has at least as many matches as there are placeholders. -/
theorem Uninterpreted.of_eq (hargs : ∀ arg ∈ args, dollar ∉ arg)
    (h : substituteArgs content args = singlePass content args) : Uninterpreted content args := by
  have hliteral := isLiteral_of_not_mem (not_mem_joinArgs hargs)
  have hintact : Intact (fillTokens [.positional] args (templateTokens content)) :=
    intact_fillTokens (by decide) wellSpelled_tokensFrom
  have hcount (kind : PlaceholderKind) (hkind : kind ≠ .positional) :
      countKind kind (fillTokens [.positional] args (templateTokens content)) =
        countKind kind (templateTokens content) :=
    countKind_fillTokens _ _ fun hmem => hkind (mem_singleton.mp hmem)
  -- the placeholders that are left over stay in place
  obtain ⟨us, hus, hintact', hcount'⟩ := substitutePass_intact .slice args hintact
  obtain ⟨vs, hvs, hintact'', hcount''⟩ := substitutePass_intact .arguments args hintact'
  have hpositional : afterPositional content args =
      tokensText (fillTokens [.positional] args (templateTokens content)) := afterPositional_eq
  have hslices : afterSlices content args = tokensText us := by
    rw [afterSlices, hpositional, hus]
  have harguments : afterArguments content args =
      substitutePass .arguments args (afterSlices content args) :=
    expandPass_eq (.inl rfl) fun _ => hliteral
  have hvs' : afterArguments content args = tokensText vs := by
    rw [harguments, hslices, hvs]
  have hresult : substituteArgs content args =
      substitutePass .all args (afterArguments content args) :=
    expandPass_eq (.inr rfl) fun _ => hliteral
  -- the matches of each pass
  have hle := countKind_le_hits .slice hintact
  have hle' := countKind_le_hits .arguments hintact'
  have hle'' := countKind_le_hits .all hintact''
  rw [hcount .slice (by decide), ← hpositional] at hle
  rw [hcount' .arguments (by decide), hcount .arguments (by decide), ← hslices] at hle'
  rw [hcount'' .all (by decide), hcount' .all (by decide), hcount .all (by decide), ← hvs'] at hle''
  -- the dollar signs
  have hdollars := count_substitutePass .slice hargs (afterPositional content args)
  have hdollars' := count_substitutePass .arguments hargs (afterSlices content args)
  have hdollars'' := count_substitutePass .all hargs (afterArguments content args)
  rw [← afterSlices] at hdollars
  rw [← harguments] at hdollars'
  rw [← hresult, h] at hdollars''
  have hrender := count_render .slice [.positional] content hargs (by decide) (by decide)
  have hrender' := count_render .arguments [.slice, .positional] content hargs (by decide)
    (by decide)
  have hrender'' := count_render .all [.arguments, .slice, .positional] content hargs (by decide)
    (by decide)
  rw [← afterPositional_eq] at hrender
  rw [render_all] at hrender''
  exact ⟨by omega, by omega, by omega, fun _ => hliteral⟩

/-- The code replaces the placeholders of the template by what they denote and interprets nothing
else, exactly on clean inputs; without dollar signs in the arguments, the result alone tells. -/
theorem substituteArgs_singlePass_iff (content : JsText) (args : List JsText) :
    (substituteArgs content args = singlePass content args ∧ Uninterpreted content args ↔
      Clean content args) ∧
    ((∀ arg ∈ args, dollar ∉ arg) →
      (substituteArgs content args = singlePass content args ↔ Clean content args)) := by
  refine ⟨⟨fun h => h.2.clean, Clean.passes⟩, fun hargs => ⟨fun h => ?_, fun h => h.passes.1⟩⟩
  exact (Uninterpreted.of_eq hargs h).clean

/-- An argument that is interpreted can give the same text again. -/
example : substituteArgs (utf16 "$1") [utf16 "$ARGUMENTS"] =
    singlePass (utf16 "$1") [utf16 "$ARGUMENTS"] := by
  decide

def reviewTemplate : JsText := utf16 "Review $1 with $\x7b@:2\x7d ($ARGUMENTS), cost $$"

def reviewArgs : List JsText := [utf16 "a.ts", utf16 "$x", utf16 "@"]

theorem substituteArgs_singlePass_iff_review :
    Clean reviewTemplate reviewArgs ∧ substituteArgs reviewTemplate reviewArgs =
      utf16 "Review a.ts with $x @ (a.ts $x @), cost $$" := by
  have hclean : Clean reviewTemplate reviewArgs :=
    ⟨by decide +kernel, by decide +kernel, by decide +kernel, fun _ => by
      unfold IsLiteral
      decide +kernel⟩
  have hresult := ((substituteArgs_singlePass_iff reviewTemplate reviewArgs).1.mpr hclean).1
  exact ⟨hclean, hresult.trans (by decide +kernel)⟩

/-- The first argument is the placeholder for all of them. -/
theorem argumentsInterpreted_not_singlePass :
    ¬∀ (content : JsText) (args : List JsText),
      substituteArgs content args = singlePass content args := by
  intro h
  exact absurd (h (utf16 "$1") [utf16 "$@", utf16 "b"]) (by decide +kernel)

end Draht.PromptTemplates
