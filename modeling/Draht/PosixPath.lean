import Draht.SplitOn
import Draht.Text

/-!
# Paths

A path text is read as the segments between its slashes. Resolving drops empty segments and `.`, and
takes a name away for every `..`; the names that are left say which directory lies below which.
-/

namespace Draht.PosixPath
open List

def slash : UInt16 := 0x2F

def dot : JsText := [0x2E]

def dotDot : JsText := [0x2E, 0x2E]

def isAbsolute (p : JsText) : Bool := p.head? = some slash

def segments (p : JsText) : List JsText :=
  (p.splitOn slash).filter fun segment => segment ≠ [] ∧ segment ≠ dot

/-- The names so far after one more segment. Only a relative path keeps a `..` that has no name to
take away. -/
def descend (relative : Bool) (names : List JsText) (segment : JsText) : List JsText :=
  if segment = dotDot then
    if names ≠ [] ∧ names.getLast? ≠ some dotDot then names.dropLast
    else if relative then names ++ [dotDot] else names
  else names ++ [segment]

def names (p : JsText) : List JsText := (segments p).foldl (descend (!isAbsolute p)) []

def joinNames (ns : List JsText) : JsText := [slash].intercalate ns

/-- `normalize`: a trailing slash is kept. -/
def normalize (p : JsText) : JsText :=
  if p = [] then dot
  else
    let trailing := if p.getLast? = some slash then [slash] else []
    let body := joinNames (names p)
    if body = [] then if isAbsolute p then [slash] else dot ++ trailing
    else if isAbsolute p then slash :: (body ++ trailing)
    else body ++ trailing

/-- `join`: empty parts are left out. -/
def join (parts : List JsText) : JsText :=
  let joined := joinNames (parts.filter (· ≠ []))
  if joined = [] then dot else normalize joined

def render (ns : List JsText) : JsText := slash :: joinNames ns

/-- The names of a path from the directory `cwd`. -/
def located (cwd p : JsText) : List JsText :=
  (segments p).foldl (descend false) (if isAbsolute p then [] else names cwd)

/-- `resolve`. -/
def resolve (cwd p : JsText) : JsText := render (located cwd p)

/-- `dirname`: trailing slashes are no segment of their own. -/
def dirname : JsText → JsText
  | [] => dot
  | c :: p =>
    let parent := (p.rdropWhile (· = slash)).rdropWhile (· ≠ slash)
    if parent = [] then if c = slash then [slash] else dot
    else if c = slash ∧ parent.dropLast = [] then [slash, slash]
    else c :: parent.dropLast

structure IsSegment (n : JsText) : Prop where
  ne_nil : n ≠ []
  ne_dot : n ≠ dot
  no_slash : slash ∉ n

structure IsName (n : JsText) : Prop extends IsSegment n where
  ne_dotDot : n ≠ dotDot

variable {p n cwd : JsText} {ns ms : List JsText}

theorem mem_segments {segment : JsText} (h : segment ∈ segments p) : IsSegment segment := by
  obtain ⟨hsplit, hne⟩ := mem_filter.mp h
  obtain ⟨hnil, hdot⟩ := of_decide_eq_true hne
  exact ⟨hnil, hdot, not_mem_of_mem_splitOn hsplit⟩

theorem segments_append (p q : JsText) :
    segments (p ++ slash :: q) = segments p ++ segments q := by
  rw [segments, splitOn_append_cons_self, filter_append]
  rfl

@[simp] theorem segments_nil : segments [] = [] := rfl

theorem segments_slash (p : JsText) : segments (slash :: p) = segments p := by
  have h := segments_append [] p
  rwa [segments_nil, nil_append, nil_append] at h

theorem segments_of_isSegment (h : IsSegment n) : segments n = [n] := by
  rw [segments, splitOn_eq_singleton h.no_slash]
  simp [h.ne_nil, h.ne_dot]

theorem joinNames_cons (h : ns ≠ []) :
    joinNames (n :: ns) = n ++ slash :: joinNames ns := by
  rw [joinNames, intercalate_cons_of_ne_nil h, joinNames, append_assoc]
  rfl

theorem joinNames_append (hms : ms ≠ []) (hns : ns ≠ []) :
    joinNames (ms ++ ns) = joinNames ms ++ slash :: joinNames ns := by
  induction ms with
  | nil => exact absurd rfl hms
  | cons m ms ih =>
    by_cases hnil : ms = []
    · rw [hnil, singleton_append, joinNames_cons hns, joinNames, joinNames,
        intercalate_singleton]
    · rw [cons_append, joinNames_cons (by simp [hnil]), ih hnil, joinNames_cons hnil,
        append_assoc, cons_append]

theorem segments_joinNames (h : ∀ n ∈ ns, IsSegment n) :
    segments (joinNames ns) = ns := by
  induction ns with
  | nil => rfl
  | cons n ns ih =>
    have hn := segments_of_isSegment (h n mem_cons_self)
    cases ns with
    | nil => rwa [joinNames, intercalate_singleton]
    | cons n' ns =>
      have hrest := ih fun m hm => h m (mem_cons_of_mem _ hm)
      rw [joinNames_cons (by simp), segments_append, hn, hrest, singleton_append]

theorem names_of_absolute (h : isAbsolute p = true) :
    names p = (segments p).foldl (descend false) [] := by
  rw [names, h]
  rfl

theorem foldl_descend_isName {segments : List JsText} (hns : ∀ n ∈ ns, IsName n)
    (hsegments : ∀ s ∈ segments, IsSegment s) :
    ∀ n ∈ segments.foldl (descend false) ns, IsName n := by
  induction segments generalizing ns with
  | nil => exact hns
  | cons s segments ih =>
    apply ih
    · intro n hn
      unfold descend at hn
      by_cases hs : s = dotDot
      · rw [if_pos hs, if_neg Bool.false_ne_true] at hn
        split_ifs at hn
        · exact hns n (dropLast_subset _ hn)
        · exact hns n hn
      · rw [if_neg hs] at hn
        obtain hn | hn := mem_append.mp hn
        · exact hns n hn
        · rw [mem_singleton.mp hn]
          exact ⟨hsegments s mem_cons_self, hs⟩
    · exact fun s' hs' => hsegments s' (mem_cons_of_mem _ hs')

theorem names_isName (h : isAbsolute p = true) : ∀ n ∈ names p, IsName n := by
  rw [names_of_absolute h]
  exact foldl_descend_isName (by simp) fun s hs => mem_segments hs

theorem foldl_descend_of_isName (hms : ∀ n ∈ ms, IsName n) :
    ms.foldl (descend false) ns = ns ++ ms := by
  induction ms generalizing ns with
  | nil => simp
  | cons m ms ih =>
    have hm : descend false ns m = ns ++ [m] := if_neg (hms m mem_cons_self).ne_dotDot
    rw [foldl_cons, hm, ih fun n hn => hms n (mem_cons_of_mem _ hn), append_assoc, singleton_append]

theorem isAbsolute_append (h : isAbsolute p = true) (q : JsText) :
    isAbsolute (p ++ q) = true := by
  cases p with
  | nil => simp [isAbsolute] at h
  | cons c p => exact h

theorem names_append (h : isAbsolute p = true) (q : JsText) :
    names (p ++ slash :: q) = (segments q).foldl (descend false) (names p) := by
  rw [names_of_absolute (isAbsolute_append h _), segments_append, foldl_append, names_of_absolute h]

theorem isAbsolute_render (ns : List JsText) : isAbsolute (render ns) = true := by
  simp [isAbsolute, render]

theorem segments_render (h : ∀ n ∈ ns, IsName n) :
    segments (render ns) = ns := by
  rw [render, segments_slash, segments_joinNames fun n hn => (h n hn).toIsSegment]

theorem names_render (h : ∀ n ∈ ns, IsName n) : names (render ns) = ns := by
  rw [names_of_absolute (isAbsolute_render ns), segments_render h, foldl_descend_of_isName h,
    nil_append]

theorem names_append_dotDot (h : isAbsolute p = true) :
    names (p ++ slash :: dotDot) = (names p).dropLast := by
  have hsegments : segments dotDot = [dotDot] := by decide
  rw [names_append h, hsegments, foldl_cons, foldl_nil, descend, if_pos rfl]
  have hlast : (names p).getLast? ≠ some dotDot := fun hsome =>
    (names_isName h _ (mem_of_getLast? hsome)).ne_dotDot rfl
  by_cases hnil : names p = []
  · simp [hnil]
  · rw [if_pos ⟨hnil, hlast⟩]

/-- How many levels the segments climb, and the names that they then go down. -/
structure Relative where
  ups : ℕ
  names : List JsText

def Relative.descend (r : Relative) (segment : JsText) : Relative :=
  if segment = dotDot then
    if r.names = [] then { r with ups := r.ups + 1 } else { r with names := r.names.dropLast }
  else { r with names := r.names ++ [segment] }

def relative (segments : List JsText) : Relative := segments.foldl Relative.descend ⟨0, []⟩

theorem relative_concat (segments : List JsText) (s : JsText) :
    relative (segments ++ [s]) = (relative segments).descend s := by
  rw [relative, foldl_append]
  rfl

theorem getLast?_ne_dotDot (h : ∀ n ∈ ns, n ≠ dotDot) :
    ns.getLast? ≠ some dotDot := fun hlast => h _ (mem_of_getLast? hlast) rfl

theorem mem_relative_names {segments : List JsText} :
    ∀ n ∈ (relative segments).names, n ∈ segments ∧ n ≠ dotDot := by
  induction segments using reverseRecOn with
  | nil => simp [relative]
  | append_singleton segments s ih =>
    intro n hn
    rw [relative_concat, Relative.descend] at hn
    split_ifs at hn with hs hnil
    · exact (ih n hn).imp_left (mem_append_left _)
    · exact (ih n (dropLast_subset _ hn)).imp_left (mem_append_left _)
    · obtain hn | hn := mem_append.mp hn
      · exact (ih n hn).imp_left (mem_append_left _)
      · rw [mem_singleton.mp hn]
        exact ⟨by simp, hs⟩

theorem getLast?_append_relative {start segments : List JsText}
    (hnil : (relative segments).names ≠ []) :
    (start ++ (relative segments).names).getLast? ≠ some dotDot := by
  rw [getLast?_append_of_ne_nil _ hnil]
  exact getLast?_ne_dotDot fun n hn => (mem_relative_names n hn).2

theorem foldl_descend_eq (segments : List JsText) {start : List JsText}
    (hstart : ∀ n ∈ start, n ≠ dotDot) :
    segments.foldl (descend false) start =
      start.take (start.length - (relative segments).ups) ++ (relative segments).names := by
  induction segments using reverseRecOn with
  | nil => simp [relative]
  | append_singleton segments s ih =>
    rw [foldl_append, foldl_cons, foldl_nil, ih, relative_concat]
    unfold descend Relative.descend
    by_cases hs : s = dotDot
    · rw [if_pos hs, if_pos hs, if_neg Bool.false_ne_true]
      by_cases hnil : (relative segments).names = []
      · -- one level more, unless the root is reached
        have htake :
            (start.take (start.length - (relative segments).ups)).getLast? ≠ some dotDot :=
          getLast?_ne_dotDot fun n hn => hstart n (mem_of_mem_take hn)
        rw [if_pos hnil, hnil, append_nil, append_nil]
        by_cases hroot : start.take (start.length - (relative segments).ups) = []
        · rw [if_neg (by simp [hroot]), hroot]
          obtain hlength | hnil' := take_eq_nil_iff.mp hroot
          · rw [Nat.sub_add_eq, hlength, Nat.zero_sub, take_zero]
          · simp [hnil']
        · rw [if_pos ⟨hroot, htake⟩, dropLast_eq_take, take_take, length_take]
          dsimp only
          congr 1
          omega
      · rw [if_pos ⟨by simp [hnil], getLast?_append_relative hnil⟩, if_neg hnil,
          dropLast_append_of_ne_nil hnil]
    · rw [if_neg hs, if_neg hs, append_assoc]

theorem foldl_descend_relative (segments : List JsText) :
    segments.foldl (descend true) [] =
      List.replicate (relative segments).ups dotDot ++ (relative segments).names := by
  induction segments using reverseRecOn with
  | nil => simp [relative]
  | append_singleton segments s ih =>
    rw [foldl_append, foldl_cons, foldl_nil, ih, relative_concat]
    unfold descend Relative.descend
    by_cases hs : s = dotDot
    · rw [if_pos hs, if_pos hs, if_pos rfl]
      by_cases hnil : (relative segments).names = []
      · rw [if_pos hnil, hnil, append_nil, append_nil, replicate_succ', if_neg]
        rintro ⟨hne, hlast⟩
        have hups : (relative segments).ups ≠ 0 := by
          intro h
          simp [h] at hne
        exact hlast (by rw [getLast?_replicate, if_neg hups])
      · rw [if_pos ⟨by simp [hnil], getLast?_append_relative hnil⟩, if_neg hnil,
          dropLast_append_of_ne_nil hnil]
    · rw [if_neg hs, if_neg hs, append_assoc]

theorem relative_replicate_append {k : ℕ} (hms : ∀ n ∈ ms, n ≠ dotDot) :
    relative (List.replicate k dotDot ++ ms) = ⟨k, ms⟩ := by
  have hups : relative (List.replicate k dotDot) = ⟨k, []⟩ := by
    induction k with
    | zero => rfl
    | succ k ih => rw [replicate_succ', relative_concat, ih, Relative.descend, if_pos rfl,
        if_pos rfl]
  induction ms using reverseRecOn with
  | nil => rw [append_nil, hups]
  | append_singleton ms m ih =>
    have hm : m ≠ dotDot := hms m (by simp)
    rw [← append_assoc, relative_concat,
      ih fun n hn => hms n (mem_append_left _ hn), Relative.descend, if_neg hm]

theorem normalize_of_absolute (h : isAbsolute p = true) :
    normalize p = render (names p) ∨ normalize p = render (names p) ++ [slash] := by
  have hne : p ≠ [] := by
    rintro rfl
    simp [isAbsolute] at h
  unfold normalize
  rw [if_neg hne]
  by_cases hbody : joinNames (names p) = []
  · rw [if_pos hbody, if_pos h, render, hbody]
    exact .inl rfl
  · rw [if_neg hbody, if_pos h, render]
    split_ifs
    · exact .inr rfl
    · exact .inl (by rw [append_nil])

theorem isAbsolute_normalize (h : isAbsolute p = true) :
    isAbsolute (normalize p) = true := by
  rcases normalize_of_absolute h with hp | hp <;> rw [hp]
  · exact isAbsolute_render _
  · exact isAbsolute_append (isAbsolute_render _) _

theorem segments_append_trailing (p : JsText) : segments (p ++ [slash]) = segments p := by
  rw [segments_append, segments_nil, append_nil]

theorem names_isSegment (h : isAbsolute p = false) : ∀ n ∈ names p, IsSegment n := by
  have hdotDot : IsSegment dotDot := ⟨by decide, by decide, by decide⟩
  intro n hn
  rw [names, h, show (!false) = true from rfl, foldl_descend_relative] at hn
  obtain hn | hn := mem_append.mp hn
  · rw [eq_of_mem_replicate hn]
    exact hdotDot
  · exact mem_segments (mem_relative_names n hn).1

theorem isAbsolute_joinNames_eq (h : ∀ n ∈ ns, IsSegment n) :
    isAbsolute (joinNames ns) = false := by
  cases ns with
  | nil => rfl
  | cons n ns =>
    have hn := h n mem_cons_self
    obtain ⟨c, rest, rfl⟩ := exists_cons_of_ne_nil hn.ne_nil
    have hc : c ≠ slash := fun hc => hn.no_slash (by simp [hc])
    have hhead : ∃ tail, joinNames ((c :: rest) :: ns) = c :: tail := by
      by_cases hnil : ns = []
      · exact ⟨rest, by rw [hnil, joinNames, intercalate_singleton]⟩
      · exact ⟨_, by rw [joinNames_cons hnil, cons_append]⟩
    obtain ⟨tail, htail⟩ := hhead
    rw [htail]
    simp [isAbsolute, hc]

theorem normalize_of_relative (h : isAbsolute p = false) :
    isAbsolute (normalize p) = false ∧ segments (normalize p) = names p := by
  unfold normalize
  by_cases hnil : p = []
  · rw [if_pos hnil, hnil]
    decide
  · rw [if_neg hnil]
    have hsegments := segments_joinNames (names_isSegment h)
    by_cases hbody : joinNames (names p) = []
    · have hnames : names p = [] := by
        rw [← hsegments, hbody, segments_nil]
      rw [if_pos hbody, if_neg (by simp [h]), hnames]
      split_ifs <;> decide
    · rw [if_neg hbody, if_neg (by simp [h])]
      have habs := isAbsolute_joinNames_eq (names_isSegment h)
      split_ifs
      · rw [segments_append_trailing]
        refine ⟨?_, hsegments⟩
        obtain ⟨c, rest, hbody⟩ := exists_cons_of_ne_nil hbody
        rw [hbody] at habs ⊢
        exact habs
      · rw [append_nil]
        exact ⟨habs, hsegments⟩

theorem segments_joinNames_eq (ps : List JsText) :
    segments (joinNames ps) = ps.flatMap segments := by
  induction ps with
  | nil => rfl
  | cons p ps ih =>
    by_cases hnil : ps = []
    · rw [hnil, joinNames, intercalate_singleton]
      simp
    · rw [joinNames_cons hnil, segments_append, ih, flatMap_cons]

theorem isAbsolute_joinNames (hp : p ≠ []) (ps : List JsText) :
    isAbsolute (joinNames (p :: ps)) = isAbsolute p := by
  obtain ⟨c, rest, rfl⟩ := exists_cons_of_ne_nil hp
  by_cases hnil : ps = []
  · rw [hnil, joinNames, intercalate_singleton]
  · rw [joinNames_cons hnil]
    rfl

theorem isAbsolute_ne_nil (h : isAbsolute p = true) : p ≠ [] := by
  rintro rfl
  simp [isAbsolute] at h

theorem isAbsolute_join (h : isAbsolute p = true) (ps : List JsText) :
    isAbsolute (join (p :: ps)) = true := by
  have hne := isAbsolute_ne_nil h
  have habs := (isAbsolute_joinNames hne (ps.filter (· ≠ []))).trans h
  unfold join
  rw [filter_cons_of_pos (by simp [hne])]
  rw [if_neg (isAbsolute_ne_nil habs)]
  exact isAbsolute_normalize habs

theorem located_clean (hcwd : isAbsolute cwd = true) :
    ∀ n ∈ located cwd p, IsName n := by
  apply foldl_descend_isName
  · split_ifs
    · simp
    · exact names_isName hcwd
  · exact fun s hs => mem_segments hs

theorem located_normalize (hcwd : isAbsolute cwd = true) :
    located cwd (normalize p) = located cwd p := by
  cases h : isAbsolute p with
  | true =>
    have hclean := names_isName h
    have hnames : segments (normalize p) = names p := by
      rcases normalize_of_absolute h with hp | hp <;> rw [hp]
      · exact segments_render hclean
      · rw [segments_append_trailing, segments_render hclean]
    rw [located, located, isAbsolute_normalize h, h, hnames, foldl_descend_of_isName hclean,
      names_of_absolute h]
    rfl
  | false =>
    obtain ⟨habs, hsegments⟩ := normalize_of_relative h
    have hstart : ∀ n ∈ names cwd, n ≠ dotDot := fun n hn => (names_isName hcwd n hn).ne_dotDot
    have hself : relative (names p) = relative (segments p) := by
      rw [names, h, show (!false) = true from rfl, foldl_descend_relative,
        relative_replicate_append fun n hn => (mem_relative_names n hn).2]
    rw [located, located, habs, h, hsegments, foldl_descend_eq _ (by simpa using hstart),
      foldl_descend_eq _ (by simpa using hstart), hself]

theorem located_join (hcwd : isAbsolute cwd = true) (hp : p ≠ [])
    (ps : List JsText) :
    located cwd (join (p :: ps)) = (ps.flatMap segments).foldl (descend false) (located cwd p) := by
  have hfilter : (ps.filter (· ≠ [])).flatMap segments = ps.flatMap segments := by
    induction ps with
    | nil => rfl
    | cons q ps ih =>
      by_cases hq : q = []
      · rw [filter_cons_of_neg (by simp [hq]), ih, flatMap_cons, hq, segments_nil,
          nil_append]
      · rw [filter_cons_of_pos (by simp [hq]), flatMap_cons, ih, flatMap_cons]
  have hjoined : joinNames (p :: ps.filter (· ≠ [])) ≠ [] := by
    by_cases hnil : ps.filter (· ≠ []) = []
    · rw [hnil, joinNames, intercalate_singleton]
      exact hp
    · rw [joinNames_cons hnil]
      simp
  unfold join
  rw [filter_cons_of_pos (by simp [hp])]
  rw [if_neg hjoined, located_normalize hcwd, located, isAbsolute_joinNames hp,
    segments_joinNames_eq, flatMap_cons, foldl_append, hfilter]
  rfl

theorem located_join_cons {q : JsText} (hcwd : isAbsolute cwd = true) (p : JsText)
    (hq : q ≠ []) (hrelative : isAbsolute q = false) (ps : List JsText) :
    located cwd (join (p :: q :: ps)) =
      ((q :: ps).flatMap segments).foldl (descend false) (located cwd p) := by
  by_cases hp : p = []
  · have hjoin : join (p :: q :: ps) = join (q :: ps) := by rw [hp]; rfl
    have hstart : located cwd q = (segments q).foldl (descend false) (located cwd p) := by
      rw [hp, located, hrelative]
      rfl
    rw [hjoin, located_join hcwd hq, hstart, flatMap_cons, foldl_append]
  · exact located_join hcwd hp _

theorem joinNames_ne_nil (hne : ns ≠ []) (h : ∀ n ∈ ns, IsSegment n) :
    joinNames ns ≠ [] := by
  intro hnil
  have hsegments := segments_joinNames h
  rw [hnil, segments_nil] at hsegments
  exact hne hsegments.symm

theorem rdropWhile_append_of_forall {α : Type*} {p : α → Bool} {xs ys : List α}
    (h : ∀ y ∈ ys, p y = true) : (xs ++ ys).rdropWhile p = xs.rdropWhile p := by
  induction ys using reverseRecOn with
  | nil => rw [append_nil]
  | append_singleton ys y ih =>
    rw [← append_assoc, rdropWhile_concat_pos _ _ _ (h y (by simp)),
      ih fun y' hy' => h y' (mem_append_left _ hy')]

theorem rdropWhile_slashes (hn : IsSegment n) (p : JsText) :
    (p ++ n).rdropWhile (· = slash) = p ++ n := by
  obtain ⟨start, c, rfl⟩ := (eq_nil_or_concat' n).resolve_left hn.ne_nil
  have hc : c ≠ slash := fun hc => hn.no_slash (by simp [hc])
  rw [← append_assoc, rdropWhile_concat_neg _ _ _ (by simp [hc])]

theorem rdropWhile_segment (hn : IsSegment n) (p : JsText) :
    (p ++ n).rdropWhile (· ≠ slash) = p.rdropWhile (· ≠ slash) := by
  apply rdropWhile_append_of_forall
  intro c hc
  have hne : c ≠ slash := fun heq => hn.no_slash (heq ▸ hc)
  simp [hne]

theorem dirname_render (h : ∀ n ∈ ns, IsName n) (trailing : Bool) :
    dirname (render ns ++ if trailing then [slash] else []) = render ns.dropLast := by
  have htrailing : ∀ c ∈ (if trailing then [slash] else [] : JsText),
      (c = slash : Bool) = true := by
    cases trailing <;> simp
  rw [render, cons_append, dirname, rdropWhile_append_of_forall htrailing]
  obtain rfl | ⟨ms, n, rfl⟩ := eq_nil_or_concat' ns
  · decide
  · have hn : IsSegment n := (h n (by simp)).toIsSegment
    have hms : ∀ m ∈ ms, IsSegment m := fun m hm => (h m (by simp [hm])).toIsSegment
    rw [dropLast_concat]
    by_cases hnil : ms = []
    · have hself := rdropWhile_slashes hn []
      have hparent := rdropWhile_segment hn []
      rw [nil_append] at hself hparent
      rw [hnil, nil_append, joinNames, intercalate_singleton, hself, hparent, rdropWhile_nil]
      decide
    · have hjoin : joinNames (ms ++ [n]) = joinNames ms ++ [slash] ++ n := by
        rw [joinNames_append hnil (by simp), joinNames, joinNames, intercalate_singleton,
          append_assoc]
        rfl
      rw [hjoin, rdropWhile_slashes hn, rdropWhile_segment hn,
        rdropWhile_concat_neg _ _ _ (by simp), if_neg (by simp), dropLast_concat,
        if_neg (by simp [joinNames_ne_nil hnil hms])]
      rfl

theorem join_form {ps : List JsText} (h : isAbsolute (join ps) = true) :
    ∃ (ns : List JsText) (trailing : Bool), (∀ n ∈ ns, IsName n) ∧
      join ps = render ns ++ if trailing then [slash] else [] := by
  unfold join at h ⊢
  dsimp only at h ⊢
  split_ifs at h ⊢
  · exact absurd h (by decide)
  · cases habs : isAbsolute (joinNames (ps.filter (· ≠ []))) with
    | false => exact absurd ((normalize_of_relative habs).1.symm.trans h) (by decide)
    | true =>
      rcases normalize_of_absolute habs with hp | hp <;> rw [hp]
      · exact ⟨_, false, names_isName habs, by simp⟩
      · exact ⟨_, true, names_isName habs, rfl⟩

theorem located_render (h : ∀ n ∈ ns, IsName n) (cwd : JsText)
    (trailing : Bool) :
    located cwd (render ns ++ if trailing then [slash] else []) = ns := by
  have hsegments : segments (render ns ++ if trailing then [slash] else []) = ns := by
    cases trailing with
    | false => rw [if_neg Bool.false_ne_true, append_nil, segments_render h]
    | true => rw [if_pos rfl, segments_append_trailing, segments_render h]
  rw [located, isAbsolute_append (isAbsolute_render ns), hsegments, if_pos rfl,
    foldl_descend_of_isName h, nil_append]

theorem prefix_iff (hms : ∀ n ∈ ms, IsName n) (hns : ∀ n ∈ ns, IsName n) :
    ms <+: ns ↔ ms = [] ∨ render ms = render ns ∨ render ms ++ [slash] <+: render ns := by
  constructor
  · rintro ⟨rest, rfl⟩
    by_cases hms' : ms = []
    · exact .inl hms'
    · by_cases hrest : rest = []
      · simp [hrest]
      · refine .inr (.inr ⟨joinNames rest, ?_⟩)
        rw [render, render, joinNames_append hms' hrest]
        simp
  · rintro (rfl | h | ⟨rest, h⟩)
    · exact nil_prefix
    · have hnames := congrArg names h
      rw [names_render hms, names_render hns] at hnames
      exact hnames ▸ prefix_rfl
    · refine ⟨segments rest, ?_⟩
      have hsegments := congrArg segments h
      rwa [append_assoc, singleton_append, segments_append, segments_render hms,
        segments_render hns] at hsegments

end Draht.PosixPath
