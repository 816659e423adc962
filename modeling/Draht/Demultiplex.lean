import Mathlib.Data.List.Induction
import Mathlib.Data.List.Nodup

/-!
# Groups of fragments that come mixed

Each fragment has the key of its group, and the first one of a group has a label. An assembler that
does not look at the keys adds a fragment to the group that it built last, unless there was a gap or
the fragment has another label. It builds the groups of the keys as long as each fragment comes
while its own group is built.
-/

namespace Draht.Demultiplex
open List Option

structure Fragment (κ ι α : Type*) where
  key : κ
  label : Option ι
  payload : List α

inductive Piece (κ ι α : Type*) where
  | gap
  | fragment (f : Fragment κ ι α)

abbrev LabelledGroup (ι α : Type*) := Option ι × List α

variable {κ ι α : Type*}

section Keys

variable [DecidableEq κ] (fragments : List (Fragment κ ι α))

def keys : List κ := (fragments.map (·.key)).eraseDups

def labelOf (k : κ) : Option ι := (fragments.find? (·.key = k)).bind (·.label)

def payloadOf (k : κ) : List α := (fragments.filter (·.key = k)).flatMap (·.payload)

/-- A group for each key, with the label of its first fragment and the payloads of all. -/
def byKey : List (LabelledGroup ι α) :=
  (keys fragments).map fun k => (labelOf fragments k, payloadOf fragments k)

end Keys

/-- The first fragment of a key has a label, and no other one. -/
def FirstLabelled (seen : List κ) : List (Fragment κ ι α) → Prop
  | [] => True
  | f :: fragments => (f.label.isSome ↔ f.key ∉ seen) ∧ FirstLabelled (seen ++ [f.key]) fragments

instance FirstLabelled.decidable [DecidableEq κ] (seen : List κ) :
    (fragments : List (Fragment κ ι α)) → Decidable (FirstLabelled seen fragments)
  | [] => inferInstanceAs (Decidable True)
  | f :: fragments =>
    have : Decidable (FirstLabelled (seen ++ [f.key]) fragments) :=
      FirstLabelled.decidable (seen ++ [f.key]) fragments
    inferInstanceAs (Decidable (_ ∧ _))

structure Assembly (ι α : Type*) where
  ended : List (LabelledGroup ι α)
  opened : Option (LabelledGroup ι α)

namespace Assembly

variable [DecidableEq ι] (a : Assembly ι α)

def groups : List (LabelledGroup ι α) := a.ended ++ a.opened.toList

def add : Piece κ ι α → Assembly ι α
  | .gap => ⟨a.groups, none⟩
  | .fragment f =>
    match a.opened with
    | none => ⟨a.groups, some (f.label, f.payload)⟩
    | some (label, payload) =>
      if f.label.all (some · = label) then ⟨a.ended, some (label, payload ++ f.payload)⟩
      else ⟨a.groups, some (f.label, f.payload)⟩

def run (pieces : List (Piece κ ι α)) : Assembly ι α := pieces.foldl add ⟨[], none⟩

end Assembly

def Piece.fragment? : Piece κ ι α → Option (Fragment κ ι α)
  | .gap => none
  | .fragment f => some f

def fragmentsOf (pieces : List (Piece κ ι α)) : List (Fragment κ ι α) :=
  pieces.filterMap Piece.fragment?

def Piece.first (current : Option (Fragment κ ι α)) : Piece κ ι α → Option (Fragment κ ι α)
  | .gap => none
  | .fragment f => if f.label.isSome then some f else current

/-- A group begins with a label that is not the one of the group that is built; any other fragment
comes while its group is built, or has no payload and comes while some group is built. -/
def Piece.Fits (current : Option (Fragment κ ι α)) : Piece κ ι α → Prop
  | .gap => True
  | .fragment f =>
    if f.label.isSome then ∀ c ∈ current, c.label ≠ f.label
    else ∃ c ∈ current, f.payload.isEmpty ∨ c.key = f.key

def InTurn (current : Option (Fragment κ ι α)) : List (Piece κ ι α) → Prop
  | [] => True
  | p :: pieces => p.Fits current ∧ InTurn (p.first current) pieces

instance Piece.Fits.decidable [DecidableEq κ] [DecidableEq ι] (current : Option (Fragment κ ι α)) :
    (p : Piece κ ι α) → Decidable (p.Fits current)
  | .gap => inferInstanceAs (Decidable True)
  | .fragment f =>
    inferInstanceAs (Decidable (if f.label.isSome then ∀ c ∈ current, c.label ≠ f.label
      else ∃ c ∈ current, f.payload.isEmpty ∨ c.key = f.key))

instance InTurn.decidable [DecidableEq κ] [DecidableEq ι] (current : Option (Fragment κ ι α)) :
    (pieces : List (Piece κ ι α)) → Decidable (InTurn current pieces)
  | [] => inferInstanceAs (Decidable True)
  | p :: pieces =>
    have : Decidable (InTurn (p.first current) pieces) :=
      InTurn.decidable (p.first current) pieces
    inferInstanceAs (Decidable (_ ∧ _))

section Append

variable {fragments : List (Fragment κ ι α)} {f : Fragment κ ι α}

theorem firstLabelled_append (seen : List κ) :
    FirstLabelled seen (fragments ++ [f]) ↔ FirstLabelled seen fragments ∧
      (f.label.isSome ↔ f.key ∉ seen ++ fragments.map (·.key)) := by
  induction fragments generalizing seen with
  | nil => simp [FirstLabelled]
  | cons g fragments ih =>
    rw [cons_append, FirstLabelled, FirstLabelled, ih, and_assoc, append_assoc,
      map_cons, singleton_append]

theorem inTurn_append {pieces : List (Piece κ ι α)} {p : Piece κ ι α}
    (current : Option (Fragment κ ι α)) :
    InTurn current (pieces ++ [p]) ↔
      InTurn current pieces ∧ p.Fits (pieces.foldl Piece.first current) := by
  induction pieces generalizing current with
  | nil => simp [InTurn]
  | cons q pieces ih => rw [cons_append, InTurn, InTurn, ih, and_assoc, foldl_cons]

variable [DecidableEq κ]

theorem mem_keys {k : κ} : k ∈ keys fragments ↔ k ∈ fragments.map (·.key) := mem_eraseDups

theorem keys_append_new (h : f.key ∉ fragments.map (·.key)) :
    keys (fragments ++ [f]) = keys fragments ++ [f.key] := by
  have hnew : [f.key].removeAll (fragments.map (·.key)) = [f.key] := by
    simpa [List.removeAll] using h
  rw [keys, map_append, eraseDups_append, map_singleton, hnew]
  rfl

theorem keys_append_old (h : f.key ∈ fragments.map (·.key)) :
    keys (fragments ++ [f]) = keys fragments := by
  have hold : [f.key].removeAll (fragments.map (·.key)) = [] := by
    simpa [List.removeAll] using h
  rw [keys, map_append, eraseDups_append, map_singleton, hold, eraseDups_nil, append_nil]
  rfl

theorem nodup_keys (fragments : List (Fragment κ ι α)) : (keys fragments).Nodup := by
  induction fragments using reverseRecOn with
  | nil => exact nodup_nil
  | append_singleton fragments f ih =>
    by_cases h : f.key ∈ fragments.map (·.key)
    · rwa [keys_append_old h]
    · rw [keys_append_new h]
      simpa using ih.concat (mt mem_keys.mp h)

theorem payloadOf_append (k : κ) :
    payloadOf (fragments ++ [f]) k =
      payloadOf fragments k ++ if f.key = k then f.payload else [] := by
  by_cases h : f.key = k
  · simp [payloadOf, h]
  · simp [payloadOf, h]

theorem payloadOf_eq_nil {k : κ} (h : k ∉ fragments.map (·.key)) : payloadOf fragments k = [] := by
  have hnone : fragments.filter (·.key = k) = [] :=
    filter_eq_nil_iff.mpr fun f hf hk => h (mem_map.mpr ⟨f, hf, of_decide_eq_true hk⟩)
  rw [payloadOf, hnone, flatMap_nil]

theorem labelOf_append_old {k : κ} (h : k ∈ fragments.map (·.key)) :
    labelOf (fragments ++ [f]) k = labelOf fragments k := by
  obtain ⟨g, hg, hk⟩ := mem_map.mp h
  have hfound : (fragments.find? (·.key = k)).isSome :=
    find?_isSome.mpr ⟨g, hg, decide_eq_true hk⟩
  rw [labelOf, find?_append, or_of_isSome hfound, labelOf]

theorem labelOf_append_new (h : f.key ∉ fragments.map (·.key)) :
    labelOf (fragments ++ [f]) f.key = f.label := by
  have hnone : fragments.find? (·.key = f.key) = none :=
    find?_eq_none.mpr fun g hg hk => h (mem_map.mpr ⟨g, hg, of_decide_eq_true hk⟩)
  rw [labelOf, find?_append, hnone]
  simp

theorem byKey_append_new (h : f.key ∉ fragments.map (·.key)) :
    byKey (fragments ++ [f]) = byKey fragments ++ [(f.label, f.payload)] := by
  rw [byKey, keys_append_new h, map_append, map_singleton, labelOf_append_new h,
    payloadOf_append, if_pos rfl, payloadOf_eq_nil h, nil_append]
  congr 1
  refine map_congr_left fun k hk => ?_
  have hne : f.key ≠ k := fun heq => h (heq ▸ mem_keys.mp hk)
  rw [labelOf_append_old (mem_keys.mp hk), payloadOf_append, if_neg hne, append_nil]

theorem byKey_append_old (h : f.key ∈ fragments.map (·.key)) :
    byKey (fragments ++ [f]) = (keys fragments).map fun k =>
      (labelOf fragments k, payloadOf fragments k ++ if f.key = k then f.payload else []) := by
  rw [byKey, keys_append_old h]
  refine map_congr_left fun k hk => ?_
  rw [labelOf_append_old (mem_keys.mp hk), payloadOf_append]

end Append

namespace Assembly

variable [DecidableEq ι] {a : Assembly ι α} {f : Fragment κ ι α}

theorem add_gap : a.add (Piece.gap : Piece κ ι α) = ⟨a.groups, none⟩ := rfl

theorem add_begin (h : ∀ g ∈ a.opened, ¬f.label.all (some · = g.1)) :
    a.add (.fragment f) = ⟨a.groups, some (f.label, f.payload)⟩ := by
  unfold add
  cases hopened : a.opened with
  | none => rfl
  | some g => exact if_neg (h g hopened)

variable {g : LabelledGroup ι α}

theorem add_continue (hopened : a.opened = some g) (h : f.label.all (some · = g.1)) :
    a.add (.fragment f) = ⟨a.ended, some (g.1, g.2 ++ f.payload)⟩ := by
  unfold add
  rw [hopened]
  exact if_pos h

theorem add_fragment (a : Assembly ι α) (f : Fragment κ ι α) :
    ((∀ g ∈ a.opened, ¬f.label.all (some · = g.1)) ∧
        a.add (.fragment f) = ⟨a.groups, some (f.label, f.payload)⟩) ∨
      ∃ g, a.opened = some g ∧ f.label.all (some · = g.1) ∧
        a.add (.fragment f) = ⟨a.ended, some (g.1, g.2 ++ f.payload)⟩ := by
  by_cases h : ∃ g, a.opened = some g ∧ f.label.all (some · = g.1)
  · obtain ⟨g, hopened, hall⟩ := h
    exact .inr ⟨g, hopened, hall, add_continue hopened hall⟩
  · have hother (g : LabelledGroup ι α) (hg : g ∈ a.opened) : ¬f.label.all (some · = g.1) :=
      fun hall => h ⟨g, hg, hall⟩
    exact .inl ⟨hother, add_begin hother⟩

omit [DecidableEq ι] in
theorem groups_mk_some (ended : List (LabelledGroup ι α)) (g : LabelledGroup ι α) :
    (⟨ended, some g⟩ : Assembly ι α).groups = ended ++ [g] := rfl

omit [DecidableEq ι] in
theorem groups_of_opened (h : a.opened = some g) : a.groups = a.ended ++ [g] := by
  rw [groups, h]
  rfl

theorem add_labels (a : Assembly ι α) (f : Fragment κ ι α) :
    ((a.add (.fragment f)).groups.map (·.1) = a.groups.map (·.1) ∨
        (a.add (.fragment f)).groups.map (·.1) = a.groups.map (·.1) ++ [f.label]) ∧
      ∃ more, (a.add (.fragment f)).ended = a.ended ++ more := by
  obtain ⟨-, hadd⟩ | ⟨g, hopened, -, hadd⟩ := a.add_fragment f
  · rw [hadd]
    exact ⟨.inr map_append, a.opened.toList, rfl⟩
  · rw [hadd, groups_of_opened hopened, groups_mk_some, map_append, map_append]
    exact ⟨.inl rfl, [], (append_nil _).symm⟩

end Assembly

section Agrees

variable [DecidableEq κ] {fragments : List (Fragment κ ι α)} {current : Option (Fragment κ ι α)}
  {a : Assembly ι α} {f : Fragment κ ι α}

/-- The groups are those of the keys, and the last one is built if one is. -/
structure Agrees (fragments : List (Fragment κ ι α)) (current : Option (Fragment κ ι α))
    (a : Assembly ι α) : Prop where
  groups : a.groups = byKey fragments
  opened : a.opened.map (·.1) = current.map (·.label)
  last : ∀ c ∈ current, ∃ before, keys fragments = before ++ [c.key]

variable {c : Fragment κ ι α}

theorem Agrees.split (h : Agrees fragments current a) (hc : current = some c) :
    ∃ before payload, keys fragments = before ++ [c.key] ∧
      a.opened = some (c.label, payload) ∧ payload = payloadOf fragments c.key ∧
      c.label = labelOf fragments c.key ∧
      a.ended = before.map fun k => (labelOf fragments k, payloadOf fragments k) := by
  obtain ⟨before, hkeys⟩ := h.last c hc
  have hopened := h.opened
  rw [hc, map_some, map_eq_some_iff] at hopened
  obtain ⟨⟨label, payload⟩, hopened, hlabel⟩ := hopened
  obtain rfl : label = c.label := hlabel
  have hgroups := h.groups
  rw [Assembly.groups_of_opened hopened, byKey, hkeys, map_append, map_singleton] at hgroups
  obtain ⟨hended, hlast⟩ := append_inj' hgroups rfl
  obtain ⟨hlabel, hpayload⟩ := Prod.mk.inj (singleton_inj.mp hlast)
  exact ⟨before, payload, hkeys, hopened, hpayload, hlabel, hended⟩

variable [DecidableEq ι]

theorem Agrees.gap (h : Agrees fragments current a) :
    Agrees fragments none (a.add (Piece.gap : Piece κ ι α)) := by
  refine ⟨?_, rfl, nofun⟩
  rw [Assembly.add_gap, ← h.groups]
  exact append_nil _

theorem Agrees.begin (h : Agrees fragments current a) (hlabel : f.label.isSome)
    (hkey : f.key ∉ fragments.map (·.key)) (hfits : ∀ c ∈ current, c.label ≠ f.label) :
    Agrees (fragments ++ [f]) (some f) (a.add (.fragment f)) := by
  obtain ⟨label, hf⟩ := isSome_iff_exists.mp hlabel
  have hother : ∀ g ∈ a.opened, ¬f.label.all (some · = g.1) := by
    intro g hg hall
    have hcurrent := h.opened
    rw [hg, map_some, eq_comm, map_eq_some_iff] at hcurrent
    obtain ⟨c, hc, hcg⟩ := hcurrent
    refine hfits c hc ?_
    rw [hf, all_some, decide_eq_true_iff] at hall
    rw [hcg, hf, hall]
  rw [Assembly.add_begin hother]
  refine ⟨?_, rfl, fun c hc => ⟨keys fragments, ?_⟩⟩
  · rw [byKey_append_new hkey, ← h.groups]
    rfl
  · cases hc
    exact keys_append_new hkey

theorem Agrees.extend (h : Agrees fragments current a) (hlabel : f.label = none)
    (hkey : f.key ∈ fragments.map (·.key)) (hc : current = some c)
    (hfits : f.payload = [] ∨ c.key = f.key) :
    Agrees (fragments ++ [f]) current (a.add (.fragment f)) := by
  obtain ⟨before, payload, hkeys, hopened, hpayload, hclabel, hended⟩ := h.split hc
  have hall : f.label.all (some · = c.label) := by rw [hlabel]; rfl
  rw [Assembly.add_continue hopened hall]
  refine ⟨?_, by rw [hc]; rfl, fun c' hc' => ⟨before, ?_⟩⟩
  · have hnodup := nodup_keys fragments
    rw [hkeys] at hnodup
    have hnone (k : κ) (hk : k ∈ before) : (if f.key = k then f.payload else []) = [] := by
      obtain hempty | hsame := hfits
      · rw [hempty, ite_self]
      · refine if_neg fun heq => ?_
        exact (nodup_append.mp hnodup).2.2 k hk c.key (mem_singleton_self _)
          (heq.symm.trans hsame.symm)
    have hlast : (if f.key = c.key then f.payload else []) = f.payload := by
      obtain hempty | hsame := hfits
      · rw [hempty, ite_self]
      · exact if_pos hsame.symm
    rw [byKey_append_old hkey, hkeys, map_append, map_singleton, hlast, ← hpayload, ← hclabel]
    change a.ended ++ [(c.label, payload ++ f.payload)] = _
    rw [hended]
    congr 1
    refine map_congr_left fun k hk => ?_
    rw [hnone k hk, append_nil]
  · obtain rfl := some.inj (hc.symm.trans hc')
    rw [keys_append_old hkey, hkeys]

theorem Agrees.add (h : Agrees fragments current a)
    (hlabel : f.label.isSome ↔ f.key ∉ fragments.map (·.key))
    (hfits : (Piece.fragment f).Fits current) :
    Agrees (fragments ++ [f]) (Piece.first current (.fragment f)) (a.add (.fragment f)) := by
  rw [Piece.Fits] at hfits
  rw [Piece.first]
  split_ifs at hfits ⊢ with hsome
  · exact h.begin hsome (hlabel.mp hsome) hfits
  · obtain ⟨c, hc, hright⟩ := hfits
    rw [List.isEmpty_iff] at hright
    exact h.extend (not_isSome_iff_eq_none.mp hsome) (not_not.mp (mt hlabel.mpr hsome)) hc hright

/-- Some group has no label, or too few have one, or one that has ended is shorter than the group of
its key. -/
inductive Broken (fragments : List (Fragment κ ι α)) (a : Assembly ι α) : Prop
  | unlabelled (h : none ∈ a.groups.map (·.1))
  | fewer (h : (a.groups.map (·.1)).countP (·.isSome) < (keys fragments).length)
  | short (i : ℕ) (g : LabelledGroup ι α) (k : κ) (hg : a.ended[i]? = some g)
      (hk : (keys fragments)[i]? = some k) (h : g.2.length < (payloadOf fragments k).length)

theorem Agrees.broken (h : Agrees fragments current a)
    (hlabel : f.label.isSome ↔ f.key ∉ fragments.map (·.key))
    (hfits : ¬(Piece.fragment f).Fits current) :
    Broken (fragments ++ [f]) (a.add (.fragment f)) := by
  rw [Piece.Fits] at hfits
  split_ifs at hfits with hsome
  · -- the label of the group that is built comes once more
    push Not at hfits
    obtain ⟨c, hc, hcf⟩ := hfits
    obtain ⟨before, payload, hkeys, hopened, -⟩ := h.split hc
    have hall : f.label.all (some · = c.label) := by
      obtain ⟨label, hf⟩ := isSome_iff_exists.mp hsome
      rw [hcf, hf]
      exact decide_eq_true rfl
    have hgroups : (a.add (.fragment f)).groups.map (·.1) = a.groups.map (·.1) := by
      rw [Assembly.add_continue hopened hall, Assembly.groups_of_opened hopened,
        Assembly.groups_mk_some, map_append, map_append]
      rfl
    refine .fewer ?_
    have hlength : (a.groups.map (·.1)).length = (keys fragments).length := by
      rw [h.groups, byKey, length_map, length_map]
    rw [hgroups, keys_append_new (hlabel.mp hsome), length_append, ← hlength]
    exact Nat.lt_succ_of_le countP_le_length
  · have hnone : f.label = none := not_isSome_iff_eq_none.mp hsome
    have hkey : f.key ∈ fragments.map (·.key) := not_not.mp (mt hlabel.mpr hsome)
    cases hc : current with
    | none =>
      -- no group is built
      have hopened : a.opened = none := by simpa [hc] using h.opened
      refine .unlabelled ?_
      rw [Assembly.add_begin (by simp [hopened]), hnone, Assembly.groups_mk_some]
      simp
    | some c =>
      -- another group is built, and that of the fragment has ended
      obtain ⟨before, payload, hkeys, hopened, -, -, hended⟩ := h.split hc
      have hwrong : ¬(f.payload.isEmpty ∨ c.key = f.key) := fun hright => hfits ⟨c, hc, hright⟩
      rw [not_or, List.isEmpty_iff] at hwrong
      have hbefore : f.key ∈ before := by
        have hmem := mem_keys.mpr hkey
        rw [hkeys, mem_append, mem_singleton] at hmem
        exact hmem.resolve_right (Ne.symm hwrong.2)
      obtain ⟨i, hi⟩ := mem_iff_getElem?.mp hbefore
      have hall : f.label.all (some · = c.label) := by rw [hnone]; rfl
      rw [Assembly.add_continue hopened hall]
      refine .short i (labelOf fragments f.key, payloadOf fragments f.key) f.key ?_ ?_ ?_
      · rw [hended, getElem?_map, hi]
        rfl
      · rw [keys_append_old hkey, hkeys,
          List.getElem?_append_left (List.getElem?_eq_some_iff.mp hi).1, hi]
      · rw [payloadOf_append, if_pos rfl, length_append]
        exact Nat.lt_add_of_pos_right (length_pos_iff.mpr hwrong.1)

theorem Broken.gap (h : Broken fragments a) :
    Broken fragments (a.add (Piece.gap : Piece κ ι α)) := by
  have hgroups : (a.add (Piece.gap : Piece κ ι α)).groups = a.groups := append_nil _
  cases h with
  | unlabelled h => exact .unlabelled (by rwa [hgroups])
  | fewer h => exact .fewer (by rwa [hgroups])
  | short i g k hg hk h =>
    refine .short i g k ?_ hk h
    change (a.ended ++ a.opened.toList)[i]? = some g
    rw [List.getElem?_append_left (List.getElem?_eq_some_iff.mp hg).1, hg]

theorem Broken.fragment (h : Broken fragments a)
    (hlabel : f.label.isSome ↔ f.key ∉ fragments.map (·.key)) :
    Broken (fragments ++ [f]) (a.add (.fragment f)) := by
  obtain ⟨hlabels, more, hended⟩ := a.add_labels f
  cases h with
  | unlabelled h =>
    refine .unlabelled ?_
    obtain hlabels | hlabels := hlabels
    · rwa [hlabels]
    · rw [hlabels]
      exact mem_append_left _ h
  | fewer h =>
    refine .fewer ?_
    by_cases hkey : f.key ∈ fragments.map (·.key)
    · have hnone : f.label.isSome = false := by simpa using mt hlabel.mp (not_not.mpr hkey)
      rw [keys_append_old hkey]
      obtain hlabels | hlabels := hlabels
      · rwa [hlabels]
      · rw [hlabels, countP_append, countP_singleton, hnone]
        simpa using h
    · rw [keys_append_new hkey, length_append, length_singleton]
      obtain hlabels | hlabels := hlabels
      · rw [hlabels]
        exact Nat.lt_succ_of_lt h
      · rw [hlabels, countP_append]
        exact Nat.add_lt_add_of_lt_of_le h countP_le_length
  | short i g k hg hk h =>
    refine .short i g k ?_ ?_ ?_
    · rw [hended, List.getElem?_append_left (List.getElem?_eq_some_iff.mp hg).1, hg]
    · by_cases hkey : f.key ∈ fragments.map (·.key)
      · rw [keys_append_old hkey, hk]
      · rw [keys_append_new hkey,
          List.getElem?_append_left (List.getElem?_eq_some_iff.mp hk).1, hk]
    · rw [payloadOf_append, length_append]
      exact Nat.lt_add_right _ h

variable {pieces : List (Piece κ ι α)}

omit [DecidableEq κ] in
theorem Assembly.run_append (pieces : List (Piece κ ι α)) (p : Piece κ ι α) :
    Assembly.run (pieces ++ [p]) = (Assembly.run pieces).add p := foldl_append

omit [DecidableEq κ] [DecidableEq ι] in
theorem fragmentsOf_append (pieces : List (Piece κ ι α)) (p : Piece κ ι α) :
    fragmentsOf (pieces ++ [p]) = fragmentsOf pieces ++ p.fragment?.toList := by
  rw [fragmentsOf, filterMap_append]
  cases p <;> rfl

theorem run_agrees_or_broken (h : FirstLabelled [] (fragmentsOf pieces)) :
    InTurn none pieces ∧
        Agrees (fragmentsOf pieces) (pieces.foldl Piece.first none) (Assembly.run pieces) ∨
      ¬InTurn none pieces ∧ Broken (fragmentsOf pieces) (Assembly.run pieces) := by
  induction pieces using reverseRecOn with
  | nil => exact .inl ⟨trivial, rfl, rfl, nofun⟩
  | append_singleton pieces p ih =>
    rw [fragmentsOf_append] at h
    rw [inTurn_append, fragmentsOf_append, Assembly.run_append, foldl_append]
    cases p with
    | gap =>
      rw [Piece.fragment?, toList_none, append_nil] at h ⊢
      obtain ⟨hturn, hagrees⟩ | ⟨hturn, hbroken⟩ := ih h
      · exact .inl ⟨⟨hturn, trivial⟩, hagrees.gap⟩
      · exact .inr ⟨fun hall => hturn hall.1, hbroken.gap⟩
    | fragment f =>
      obtain ⟨hfragments, hlabel⟩ := (firstLabelled_append []).mp h
      obtain ⟨hturn, hagrees⟩ | ⟨hturn, hbroken⟩ := ih hfragments
      · by_cases hfits : (Piece.fragment f).Fits (pieces.foldl Piece.first none)
        · exact .inl ⟨⟨hturn, hfits⟩, hagrees.add hlabel hfits⟩
        · exact .inr ⟨fun hall => hfits hall.2, hagrees.broken hlabel hfits⟩
      · exact .inr ⟨fun hall => hturn hall.1, hbroken.fragment hlabel⟩

theorem groups_of_inTurn (h : FirstLabelled [] (fragmentsOf pieces)) (hturn : InTurn none pieces) :
    (Assembly.run pieces).groups = byKey (fragmentsOf pieces) := by
  obtain ⟨-, hagrees⟩ | ⟨hnot, -⟩ := run_agrees_or_broken h
  · exact hagrees.groups
  · exact absurd hturn hnot

omit [DecidableEq ι] in
theorem label_of_mem_byKey (h : FirstLabelled [] fragments) {label : Option ι}
    (hmem : label ∈ (byKey fragments).map (·.1)) :
    label.isSome ∧ ∃ f ∈ fragments, f.label = label := by
  induction fragments using reverseRecOn with
  | nil => cases hmem
  | append_singleton fragments f ih =>
    obtain ⟨hfragments, hlabel⟩ := (firstLabelled_append []).mp h
    by_cases hkey : f.key ∈ fragments.map (·.key)
    · rw [byKey_append_old hkey, List.map_map] at hmem
      obtain ⟨hsome, g, hg, hlabel'⟩ := ih hfragments (by rw [byKey, List.map_map]; exact hmem)
      exact ⟨hsome, g, mem_append_left _ hg, hlabel'⟩
    · rw [byKey_append_new hkey, map_append, mem_append] at hmem
      obtain hmem | hmem := hmem
      · obtain ⟨hsome, g, hg, hlabel'⟩ := ih hfragments hmem
        exact ⟨hsome, g, mem_append_left _ hg, hlabel'⟩
      · rw [mem_singleton.mp hmem]
        exact ⟨hlabel.mpr hkey, f, mem_append_right _ (mem_singleton_self f), rfl⟩

theorem differs_of_not_inTurn (h : FirstLabelled [] (fragmentsOf pieces))
    (hturn : ¬InTurn none pieces) :
    (Assembly.run pieces).groups.map (·.1) ≠ (byKey (fragmentsOf pieces)).map (·.1) ∨
      ∃ (i : ℕ) (g g' : LabelledGroup ι α), (Assembly.run pieces).groups[i]? = some g ∧
        (byKey (fragmentsOf pieces))[i]? = some g' ∧ g.2.length < g'.2.length := by
  obtain ⟨hall, -⟩ | ⟨-, hbroken⟩ := run_agrees_or_broken h
  · exact absurd hall hturn
  have hlabels (label : Option ι) (hmem : label ∈ (byKey (fragmentsOf pieces)).map (·.1)) :
      label.isSome := (label_of_mem_byKey h hmem).1
  cases hbroken with
  | unlabelled hnone =>
    left
    intro heq
    rw [heq] at hnone
    cases hlabels none hnone
  | fewer hcount =>
    left
    intro heq
    rw [heq, countP_eq_length.mpr hlabels, byKey, length_map, length_map] at hcount
    exact absurd hcount (Nat.lt_irrefl _)
  | short i g k hg hk hlength =>
    right
    refine ⟨i, g, (labelOf (fragmentsOf pieces) k, payloadOf (fragmentsOf pieces) k), ?_, ?_,
      hlength⟩
    · rw [Assembly.groups, List.getElem?_append_left (List.getElem?_eq_some_iff.mp hg).1, hg]
    · rw [byKey, getElem?_map, hk]
      rfl

end Agrees

end Draht.Demultiplex
