import Draht.Editor

/-!
# Texts with pastes

A text of the editor is made of units and of pastes, each of which shows its marker. Where every
paste is kept under its id and no other part of the text reads as a marker, expanding the markers
gives the text with the pastes verbatim.
-/

namespace Draht
open List Option

theorem utf16_append (s t : String) : utf16 (s ++ t) = utf16 s ++ utf16 t := by
  simp [utf16, utf16Chars]

def idDigits (id : ℕ) : JsText := utf16 (toString id)

variable {n : ℕ} {text : JsText} {c : Char}

theorem toNat_of_mem_toDigits (h : c ∈ Nat.toDigits 10 n) : 48 ≤ c.toNat ∧ c.toNat ≤ 57 := by
  have hdigit := Nat.isDigit_of_mem_toDigits (by decide) (by decide) h
  simp only [Char.isDigit, Bool.and_eq_true, decide_eq_true_eq] at hdigit
  exact hdigit

theorem idDigits_eq_map (id : ℕ) :
    idDigits id = (Nat.toDigits 10 id).map fun c => UInt16.ofNat c.toNat := by
  have hsmall : ∀ c ∈ Nat.toDigits 10 id, c.toNat < 0x10000 := by
    intro c hc
    have hle := (toNat_of_mem_toDigits hc).2
    omega
  have hlist : (toString id).toList = Nat.toDigits 10 id := Nat.toList_repr
  unfold idDigits utf16 utf16Chars
  rw [hlist]
  generalize Nat.toDigits 10 id = digits at hsmall
  induction digits with
  | nil => rfl
  | cons c digits ih =>
    rw [flatMap_cons, if_pos (hsmall c mem_cons_self), map_cons,
      ih fun d hd => hsmall d (mem_cons_of_mem _ hd), singleton_append]

theorem idDigits_ne_nil (id : ℕ) : idDigits id ≠ [] := by
  rw [idDigits_eq_map]
  exact fun h => Nat.toDigits_ne_nil (map_eq_nil_iff.mp h)

theorem toNat_digitUnit (h : c ∈ Nat.toDigits 10 n) : (UInt16.ofNat c.toNat).toNat = c.toNat := by
  have hle := (toNat_of_mem_toDigits h).2
  exact UInt16.toNat_ofNat_of_lt (by change c.toNat < 65536; omega)

theorem isDigitUnit_of_mem_idDigits {id : ℕ} {c : UInt16} (h : c ∈ idDigits id) :
    isDigitUnit c = true := by
  rw [idDigits_eq_map] at h
  obtain ⟨d, hd, rfl⟩ := mem_map.mp h
  simp only [isDigitUnit, Bool.and_eq_true, decide_eq_true_eq, UInt16.le_iff_toNat_le,
    toNat_digitUnit hd]
  exact toNat_of_mem_toDigits hd

theorem idDigits_injective : Function.Injective idDigits := by
  have hback (n : ℕ) : (idDigits n).map (fun u => Char.ofNat u.toNat) = Nat.toDigits 10 n := by
    rw [idDigits_eq_map, List.map_map]
    refine (map_congr_left fun c hc => ?_).trans (map_id _)
    exact (congrArg Char.ofNat (toNat_digitUnit hc)).trans (Char.ofNat_toNat c)
  intro i j h
  have hread := congrArg (List.map fun u => Char.ofNat (UInt16.toNat u)) h
  rw [hback, hback] at hread
  have hvalue := congrArg (fun digits => Nat.ofDigitChars 10 digits 0) hread
  simpa only [Nat.ofDigitChars_ten_toDigits] using hvalue

theorem dropPrefix?_append (start rest : JsText) : (start ++ rest).dropPrefix? start = some rest :=
  dropPrefix?_append_of_beq rest (beq_self_eq_true start)

theorem digitsFrom_idDigits (id : ℕ) (rest : JsText)
    (hrest : ∀ c ∈ rest.head?, isDigitUnit c = false) :
    digitsFrom (idDigits id ++ rest) = some (idDigits id, rest) := by
  have hnone : rest.takeWhile isDigitUnit = [] ∧ rest.dropWhile isDigitUnit = rest := by
    cases rest with
    | nil => exact ⟨rfl, rfl⟩
    | cons c rest =>
      have hc := hrest c rfl
      simp [hc]
  have htake : (idDigits id ++ rest).takeWhile isDigitUnit = idDigits id := by
    rw [takeWhile_append_of_pos fun c hc => isDigitUnit_of_mem_idDigits hc, hnone.1, append_nil]
  have hdrop : (idDigits id ++ rest).dropWhile isDigitUnit = rest := by
    rw [dropWhile_append_of_pos fun c hc => isDigitUnit_of_mem_idDigits hc, hnone.2]
  unfold digitsFrom
  rw [htake, hdrop]
  cases hdigits : idDigits id with
  | nil => exact absurd hdigits (idDigits_ne_nil id)
  | cons c digits => rfl

theorem countFrom_lines (n : ℕ) (rest : JsText) :
    countFrom (utf16 " +" ++ (idDigits n ++ (utf16 " lines" ++ rest))) = some rest := by
  have hdigits := digitsFrom_idDigits n (utf16 " lines" ++ rest)
    (by intro c hc; obtain rfl := some.inj hc; decide)
  unfold countFrom
  rw [dropPrefix?_append]
  simp only
  rw [hdigits, bind_some, dropPrefix?_append]

theorem countFrom_chars (n : ℕ) (rest : JsText) :
    countFrom (utf16 " " ++ (idDigits n ++ (utf16 " chars" ++ rest))) = some rest := by
  have hdigits := digitsFrom_idDigits n (utf16 " chars" ++ rest)
    (by intro c hc; obtain rfl := some.inj hc; decide)
  have hplus : (utf16 " " ++ (idDigits n ++ (utf16 " chars" ++ rest))).dropPrefix? (utf16 " +") =
      none := by
    obtain ⟨c, digits, hcons⟩ := exists_cons_of_ne_nil (idDigits_ne_nil n)
    have hdigit : isDigitUnit c = true :=
      isDigitUnit_of_mem_idDigits (hcons ▸ mem_cons_self : c ∈ idDigits n)
    have hne : c ≠ 43 := by
      rintro rfl
      exact absurd hdigit (by decide)
    rw [hcons]
    change List.dropPrefix? (32 :: c :: (digits ++ (utf16 " chars" ++ rest))) [32, 43] = none
    simp [List.dropPrefix?, hne]
  unfold countFrom
  rw [hplus]
  rw [dropPrefix?_append, bind_some, hdigits, bind_some, dropPrefix?_append]

namespace Editor

theorem pasteMarker_cases (id : ℕ) (content : JsText) :
    (∃ n, pasteMarker id content = utf16 "[paste #" ++ (idDigits id ++
      (utf16 " +" ++ (idDigits n ++ (utf16 " lines" ++ utf16 "]"))))) ∨
    ∃ n, pasteMarker id content = utf16 "[paste #" ++ (idDigits id ++
      (utf16 " " ++ (idDigits n ++ (utf16 " chars" ++ utf16 "]")))) := by
  have hlines : utf16 " lines]" = utf16 " lines" ++ utf16 "]" := by decide
  have hchars : utf16 " chars]" = utf16 " chars" ++ utf16 "]" := by decide
  unfold pasteMarker
  simp only [utf16_append, hlines, hchars, append_assoc]
  split_ifs
  · exact .inl ⟨_, rfl⟩
  · exact .inr ⟨_, rfl⟩

theorem markerFrom_pasteMarker (id : ℕ) (content rest : JsText) :
    markerFrom (pasteMarker id content ++ rest) = some (idDigits id, rest) := by
  obtain ⟨n, hmarker⟩ | ⟨n, hmarker⟩ := pasteMarker_cases id content
  · rw [hmarker]
    simp only [append_assoc]
    have hdigits := digitsFrom_idDigits id
      (utf16 " +" ++ (idDigits n ++ (utf16 " lines" ++ (utf16 "]" ++ rest))))
      (by intro c hc; obtain rfl := some.inj hc; decide)
    unfold markerFrom
    rw [dropPrefix?_append, bind_some, hdigits, bind_some]
    rw [countFrom_lines, getD_some, dropPrefix?_append, map_some]
  · rw [hmarker]
    simp only [append_assoc]
    have hdigits := digitsFrom_idDigits id
      (utf16 " " ++ (idDigits n ++ (utf16 " chars" ++ (utf16 "]" ++ rest))))
      (by intro c hc; obtain rfl := some.inj hc; decide)
    unfold markerFrom
    rw [dropPrefix?_append, bind_some, hdigits, bind_some]
    rw [countFrom_chars, getD_some, dropPrefix?_append, map_some]

theorem not_mem_tail_pasteMarker (id : ℕ) (content : JsText) :
    91 ∉ (pasteMarker id content).tail := by
  have hdigits (n : ℕ) : 91 ∉ idDigits n := fun hmem =>
    absurd (isDigitUnit_of_mem_idDigits hmem) (by decide)
  have htail (rest : JsText) : (utf16 "[paste #" ++ rest).tail = utf16 "paste #" ++ rest := rfl
  rcases pasteMarker_cases id content with ⟨n, hmarker⟩ | ⟨n, hmarker⟩ <;>
    · rw [hmarker, htail]
      simp only [mem_append, not_or]
      exact ⟨by decide, hdigits id, by decide, hdigits n, by decide, by decide⟩

theorem le_of_mem_pasteMarker {id : ℕ} {content : JsText} {c : UInt16}
    (h : c ∈ pasteMarker id content) : 32 ≤ c := by
  have hdigits {n : ℕ} (hmem : c ∈ idDigits n) : 32 ≤ c := by
    have hdigit := isDigitUnit_of_mem_idDigits hmem
    simp only [isDigitUnit, Bool.and_eq_true, decide_eq_true_eq] at hdigit
    exact UInt16.le_trans (by decide) hdigit.1
  have hword {word : JsText} (hall : (word.all fun d => 32 ≤ d) = true) (hmem : c ∈ word) :
      32 ≤ c := of_decide_eq_true (all_eq_true.mp hall c hmem)
  rcases pasteMarker_cases id content with ⟨n, hmarker⟩ | ⟨n, hmarker⟩ <;>
    · rw [hmarker] at h
      simp only [mem_append] at h
      rcases h with h | h | h | h | h | h
      · exact hword rfl h
      · exact hdigits h
      · exact hword rfl h
      · exact hdigits h
      · exact hword rfl h
      · exact hword rfl h

theorem pasteMarker_ne_nil (id : ℕ) (content : JsText) : pasteMarker id content ≠ [] := by
  rcases pasteMarker_cases id content with ⟨n, hmarker⟩ | ⟨n, hmarker⟩ <;>
    · rw [hmarker]
      exact cons_ne_nil _ _

end Editor

theorem normalizeText_of_le (h : ∀ c ∈ text, 32 ≤ c) : normalizeText text = text := by
  have hne {c d : UInt16} (hc : c ∈ text) (hd : d < 32) : c ≠ d := by
    rintro rfl
    exact absurd (h c hc) (UInt16.not_le.mpr hd)
  have hlf : EditDiff.normalizeToLF text = text :=
    EditDiff.normalizeToLF_eq_self fun h13 => hne h13 (by decide) rfl
  unfold normalizeText
  rw [hlf]
  refine (flatMap_congr fun c hc => ?_).trans (flatMap_singleton' text)
  exact if_neg (hne hc (by decide))

theorem markerFrom_of_head_ne {c : UInt16} (h : c ≠ 91) : markerFrom (c :: text) = none := by
  have hopening : utf16 "[paste #" = 91 :: utf16 "paste #" := by decide
  unfold markerFrom
  rw [hopening]
  simp [List.dropPrefix?, h]

inductive Piece where
  | unit (c : UInt16)
  | paste (id : ℕ) (content : JsText)
deriving DecidableEq

namespace Piece

/-- What is shown when the markers of the pastes `done` are expanded. -/
def render (done : List ℕ) : Piece → JsText
  | unit c => [c]
  | paste id content => if id ∈ done then content else Editor.pasteMarker id content

def verbatim : Piece → JsText
  | unit c => [c]
  | paste _ content => content

def IsKept (pastes : OrderedMap ℕ JsText) : Piece → Prop
  | unit _ => True
  | paste id content => pastes.get id = some content

instance (pastes : OrderedMap ℕ JsText) (p : Piece) : Decidable (p.IsKept pastes) :=
  match p with
  | unit _ => isTrue trivial
  | paste id content => inferInstanceAs (Decidable (pastes.get id = some content))

end Piece

def renderText (done : List ℕ) (pieces : List Piece) : JsText := pieces.flatMap (Piece.render done)

/-- The text of the editor: every paste shows its marker. -/
def shownText (pieces : List Piece) : JsText := renderText [] pieces

def verbatimText (pieces : List Piece) : JsText := pieces.flatMap Piece.verbatim

theorem renderText_cons (done : List ℕ) (p : Piece) (pieces : List Piece) :
    renderText done (p :: pieces) = p.render done ++ renderText done pieces :=
  flatMap_cons

def BeginsMarker (id : ℕ) (text : JsText) : Prop :=
  (markerFrom text).map Prod.fst = some (idDigits id)

instance (id : ℕ) (text : JsText) : Decidable (BeginsMarker id text) :=
  inferInstanceAs (Decidable (_ = _))

/-- With the markers of `done` expanded, no marker of the paste begins at a unit of the text or
inside an expanded paste. -/
def NoStrayMarker (id : ℕ) (done : List ℕ) : List Piece → Prop
  | [] => True
  | .unit c :: pieces =>
    ¬ BeginsMarker id (c :: renderText done pieces) ∧ NoStrayMarker id done pieces
  | .paste i content :: pieces =>
    (i ∈ done → ∀ k < content.length,
      ¬ BeginsMarker id (content.drop k ++ renderText done pieces)) ∧
    NoStrayMarker id done pieces

def decidableNoStrayMarker (id : ℕ) (done : List ℕ) :
    (pieces : List Piece) → Decidable (NoStrayMarker id done pieces)
  | [] => isTrue trivial
  | .unit _ :: pieces =>
    let _ := decidableNoStrayMarker id done pieces
    inferInstanceAs (Decidable (_ ∧ _))
  | .paste _ _ :: pieces =>
    let _ := decidableNoStrayMarker id done pieces
    inferInstanceAs (Decidable (_ ∧ _))

instance (id : ℕ) (done : List ℕ) (pieces : List Piece) :
    Decidable (NoStrayMarker id done pieces) := decidableNoStrayMarker id done pieces

/-- The same, for each of the pastes in the order in which they are expanded. -/
def NoStrayMarkers (pieces : List Piece) : List ℕ → List (ℕ × JsText) → Prop
  | _, [] => True
  | done, paste :: later =>
    NoStrayMarker paste.1 done pieces ∧ NoStrayMarkers pieces (done ++ [paste.1]) later

def decidableNoStrayMarkers (pieces : List Piece) :
    (done : List ℕ) → (entries : List (ℕ × JsText)) → Decidable (NoStrayMarkers pieces done entries)
  | _, [] => isTrue trivial
  | done, paste :: later =>
    let _ := decidableNoStrayMarkers pieces (done ++ [paste.1]) later
    inferInstanceAs (Decidable (_ ∧ _))

instance (pieces : List Piece) (done : List ℕ) (entries : List (ℕ × JsText)) :
    Decidable (NoStrayMarkers pieces done entries) := decidableNoStrayMarkers pieces done entries

/-- Every paste in the text is kept, and nothing else in it reads as the marker of a paste. -/
structure Readable (pastes : OrderedMap ℕ JsText) (pieces : List Piece) : Prop where
  kept : ∀ p ∈ pieces, p.IsKept pastes
  noStray : NoStrayMarkers pieces [] pastes.entries

namespace Editor

theorem replaceMarkers_skip (digits content taken rest : JsText) :
    replaceMarkers digits content taken.length (taken ++ rest) =
      replaceMarkers digits content 0 rest := by
  induction taken with
  | nil => rfl
  | cons c taken ih => exact ih

variable {pieces : List Piece} {id : ℕ} {done : List ℕ}

theorem replaceMarkers_keep (content : JsText) {kept rest : JsText}
    (h : ∀ k < kept.length, ¬ BeginsMarker id (kept.drop k ++ rest)) :
    replaceMarkers (idDigits id) content 0 (kept ++ rest) =
      kept ++ replaceMarkers (idDigits id) content 0 rest := by
  induction kept with
  | nil => rfl
  | cons c kept ih =>
    have hfirst : ¬ BeginsMarker id (c :: (kept ++ rest)) :=
      h 0 (Nat.succ_pos _)
    have hlater := ih fun k hk => h (k + 1) (Nat.succ_lt_succ hk)
    rw [cons_append, replaceMarkers]
    unfold BeginsMarker at hfirst
    cases hmarker : markerFrom (c :: (kept ++ rest)) with
    | none => exact congrArg (c :: ·) hlater
    | some found =>
      obtain ⟨digits, left⟩ := found
      rw [hmarker] at hfirst
      have hne : digits ≠ idDigits id := fun heq => hfirst (congrArg some heq)
      simp only [if_neg hne]
      exact congrArg (c :: ·) hlater

theorem replaceMarkers_marker (id : ℕ) (pasted content rest : JsText) :
    replaceMarkers (idDigits id) content 0 (pasteMarker id pasted ++ rest) =
      content ++ replaceMarkers (idDigits id) content 0 rest := by
  have hread := markerFrom_pasteMarker id pasted rest
  obtain ⟨c, marker, hcons⟩ := exists_cons_of_ne_nil (pasteMarker_ne_nil id pasted)
  rw [hcons, cons_append] at hread ⊢
  have htaken : (marker ++ rest).length - rest.length = marker.length := by
    rw [length_append, Nat.add_sub_cancel]
  rw [replaceMarkers, hread]
  simp only [if_true, htaken]
  rw [replaceMarkers_skip]

theorem not_beginsMarker_pasteMarker {i : ℕ} (hne : i ≠ id) (pasted rest : JsText) :
    ∀ k < (pasteMarker i pasted).length,
      ¬ BeginsMarker id ((pasteMarker i pasted).drop k ++ rest) := by
  intro k hk hbegins
  unfold BeginsMarker at hbegins
  cases k with
  | zero =>
    rw [drop_zero, markerFrom_pasteMarker, map_some] at hbegins
    exact hne (idDigits_injective (some.inj hbegins))
  | succ k =>
    have hdrop : (pasteMarker i pasted).drop (k + 1) = (pasteMarker i pasted).tail.drop k := by
      rw [drop_tail]
    have hlength : k < (pasteMarker i pasted).tail.length := by
      rw [length_tail]
      omega
    rw [hdrop, drop_eq_getElem_cons hlength, cons_append, markerFrom_of_head_ne] at hbegins
    · exact some_ne_none _ hbegins.symm
    · intro heq
      exact not_mem_tail_pasteMarker i pasted (heq ▸ getElem_mem hlength)

theorem replaceMarkers_renderText {content : JsText} (hnew : id ∉ done)
    (hcontent : ∀ c, .paste id c ∈ pieces → c = content) (hstray : NoStrayMarker id done pieces) :
    replaceMarkers (idDigits id) content 0 (renderText done pieces) =
      renderText (done ++ [id]) pieces := by
  induction pieces with
  | nil => rfl
  | cons p pieces ih =>
    have hrest (h : NoStrayMarker id done pieces) :=
      ih (fun c hc => hcontent c (mem_cons_of_mem _ hc)) h
    rw [renderText_cons, renderText_cons]
    cases p with
    | unit c =>
      rw [← hrest hstray.2]
      refine replaceMarkers_keep content fun k hk => ?_
      obtain rfl : k = 0 := by
        change k < 1 at hk
        omega
      exact hstray.1
    | paste i pasted =>
      rw [← hrest hstray.2]
      by_cases hdone : i ∈ done
      · have hnow : (Piece.paste i pasted).render (done ++ [id]) = pasted :=
          if_pos (mem_append_left _ hdone)
        rw [hnow, Piece.render, if_pos hdone]
        exact replaceMarkers_keep content (hstray.1 hdone)
      · rw [Piece.render, if_neg hdone]
        by_cases heq : i = id
        · subst heq
          obtain rfl := hcontent pasted mem_cons_self
          have hnow : (Piece.paste i pasted).render (done ++ [i]) = pasted :=
            if_pos (by simp)
          rw [hnow]
          exact replaceMarkers_marker i pasted pasted _
        · have hnow : (Piece.paste i pasted).render (done ++ [id]) = pasteMarker i pasted :=
            if_neg (by simp [hdone, heq])
          rw [hnow]
          exact replaceMarkers_keep content (not_beginsMarker_pasteMarker heq pasted _)

theorem foldl_replaceMarkers {entries : List (ℕ × JsText)}
    (hnodup : (done ++ entries.map Prod.fst).Nodup)
    (hcontent : ∀ id c content, .paste id c ∈ pieces → (id, content) ∈ entries → c = content)
    (hstray : NoStrayMarkers pieces done entries) :
    entries.foldl (fun result paste => replaceMarkers (utf16 (toString paste.1)) paste.2 0 result)
        (renderText done pieces) = renderText (done ++ entries.map Prod.fst) pieces := by
  induction entries generalizing done with
  | nil => rw [foldl_nil, map_nil, append_nil]
  | cons paste entries ih =>
    have hsplit : done ++ (paste :: entries).map Prod.fst =
        (done ++ [paste.1]) ++ entries.map Prod.fst := by simp
    have hnew : paste.1 ∉ done := by
      intro hmem
      exact (nodup_append.mp hnodup).2.2 _ hmem _ (by simp) rfl
    rw [foldl_cons, hsplit]
    rw [hsplit] at hnodup
    have hsame : ∀ c, .paste paste.1 c ∈ pieces → c = paste.2 := fun c hc =>
      hcontent _ c _ hc mem_cons_self
    have hround := replaceMarkers_renderText hnew hsame hstray.1
    unfold idDigits at hround
    rw [hround]
    exact ih hnodup (fun id c content hc hmem => hcontent id c content hc
      (mem_cons_of_mem _ hmem)) hstray.2

theorem expandPasteMarkers_shownText {e : Editor} (h : Readable e.pastes pieces) :
    e.expandPasteMarkers (shownText pieces) = verbatimText pieces := by
  have hnodup : ([] ++ e.pastes.entries.map Prod.fst).Nodup := by
    exact e.pastes.nodup
  have hcontent : ∀ id c content, .paste id c ∈ pieces → (id, content) ∈ e.pastes.entries →
      c = content := by
    intro id c content hp hmem
    have hkept : e.pastes.get id = some c := h.kept _ hp
    have hentry := OrderedMap.getEntry_of_mem e.pastes.nodup hmem
    exact some.inj (hkept.symm.trans hentry)
  have hexpanded := foldl_replaceMarkers hnodup hcontent h.noStray
  unfold expandPasteMarkers shownText
  rw [hexpanded, nil_append]
  refine flatMap_congr fun p hp => ?_
  cases p with
  | unit c => rfl
  | paste id content =>
    have hkept := h.kept _ hp
    exact if_pos (mem_map_of_mem (OrderedMap.mem_of_getEntry hkept))

end Editor

end Draht
