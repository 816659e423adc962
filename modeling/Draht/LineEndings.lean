import Draht.EditSubstitution
import Draht.FileTools

/-!
# Edits and line endings

A file whose lines all end in the same way is brought to LF, edited, and brought back to its own
line ending. With edits that are matched exactly the text that is written is the text that was
read but for the matched parts.
-/

namespace Draht.FileTools
open List

open EditDiff

inductive LineEnding where
  | lf | crlf
deriving DecidableEq

def LineEnding.text : LineEnding → JsText
  | .lf => [10]
  | .crlf => [13, 10]

def onlyCRLF : JsText → Bool
  | 13 :: 10 :: rest => onlyCRLF rest
  | c :: rest => c != 13 && c != 10 && onlyCRLF rest
  | [] => true

/-- All lines of a text end in the same way; a text of one line counts as LF. -/
def LineEnding.EndsLines : LineEnding → JsText → Prop
  | .lf, text => 13 ∉ text
  | .crlf, text => onlyCRLF text = true ∧ 10 ∈ text

def LineEnding.render (ending : LineEnding) (text : JsText) : JsText :=
  restoreLineEndings text ending.text

def LineEnding.renderEdit (ending : LineEnding) (e : Edit) : Edit :=
  { oldText := ending.render e.oldText, newText := ending.render e.newText }

theorem restoreLineEndings_crlf_cons (c : UInt16) (text : JsText) :
    restoreLineEndings (c :: text) [13, 10] =
      (if c = 10 then [13, 10] else [c]) ++ restoreLineEndings text [13, 10] := rfl

variable {text : JsText} {edits : List Edit}

theorem restoreLineEndings_onlyCRLF (h : onlyCRLF text = true) :
    restoreLineEndings (normalizeToLF text) [13, 10] = text := by
  induction text using onlyCRLF.induct with
  | case1 rest ih =>
    rw [normalizeToLF_crlf, restoreLineEndings_crlf_cons, if_pos rfl, ih h]
    rfl
  | case2 c rest hpair ih =>
    rw [onlyCRLF] at h
    · simp only [Bool.and_eq_true, bne_iff_ne] at h
      obtain ⟨⟨h13, h10⟩, hrest⟩ := h
      rw [normalizeToLF_cons h13, restoreLineEndings_crlf_cons, if_neg h10, ih hrest]
      rfl
    · exact hpair
  | case3 => rfl

theorem firstBreak_onlyCRLF (h : onlyCRLF text = true) (hbreak : 10 ∈ text) :
    ∃ i, indexOf? [13, 10] text = some i ∧ indexOf? [10] text = some (i + 1) := by
  induction text using onlyCRLF.induct with
  | case1 rest ih => exact ⟨0, rfl, rfl⟩
  | case2 c rest hpair ih =>
    rw [onlyCRLF] at h
    · simp only [Bool.and_eq_true, bne_iff_ne] at h
      obtain ⟨⟨h13, h10⟩, hrest⟩ := h
      obtain heq | hmem := mem_cons.mp hbreak
      · exact absurd heq.symm h10
      · obtain ⟨i, hcrlf, hlf⟩ := ih hrest hmem
        refine ⟨i + 1, ?_, ?_⟩
        · rw [indexOf?, if_neg (by simp [h13.symm]), hcrlf]
          rfl
        · rw [indexOf?, if_neg (by simp [h10.symm]), hlf]
          rfl
    · exact hpair
  | case3 => cases hbreak

theorem indexOf?_crlf_of_not_mem (h : 13 ∉ text) :
    indexOf? [13, 10] text = none := by
  cases hindex : indexOf? [13, 10] text with
  | none => rfl
  | some i =>
    have hsplit := indexOf?_split hindex
    exact absurd (hsplit ▸ by simp) h

variable {rawContent content written : JsText} {nfkc : JsText → JsText} {ending : LineEnding}
  {path : String}

theorem LineEnding.EndsLines.detect (h : ending.EndsLines text) :
    detectLineEnding text = ending.text := by
  cases ending with
  | lf =>
    have hcrlf := indexOf?_crlf_of_not_mem h
    rw [detectLineEnding, hcrlf]
    rfl
  | crlf =>
    obtain ⟨i, hcrlf, hlf⟩ := firstBreak_onlyCRLF h.1 h.2
    simp only [detectLineEnding, hcrlf, hlf, if_pos (Nat.lt_succ_self i)]
    rfl

theorem LineEnding.EndsLines.render_normalizeToLF (h : ending.EndsLines text) :
    ending.render (normalizeToLF text) = text := by
  cases ending with
  | lf => exact normalizeToLF_eq_self h
  | crlf => exact restoreLineEndings_onlyCRLF h.1

theorem not_mem_normalizeToLF : 13 ∉ normalizeToLF text := by
  simp only [normalizeToLF, mem_map, not_exists, not_and]
  intro c _
  split_ifs with hc
  · decide
  · exact hc

theorem onlyCRLF_restoreLineEndings (h : 13 ∉ text) :
    onlyCRLF (restoreLineEndings text [13, 10]) = true := by
  induction text with
  | nil => rfl
  | cons c text ih =>
    have hrest := ih (not_mem_of_not_mem_cons h)
    rw [restoreLineEndings_crlf_cons]
    split_ifs with hc
    · exact hrest
    · have hreturn : c ≠ 13 := (ne_of_not_mem_cons h).symm
      rw [singleton_append, onlyCRLF]
      · simp [hreturn, hc, hrest]
      · rintro _ rfl
        exact absurd rfl hreturn

/-- A file that is read and brought back without an edit is the same exactly if its lines all end in
one way. -/
theorem lineEndings_restored_iff (text : JsText) :
    restoreLineEndings (normalizeToLF text) (detectLineEnding text) = text ↔
      ∃ ending, LineEnding.EndsLines ending text := by
  constructor
  · intro h
    have hnone : 13 ∉ normalizeToLF text := not_mem_normalizeToLF
    unfold detectLineEnding at h
    split at h
    · next crlfIdx lfIdx _ hlf =>
      have hbreak : 10 ∈ text := indexOf?_split hlf ▸ by simp
      split_ifs at h
      · exact ⟨.crlf, h ▸ onlyCRLF_restoreLineEndings hnone, hbreak⟩
      · exact ⟨.lf, h ▸ hnone⟩
    · exact ⟨.lf, h ▸ hnone⟩
  · rintro ⟨ending, hends⟩
    rw [hends.detect]
    exact hends.render_normalizeToLF

theorem LineEnding.render_append (ending : LineEnding) (t u : JsText) :
    ending.render (t ++ u) = ending.render t ++ ending.render u := by
  cases ending with
  | lf => rfl
  | crlf => exact flatMap_append

theorem LineEnding.render_flatMap {α : Type*} (ending : LineEnding) (xs : List α)
    (f : α → JsText) : ending.render (xs.flatMap f) = xs.flatMap fun x => ending.render (f x) := by
  induction xs with
  | nil => cases ending <;> rfl
  | cons x xs ih => rw [flatMap_cons, flatMap_cons, ending.render_append, ih]

/-- The normalised text of each edit occurs in the normalised text of the file. -/
def MatchedExactly (content : JsText) (edits : List Edit) : Prop :=
  ∀ e ∈ edits, indexOf? (normalizeEdit e).oldText (normalizeToLF content) ≠ none

theorem usesFuzzyMatch_of_exact (nfkc : JsText → JsText) {e : Edit}
    (h : indexOf? e.oldText content ≠ none) : usesFuzzyMatch nfkc content e = false := by
  obtain ⟨i, hi⟩ := Option.ne_none_iff_exists'.mp h
  rw [usesFuzzyMatch, fuzzyFindText, hi]
  rfl

theorem baseContentOf_of_exact (nfkc : JsText → JsText)
    (h : ∀ e ∈ edits, indexOf? e.oldText content ≠ none) :
    baseContentOf nfkc content edits = content := by
  rw [baseContentOf, if_neg]
  intro hany
  obtain ⟨e, he, hfuzzy⟩ := any_eq_true.mp hany
  rw [usesFuzzyMatch_of_exact nfkc (h e he)] at hfuzzy
  cases hfuzzy

theorem substitutes_of_exact {r : AppliedEditsResult}
    (hexact : ∀ e ∈ edits.map normalizeEdit, indexOf? e.oldText content ≠ none)
    (h : applyEditsToNormalizedContent nfkc content edits path = .ok r) :
    ∃ first replacements, (replacements.map Replacement.edit).Perm (edits.map normalizeEdit) ∧
      content = textBefore first replacements ∧ r.newContent = textAfter first replacements ∧
      ∀ x ∈ replacements, x.matched = x.edit.oldText := by
  obtain ⟨hrefused, rfl⟩ := (applyEdits_eq_ok_iff nfkc).mp h
  rw [baseContentOf_of_exact nfkc hexact] at hrefused ⊢
  have hnormal : FuzzyBase nfkc content (edits.map normalizeEdit) :=
    fun e he hmissing => absurd hmissing (hexact e he)
  obtain ⟨first, replacements, hperm, hbefore, hafter, hmatched⟩ :=
    substitutes_of_not_refused hnormal hrefused
  refine ⟨first, replacements, hperm, hbefore, hafter, ?_⟩
  intro x hx
  have hedit := hexact x.edit (hperm.mem_iff.mp (mem_map_of_mem hx))
  obtain ⟨i, hi⟩ := Option.ne_none_iff_exists'.mp hedit
  rw [hmatched x hx, matchedText, hi]

def LineEnding.renderReplacement (ending : LineEnding) (x : Replacement) : Replacement :=
  { edit := ending.renderEdit x.edit, matched := ending.render x.matched
    gap := ending.render x.gap }

theorem LineEnding.render_textBefore (ending : LineEnding) (first : JsText)
    (replacements : List Replacement) : ending.render (textBefore first replacements) =
      textBefore (ending.render first) (replacements.map ending.renderReplacement) := by
  rw [textBefore, textBefore, ending.render_append, ending.render_flatMap, flatMap_map]
  simp [ending.render_append, LineEnding.renderReplacement]

theorem LineEnding.render_textAfter (ending : LineEnding) (first : JsText)
    (replacements : List Replacement) : ending.render (textAfter first replacements) =
      textAfter (ending.render first) (replacements.map ending.renderReplacement) := by
  rw [textAfter, textAfter, ending.render_append, ending.render_flatMap, flatMap_map]
  simp [ending.render_append, LineEnding.renderReplacement, LineEnding.renderEdit]

theorem stripBom_append (rawContent : JsText) :
    (stripBom rawContent).bom ++ (stripBom rawContent).text = rawContent := by
  unfold stripBom
  split <;> rfl

theorem editedContent_untouched (hending : ending.EndsLines (stripBom rawContent).text)
    (hexact : MatchedExactly (stripBom rawContent).text edits)
    (h : editedContent nfkc path edits rawContent = .ok written) :
    ∃ first replacements, (replacements.map Replacement.edit).Perm
        (edits.map fun e => ending.renderEdit (normalizeEdit e)) ∧
      (∀ x ∈ replacements, x.matched = x.edit.oldText) ∧
      rawContent = (stripBom rawContent).bom ++ textBefore first replacements ∧
      written = (stripBom rawContent).bom ++ textAfter first replacements := by
  rw [editedContent, hending.detect] at h
  cases happly : applyEditsToNormalizedContent nfkc (normalizeToLF (stripBom rawContent).text)
      edits path with
  | error message =>
    rw [happly] at h
    cases h
  | ok applied =>
    rw [happly] at h
    cases h
    obtain ⟨first, replacements, hperm, hbefore, hafter, hmatched⟩ :=
      substitutes_of_exact (by simpa [MatchedExactly] using hexact) happly
    refine ⟨ending.render first, replacements.map ending.renderReplacement, ?_, ?_, ?_, ?_⟩
    · have hrendered := hperm.map ending.renderEdit
      rw [map_map] at hrendered ⊢
      rw [map_map] at hrendered
      exact hrendered
    · intro x hx
      obtain ⟨y, hy, rfl⟩ := mem_map.mp hx
      exact congrArg ending.render (hmatched y hy)
    · rw [← ending.render_textBefore, ← hbefore, hending.render_normalizeToLF, stripBom_append]
    · rw [← ending.render_textAfter, ← hafter]
      rfl

theorem editedContent_of_resume {c : ToolCall} (htool : c.tool = .edit edits)
    (h : (c.resume nfkc .readFile (.ok rawContent)).progress = .inFlight (.writeFile written)) :
    editedContent nfkc c.path edits rawContent = .ok written := by
  simp only [ToolCall.resume, htool] at h
  split_ifs at h with haborted
  · cases h
  · cases hedited : editedContent nfkc c.path edits rawContent with
    | error message =>
      simp only [hedited, ToolCall.caught, if_neg haborted, ToolCall.settle] at h
      cases h
    | ok finalContent =>
      simp only [hedited, ToolCall.next, if_neg haborted] at h
      cases h
      rfl

/-- An edit call that has read a file whose lines end in one way, with edits that are matched
exactly, writes the file with only the matched parts replaced. -/
theorem resume_untouched (nfkc : JsText → JsText) (c : ToolCall) (edits : List Edit)
    (ending : LineEnding) (rawContent written : JsText) (htool : c.tool = .edit edits)
    (hending : ending.EndsLines (stripBom rawContent).text)
    (hexact : MatchedExactly (stripBom rawContent).text edits)
    (h : (c.resume nfkc .readFile (.ok rawContent)).progress = .inFlight (.writeFile written)) :
    ∃ first replacements, (replacements.map Replacement.edit).Perm
        (edits.map fun e => ending.renderEdit (normalizeEdit e)) ∧
      (∀ x ∈ replacements, x.matched = x.edit.oldText) ∧
      rawContent = (stripBom rawContent).bom ++ textBefore first replacements ∧
      written = (stripBom rawContent).bom ++ textAfter first replacements :=
  editedContent_untouched hending hexact (editedContent_of_resume htool h)

/-- `"a\r\nb\r\n"` after a byte order mark. -/
def crlfFile : JsText := [0xFEFF, 97, 13, 10, 98, 13, 10]

/-- `"a\nb"` becomes `"x\ny\nz"`. -/
def crlfCall : ToolCall :=
  { tool := .edit [⟨[97, 10, 98], [120, 10, 121, 10, 122]⟩], path := "f", resolvedPath := "/f"
    aborted := false, progress := .performed .readFile (.ok crlfFile), outcome := none }

theorem crlfCall_written : editedContent id "f" [⟨[97, 10, 98], [120, 10, 121, 10, 122]⟩] crlfFile =
    .ok [0xFEFF, 120, 13, 10, 121, 13, 10, 122, 13, 10] := by
  decide +kernel

theorem crlfCall_untouched : ∃ first replacements,
    (replacements.map Replacement.edit).Perm
        [⟨[97, 13, 10, 98], [120, 13, 10, 121, 13, 10, 122]⟩] ∧
      (∀ x ∈ replacements, x.matched = x.edit.oldText) ∧
      crlfFile = [0xFEFF] ++ textBefore first replacements ∧
      [0xFEFF, 120, 13, 10, 121, 13, 10, 122, 13, 10] =
        [0xFEFF] ++ textAfter first replacements :=
  resume_untouched id crlfCall [⟨[97, 10, 98], [120, 10, 121, 10, 122]⟩] .crlf crlfFile
    [0xFEFF, 120, 13, 10, 121, 13, 10, 122, 13, 10] rfl ⟨rfl, by decide⟩
    (fun e he => by rw [mem_singleton.mp he]; decide)
    (by simp [ToolCall.resume, crlfCall, crlfCall_written, ToolCall.next])

end Draht.FileTools
