import Mathlib.Data.List.Chain
import Draht.LayoutRuns

/-!
# Texts of words and spaces

The tokens of a line of words and spaces are words and spaces in turn, with and without style codes.
-/

namespace Draht.AnsiText
open List

variable {γ : Type} (G : Graphemes γ)

/-- A character that fits on a line, a space, or a style code. -/
def Cell.Simple (width : ℕ) : Cell γ → Prop
  | .grapheme g => G.isWhitespace g = false ∧ 0 < G.graphemeWidth g ∧ G.graphemeWidth g ≤ width
  | .space => 0 < width
  | .code (.sgr _) => True
  | .tab | .newline | .code (.osc8 _) => False

def Cell.isSpace : Cell γ → Bool
  | .space => true
  | _ => false

def Spaces (token : Text γ) : Prop := strip token ≠ [] ∧ ∀ c ∈ strip token, c = .space

def IsWord (token : Text γ) : Prop :=
  strip token ≠ [] ∧ ∀ c ∈ strip token, c.isWhitespace G = false

section Cells

variable {G} {width : ℕ} {c : Cell γ}

theorem Cell.Simple.width_le (h : c.Simple G width) : c.width G ≤ width := by
  cases c with
  | grapheme => exact h.2.2
  | space => exact h
  | code => exact Nat.zero_le _
  | tab | newline => exact h.elim

theorem Cell.Simple.width_pos (h : c.Simple G width) (hc : c.isStyle = false) :
    0 < c.width G := by
  cases c with
  | grapheme => exact h.2.1
  | space => exact Nat.one_pos
  | code code =>
    cases code with
    | sgr => exact absurd hc.symm Bool.false_ne_true
    | osc8 => exact h.elim
  | tab | newline => exact h.elim

theorem Cell.Simple.isWhitespace (h : c.Simple G width) : c.isWhitespace G = c.isSpace := by
  cases c with
  | grapheme => exact h.1
  | space | code => rfl
  | tab | newline => exact h.elim

theorem Cell.eq_space (h : c.isSpace = true) : c = .space := by
  cases c with
  | space => rfl
  | _ => exact absurd h Bool.false_ne_true

theorem mem_strip {text : Text γ} : c ∈ strip text ↔ c ∈ text ∧ c.isStyle = false := by
  simp [strip]

end Cells

@[simp] theorem strip_strip (text : Text γ) : strip (strip text) = strip text :=
  (filter_filter ..).trans (by simp [strip])

section Kinds

variable {G} {token : Text γ}

theorem Spaces.isBlank_strip (h : Spaces token) : isBlank G (strip token) = true :=
  all_eq_true.mpr fun c hc => by rw [h.2 c hc]; rfl

theorem Spaces.head? (h : Spaces token) : (strip token).head? = some .space := by
  obtain ⟨c, rest, hstrip⟩ := exists_cons_of_ne_nil h.1
  rw [hstrip, head?_cons, h.2 c (hstrip ▸ mem_cons_self)]

theorem IsWord.strip (h : IsWord G token) : IsWord G (strip token) := by
  unfold IsWord
  rwa [strip_strip]

theorem IsWord.isBlank_strip (h : IsWord G token) : isBlank G (AnsiText.strip token) = false := by
  obtain ⟨c, hc⟩ := exists_mem_of_ne_nil _ h.1
  refine Bool.eq_false_iff.mpr fun hblank => ?_
  have hspace := all_eq_true.mp hblank c hc
  rw [h.2 c hc] at hspace
  exact Bool.false_ne_true hspace

theorem IsWord.isBlank (h : IsWord G token) : isBlank G token = false := by
  refine Bool.eq_false_iff.mpr fun hblank => ?_
  have hstrip := h.isBlank_strip
  rw [strip_of_isBlank hblank, hblank] at hstrip
  exact Bool.false_ne_true hstrip.symm

theorem IsWord.head? (h : IsWord G token) :
    ∃ c, c.isWhitespace G = false ∧ (AnsiText.strip token).head? = some c := by
  obtain ⟨c, rest, hstrip⟩ := exists_cons_of_ne_nil h.1
  exact ⟨c, h.2 c (hstrip ▸ mem_cons_self), by rw [hstrip, head?_cons]⟩

theorem ne_nil_of_strip (h : AnsiText.strip token ≠ []) : token ≠ [] := by
  rintro rfl
  exact h rfl

end Kinds

/-- The loop over a line of words and spaces without style codes. -/
structure Alternating (s : TokenState γ) : Prop where
  pendingAnsi : s.pendingAnsi = []
  tokens : ∀ token ∈ s.tokens, token ≠ [] ∧ ∃ kind, ∀ c ∈ token, c.isSpace = kind
  current : ∀ c ∈ s.current, c.isSpace = s.inWhitespace
  chain : (s.tokens ++ [s.current]).IsChain fun a b => ∀ c ∈ a, ∀ d ∈ b, c.isSpace ≠ d.isSpace
  begun : s.current = [] → s.tokens = []

section Tokens

variable {G} {width : ℕ} {s : TokenState γ}

theorem splitStep_char (hpending : s.pendingAnsi = []) {c : Cell γ} (hc : ∀ code, c ≠ .code code) :
    splitStep s c =
      if c.isSpace ≠ s.inWhitespace ∧ s.current ≠ [] then
        { tokens := s.tokens ++ [s.current], current := [c], pendingAnsi := []
          inWhitespace := c.isSpace }
      else
        { tokens := s.tokens, current := s.current ++ [c], pendingAnsi := []
          inWhitespace := c.isSpace } := by
  cases c with
  | code code => exact absurd rfl (hc code)
  | _ =>
    simp only [splitStep, Cell.isSpace]
    split_ifs <;> simp_all

theorem Alternating.step (h : Alternating s) {c : Cell γ} (hc : ∀ code, c ≠ .code code) :
    Alternating (splitStep s c) := by
  rw [splitStep_char h.pendingAnsi hc]
  have hchain := h.chain
  split_ifs with hnew
  · refine ⟨rfl, ?_, by simp, ?_, fun hnil => absurd hnil (cons_ne_nil _ _)⟩
    · intro token htoken
      obtain htoken | htoken := mem_append.mp htoken
      · exact h.tokens token htoken
      · rw [mem_singleton.mp htoken]
        exact ⟨hnew.2, s.inWhitespace, h.current⟩
    · rw [append_assoc, singleton_append, isChain_append_cons_cons]
      refine ⟨hchain, fun d hd e he => ?_, isChain_singleton _⟩
      rw [h.current d hd, mem_singleton.mp he]
      exact hnew.1.symm
  · have hkind : ∀ d ∈ s.current, d.isSpace = c.isSpace := by
      intro d hd
      rw [h.current d hd]
      by_contra hne
      exact hnew ⟨fun heq => hne heq.symm, ne_nil_of_mem hd⟩
    refine ⟨rfl, h.tokens, ?_, ?_, fun hnil => absurd hnil (append_ne_nil_of_right_ne_nil _
      (cons_ne_nil _ _))⟩
    · intro d hd
      obtain hd | hd := mem_append.mp hd
      · exact hkind d hd
      · rw [mem_singleton.mp hd]
    · obtain hnil | ⟨before, token, htokens⟩ := eq_nil_or_concat' s.tokens
      · rw [hnil]
        exact isChain_singleton _
      · have hbegun : s.current ≠ [] := by
          intro hnil
          rw [h.begun hnil] at htokens
          exact absurd htokens.symm (append_ne_nil_of_right_ne_nil _ (cons_ne_nil _ _))
        obtain ⟨e, he⟩ := exists_mem_of_ne_nil _ hbegun
        rw [htokens, append_assoc, singleton_append, isChain_append_cons_cons] at hchain ⊢
        refine ⟨hchain.1, fun d hd f hf => ?_, isChain_singleton _⟩
        obtain hf | hf := mem_append.mp hf
        · exact hchain.2.1 d hd f hf
        · rw [mem_singleton.mp hf, ← hkind e he]
          exact hchain.2.1 d hd e he

variable {line : Text γ}

theorem Alternating.foldl (h : Alternating s) (hline : ∀ c ∈ line, ∀ code, c ≠ .code code) :
    Alternating (line.foldl splitStep s) := by
  induction line generalizing s with
  | nil => exact h
  | cons c line ih =>
    exact ih (h.step (hline c mem_cons_self)) fun d hd => hline d (mem_cons_of_mem _ hd)

structure InTurn (G : Graphemes γ) (width : ℕ) (tokens : List (Text γ)) : Prop where
  cells : ∀ token ∈ tokens, ∀ c ∈ token, c.Simple G width
  kinds : ∀ token ∈ tokens, Spaces token ∨ IsWord G token
  chain : tokens.IsChain fun a b => Spaces a → IsWord G b

theorem InTurn.tail {token : Text γ} {tokens : List (Text γ)}
    (h : InTurn G width (token :: tokens)) : InTurn G width tokens :=
  ⟨fun next hnext => h.cells next (mem_cons_of_mem _ hnext),
    fun next hnext => h.kinds next (mem_cons_of_mem _ hnext), h.chain.tail⟩

theorem splitIntoTokensWithAnsi_alternating (hline : ∀ c ∈ line, ∀ code, c ≠ .code code) :
    (∀ token ∈ splitIntoTokensWithAnsi line, token ≠ [] ∧ ∃ kind, ∀ c ∈ token, c.isSpace = kind) ∧
      (splitIntoTokensWithAnsi line).IsChain fun a b =>
        ∀ c ∈ a, ∀ d ∈ b, c.isSpace ≠ d.isSpace := by
  have hstart : Alternating
      ({ tokens := [], current := [], pendingAnsi := [], inWhitespace := false } : TokenState γ) :=
    ⟨rfl, by simp, by simp, isChain_singleton _, fun _ => rfl⟩
  have hend := hstart.foldl hline
  unfold splitIntoTokensWithAnsi
  generalize line.foldl splitStep _ = s at hend ⊢
  simp only [hend.pendingAnsi, append_nil]
  split_ifs with hnil
  · rw [hend.begun hnil]
    exact ⟨by simp, isChain_nil⟩
  · refine ⟨fun token htoken => ?_, hend.chain⟩
    obtain htoken | htoken := mem_append.mp htoken
    · exact hend.tokens token htoken
    · rw [mem_singleton.mp htoken]
      exact ⟨hnil, s.inWhitespace, hend.current⟩

theorem inTurn_splitIntoTokensWithAnsi (hline : ∀ c ∈ line, c.Simple G width)
    (hshown : 0 < visibleWidth G line) : InTurn G width (splitIntoTokensWithAnsi line) := by
  have hplain : ∀ c ∈ strip line, ∀ code, c ≠ .code code := by
    rintro c hc code rfl
    obtain ⟨hmem, hstyle⟩ := mem_strip.mp hc
    exact (hline _ hmem).width_pos hstyle |>.ne' rfl
  obtain ⟨hkinds, hchain⟩ := splitIntoTokensWithAnsi_alternating hplain
  rw [splitIntoTokensWithAnsi_strip hshown] at hkinds hchain
  rw [isChain_map] at hchain
  have hcells : ∀ token ∈ splitIntoTokensWithAnsi line, ∀ c ∈ token, c.Simple G width := by
    intro token htoken c hc
    have hmem := mem_flatten.mpr ⟨token, htoken, hc⟩
    rw [splitIntoTokensWithAnsi_flatten] at hmem
    exact hline c hmem
  have hkind : ∀ token ∈ splitIntoTokensWithAnsi line, Spaces token ∨ IsWord G token := by
    intro token htoken
    obtain ⟨hne, kind, hall⟩ := hkinds _ (mem_map_of_mem htoken)
    cases kind with
    | true => exact .inl ⟨hne, fun c hc => Cell.eq_space (hall c hc)⟩
    | false =>
      refine .inr ⟨hne, fun c hc => ?_⟩
      rw [(hcells token htoken c (mem_strip.mp hc).1).isWhitespace, hall c hc]
  refine ⟨hcells, hkind, IsChain.imp_of_mem_imp ?_ hchain⟩
  intro a b _ hb hne ha
  refine (hkind b hb).resolve_left fun hspaces => ?_
  obtain ⟨c, hc⟩ := exists_mem_of_ne_nil _ ha.1
  obtain ⟨d, hd⟩ := exists_mem_of_ne_nil _ hspaces.1
  exact hne c hc d hd (by rw [ha.2 c hc, hspaces.2 d hd])

end Tokens

end Draht.AnsiText
