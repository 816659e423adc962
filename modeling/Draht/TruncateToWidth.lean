import Draht.LongestPart
import Draht.OverlayColumns

/-!
# Truncated lines

A line that is too wide is cut behind the longest prefix that leaves room for an ellipsis. An
ellipsis that takes all columns is shown instead of the line, and cut itself if it is too wide.
-/

namespace Draht.AnsiText
open List

/-- Which graphemes are printable ASCII characters; they take one column. -/
structure AsciiGraphemes {γ : Type} (G : Graphemes γ) where
  isPrintableAscii : γ → Bool
  width_eq : ∀ g, isPrintableAscii g = true → G.graphemeWidth g = 1

variable {γ : Type} {G : Graphemes γ} (A : AsciiGraphemes G)

def AsciiGraphemes.isAsciiCell : Cell γ → Bool
  | .grapheme g => A.isPrintableAscii g
  | .space => true
  | .tab | .newline | .code _ => false

def isPrintableAscii (text : Text γ) : Bool := text.all A.isAsciiCell

section Loops

variable (G)

/-- What is kept of a fragment, its width, and the codes that come before the next grapheme. -/
structure Fragment (γ : Type) where
  text : Text γ
  width : ℕ
  pendingAnsi : Text γ

/-- The loop over a fragment. The source has a second one, for a fragment without codes and tabs,
that leaves out the pending codes. -/
def fragmentLoop (maxWidth : ℕ) (s : Fragment γ) : Text γ → Fragment γ
  | [] => s
  | .code code :: text =>
    fragmentLoop maxWidth { s with pendingAnsi := s.pendingAnsi ++ [.code code] } text
  | c :: text =>
    if maxWidth < s.width + c.width G then s
    else fragmentLoop maxWidth ⟨s.text ++ s.pendingAnsi ++ [c], s.width + c.width G, []⟩ text

def resetCode : Cell γ := .code (.sgr ["0"])

def finalizeTruncatedResult (kept : Text γ) (keptWidth : ℕ) (ellipsis : Text γ)
    (ellipsisWidth maxWidth : ℕ) (pad : Bool) : Text γ :=
  let result :=
    if ellipsis = [] then kept ++ [resetCode] else kept ++ [resetCode] ++ ellipsis ++ [resetCode]
  if pad then result ++ spaces (maxWidth - (keptWidth + ellipsisWidth)) else result

structure TruncateState (γ : Type) where
  result : Text γ
  pendingAnsi : Text γ
  visibleSoFar : ℕ
  keptWidth : ℕ
  keepContiguousPrefix : Bool

/-- A grapheme or a tab is kept with the codes before it, or it ends what is kept. -/
def TruncateState.see (targetWidth : ℕ) (s : TruncateState γ) (c : Cell γ) : TruncateState γ :=
  let seen := { s with pendingAnsi := [], visibleSoFar := s.visibleSoFar + c.width G }
  if s.keepContiguousPrefix ∧ s.keptWidth + c.width G ≤ targetWidth then
    { seen with
      result := s.result ++ s.pendingAnsi ++ [c], keptWidth := s.keptWidth + c.width G }
  else { seen with keepContiguousPrefix := false }

/-- The loop over a line, and whether the line has overflowed; here, too, the source has a second
one without the pending codes. -/
def truncateLoop (maxWidth targetWidth : ℕ) (s : TruncateState γ) :
    Text γ → TruncateState γ × Bool
  | [] => (s, false)
  | .code code :: text =>
    truncateLoop maxWidth targetWidth { s with pendingAnsi := s.pendingAnsi ++ [.code code] } text
  | c :: text =>
    let s' := s.see G targetWidth c
    if maxWidth < s'.visibleSoFar then (s', true) else truncateLoop maxWidth targetWidth s' text

def truncateStart : TruncateState γ :=
  { result := [], pendingAnsi := [], visibleSoFar := 0, keptWidth := 0
    keepContiguousPrefix := true }

def padText (text : Text γ) (textWidth maxWidth : ℕ) (pad : Bool) : Text γ :=
  if pad then text ++ spaces (maxWidth - textWidth) else text

def truncateAscii (text : Text γ) (maxWidth : ℕ) (ellipsis : Text γ) (pad : Bool) : Text γ :=
  if text.length ≤ maxWidth then padText text text.length maxWidth pad
  else
    let ellipsisWidth := visibleWidth G ellipsis
    let targetWidth := maxWidth - ellipsisWidth
    finalizeTruncatedResult (text.take targetWidth) targetWidth ellipsis ellipsisWidth maxWidth pad

def truncateGeneral (text : Text γ) (maxWidth : ℕ) (ellipsis : Text γ) (pad : Bool) : Text γ :=
  let ellipsisWidth := visibleWidth G ellipsis
  let out := truncateLoop G maxWidth (maxWidth - ellipsisWidth) truncateStart text
  if out.2 = false then padText text out.1.visibleSoFar maxWidth pad
  else finalizeTruncatedResult out.1.result out.1.keptWidth ellipsis ellipsisWidth maxWidth pad

end Loops

def truncateFragmentToWidth (text : Text γ) (maxWidth : ℕ) : Fragment γ :=
  if maxWidth = 0 ∨ text = [] then ⟨[], 0, []⟩
  else if isPrintableAscii A text then
    ⟨text.take maxWidth, (text.take maxWidth).length, []⟩
  else fragmentLoop G maxWidth ⟨[], 0, []⟩ text

def truncateEllipsis (text : Text γ) (maxWidth : ℕ) (ellipsis : Text γ) (pad : Bool) : Text γ :=
  let textWidth := visibleWidth G text
  if textWidth ≤ maxWidth then padText text textWidth maxWidth pad
  else
    let clipped := truncateFragmentToWidth A ellipsis maxWidth
    if clipped.width = 0 then padText [] 0 maxWidth pad
    else finalizeTruncatedResult [] 0 clipped.text clipped.width maxWidth pad

def truncateToWidth (text : Text γ) (maxWidth : ℤ) (ellipsis : Text γ) (pad : Bool) : Text γ :=
  if maxWidth ≤ 0 then []
  else if text = [] then padText [] 0 maxWidth.toNat pad
  else if maxWidth ≤ visibleWidth G ellipsis then
    truncateEllipsis A text maxWidth.toNat ellipsis pad
  else if isPrintableAscii A text then truncateAscii G text maxWidth.toNat ellipsis pad
  else truncateGeneral G text maxWidth.toNat ellipsis pad

section Seen

variable (G)

def seen (text : Text γ) : Text γ := text.filter fun c => 0 < c.width G

/-- The longest prefix of at most `room` columns. -/
def LongestFit (room : ℕ) (text kept : Text γ) : Prop :=
  LongestPrefix (fun t => visibleWidth G t ≤ room) text kept

def fitting : ℕ → Text γ → Text γ
  | _, [] => []
  | room, c :: text => if c.width G ≤ room then c :: fitting (room - c.width G) text else []

end Seen

variable {A} {text ellipsis kept : Text γ} {maxWidth room : ℕ} {pad : Bool}

theorem seen_append (xs ys : Text γ) : seen G (xs ++ ys) = seen G xs ++ seen G ys :=
  filter_append ..

theorem seen_code (code : AnsiCode) : seen G [.code code] = [] := rfl

theorem seen_resetCode : seen G [resetCode] = [] := rfl

theorem seen_spaces (n : ℕ) : seen G (spaces n : Text γ) = spaces n :=
  filter_replicate_of_pos (decide_eq_true Nat.one_pos)

theorem visibleWidth_seen (text : Text γ) : visibleWidth G (seen G text) = visibleWidth G text := by
  induction text with
  | nil => rfl
  | cons c text ih =>
    rw [seen, filter_cons, visibleWidth]
    split_ifs with hc
    · exact congrArg (_ + ·) ih
    · rw [decide_eq_true_eq, Nat.pos_iff_ne_zero, ne_eq, not_not] at hc
      rw [hc, Nat.zero_add]
      exact ih

theorem longestFit_fitting (room : ℕ) (text : Text γ) :
    LongestFit G room text (fitting G room text) := by
  induction text generalizing room with
  | nil => exact LongestPrefix.whole (Nat.zero_le room)
  | cons c text ih =>
    rw [fitting]
    split_ifs with hc
    · obtain ⟨hpre, hfits, hlongest⟩ := ih (room - c.width G)
      refine ⟨cons_prefix_cons.mpr ⟨rfl, hpre⟩, ?_, fun other hother hwidth => ?_⟩
      · rw [visibleWidth]
        omega
      · cases other with
        | nil => exact nil_prefix
        | cons c' rest =>
          obtain ⟨rfl, hrest⟩ := cons_prefix_cons.mp hother
          rw [visibleWidth] at hwidth
          exact cons_prefix_cons.mpr ⟨rfl, hlongest rest hrest (by omega)⟩
    · refine ⟨List.nil_prefix, Nat.zero_le room, fun other hother hwidth => ?_⟩
      cases other with
      | nil => exact nil_prefix
      | cons c' rest =>
        obtain ⟨rfl, -⟩ := cons_prefix_cons.mp hother
        rw [visibleWidth] at hwidth
        omega

theorem fitting_of_fits (h : visibleWidth G text ≤ room) : fitting G room text = text := by
  have hfit := longestFit_fitting (G := G) room text
  exact hfit.isPrefix.eq_of_length_le (hfit.longest text prefix_rfl h).length_le

variable {c : Cell γ} {targetWidth : ℕ}

theorem width_ascii (h : A.isAsciiCell c = true) : c.width G = 1 := by
  cases c with
  | grapheme g => exact A.width_eq g h
  | space => rfl
  | _ => cases h

theorem fitting_ascii (h : isPrintableAscii A text = true) (room : ℕ) :
    fitting G room text = text.take room ∧ visibleWidth G text = text.length := by
  induction text generalizing room with
  | nil => exact ⟨(take_nil ..).symm, rfl⟩
  | cons c text ih =>
    rw [isPrintableAscii, all_cons, Bool.and_eq_true] at h
    rw [fitting, visibleWidth, width_ascii h.1, (ih h.2 0).2, length_cons]
    refine ⟨?_, Nat.add_comm ..⟩
    cases room with
    | zero => rfl
    | succ room => rw [if_pos (by omega), (ih h.2 _).1, take_succ_cons, Nat.add_sub_cancel]

theorem not_code_of_ascii (h : isPrintableAscii A text = true) (code : AnsiCode) :
    .code code ∉ text := by
  intro hmem
  exact Bool.noConfusion (all_eq_true.mp h _ hmem)

theorem seen_cons (c : Cell γ) (text : Text γ) : seen G (c :: text) = seen G [c] ++ seen G text :=
  seen_append [c] text

theorem fragmentLoop_cons (hc : ∀ code, c ≠ .code code) (s : Fragment γ) :
    fragmentLoop G maxWidth s (c :: text) =
      if maxWidth < s.width + c.width G then s
      else
        fragmentLoop G maxWidth ⟨s.text ++ s.pendingAnsi ++ [c], s.width + c.width G, []⟩ text := by
  cases c with
  | code code => exact absurd rfl (hc code)
  | _ => rfl

theorem fragmentLoop_spec {s : Fragment γ} (hs : s.width ≤ maxWidth)
    (hpending : seen G s.pendingAnsi = []) (text : Text γ) :
    seen G (fragmentLoop G maxWidth s text).text =
        seen G s.text ++ seen G (fitting G (maxWidth - s.width) text) ∧
      (fragmentLoop G maxWidth s text).width =
        s.width + visibleWidth G (fitting G (maxWidth - s.width) text) := by
  induction text generalizing s with
  | nil => exact ⟨(append_nil _).symm, rfl⟩
  | cons c text ih =>
    by_cases hcode : ∃ code, c = .code code
    · obtain ⟨code, rfl⟩ := hcode
      have hmore : seen G (s.pendingAnsi ++ [.code code]) = [] := by
        rw [seen_append, hpending, seen_code, append_nil]
      obtain ⟨htext, hwidth⟩ :=
        ih (s := { s with pendingAnsi := s.pendingAnsi ++ [.code code] }) hs hmore
      exact ⟨htext, hwidth.trans (congrArg _ (Nat.zero_add _).symm)⟩
    · rw [fragmentLoop_cons (not_exists.mp hcode), fitting]
      split_ifs with hover hfits
      · omega
      · exact ⟨(append_nil _).symm, rfl⟩
      · have hroom : s.width + c.width G ≤ maxWidth := by omega
        obtain ⟨htext, hwidth⟩ := ih
          (s := ⟨s.text ++ s.pendingAnsi ++ [c], s.width + c.width G, []⟩) hroom rfl
        rw [Nat.sub_sub, visibleWidth, seen_cons, ← Nat.add_assoc]
        refine ⟨htext.trans ?_, hwidth⟩
        rw [seen_append, seen_append, hpending, append_nil, append_assoc]
      · omega

structure Truncates (G : Graphemes γ) (maxWidth : ℕ) (s : TruncateState γ) (text kept : Text γ)
    (out : TruncateState γ × Bool) : Prop where
  seen : seen G out.1.result = seen G s.result ++ seen G kept
  width : out.1.keptWidth = s.keptWidth + visibleWidth G kept
  fits : out.2 = false ↔ s.visibleSoFar + visibleWidth G text ≤ maxWidth
  visible : out.2 = false → out.1.visibleSoFar = s.visibleSoFar + visibleWidth G text
  plain : s.pendingAnsi = [] → (∀ code, .code code ∉ text) → out.1.result = s.result ++ kept

theorem truncateLoop_cons (hc : ∀ code, c ≠ .code code) (s : TruncateState γ) :
    truncateLoop G maxWidth targetWidth s (c :: text) =
      if maxWidth < s.visibleSoFar + c.width G then (s.see G targetWidth c, true)
      else truncateLoop G maxWidth targetWidth (s.see G targetWidth c) text := by
  have hseen : (s.see G targetWidth c).visibleSoFar = s.visibleSoFar + c.width G := by
    unfold TruncateState.see
    split_ifs <;> rfl
  rw [← hseen]
  cases c with
  | code code => exact absurd rfl (hc code)
  | _ => rfl

theorem truncateLoop_spec (htarget : targetWidth ≤ maxWidth) {s : TruncateState γ}
    (hpending : seen G s.pendingAnsi = []) (hvisible : s.visibleSoFar ≤ maxWidth)
    (hkeep : s.keepContiguousPrefix = true →
      s.visibleSoFar = s.keptWidth ∧ s.keptWidth ≤ targetWidth) (text : Text γ) :
    Truncates G maxWidth s text
      (if s.keepContiguousPrefix then fitting G (targetWidth - s.keptWidth) text else [])
      (truncateLoop G maxWidth targetWidth s text) := by
  induction text generalizing s with
  | nil =>
    rw [fitting, ite_self]
    exact ⟨(append_nil _).symm, rfl, iff_of_true rfl hvisible, fun _ => rfl,
      fun _ _ => (append_nil _).symm⟩
  | cons c text ih =>
    by_cases hcode : ∃ code, c = .code code
    · obtain ⟨code, rfl⟩ := hcode
      have hmore : seen G (s.pendingAnsi ++ [.code code]) = [] := by
        rw [seen_append, hpending, seen_code, append_nil]
      obtain ⟨hseen, hwidth, hfits, hall, -⟩ :=
        ih (s := { s with pendingAnsi := s.pendingAnsi ++ [.code code] }) hmore hvisible hkeep
      have hzero : visibleWidth G (.code code :: text) = visibleWidth G text := Nat.zero_add _
      have hkept : seen G (if s.keepContiguousPrefix then
            fitting G (targetWidth - s.keptWidth) (.code code :: text) else []) =
          seen G (if s.keepContiguousPrefix then
            fitting G (targetWidth - s.keptWidth) text else []) := by
        split_ifs <;> rfl
      refine ⟨hseen.trans (congrArg _ hkept.symm), hwidth.trans ?_, hzero ▸ hfits, hzero ▸ hall,
        fun _ hplain => absurd mem_cons_self (hplain code)⟩
      rw [← visibleWidth_seen, ← hkept, visibleWidth_seen]
    · rw [truncateLoop_cons (not_exists.mp hcode)]
      by_cases hfits : s.keepContiguousPrefix = true ∧ s.keptWidth + c.width G ≤ targetWidth
      · -- the cell is kept
        obtain ⟨hsame, hle⟩ := hkeep hfits.1
        have hsee : s.see G targetWidth c = { s with
            pendingAnsi := [], visibleSoFar := s.visibleSoFar + c.width G
            result := s.result ++ s.pendingAnsi ++ [c]
            keptWidth := s.keptWidth + c.width G } := if_pos hfits
        have hrest := ih (s := s.see G targetWidth c) (by rw [hsee]; rfl)
          (by rw [hsee]; dsimp only; omega) (by rw [hsee]; intro _; dsimp only; omega)
        have hroom : ¬maxWidth < s.visibleSoFar + c.width G := by omega
        have hcell : c.width G ≤ targetWidth - s.keptWidth := by omega
        rw [if_neg hroom, if_pos hfits.1, fitting, if_pos hcell]
        rw [hsee] at hrest ⊢
        obtain ⟨hseen, hwidth, hiff, hall, hplain⟩ := hrest
        rw [if_pos hfits.1, ← Nat.sub_sub] at hseen hwidth hplain
        refine ⟨?_, ?_, ?_, ?_, ?_⟩
        · rw [hseen, seen_cons, seen_append, seen_append, hpending, append_nil,
            append_assoc]
        · rw [hwidth, visibleWidth, Nat.add_assoc]
        · rw [hiff, visibleWidth, Nat.add_assoc]
        · intro hnot
          rw [hall hnot, visibleWidth, Nat.add_assoc]
        · intro hnone hcodes
          rw [hplain rfl fun code hmem => hcodes code (mem_cons_of_mem c hmem), hnone,
            append_nil, append_assoc]
          rfl
      · -- it is not, and nothing after it is
        have hsee : s.see G targetWidth c = { s with
            pendingAnsi := [], visibleSoFar := s.visibleSoFar + c.width G
            keepContiguousPrefix := false } := if_neg hfits
        have hkept : (if s.keepContiguousPrefix then
            fitting G (targetWidth - s.keptWidth) (c :: text) else []) = [] := by
          split_ifs with hkeeps
          · have hle := (hkeep hkeeps).2
            have hwide : ¬s.keptWidth + c.width G ≤ targetWidth := fun h => hfits ⟨hkeeps, h⟩
            rw [fitting, if_neg (by omega)]
          · rfl
        rw [hkept, hsee]
        split_ifs with hover
        · refine ⟨(append_nil _).symm, rfl, ?_, fun h => Bool.noConfusion h,
            fun _ _ => (append_nil _).symm⟩
          rw [visibleWidth]
          exact iff_of_false Bool.noConfusion (by omega)
        · have hrest := ih (s := s.see G targetWidth c) (by rw [hsee]; rfl)
            (by rw [hsee]; dsimp only; omega) (by rw [hsee]; exact fun h => Bool.noConfusion h)
          rw [hsee] at hrest
          obtain ⟨hseen, hwidth, hiff, hall, hplain⟩ := hrest
          refine ⟨hseen, hwidth, ?_, ?_, fun _ hcodes =>
            hplain rfl fun code hmem => hcodes code (mem_cons_of_mem c hmem)⟩
          · rw [hiff, visibleWidth, Nat.add_assoc]
          · intro hnot
            rw [hall hnot, visibleWidth, Nat.add_assoc]

/-- What is shown of a text in `maxWidth` columns: all of it, or the longest prefix that leaves room
for the ellipsis, and the ellipsis as far as it fits. -/
structure ShowsTruncated (G : Graphemes γ) (text : Text γ) (maxWidth : ℕ) (ellipsis : Text γ)
    (pad : Bool) (out : Text γ) : Prop where
  width : visibleWidth G out ≤ maxWidth
  padded : pad = true → visibleWidth G out = maxWidth
  shown : ∃ shown,
    seen G out = shown ++ (if pad then spaces (maxWidth - visibleWidth G shown) else []) ∧
      (visibleWidth G text ≤ maxWidth → shown = seen G text) ∧
      (maxWidth < visibleWidth G text → ∃ kept keptEllipsis,
        LongestFit G (maxWidth - visibleWidth G ellipsis) text kept ∧
          LongestFit G maxWidth ellipsis keptEllipsis ∧ shown = seen G kept ++ seen G keptEllipsis)

theorem seen_eq_nil (h : visibleWidth G text = 0) : seen G text = [] := by
  refine filter_eq_nil_iff.mpr fun c hc => ?_
  obtain ⟨before, after, rfl⟩ := append_of_mem hc
  rw [visibleWidth_append, visibleWidth] at h
  rw [decide_eq_true_eq]
  omega

theorem ShowsTruncated.of_seen (shown : Text γ) {out : Text γ}
    (hseen : seen G out = shown ++ (if pad then spaces (maxWidth - visibleWidth G shown) else []))
    (hwidth : visibleWidth G shown ≤ maxWidth)
    (hfits : visibleWidth G text ≤ maxWidth → shown = seen G text)
    (hcut : maxWidth < visibleWidth G text →
      shown = seen G (fitting G (maxWidth - visibleWidth G ellipsis) text) ++
        seen G (fitting G maxWidth ellipsis)) :
    ShowsTruncated G text maxWidth ellipsis pad out := by
  have hout : visibleWidth G out =
      visibleWidth G shown + if pad then maxWidth - visibleWidth G shown else 0 := by
    rw [← visibleWidth_seen out, hseen, visibleWidth_append]
    split_ifs
    · rw [visibleWidth_spaces]
    · rfl
  refine ⟨?_, fun hpad => ?_, shown, hseen, hfits, fun hover =>
    ⟨_, _, longestFit_fitting _ text, longestFit_fitting _ ellipsis, hcut hover⟩⟩
  · rw [hout]
    split_ifs <;> omega
  · rw [hout, if_pos hpad]
    omega

theorem shows_padText {textWidth : ℕ} (hwidth : textWidth = visibleWidth G text)
    (h : textWidth ≤ maxWidth) :
    ShowsTruncated G text maxWidth ellipsis pad (padText text textWidth maxWidth pad) := by
  subst hwidth
  refine .of_seen (seen G text) ?_ ?_ (fun _ => rfl) fun hover => absurd h hover.not_ge
  · rw [visibleWidth_seen, padText]
    split_ifs
    · rw [seen_append, seen_spaces]
    · exact (append_nil _).symm
  · rwa [visibleWidth_seen]

theorem shows_finalize {ellipsisKept : Text γ} {keptWidth ellipsisWidth : ℕ}
    (hkept : seen G kept = seen G (fitting G (maxWidth - visibleWidth G ellipsis) text))
    (hellipsis : seen G ellipsisKept = seen G (fitting G maxWidth ellipsis))
    (hkeptWidth : keptWidth = visibleWidth G kept)
    (hellipsisWidth : ellipsisWidth = visibleWidth G ellipsisKept)
    (hroom : keptWidth + ellipsisWidth ≤ maxWidth) (hover : maxWidth < visibleWidth G text) :
    ShowsTruncated G text maxWidth ellipsis pad
      (finalizeTruncatedResult kept keptWidth ellipsisKept ellipsisWidth maxWidth pad) := by
  subst hkeptWidth hellipsisWidth
  have hshown : seen G (if ellipsisKept = [] then kept ++ [resetCode]
      else kept ++ [resetCode] ++ ellipsisKept ++ [resetCode]) =
        seen G kept ++ seen G ellipsisKept := by
    split_ifs with hnil
    · rw [seen_append, seen_resetCode, hnil]
      rfl
    · simp only [seen_append, seen_resetCode, append_nil]
  have hwidth : visibleWidth G (seen G kept ++ seen G ellipsisKept) =
      visibleWidth G kept + visibleWidth G ellipsisKept := by
    rw [visibleWidth_append, visibleWidth_seen, visibleWidth_seen]
  refine .of_seen (seen G kept ++ seen G ellipsisKept) ?_ (hwidth ▸ hroom)
    (fun h => absurd hover h.not_gt) fun _ => by rw [hkept, hellipsis]
  rw [hwidth]
  cases pad with
  | false => exact hshown.trans (append_nil _).symm
  | true => exact (seen_append _ _).trans (congrArg₂ _ hshown (seen_spaces _))

theorem truncateFragmentToWidth_spec (A : AsciiGraphemes G) (text : Text γ) (maxWidth : ℕ) :
    seen G (truncateFragmentToWidth A text maxWidth).text = seen G (fitting G maxWidth text) ∧
      (truncateFragmentToWidth A text maxWidth).width =
        visibleWidth G (fitting G maxWidth text) := by
  unfold truncateFragmentToWidth
  split_ifs with hnone hascii
  · have hzero : visibleWidth G (fitting G maxWidth text) = 0 := by
      obtain rfl | rfl := hnone
      · exact Nat.le_zero.mp (longestFit_fitting 0 text).holds
      · rfl
    exact ⟨(seen_eq_nil hzero).symm, hzero.symm⟩
  · have htake : isPrintableAscii A (text.take maxWidth) = true :=
      all_eq_true.mpr fun c hc => all_eq_true.mp hascii c (mem_of_mem_take hc)
    rw [(fitting_ascii hascii maxWidth).1, (fitting_ascii htake 0).2]
    exact ⟨rfl, rfl⟩
  · obtain ⟨htext, hwidth⟩ :=
      fragmentLoop_spec (G := G) (s := ⟨[], 0, []⟩) (Nat.zero_le maxWidth) rfl text
    exact ⟨htext, hwidth.trans (Nat.zero_add _)⟩

theorem truncateLoop_start (ellipsis text : Text γ) (maxWidth : ℕ) :
    Truncates G maxWidth truncateStart text
      (fitting G (maxWidth - visibleWidth G ellipsis) text)
      (truncateLoop G maxWidth (maxWidth - visibleWidth G ellipsis) truncateStart text) :=
  truncateLoop_spec (Nat.sub_le ..) rfl (Nat.zero_le _) (fun _ => ⟨rfl, Nat.zero_le _⟩) text

theorem shows_truncateGeneral (h : visibleWidth G ellipsis ≤ maxWidth) :
    ShowsTruncated G text maxWidth ellipsis pad (truncateGeneral G text maxWidth ellipsis pad) := by
  obtain ⟨hseen, hwidth, hfits, hvisible, -⟩ := truncateLoop_start (G := G) ellipsis text maxWidth
  rw [truncateGeneral]
  split_ifs with hall
  · exact shows_padText ((hvisible hall).trans (Nat.zero_add _))
      ((hvisible hall).trans_le (hfits.mp hall))
  · have hkept := (longestFit_fitting (G := G) (maxWidth - visibleWidth G ellipsis) text).holds
    have hsum := hwidth.trans (Nat.zero_add _)
    refine shows_finalize hseen (by rw [fitting_of_fits h]) ?_ rfl (by omega) ?_
    · rw [hsum, ← visibleWidth_seen, ← visibleWidth_seen (TruncateState.result _)]
      exact congrArg _ hseen.symm
    · have hnot := fun hle => hall (hfits.mpr ((Nat.zero_add _).trans_le hle))
      exact Nat.lt_of_not_le hnot

theorem truncateAscii_eq (hascii : isPrintableAscii A text = true)
    (h : visibleWidth G ellipsis ≤ maxWidth) :
    truncateAscii G text maxWidth ellipsis pad = truncateGeneral G text maxWidth ellipsis pad := by
  obtain ⟨-, hwidth, hfits, hvisible, hplain⟩ := truncateLoop_start (G := G) ellipsis text maxWidth
  have hlength := (fitting_ascii hascii 0).2
  have htake (n : ℕ) : isPrintableAscii A (text.take n) = true :=
    all_eq_true.mpr fun c hc => all_eq_true.mp hascii c (mem_of_mem_take hc)
  rw [truncateGeneral, truncateAscii, ← hlength]
  by_cases hall : visibleWidth G text ≤ maxWidth
  · have hnot := hfits.mpr ((Nat.zero_add _).trans_le hall)
    rw [if_pos hall, if_pos hnot, hvisible hnot]
    exact congrArg (padText text · maxWidth pad) (Nat.zero_add _).symm
  · have hnot := fun hfalse => hall ((Nat.zero_add _).symm.trans_le (hfits.mp hfalse))
    have hresult := hplain rfl (not_code_of_ascii hascii)
    rw [if_neg hall, if_neg hnot, hwidth, hresult, (fitting_ascii hascii _).1,
      (fitting_ascii (htake _) 0).2, length_take_of_le (by omega)]
    exact congrArg (finalizeTruncatedResult _ · _ _ _ _) (Nat.zero_add _).symm

theorem shows_nothing (hover : maxWidth < visibleWidth G text)
    (htext : maxWidth ≤ visibleWidth G ellipsis)
    (hellipsis : visibleWidth G (fitting G maxWidth ellipsis) = 0) :
    ShowsTruncated G text maxWidth ellipsis pad (padText [] 0 maxWidth pad) := by
  have hnone := (longestFit_fitting (G := G) (maxWidth - visibleWidth G ellipsis) text).holds
  refine .of_seen [] ?_ (Nat.zero_le _) (fun h => absurd hover h.not_gt) fun _ => ?_
  · cases pad with
    | false => rfl
    | true => exact seen_spaces _
  · rw [seen_eq_nil hellipsis, seen_eq_nil (by omega)]
    rfl

theorem shows_noColumns : ShowsTruncated G text 0 ellipsis pad [] := by
  have hnone := Nat.le_zero.mp (longestFit_fitting (G := G) 0 ellipsis).holds
  by_cases hover : 0 < visibleWidth G text
  · have hshows : ShowsTruncated G text 0 ellipsis pad (padText [] 0 0 pad) :=
      shows_nothing hover (Nat.zero_le _) hnone
    cases pad <;> exact hshows
  · refine .of_seen [] ?_ (Nat.le_refl 0) (fun h => ?_) fun h => absurd h hover
    · cases pad <;> rfl
    · exact (seen_eq_nil (Nat.le_zero.mp h)).symm

theorem shows_truncateEllipsis (A : AsciiGraphemes G) (h : maxWidth ≤ visibleWidth G ellipsis) :
    ShowsTruncated G text maxWidth ellipsis pad
      (truncateEllipsis A text maxWidth ellipsis pad) := by
  obtain ⟨hseen, hwidth⟩ := truncateFragmentToWidth_spec A ellipsis maxWidth
  have hfits := (longestFit_fitting (G := G) maxWidth ellipsis).holds
  have hnone := (longestFit_fitting (G := G) (maxWidth - visibleWidth G ellipsis) text).holds
  rw [truncateEllipsis]
  dsimp only
  split_ifs with hall hzero
  · exact shows_padText rfl hall
  · exact shows_nothing (Nat.lt_of_not_le hall) h (hwidth.symm.trans hzero)
  · refine shows_finalize ?_ hseen rfl ?_ (by omega) (Nat.lt_of_not_le hall)
    · exact (seen_eq_nil (by omega)).symm
    · rw [hwidth, ← visibleWidth_seen, ← hseen, visibleWidth_seen]

def asciiLetters : AsciiGraphemes wideLetters where
  isPrintableAscii c := c.isAlphanum
  width_eq c hc := if_neg fun heq => by
    subst heq
    exact absurd hc (by decide)

def wordOf (letters : String) : Text Char := letters.toList.map .grapheme

/-- Three letters in two columns, and an ellipsis of three columns. -/
def wideEllipsis : Text Char :=
  truncateToWidth asciiLetters (wordOf "abc") 2 (wordOf "xyz") false

end Draht.AnsiText
