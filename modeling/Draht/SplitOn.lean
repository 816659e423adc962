import Mathlib.Data.List.Basic

/-!
# Lists that are split at a separator

The parts of a list between the occurrences of one element: none has the separator, and splitting
an appended list joins the last part of the first list to the first part of the second.
-/

namespace Draht
open List

variable {α : Type*} [DecidableEq α] {sep : α}

variable {first last xs ys : List α} {rest start : List (List α)}

theorem not_mem_of_mem_splitOn {part : List α} (h : part ∈ xs.splitOn sep) : sep ∉ part := by
  induction xs generalizing part with
  | nil =>
    rw [mem_singleton.mp h]
    exact not_mem_nil
  | cons x xs ih =>
    rw [splitOn_cons_eq_if_modifyHead] at h
    split_ifs at h with hx
    · obtain rfl | h := mem_cons.mp h
      · exact not_mem_nil
      · exact ih h
    · cases hrest : xs.splitOn sep with
      | nil => exact absurd hrest (splitOn_ne_nil _ _)
      | cons first rest =>
        rw [hrest, modifyHead_cons] at h
        rw [hrest] at ih
        obtain rfl | h := mem_cons.mp h
        · have hfirst := ih mem_cons_self
          simp only [mem_cons, not_or]
          exact ⟨fun heq => hx (by simp [heq]), hfirst⟩
        · exact ih (mem_cons_of_mem _ h)

theorem splitOn_append (hxs : xs.splitOn sep = start ++ [last])
    (hys : ys.splitOn sep = first :: rest) :
    (xs ++ ys).splitOn sep = start ++ (last ++ first) :: rest := by
  induction xs generalizing start last with
  | nil =>
    obtain ⟨rfl, hlast⟩ := append_inj' (show [] ++ [[]] = start ++ [last] from hxs) rfl
    obtain rfl := (cons.inj hlast).1
    exact hys
  | cons x xs ih =>
    rw [cons_append, splitOn_cons_eq_if_modifyHead]
    rw [splitOn_cons_eq_if_modifyHead] at hxs
    split_ifs at hxs ⊢ with hx
    · cases start with
      | nil =>
        have hnil := (cons.inj hxs).2
        exact absurd hnil (splitOn_ne_nil _ _)
      | cons part start =>
        obtain ⟨rfl, hrest⟩ := cons.inj hxs
        rw [ih hrest, cons_append]
    · cases hparts : xs.splitOn sep with
      | nil => exact absurd hparts (splitOn_ne_nil _ _)
      | cons part parts =>
        rw [hparts, modifyHead_cons] at hxs
        cases start with
        | nil =>
          cases hxs
          have hstart : xs.splitOn sep = [] ++ [part] := hparts
          rw [ih hstart]
          rfl
        | cons part' start =>
          obtain ⟨rfl, hrest⟩ := cons.inj hxs
          have hstart : xs.splitOn sep = (part :: start) ++ [last] := by
            rw [hparts, hrest]
            rfl
          rw [ih hstart]
          rfl

theorem splitOn_append_last (xs ys : List α) :
    (xs ++ ys).splitOn sep = (xs.splitOn sep).dropLast ++
      ((xs.splitOn sep).getLastD [] ++ ys).splitOn sep := by
  have hne := splitOn_ne_nil sep xs
  have hxs : xs.splitOn sep = (xs.splitOn sep).dropLast ++ [(xs.splitOn sep).getLastD []] := by
    rw [getLastD_eq_getLast?, getLast?_eq_some_getLast hne, Option.getD_some,
      dropLast_append_getLast hne]
  have hlast : sep ∉ (xs.splitOn sep).getLastD [] := by
    apply not_mem_of_mem_splitOn
    rw [hxs]
    simp
  obtain ⟨first, rest, hys⟩ := exists_cons_of_ne_nil (splitOn_ne_nil sep ys)
  have hpart : ((xs.splitOn sep).getLastD []).splitOn sep = [] ++ [(xs.splitOn sep).getLastD []] :=
    splitOn_eq_singleton hlast
  rw [splitOn_append hxs hys, splitOn_append hpart hys]
  simp

theorem splitOn_map {f : α → α} (hf : ∀ x, f x = sep ↔ x = sep) (xs : List α) :
    (xs.map f).splitOn sep = (xs.splitOn sep).map (List.map f) := by
  induction xs with
  | nil => rfl
  | cons x xs ih =>
    rw [map_cons, splitOn_cons_eq_if_modifyHead, splitOn_cons_eq_if_modifyHead, ih]
    by_cases hx : x = sep
    · rw [if_pos (by simp [hx, hf]), if_pos (by simp [hx])]
      rfl
    · rw [if_neg (by simp [hf, hx]), if_neg (by simp [hx])]
      cases xs.splitOn sep <;> rfl

theorem splitOn_of_suffix (hsuffix : xs <:+ ys) (hxs : xs.splitOn sep = first :: rest) :
    (∃ part ∈ ys.splitOn sep, first <:+ part) ∧ ∀ part ∈ rest, part ∈ ys.splitOn sep := by
  obtain ⟨before, rfl⟩ := hsuffix
  obtain hnil | ⟨start, last, hstart⟩ := eq_nil_or_concat (before.splitOn sep)
  · exact absurd hnil (splitOn_ne_nil sep before)
  · rw [splitOn_append (by rw [hstart, concat_eq_append]) hxs]
    refine ⟨⟨last ++ first, by simp, suffix_append _ _⟩, fun part hpart => ?_⟩
    exact mem_append_right _ (mem_cons_of_mem _ hpart)

theorem splitOn_of_prefix (hpre : xs <+: ys) (hxs : xs.splitOn sep = start ++ [last]) :
    ∀ part ∈ start, part ∈ ys.splitOn sep := by
  obtain ⟨after, rfl⟩ := hpre
  obtain ⟨first, rest, hafter⟩ := exists_cons_of_ne_nil (splitOn_ne_nil sep after)
  rw [splitOn_append hxs hafter]
  exact fun part hpart => mem_append_left _ hpart

theorem infix_intercalate {β : Type*} (separator : List β) {x : List β} {xs : List (List β)}
    (h : x ∈ xs) : x <:+: separator.intercalate xs := by
  induction xs with
  | nil => cases h
  | cons y ys ih =>
    obtain rfl | hx := mem_cons.mp h
    · cases ys with
      | nil => exact ⟨[], [], by simp⟩
      | cons z zs =>
        exact (prefix_append _ _).isInfix
    · rw [intercalate_cons_of_ne_nil (ne_nil_of_mem hx)]
      exact (ih hx).trans (suffix_append _ _).isInfix

/-! Lines with terminators, and the reading of a text that arrives piece by piece: what is complete is
handed on, and the line that is still open is kept. -/

def framed (sep : α) (lines : List (List α)) : List α := lines.flatMap (· ++ [sep])

def wholeLines (sep : α) (text : List α) : List (List α) := (text.splitOn sep).dropLast

def openLine (sep : α) (text : List α) : List α := (text.splitOn sep).getLastD []

theorem splitOn_eq_wholeLines (text : List α) :
    text.splitOn sep = wholeLines sep text ++ [openLine sep text] := by
  have hne := splitOn_ne_nil sep text
  rw [wholeLines, openLine, getLastD_eq_getLast?, getLast?_eq_some_getLast hne,
    Option.getD_some, dropLast_append_getLast hne]

theorem not_mem_openLine (text : List α) : sep ∉ openLine sep text := by
  apply not_mem_of_mem_splitOn
  rw [splitOn_eq_wholeLines]
  exact mem_append_right _ (mem_singleton_self _)

variable {lines : List (List α)} {text : List α}

theorem lines_of_splitOn {last : List α} (h : text.splitOn sep = lines ++ [last]) :
    wholeLines sep text = lines ∧ openLine sep text = last := by
  rw [splitOn_eq_wholeLines] at h
  obtain ⟨hlines, hlast⟩ := append_inj' h rfl
  exact ⟨hlines, singleton_inj.mp hlast⟩

theorem lines_append (sep : α) (first second : List α) :
    wholeLines sep (first ++ second) =
        wholeLines sep first ++ wholeLines sep (openLine sep first ++ second) ∧
      openLine sep (first ++ second) = openLine sep (openLine sep first ++ second) := by
  apply lines_of_splitOn
  rw [splitOn_append_last, append_assoc, ← splitOn_eq_wholeLines]
  rfl

theorem lines_of_not_mem (h : sep ∉ text) : wholeLines sep text = [] ∧ openLine sep text = text :=
  lines_of_splitOn (splitOn_eq_singleton h)

theorem lines_cons {line : List α} (h : sep ∉ line) (rest : List α) :
    wholeLines sep (line ++ sep :: rest) = line :: wholeLines sep rest ∧
      openLine sep (line ++ sep :: rest) = openLine sep rest := by
  apply lines_of_splitOn
  have hline : line.splitOn sep = [] ++ [line] := splitOn_eq_singleton h
  have hrest : (sep :: rest).splitOn sep = [] :: rest.splitOn sep := by
    rw [splitOn_cons_eq_if_modifyHead, if_pos (beq_self_eq_true sep)]
  rw [splitOn_append hline hrest, append_nil, nil_append, splitOn_eq_wholeLines]
  rfl

theorem lines_framed (h : ∀ line ∈ lines, sep ∉ line) :
    wholeLines sep (framed sep lines) = lines ∧ openLine sep (framed sep lines) = [] := by
  induction lines with
  | nil => exact lines_of_not_mem not_mem_nil
  | cons line lines ih =>
    obtain ⟨hline, hlines⟩ := forall_mem_cons.mp h
    obtain ⟨hwhole, hopen⟩ := ih hlines
    have hframed : framed sep (line :: lines) = line ++ sep :: framed sep lines := by
      rw [framed, flatMap_cons, append_assoc]
      rfl
    rw [hframed, (lines_cons hline _).1, (lines_cons hline _).2, hwhole, hopen]
    exact ⟨rfl, rfl⟩

end Draht
