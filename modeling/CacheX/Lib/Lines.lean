import Mathlib.Data.List.Basic

/-!
# Lists cut at a separator

A list that arrives in pieces and is cut at a separator: `complete` is what ends with a separator,
`rest` is what is left over. `splitOn_append` says that the parts of `l ++ m` are the complete parts
of `l`, followed by the parts of what `l` left over and `m`. So the parts do not depend on the
pieces.
-/

namespace CacheX.Lines

variable {α : Type} [BEq α] [LawfulBEq α] {sep : α}

/-- The parts of a list that a separator ends. -/
def complete (sep : α) (l : List α) : List (List α) := (l.splitOn sep).dropLast

/-- What comes after the last separator. -/
def rest (sep : α) (l : List α) : List α := (l.splitOn sep).getLast (List.splitOn_ne_nil _ _)

theorem complete_of_notMem {l : List α} (h : sep ∉ l) : complete sep l = [] := by
  simp only [complete, List.splitOn_eq_singleton h, List.dropLast_singleton]

theorem rest_of_notMem {l : List α} (h : sep ∉ l) : rest sep l = l := by
  simp only [rest, List.splitOn_eq_singleton h, List.getLast_singleton]

theorem complete_cons {x : List α} (h : sep ∉ x) (y : List α) :
    complete sep (x ++ sep :: y) = x :: complete sep y := by
  simp only [complete, List.splitOn_append_cons_self_of_not_mem h]
  exact List.dropLast_cons_of_ne_nil (List.splitOn_ne_nil _ _)

theorem rest_cons {x : List α} (h : sep ∉ x) (y : List α) :
    rest sep (x ++ sep :: y) = rest sep y := by
  simp only [rest, List.splitOn_append_cons_self_of_not_mem h]
  exact List.getLast_cons (List.splitOn_ne_nil _ _)

/-- Induction on the separators of a list. -/
theorem parts_induction (sep : α) {P : List α → Prop} (last : ∀ l, sep ∉ l → P l)
    (cons : ∀ x y, sep ∉ x → P y → P (x ++ sep :: y)) (l : List α) : P l := by
  by_cases h : sep ∈ l
  · obtain ⟨x, y, rfl, hx⟩ := List.eq_append_cons_of_mem h
    exact cons x y hx (parts_induction sep last cons y)
  · exact last l h
termination_by l.length
decreasing_by
  subst_vars
  simp only [List.length_append, List.length_cons]
  omega

theorem notMem_rest (l : List α) : sep ∉ rest sep l := by
  induction l using parts_induction sep with
  | last l h => rwa [rest_of_notMem h]
  | cons x y hx ih => rwa [rest_cons hx]

theorem splitOn_append (l m : List α) :
    (l ++ m).splitOn sep = complete sep l ++ (rest sep l ++ m).splitOn sep := by
  induction l using parts_induction sep with
  | last l h => rw [complete_of_notMem h, rest_of_notMem h, List.nil_append]
  | cons x y hx ih =>
    rw [complete_cons hx, rest_cons hx, List.append_assoc, List.cons_append,
      List.splitOn_append_cons_self_of_not_mem hx, ih, List.cons_append]

theorem complete_append (l m : List α) :
    complete sep (l ++ m) = complete sep l ++ complete sep (rest sep l ++ m) := by
  simp only [complete, splitOn_append l m]
  exact List.dropLast_append_of_ne_nil (List.splitOn_ne_nil _ _)

theorem rest_append (l m : List α) : rest sep (l ++ m) = rest sep (rest sep l ++ m) := by
  simp only [rest, splitOn_append l m]
  exact List.getLast_append_of_ne_nil _ (List.splitOn_ne_nil _ _)

theorem complete_eq_nil {l : List α} : complete sep l = [] ↔ sep ∉ l := by
  refine ⟨fun h hmem => ?_, complete_of_notMem⟩
  obtain ⟨x, y, rfl, hx⟩ := List.eq_append_cons_of_mem hmem
  rw [complete_cons hx] at h
  cases h

/-- Complete parts put back in front of a list are its first ones. -/
theorem complete_flatMap {parts : List (List α)} (h : ∀ x ∈ parts, sep ∉ x) (l : List α) :
    complete sep (parts.flatMap (· ++ [sep]) ++ l) = parts ++ complete sep l := by
  induction parts with
  | nil => rfl
  | cons x parts ih =>
    obtain ⟨hx, hparts⟩ := List.forall_mem_cons.mp h
    rw [List.flatMap_cons, List.append_assoc, List.append_assoc, List.singleton_append,
      complete_cons hx, ih hparts, List.cons_append]

/-- The first complete part is at least as long as a beginning without separators. -/
theorem length_le_of_complete {x m part : List α} {parts : List (List α)} (h : sep ∉ x)
    (hparts : complete sep (x ++ m) = part :: parts) : x.length ≤ part.length := by
  by_cases hm : sep ∈ m
  · obtain ⟨a, b, rfl, ha⟩ := List.eq_append_cons_of_mem hm
    have hxa : sep ∉ x ++ a := by simp only [List.mem_append, h, ha, or_self, not_false_eq_true]
    rw [← List.append_assoc, complete_cons hxa] at hparts
    cases hparts
    simp only [List.length_append, Nat.le_add_right]
  · have hxm : sep ∉ x ++ m := by simp only [List.mem_append, h, hm, or_self, not_false_eq_true]
    rw [complete_of_notMem hxm] at hparts
    cases hparts

/-- The first part of a list is at least as long as a beginning without separators. -/
theorem exists_part_ge {x : List α} (h : sep ∉ x) (m : List α) :
    ∃ part ∈ (x ++ m).splitOn sep, x.length ≤ part.length := by
  by_cases hm : sep ∈ m
  · obtain ⟨a, b, rfl, ha⟩ := List.eq_append_cons_of_mem hm
    have hxa : sep ∉ x ++ a := by simp only [List.mem_append, h, ha, or_self, not_false_eq_true]
    refine ⟨x ++ a, ?_, by simp only [List.length_append]; omega⟩
    rw [← List.append_assoc, List.splitOn_append_cons_self_of_not_mem hxa]
    exact List.mem_cons_self
  · have hxm : sep ∉ x ++ m := by simp only [List.mem_append, h, hm, or_self, not_false_eq_true]
    refine ⟨x ++ m, ?_, by simp only [List.length_append]; omega⟩
    rw [List.splitOn_eq_singleton hxm]
    exact List.mem_cons_self

end CacheX.Lines
