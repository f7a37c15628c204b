import Mathlib.Data.List.Basic
import Mathlib.Data.List.TakeWhile

/-!
# Cutting a list at a separator

A loop that looks for the next separator and goes on behind it comes to the
pieces of `List.splitOn` (`splitOn_step`). One that ends at the end of the list,
whether the last piece is closed by a separator or not, comes to those of
`linesOf` (`linesOf_step`).
-/

namespace LambdaOs

section Pieces

variable {α : Type*} [DecidableEq α]

/-- What is in front of the first separator. -/
def firstPiece (sep : α) (xs : List α) : List α := xs.takeWhile (· ≠ sep)

/-- What is behind it. -/
def afterPiece (sep : α) (xs : List α) : List α := xs.drop ((firstPiece sep xs).length + 1)

variable {sep : α} {xs : List α}

theorem firstPiece_of_not_mem (h : sep ∉ xs) : firstPiece sep xs = xs := by
  rw [firstPiece, List.takeWhile_eq_self_iff]
  intro x hx
  exact decide_eq_true fun he => h (he ▸ hx)

theorem not_mem_firstPiece : sep ∉ firstPiece sep xs := by
  intro h
  have hne := List.mem_takeWhile_imp h
  simp at hne

theorem firstPiece_append (h : sep ∈ xs) :
    xs = firstPiece sep xs ++ sep :: afterPiece sep xs := by
  induction xs with
  | nil => cases h
  | cons x xs ih =>
      by_cases hx : x = sep
      · simp [firstPiece, afterPiece, hx]
      · have hxs : sep ∈ xs := (List.mem_cons.mp h).resolve_left (Ne.symm hx)
        have hrest := ih hxs
        simp only [firstPiece, afterPiece, List.takeWhile_cons, hx, ne_eq, not_false_eq_true,
          decide_true, if_true, List.cons_append, List.length_cons, List.drop_succ_cons] at hrest ⊢
        rw [← hrest]

theorem afterPiece_length (sep : α) (h : xs ≠ []) : (afterPiece sep xs).length < xs.length := by
  have hpos := List.length_pos_of_ne_nil h
  rw [afterPiece, List.length_drop]
  omega

variable [BEq α] [LawfulBEq α]

/-- The pieces, without an empty one at the end. -/
def linesOf (sep : α) (xs : List α) : List (List α) :=
  if (xs.splitOn sep).getLast? = some [] then (xs.splitOn sep).dropLast else xs.splitOn sep

theorem splitOn_step :
    xs.splitOn sep =
      firstPiece sep xs :: if sep ∈ xs then (afterPiece sep xs).splitOn sep else [] := by
  split
  · rename_i h
    conv_lhs => rw [firstPiece_append h]
    rw [List.splitOn_append_cons_self_of_not_mem not_mem_firstPiece]
  · rename_i h
    rw [List.splitOn_eq_singleton h, firstPiece_of_not_mem h]

omit [LawfulBEq α] in
@[simp] theorem linesOf_nil : linesOf sep [] = [] := by
  simp [linesOf]

theorem linesOf_step (h : xs ≠ []) :
    linesOf sep xs = firstPiece sep xs :: linesOf sep (afterPiece sep xs) := by
  by_cases hsep : sep ∈ xs
  · have hne : (afterPiece sep xs).splitOn sep ≠ [] := List.splitOn_ne_nil _ _
    rw [linesOf, splitOn_step, if_pos hsep, List.getLast?_cons_of_ne_nil hne,
      List.dropLast_cons_of_ne_nil hne, linesOf]
    split <;> rfl
  · have hafter : afterPiece sep xs = [] := by
      rw [afterPiece, firstPiece_of_not_mem hsep]
      exact List.drop_eq_nil_of_le (Nat.le_succ _)
    have hlast : ([xs] : List (List α)).getLast? ≠ some [] := by simpa using h
    rw [hafter, linesOf_nil, linesOf, List.splitOn_eq_singleton hsep, if_neg hlast,
      firstPiece_of_not_mem hsep]

end Pieces

end LambdaOs
