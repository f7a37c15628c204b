import Mathlib.Data.List.Rotate
import Mathlib.Data.Nat.ModEq

/-!
# Windows of a ring of cells

A queue kept in a ring of cells occupies `count` cells from the cell `first`
on, past the last cell and on from the first. `window` reads them off. Writing
the cell behind the window and widening it appends (`window_push`), and moving
its front on drops the first (`window_pop`).
-/

namespace LambdaOs

variable {α : Type*}

/-- The `count` cells from `first` on, around the ring. -/
def window (cells : List α) (first count : Nat) : List α := (cells.rotate first).take count

theorem window_length {cells : List α} {first count : Nat} (h : count ≤ cells.length) :
    (window cells first count).length = count := by
  rw [window, List.length_take, List.length_rotate]
  omega

/-- The window, cell by cell. -/
theorem window_getElem? {cells : List α} {first count i : Nat} (hi : i < count)
    (h : count ≤ cells.length) :
    (window cells first count)[i]? = cells[(first + i) % cells.length]? := by
  rw [window, List.getElem?_take_of_lt hi, List.getElem?_rotate (by omega), Nat.add_comm]

theorem rotate_set {cells : List α} {first i : Nat} (hi : i < cells.length) (x : α) :
    (cells.set ((first + i) % cells.length) x).rotate first = (cells.rotate first).set i x := by
  refine List.ext_getElem? ?_
  intro j
  by_cases hj : j < cells.length
  · rw [List.getElem?_rotate (by rwa [List.length_set]), List.length_set, List.getElem?_set,
      List.getElem?_set, List.getElem?_rotate hj, List.length_rotate]
    -- two offsets in the ring meet the same cell only when they are equal
    have hcell : (first + i) % cells.length = (j + first) % cells.length ↔ i = j := by
      rw [Nat.add_comm first i]
      refine ⟨?_, fun h => by rw [h]⟩
      intro h
      have hmod : Nat.ModEq cells.length i j := Nat.ModEq.add_right_cancel' first h
      rwa [Nat.ModEq, Nat.mod_eq_of_lt hi, Nat.mod_eq_of_lt hj] at hmod
    have hlt : (first + i) % cells.length < cells.length := Nat.mod_lt _ (by omega)
    simp only [hcell, hlt, hi, if_true]
  · rw [List.getElem?_eq_none (by simpa using hj), List.getElem?_eq_none (by simpa using hj)]

/-- The cell behind the window is written. -/
theorem window_push {cells : List α} (first : Nat) {count : Nat} (h : count < cells.length)
    (x : α) :
    window (cells.set ((first + count) % cells.length) x) first (count + 1) =
      window cells first count ++ [x] := by
  have hlen : count < (cells.rotate first).length := by rwa [List.length_rotate]
  rw [window, rotate_set h, List.take_add_one, List.take_set_of_le (Nat.le_refl _),
    List.getElem?_set_self hlen]
  rfl

/-- The front of the window moves on. -/
theorem window_pop {cells : List α} (first : Nat) {count : Nat} (h : count < cells.length) :
    ∃ x, cells[first % cells.length]? = some x ∧
      window cells first (count + 1) = x :: window cells ((first + 1) % cells.length) count := by
  have hlen : (cells.rotate first).length = cells.length := List.length_rotate ..
  rw [window, window, List.rotate_mod, ← List.rotate_rotate]
  have hfirst := List.getElem?_rotate (n := first) (m := 0) (l := cells) (by omega)
  rw [Nat.zero_add] at hfirst
  rw [← hfirst]
  cases hc : cells.rotate first with
  | nil =>
    rw [hc] at hlen
    simp only [List.length_nil] at hlen
    omega
  | cons x xs =>
    rw [hc, List.length_cons] at hlen
    refine ⟨x, rfl, ?_⟩
    rw [List.rotate_cons_succ, List.rotate_zero, List.take_succ_cons,
      List.take_append_of_le_length (by omega)]

end LambdaOs
