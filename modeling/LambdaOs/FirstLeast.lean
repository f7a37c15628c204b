import Mathlib.Data.List.MinMax
import Mathlib.Data.Prod.Lex

/-!
# The first least element of a scan

A scan keeps a code and the size of the best element so far, and replaces them
only by a smaller one. It ends with the first element of least size among those
that are taken into account (`foldl_eq_argmin`). In a list that is sorted by a
key, this is the least by size and key (`toLex_le_of_mem_argmin`).
-/

namespace LambdaOs

variable {α β γ κ : Type*} [LinearOrder β] {l : List α}

/-- The scan starts from a size above all that it takes into account. -/
theorem foldl_eq_argmin {step : γ × β → α → γ × β} {p : α → Prop} [DecidablePred p]
    {code : α → γ} {size : α → β} {init : γ × β}
    (hstep : ∀ x ∈ l, ∀ best, step best x =
      if p x ∧ size x < best.2 then (code x, size x) else best)
    (htop : ∀ x ∈ l, p x → size x < init.2) :
    l.foldl step init = ((l.filter p).argmin size).elim init fun x => (code x, size x) := by
  induction l using List.reverseRecOn with
  | nil => rfl
  | append_singleton l x ih =>
      have hlast : x ∈ l ++ [x] := List.mem_append_right l (List.mem_singleton_self x)
      rw [List.foldl_append, List.foldl_cons, List.foldl_nil, hstep x hlast,
        ih (fun y hy => hstep y (List.mem_append_left _ hy))
          (fun y hy => htop y (List.mem_append_left _ hy)), List.filter_append]
      by_cases hp : p x
      · rw [List.filter_singleton, decide_eq_true hp, cond_true, List.argmin_concat]
        cases (l.filter p).argmin size with
        | none => exact if_pos ⟨hp, htop x hlast hp⟩
        | some c =>
            by_cases hlt : size x < size c
            · simp [hp, hlt]
            · simp [hlt]
      · rw [if_neg fun h => hp h.1, List.filter_singleton, decide_eq_false hp, cond_false,
          List.append_nil]

theorem argmin_map {l : List γ} {g : γ → α} {size : α → β} :
    (l.map g).argmin size = (l.argmin (size ∘ g)).map g := by
  induction l using List.reverseRecOn with
  | nil => rfl
  | append_singleton l x ih =>
      rw [List.map_append, List.map_singleton, List.argmin_concat, List.argmin_concat, ih]
      cases l.argmin (size ∘ g) with
      | none => rfl
      | some c =>
          change (if size (g x) < size (g c) then some (g x) else some (g c)) =
            Option.map g (if size (g x) < size (g c) then some x else some c)
          split <;> rfl

theorem toLex_le_of_mem_argmin [PartialOrder κ] {size : α → β} {key : α → κ} {x y : α}
    (hl : l.Pairwise fun x y => key x < key y) (hx : x ∈ l.argmin size) (hy : y ∈ l) :
    toLex (size x, key x) ≤ toLex (size y, key y) := by
  classical
  rw [Prod.Lex.toLex_le_toLex]
  rcases (List.le_of_mem_argmin hy hx).lt_or_eq with hlt | heq
  · exact .inl hlt
  · refine .inr ⟨heq, ?_⟩
    -- of two that are equally small, the one that was kept comes first
    rcases (List.index_of_argmin hx hy heq.ge).lt_or_eq with hlt | hsame
    · have hlen := List.idxOf_lt_length_of_mem hy
      have hkey := List.pairwise_iff_getElem.mp hl _ _ (hlt.trans hlen) hlen hlt
      rw [List.getElem_idxOf, List.getElem_idxOf] at hkey
      exact hkey.le
    · rw [(List.idxOf_inj (List.argmin_mem hx)).mp hsame]

end LambdaOs
