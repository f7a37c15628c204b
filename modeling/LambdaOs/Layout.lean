import Mathlib.Algebra.Ring.Nat
import Mathlib.Logic.Function.Basic
import Mathlib.Data.List.Forall2

/-!
# Laying out blocks

Blocks of several kinds come in some order. Each goes behind the last one of
its kind, at the next multiple of its alignment (`layout`). The blocks of a
kind do not overlap (`layout_ordered`) and all end by where the last one of
them does (`layout_inside`), which is at most what their sizes and the gaps
come to (`layoutEnd_le`).
-/

namespace LambdaOs

universe u

/-- The first multiple of `align` from `v` on. -/
def alignUp (v align : Nat) : Nat := (v + (align - 1)) / align * align

theorem le_alignUp {align : Nat} (h : 0 < align) (v : Nat) : v ≤ alignUp v align := by
  have hmod := Nat.mod_lt (v + (align - 1)) h
  have hdiv := Nat.div_add_mod (v + (align - 1)) align
  rw [Nat.mul_comm] at hdiv
  rw [alignUp]
  omega

theorem alignUp_le (v align : Nat) : alignUp v align ≤ v + (align - 1) :=
  Nat.div_mul_le_self _ _

theorem alignUp_mod (v align : Nat) : alignUp v align % align = 0 := Nat.mul_mod_left _ _

theorem alignUp_of_mod {v align : Nat} (h : 0 < align) (hv : v % align = 0) :
    alignUp v align = v := by
  obtain ⟨k, rfl⟩ := Nat.dvd_of_mod_eq_zero hv
  rw [alignUp, Nat.mul_add_div h, Nat.div_eq_of_lt (by omega), Nat.add_zero, Nat.mul_comm]

theorem alignUp_le_of_mod {v align n : Nat} (h : 0 < align) (hv : v ≤ n) (hn : n % align = 0) :
    alignUp v align ≤ n := by
  obtain ⟨k, rfl⟩ := Nat.dvd_of_mod_eq_zero hn
  have hle : (v + (align - 1)) / align ≤ k := by
    rw [← Nat.lt_succ_iff, Nat.div_lt_iff_lt_mul h, Nat.succ_mul, Nat.mul_comm k]
    omega
  rw [alignUp, Nat.mul_comm align]
  exact Nat.mul_le_mul_right align hle

/-- What has to be laid out. -/
structure Block where
  size : Nat
  align : Nat
  pos : 0 < align

section Layout

variable {κ : Type u} [DecidableEq κ]

/-- Where a block goes, from the ends of the kinds. -/
def Block.place (b : Block) (ends : κ → Nat) (k : κ) : Nat := alignUp (ends k) b.align

/-- The ends of the kinds after a block. -/
def Block.ends (b : Block) (ends : κ → Nat) (k : κ) : κ → Nat :=
  Function.update ends k (b.place ends k + b.size)

/-- The offsets of the blocks. -/
def layout (ends : κ → Nat) : List (κ × Block) → List Nat
  | [] => []
  | (k, b) :: blocks => b.place ends k :: layout (b.ends ends k) blocks

def layoutEnd (ends : κ → Nat) (blocks : List (κ × Block)) : κ → Nat :=
  blocks.foldl (fun ends kb => kb.2.ends ends kb.1) ends

theorem layoutEnd_cons (ends : κ → Nat) (kb : κ × Block) (blocks : List (κ × Block)) :
    layoutEnd ends (kb :: blocks) = layoutEnd (kb.2.ends ends kb.1) blocks := rfl

/-- What the blocks of a kind take at most. -/
def roomFor (k : κ) (blocks : List (κ × Block)) : Nat :=
  (blocks.map fun kb => if kb.1 = k then kb.2.size + (kb.2.align - 1) else 0).sum

theorem roomFor_cons (k : κ) (kb : κ × Block) (blocks : List (κ × Block)) :
    roomFor k (kb :: blocks) =
      (if kb.1 = k then kb.2.size + (kb.2.align - 1) else 0) + roomFor k blocks := rfl

omit [DecidableEq κ] in
theorem Block.le_place (b : Block) (ends : κ → Nat) (k : κ) : ends k ≤ b.place ends k :=
  le_alignUp b.pos _

theorem Block.le_ends (b : Block) (ends : κ → Nat) (k k' : κ) : ends k' ≤ b.ends ends k k' := by
  by_cases h : k' = k
  · subst h
    rw [Block.ends, Function.update_self]
    exact Nat.le_trans (b.le_place ends k') (Nat.le_add_right _ _)
  · exact Nat.le_of_eq (Function.update_of_ne h ..).symm

theorem length_layout (ends : κ → Nat) (blocks : List (κ × Block)) :
    (layout ends blocks).length = blocks.length := by
  induction blocks generalizing ends with
  | nil => rfl
  | cons kb blocks ih => rw [layout, List.length_cons, List.length_cons, ih]

theorem le_layoutEnd (ends : κ → Nat) (blocks : List (κ × Block)) (k : κ) :
    ends k ≤ layoutEnd ends blocks k := by
  induction blocks generalizing ends with
  | nil => exact Nat.le_refl _
  | cons kb blocks ih => exact Nat.le_trans (kb.2.le_ends ends kb.1 k) (ih _)

theorem layoutEnd_le (ends : κ → Nat) (blocks : List (κ × Block)) (k : κ) :
    layoutEnd ends blocks k ≤ ends k + roomFor k blocks := by
  induction blocks generalizing ends with
  | nil => exact Nat.le_refl _
  | cons kb blocks ih =>
    have hrest : layoutEnd ends (kb :: blocks) k ≤ kb.2.ends ends kb.1 k + roomFor k blocks := ih _
    rw [roomFor_cons]
    by_cases h : kb.1 = k
    · subst h
      have hplace := alignUp_le (ends kb.1) kb.2.align
      rw [Block.ends, Function.update_self, Block.place] at hrest
      rw [if_pos rfl]
      omega
    · rw [Block.ends, Function.update_of_ne (Ne.symm h)] at hrest
      rw [if_neg h]
      omega

/-- Every block is aligned, starts behind its kind's end and ends within the
end of the layout. -/
theorem layout_inside {ends : κ → Nat} {blocks : List (κ × Block)} {kb : κ × Block} {off : Nat}
    (h : (kb, off) ∈ blocks.zip (layout ends blocks)) :
    off % kb.2.align = 0 ∧ ends kb.1 ≤ off ∧ off + kb.2.size ≤ layoutEnd ends blocks kb.1 := by
  induction blocks generalizing ends with
  | nil => cases h
  | cons kb' blocks ih =>
    rw [layout, List.zip_cons_cons, List.mem_cons] at h
    rcases h with heq | hmem
    · obtain ⟨rfl, rfl⟩ := Prod.mk.inj heq
      refine ⟨alignUp_mod _ _, kb.2.le_place ends kb.1, ?_⟩
      have hend := le_layoutEnd (kb.2.ends ends kb.1) blocks kb.1
      rw [Block.ends, Function.update_self] at hend
      exact hend
    · obtain ⟨hmod, hstart, hend⟩ := ih hmem
      exact ⟨hmod, Nat.le_trans (kb'.2.le_ends ends kb'.1 kb.1) hstart, hend⟩

/-- A later block of the same kind starts behind an earlier one. -/
theorem layout_ordered (ends : κ → Nat) (blocks : List (κ × Block)) :
    (blocks.zip (layout ends blocks)).Pairwise fun p q =>
      p.1.1 = q.1.1 → p.2 + p.1.2.size ≤ q.2 := by
  induction blocks generalizing ends with
  | nil => exact List.Pairwise.nil
  | cons kb blocks ih =>
    refine List.Pairwise.cons ?_ (ih _)
    rintro ⟨kb', off⟩ hmem hkind
    dsimp only at hkind ⊢
    have hstart := (layout_inside hmem).2.1
    rw [← hkind, Block.ends, Function.update_self] at hstart
    exact hstart

/-- Blocks of a kind leave no gap at an offset that each of them may start at. -/
theorem layout_covers {ends : κ → Nat} {blocks : List (κ × Block)} {k : κ} {n : Nat}
    (hn : ∀ kb ∈ blocks, kb.1 = k → n % kb.2.align = 0) (hends : ends k ≤ n)
    (hend : n < layoutEnd ends blocks k) :
    ∃ kb off, (kb, off) ∈ blocks.zip (layout ends blocks) ∧ kb.1 = k ∧ off ≤ n ∧
      n < off + kb.2.size := by
  induction blocks generalizing ends with
  | nil => exact absurd hends (Nat.not_le.mpr hend)
  | cons kb blocks ih =>
    obtain ⟨hhead, hn⟩ := List.forall_mem_cons.mp hn
    rw [layout, List.zip_cons_cons]
    by_cases hlater : kb.2.ends ends kb.1 k ≤ n
    · obtain ⟨kb', off, hmem, h⟩ := ih hn hlater hend
      exact ⟨kb', off, List.mem_cons_of_mem _ hmem, h⟩
    · by_cases hkind : k = kb.1
      · subst hkind
        rw [Block.ends, Function.update_self] at hlater
        exact ⟨kb, _, List.mem_cons_self .., rfl,
          alignUp_le_of_mod kb.2.pos hends (hhead rfl), Nat.lt_of_not_le hlater⟩
      · rw [Block.ends, Function.update_of_ne hkind] at hlater
        exact absurd hends hlater

end Layout

end LambdaOs
