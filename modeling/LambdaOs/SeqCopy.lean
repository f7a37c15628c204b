import Mathlib.Logic.Function.Iterate
import Mathlib.Data.List.Basic

/-!
# Copies done one after the other

A list of copies `(destination, source)` that are done in order, each on what
the earlier ones left. When does every destination end with what its source
held before the first of them?

A cell ends with the initial value of some cell, its `origin`, whatever the
values are (`seqCopy_eq`). So the question is whether the origin of each
destination is its source. It is exactly when a cell is always written from
one source, and no copy reads a cell that an earlier one changed
(`origin_eq_iff`). That these two are necessary is the harder half: a changed
cell could get its old value back in the meantime, but only around a cycle of
copies, and the first copy on a cycle loses a value that the others need
(`iterate_eq_self`).
-/

namespace LambdaOs

universe u v

variable {α : Type u} {β : Type v} [DecidableEq α]

/-- `p.1` becomes what `p.2` holds, for each `p` in order. -/
def seqCopy (ps : List (α × α)) (f : α → β) : α → β :=
  ps.foldl (fun f p x => if x = p.1 then f p.2 else f x) f

/-- Where the value of `x` comes from in a single copy. -/
def copySource (p : α × α) (x : α) : α := if x = p.1 then p.2 else x

/-- Where the value of `x` comes from. -/
def origin (ps : List (α × α)) (x : α) : α := ps.foldr copySource x

@[simp] theorem origin_nil (x : α) : origin [] x = x := rfl

@[simp] theorem origin_cons (p : α × α) (ps : List (α × α)) (x : α) :
    origin (p :: ps) x = copySource p (origin ps x) := rfl

theorem origin_append (ps qs : List (α × α)) (x : α) :
    origin (ps ++ qs) x = origin ps (origin qs x) := List.foldr_append ..

theorem copySource_self (p : α × α) : copySource p p.1 = p.2 := if_pos rfl

/-- The source of a copy is not lost by it. -/
theorem copySource_source (p : α × α) : copySource p p.2 = p.2 := by
  unfold copySource
  split <;> rfl

theorem seqCopy_eq (ps : List (α × α)) (f : α → β) (x : α) :
    seqCopy ps f x = f (origin ps x) := by
  induction ps generalizing f with
  | nil => rfl
  | cons p ps ih =>
    refine (ih _).trans ?_
    rw [origin_cons, copySource, apply_ite f]

theorem seqCopy_cons (p : α × α) (ps : List (α × α)) (f : α → β) :
    seqCopy (p :: ps) f = seqCopy ps (Function.update f p.1 (f p.2)) := by
  rw [seqCopy, List.foldl_cons, seqCopy]
  congr 1
  funext x
  exact (Function.update_apply ..).symm

theorem origin_of_notMem {ps : List (α × α)} {x : α} (h : ∀ p ∈ ps, p.1 ≠ x) :
    origin ps x = x := by
  induction ps with
  | nil => rfl
  | cons p ps ih =>
    rw [origin_cons, ih fun q hq => h q (List.mem_cons_of_mem _ hq)]
    exact if_neg (h p (List.mem_cons_self ..)).symm

/-- An origin is the cell itself or the source of a copy. -/
theorem origin_cases (ps : List (α × α)) (x : α) :
    origin ps x = x ∨ ∃ p ∈ ps, origin ps x = p.2 := by
  induction ps with
  | nil => exact .inl rfl
  | cons p ps ih =>
    rw [origin_cons, copySource]
    split
    · exact .inr ⟨p, List.mem_cons_self, rfl⟩
    · exact ih.imp_right fun ⟨q, hq, heq⟩ => ⟨q, List.mem_cons_of_mem p hq, heq⟩

/-- The last copy to a cell decides, if its source is not changed before. -/
theorem origin_of_last {ps qs : List (α × α)} {p : α × α} (hlast : ∀ q ∈ qs, q.1 ≠ p.1)
    (hsource : ∀ q ∈ ps, q.1 ≠ p.2) : origin (ps ++ p :: qs) p.1 = p.2 := by
  rw [origin_append, origin_cons, origin_of_notMem hlast, copySource_self, origin_of_notMem hsource]

/-- Copies of cells to themselves do nothing. -/
theorem origin_of_same {ps : List (α × α)} (h : ∀ p ∈ ps, p.1 = p.2) (x : α) :
    origin ps x = x := by
  induction ps with
  | nil => rfl
  | cons p ps ih =>
    rw [origin_cons, ih fun q hq => h q (List.mem_cons_of_mem _ hq), copySource]
    split
    · rename_i heq
      rw [heq, h p (List.mem_cons_self ..)]
    · rfl

/-! ## What is sufficient -/

/-- A cell has one source. -/
def OneSource (ps : List (α × α)) : Prop := ∀ p ∈ ps, ∀ q ∈ ps, p.1 = q.1 → p.2 = q.2

/-- No copy reads a cell that an earlier one changed. -/
def ReadsFirst (ps : List (α × α)) : Prop := ps.Pairwise fun p q => p.1 = q.2 → p.1 = p.2

omit [DecidableEq α] in
theorem OneSource.tail {p : α × α} {ps : List (α × α)} (h : OneSource (p :: ps)) :
    OneSource ps := fun q hq r hr =>
  h q (List.mem_cons_of_mem _ hq) r (List.mem_cons_of_mem _ hr)

theorem origin_eq_source {ps : List (α × α)} (hone : OneSource ps) (hfirst : ReadsFirst ps) :
    ∀ p ∈ ps, origin ps p.1 = p.2 := by
  induction ps with
  | nil => exact fun _ hp => absurd hp List.not_mem_nil
  | cons p ps ih =>
    have ih := ih hone.tail hfirst.of_cons
    intro q hq
    rw [origin_cons]
    rcases List.mem_cons.mp hq with rfl | hmem
    · -- a later copy to the same cell has the same source
      by_cases hlater : ∃ r ∈ ps, r.1 = q.1
      · obtain ⟨r, hr, heq⟩ := hlater
        rw [← heq, ih r hr, hone r (List.mem_cons_of_mem _ hr) q hq heq, copySource_source]
      · rw [origin_of_notMem fun r hr heq => hlater ⟨r, hr, heq⟩, copySource_self]
    · rw [ih q hmem, copySource]
      split
      · rename_i heq
        rw [heq, List.rel_of_pairwise_cons hfirst hmem heq.symm]
      · rfl

/-! ## What is necessary

Let every destination end with the value of its source. Then `S x`, the
origin of `x`, is the source of `x` if `x` is a destination, and every copy
moves a value one step back along `S`. -/

section Necessary

variable {S : α → α}

/-- After some of the copies, the value of a cell comes from its `S`-orbit. -/
theorem origin_orbit {ps : List (α × α)} (hS : ∀ p ∈ ps, S p.1 = p.2) (x : α) :
    ∃ m, origin ps x = S^[m] x := by
  induction ps with
  | nil => exact ⟨0, rfl⟩
  | cons p ps ih =>
    obtain ⟨m, hm⟩ := ih fun q hq => hS q (List.mem_cons_of_mem _ hq)
    rw [origin_cons, hm, copySource]
    split
    · rename_i heq
      refine ⟨m + 1, ?_⟩
      rw [Function.iterate_succ_apply', heq, hS p (List.mem_cons_self ..)]
    · exact ⟨m, rfl⟩

/-- And a cell that was written no longer counts itself. -/
theorem origin_orbit_succ {ps : List (α × α)} (hS : ∀ p ∈ ps, S p.1 = p.2) {q : α × α}
    (hq : q ∈ ps) : ∃ m, origin ps q.1 = S^[m] q.2 := by
  induction ps with
  | nil => exact absurd hq List.not_mem_nil
  | cons p ps ih =>
    have hS' := fun r hr => hS r (List.mem_cons_of_mem p hr)
    by_cases hmem : q ∈ ps
    · obtain ⟨m, hm⟩ := ih hS' hmem
      rw [origin_cons, hm, copySource]
      split
      · rename_i heq
        refine ⟨m + 1, ?_⟩
        rw [Function.iterate_succ_apply', heq, hS p (List.mem_cons_self ..)]
      · exact ⟨m, rfl⟩
    · obtain rfl : q = p := (List.mem_cons.mp hq).resolve_right hmem
      obtain ⟨m, hm⟩ := origin_orbit hS' q.1
      rw [origin_cons, hm]
      cases m with
      | zero => exact ⟨0, copySource_self q⟩
      | succ m =>
        rw [Function.iterate_succ_apply, hS q (List.mem_cons_self ..), copySource]
        split
        · rename_i heq
          refine ⟨m + 1, ?_⟩
          rw [Function.iterate_succ_apply', heq, hS q (List.mem_cons_self ..)]
        · exact ⟨m, rfl⟩

/-- On the cells of period `n`, either no copy has done anything, or two of
them have the same origin. -/
theorem origin_period {ps : List (α × α)} (hS : ∀ p ∈ ps, S p.1 = p.2) {n : Nat} :
    (∀ x, S^[n] x = x → origin ps x = x) ∨
      ∃ x y, S^[n] x = x ∧ S^[n] y = y ∧ x ≠ y ∧ origin ps x = origin ps y := by
  induction ps with
  | nil => exact .inl fun _ _ => rfl
  | cons p ps ih =>
    rcases ih fun q hq => hS q (List.mem_cons_of_mem _ hq) with hid | ⟨x, y, hx, hy, hne, heq⟩
    · by_cases hp : S^[n] p.1 = p.1 ∧ p.1 ≠ p.2
      · -- the first copy on a cycle: its destination loses its value
        have hsource : S^[n] p.2 = p.2 := by
          rw [← hS p (List.mem_cons_self ..), ← Function.iterate_succ_apply,
            Function.iterate_succ_apply', hp.1]
        refine .inr ⟨p.1, p.2, hp.1, hsource, hp.2, ?_⟩
        rw [origin_cons, origin_cons, hid _ hp.1, hid _ hsource, copySource_self,
          copySource_source]
      · refine .inl fun x hx => ?_
        rw [origin_cons, hid x hx, copySource]
        split
        · rename_i heq
          subst heq
          exact (not_not.mp fun hne => hp ⟨hx, hne⟩).symm
        · rfl
    · exact .inr ⟨x, y, hx, hy, hne, by rw [origin_cons, origin_cons, heq]⟩

/-- There is no cycle of copies. -/
theorem iterate_eq_self {ps : List (α × α)} (hS : ∀ p ∈ ps, origin ps p.1 = p.2) {n : Nat}
    {x : α} (hx : (origin ps)^[n + 1] x = x) : origin ps x = x := by
  rcases origin_period hS (n := n + 1) with hid | ⟨y, z, hy, hz, hne, heq⟩
  · exact hid x hx
  · refine absurd ?_ hne
    rw [← hy, ← hz, Function.iterate_succ_apply, Function.iterate_succ_apply, heq]

/-- What is read from a cell that changed never reaches its destination: it
would have come around a cycle. -/
theorem source_unchanged {as bs : List (α × α)} {p q : α × α}
    (hS : ∀ r ∈ as ++ p :: bs, origin (as ++ p :: bs) r.1 = r.2) (hq : q ∈ bs)
    (hread : p.1 = q.2) : p.1 = p.2 := by
  have hp : origin (as ++ p :: bs) p.1 = p.2 := hS p (by simp)
  have hend : origin (as ++ p :: bs) q.1 = p.1 := hread ▸ hS q (by simp [hq])
  obtain ⟨m, hm⟩ := origin_orbit_succ (fun r hr => hS r (by simp [hr])) hq
  -- the value `q` brings is not the one `p.1` had at first
  have hmoved : ∃ k, copySource p (origin bs q.1) = (origin (as ++ p :: bs))^[k + 1] p.1 := by
    rw [hm, ← hread, copySource]
    split
    · exact ⟨0, hp.symm⟩
    · cases m with
      | zero => rename_i hne; exact absurd rfl hne
      | succ m => exact ⟨m, rfl⟩
  obtain ⟨k, hk⟩ := hmoved
  obtain ⟨l, hl⟩ := @origin_orbit _ _ _ as (fun r hr => hS r (by simp [hr]))
    (copySource p (origin bs q.1))
  have hcycle : (origin (as ++ p :: bs))^[l + k + 1] p.1 = p.1 := by
    rw [Nat.add_assoc, Function.iterate_add_apply, ← hk, ← hl, ← origin_cons, ← origin_append,
      hend]
  rw [← hp, iterate_eq_self hS hcycle]

theorem readsFirst_of_origin {ps : List (α × α)} (hS : ∀ p ∈ ps, origin ps p.1 = p.2) :
    ReadsFirst ps := by
  -- over the suffixes of `ps`
  suffices h : ∀ bs as, ps = as ++ bs → ReadsFirst bs from h ps [] rfl
  intro bs
  induction bs with
  | nil => exact fun _ _ => List.Pairwise.nil
  | cons p bs ih =>
    intro as heq
    refine List.Pairwise.cons (fun q hq hread => ?_) (ih (as ++ [p]) (by simp [heq]))
    subst heq
    exact source_unchanged hS hq hread

end Necessary

/-- Every destination ends with what its source held first, if and only if a
cell has one source and is read before it is changed. -/
theorem origin_eq_iff {ps : List (α × α)} :
    (∀ p ∈ ps, origin ps p.1 = p.2) ↔ OneSource ps ∧ ReadsFirst ps := by
  constructor
  · intro hS
    refine ⟨fun p hp q hq heq => ?_, readsFirst_of_origin hS⟩
    rw [← hS p hp, heq, hS q hq]
  · rintro ⟨hone, hfirst⟩
    exact origin_eq_source hone hfirst

end LambdaOs
