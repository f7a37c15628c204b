import Mathlib.Logic.Relation

/-!
# Walks over records that lie one behind the other

A walk visits a record, goes on to where that record says the next one is, and
ends where `stop` holds. `RecordsFrom` lists the places it comes to: the visits
are folded over them, and there is such a list when and only when the walk
returns. Where every record leads either to itself or closer to the end, that is
when no record that is reached leads to itself.
-/

namespace LambdaOs

variable {α σ : Type*}

section Records

variable (stop : α → Prop) (next : α → α)

/-- The records from `a` on. -/
inductive RecordsFrom : α → List α → Prop
  | stop {a : α} : stop a → RecordsFrom a []
  | record {a : α} {as : List α} : ¬ stop a → RecordsFrom (next a) as → RecordsFrom a (a :: as)

/-- A walk goes on from one place to another. -/
def GoesOn (a b : α) : Prop := ¬ stop a ∧ b = next a

def Reached : α → α → Prop := Relation.ReflTransGen (GoesOn stop next)

variable {stop next} {a b : α} {as : List α}

/-- Behind a record that leads to itself there is no end. -/
theorem not_recordsFrom (hstop : ¬ stop a) (hnext : next a = a) : ¬ RecordsFrom stop next a as := by
  intro h
  induction h with
  | stop hend => exact hstop hend
  | record _ _ ih => exact ih (hnext.symm ▸ hstop) (by rw [hnext, hnext])

theorem RecordsFrom.of_reached (h : RecordsFrom stop next a as) (hb : Reached stop next a b) :
    ∃ bs, RecordsFrom stop next b bs := by
  induction hb with
  | refl => exact ⟨as, h⟩
  | tail _ hgo ih =>
      obtain ⟨bs, hbs⟩ := ih
      obtain ⟨hstop, rfl⟩ := hgo
      cases hbs with
      | stop hend => exact absurd hend hstop
      | record _ hrest => exact ⟨_, hrest⟩

/-- Every place reached is left for one that is closer to the end. -/
theorem exists_recordsFrom (room : α → Nat)
    (hstep : ∀ b, Reached stop next a b → ¬ stop b → room (next b) < room b) :
    ∃ as, RecordsFrom stop next a as := by
  induction hr : room a using Nat.strongRecOn generalizing a with
  | ind r ih =>
      by_cases hstop : stop a
      · exact ⟨[], .stop hstop⟩
      · have hlt : room (next a) < r := hr ▸ hstep a .refl hstop
        have hstep' : ∀ b, Reached stop next (next a) b → ¬ stop b → room (next b) < room b :=
          fun b hb => hstep b (.head ⟨hstop, rfl⟩ hb)
        obtain ⟨as, has⟩ := ih _ hlt hstep' rfl
        exact ⟨a :: as, .record hstop has⟩

theorem exists_recordsFrom_iff (room : α → Nat)
    (hstep : ∀ b, Reached stop next a b → ¬ stop b → next b = b ∨ room (next b) < room b) :
    (∃ as, RecordsFrom stop next a as) ↔
      ∀ b, Reached stop next a b → ¬ stop b → next b ≠ b := by
  constructor
  · rintro ⟨as, has⟩ b hb hstop hnext
    obtain ⟨bs, hbs⟩ := has.of_reached hb
    exact not_recordsFrom hstop hnext hbs
  · intro hne
    exact exists_recordsFrom room fun b hb hstop => (hstep b hb hstop).resolve_left (hne b hb hstop)

end Records

section Walk

variable (stop : α → Prop) [DecidablePred stop] (next : α → α) (visit : σ → α → σ)

/-- `none` when the fuel runs out. -/
def walkRecords : Nat → α → σ → Option σ
  | 0, _, _ => none
  | fuel + 1, a, s => if stop a then some s else walkRecords fuel (next a) (visit s a)

variable {stop next visit} {a : α} {as : List α} {s s' : σ} {fuel : Nat}

/-- With fuel for one more than the records the walk visits all of them in
order. -/
theorem RecordsFrom.walk_eq (h : RecordsFrom stop next a as) (hfuel : as.length < fuel) :
    walkRecords stop next visit fuel a s = some (as.foldl visit s) := by
  induction h generalizing fuel s with
  | stop hend =>
      obtain ⟨fuel, rfl⟩ := Nat.exists_eq_succ_of_ne_zero (Nat.ne_of_gt hfuel)
      rw [walkRecords, if_pos hend, List.foldl_nil]
  | record hstop _ ih =>
      obtain ⟨fuel, rfl⟩ := Nat.exists_eq_succ_of_ne_zero (Nat.ne_of_gt (Nat.zero_lt_of_lt hfuel))
      rw [walkRecords, if_neg hstop, ih (by simpa using hfuel), List.foldl_cons]

/-- What the walk returns, it has folded over the records. -/
theorem walkRecords_eq_some (h : walkRecords stop next visit fuel a s = some s') :
    ∃ as, RecordsFrom stop next a as ∧ s' = as.foldl visit s := by
  induction fuel generalizing a s with
  | zero => cases h
  | succ fuel ih =>
      rw [walkRecords] at h
      split at h
      case isTrue hend => exact ⟨[], .stop hend, (Option.some.inj h).symm⟩
      case isFalse hstop =>
        obtain ⟨as, hrest, rfl⟩ := ih h
        exact ⟨a :: as, .record hstop hrest, rfl⟩

theorem walkRecords_returns_iff :
    (∃ fuel s', walkRecords stop next visit fuel a s = some s') ↔
      ∃ as, RecordsFrom stop next a as := by
  constructor
  · rintro ⟨fuel, s', h⟩
    obtain ⟨as, has, -⟩ := walkRecords_eq_some h
    exact ⟨as, has⟩
  · rintro ⟨as, has⟩
    exact ⟨as.length + 1, _, has.walk_eq (Nat.lt_succ_self _)⟩

end Walk

end LambdaOs
