import Mathlib.Data.List.Basic

/-!
# The last write wins

What a cell holds after a sequence of writes, some of which hit it: the value
of the last write that does, or what it held before. Sequences of single
stores and sequences of whole operations are both of this shape.
-/

namespace LambdaOs

section LastWrite

variable {α β : Type*} (hits : α → Prop) [DecidablePred hits] (value : α → β)

def lastWrite (writes : List α) (init : β) : β :=
  writes.foldl (fun b a => if hits a then value a else b) init

@[simp] theorem lastWrite_nil (init : β) : lastWrite hits value [] init = init := rfl

@[simp] theorem lastWrite_cons (a : α) (writes : List α) (init : β) :
    lastWrite hits value (a :: writes) init =
      lastWrite hits value writes (if hits a then value a else init) := rfl

variable {hits value}

theorem lastWrite_of_forall_not {init : β} {writes : List α} (h : ∀ a ∈ writes, ¬ hits a) :
    lastWrite hits value writes init = init := by
  induction writes with
  | nil => rfl
  | cons a writes ih =>
      rw [lastWrite_cons, if_neg (h a (List.mem_cons_self ..))]
      exact ih fun b hb => h b (List.mem_cons_of_mem _ hb)

/-- When every write that hits the cell has the same value, one is enough. -/
theorem lastWrite_of_mem {b init : β} {writes : List α} (hex : ∃ a ∈ writes, hits a)
    (hval : ∀ a ∈ writes, hits a → value a = b) : lastWrite hits value writes init = b := by
  induction writes generalizing init with
  | nil => simp at hex
  | cons a writes ih =>
      have hrest : ∀ c ∈ writes, hits c → value c = b :=
        fun c hc => hval c (List.mem_cons_of_mem _ hc)
      rw [lastWrite_cons]
      by_cases hlater : ∃ c ∈ writes, hits c
      · exact ih hlater hrest
      · have ha : hits a := by
          obtain ⟨c, hc, hhit⟩ := hex
          rcases List.mem_cons.mp hc with rfl | hc
          · exact hhit
          · exact absurd ⟨c, hc, hhit⟩ hlater
        rw [if_pos ha, lastWrite_of_forall_not fun c hc hhit => hlater ⟨c, hc, hhit⟩]
        exact hval a (List.mem_cons_self ..) ha

end LastWrite

end LambdaOs
