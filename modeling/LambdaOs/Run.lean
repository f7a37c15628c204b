import Mathlib.Logic.Basic

/-!
# Runs of a partial step function

A component whose calls either return a next state or stop the machine
(a panic, a fault, a call that is not enabled) is a partial step function
`step : σ → ι → Option σ`. `exec` folds it over a list of actions. An
invariant of one step, which may need a side condition on the step, lifts to
the runs whose steps all meet it (`Guarded`, `exec_guarded_inv`).

Every prefix of a run is a run, so a statement about the last state of
every run is a statement about every state reached.
-/

namespace LambdaOs

section Run

variable {σ ι : Type*} (step : σ → ι → Option σ)

/-- The state after a list of actions; `none` once a step refuses. -/
def exec : σ → List ι → Option σ
  | s, [] => some s
  | s, a :: as => (step s a).bind fun s' => exec s' as

/-- Every action of the list meets `ok` in the state it is taken in. -/
def Guarded (ok : σ → ι → Prop) : σ → List ι → Prop
  | _, [] => True
  | s, a :: as => ok s a ∧ ∀ s', step s a = some s' → Guarded ok s' as

instance Guarded.decidable (ok : σ → ι → Prop) [∀ s, DecidablePred (ok s)] :
    ∀ s as, Decidable (Guarded step ok s as)
  | _, [] => isTrue trivial
  | s, a :: as =>
      match h : step s a with
      | none => decidable_of_iff (ok s a) (by simp [Guarded, h])
      | some s' =>
          have := Guarded.decidable ok s' as
          decidable_of_iff (ok s a ∧ Guarded step ok s' as) (by simp [Guarded, h])

variable {step}

theorem exec_cons_eq_some {s t : σ} {a : ι} {as : List ι} :
    exec step s (a :: as) = some t ↔
      ∃ s', step s a = some s' ∧ exec step s' as = some t := by
  simp [exec, Option.bind_eq_some_iff]

theorem exec_append_eq_some {s t : σ} {as bs : List ι} :
    exec step s (as ++ bs) = some t ↔
      ∃ s', exec step s as = some s' ∧ exec step s' bs = some t := by
  induction as generalizing s with
  | nil => simp [exec]
  | cons a as ih =>
      simp only [List.cons_append, exec_cons_eq_some, ih]
      constructor
      · rintro ⟨s₁, h₁, s₂, h₂, h₃⟩
        exact ⟨s₂, ⟨s₁, h₁, h₂⟩, h₃⟩
      · rintro ⟨s₂, ⟨s₁, h₁, h₂⟩, h₃⟩
        exact ⟨s₁, h₁, s₂, h₂, h₃⟩

/-- A loop over a list is a run. -/
theorem foldlM_eq_exec {s : σ} {as : List ι} : as.foldlM step s = exec step s as := by
  induction as generalizing s with
  | nil => rfl
  | cons a as ih =>
      rw [List.foldlM_cons, exec]
      cases step s a with
      | none => rfl
      | some s' => exact ih

/-- The run rule: what every guarded step preserves, every guarded run
preserves. -/
theorem exec_guarded_inv {ok : σ → ι → Prop} {Inv : σ → Prop}
    (hstep : ∀ s a s', Inv s → ok s a → step s a = some s' → Inv s') {as : List ι} {s t : σ}
    (hs : Inv s) (hg : Guarded step ok s as) (hrun : exec step s as = some t) : Inv t := by
  induction as generalizing s with
  | nil =>
      obtain rfl : s = t := by simpa [exec] using hrun
      exact hs
  | cons a as ih =>
      obtain ⟨s', hs', hrest⟩ := exec_cons_eq_some.mp hrun
      exact ih (hstep s a s' hs hg.1 hs') (hg.2 s' hs') hrest

/-- What every step preserves, every run preserves. -/
theorem exec_inv {Inv : σ → Prop} (hstep : ∀ s a s', Inv s → step s a = some s' → Inv s')
    {as : List ι} {s t : σ} (hs : Inv s) (hrun : exec step s as = some t) : Inv t := by
  induction as generalizing s with
  | nil =>
      obtain rfl : s = t := by simpa [exec] using hrun
      exact hs
  | cons a as ih =>
      obtain ⟨s', hs', hrest⟩ := exec_cons_eq_some.mp hrun
      exact ih (hstep s a s' hs hs') hrest

/-- A guard on the actions alone. -/
theorem guarded_of_forall {P : ι → Prop} {as : List ι} (s : σ) (h : ∀ a ∈ as, P a) :
    Guarded step (fun _ a => P a) s as := by
  induction as generalizing s with
  | nil => trivial
  | cons a as ih =>
      refine ⟨h a List.mem_cons_self, ?_⟩
      intro s' _
      exact ih s' fun b hb => h b (List.mem_cons_of_mem a hb)

/-- The guard of a run holds of the action after it. -/
theorem Guarded.last {ok : σ → ι → Prop} {as : List ι} {s t : σ} {a : ι}
    (hg : Guarded step ok s (as ++ [a])) (hrun : exec step s as = some t) : ok t a := by
  induction as generalizing s with
  | nil =>
      obtain rfl : s = t := by simpa [exec] using hrun
      exact hg.1
  | cons b as ih =>
      obtain ⟨s', hs', hrest⟩ := exec_cons_eq_some.mp hrun
      exact ih (hg.2 s' hs') hrest

/-- Two guards that agree wherever the invariant holds guard the same runs. -/
theorem guarded_iff {ok ok' : σ → ι → Prop} {Inv : σ → Prop}
    (hiff : ∀ s a, Inv s → (ok s a ↔ ok' s a))
    (hstep : ∀ s a s', Inv s → ok' s a → step s a = some s' → Inv s')
    {as : List ι} {s : σ} (hs : Inv s) : Guarded step ok s as ↔ Guarded step ok' s as := by
  induction as generalizing s with
  | nil => exact Iff.rfl
  | cons a as ih =>
      rw [Guarded, Guarded, hiff s a hs]
      refine and_congr_right fun hok => forall₂_congr ?_
      intro s' hs'
      exact ih (hstep s a s' hs hok hs')

end Run

section Outputs

variable {σ τ ι ο : Type*}

/-- The last state of a run of a total step function, and what its steps
return. -/
def execOut (step : σ → ι → σ × ο) : σ → List ι → σ × List ο
  | s, [] => (s, [])
  | s, a :: as =>
      let r := step s a
      let rs := execOut step r.1 as
      (rs.1, r.2 :: rs.2)

variable {step : σ → ι → σ × ο} {step' : τ → ι → τ × ο}

/-- The simulation rule: related states return the same and stay related. -/
theorem execOut_sim {R : σ → τ → Prop}
    (hstep : ∀ s t a, R s t → R (step s a).1 (step' t a).1 ∧ (step s a).2 = (step' t a).2)
    (as : List ι) {s : σ} {t : τ} (h : R s t) :
    R (execOut step s as).1 (execOut step' t as).1 ∧
      (execOut step s as).2 = (execOut step' t as).2 := by
  induction as generalizing s t with
  | nil => exact ⟨h, rfl⟩
  | cons a as ih =>
      obtain ⟨hnext, hout⟩ := hstep s t a h
      obtain ⟨hlast, houts⟩ := ih hnext
      exact ⟨hlast, by simp only [execOut, hout, houts]⟩

end Outputs

/-- A computation that may stop the machine, peeled apart. -/
theorem Except.bind_eq_ok_iff {ε α β : Type} {x : Except ε α} {f : α → Except ε β} {b : β} :
    (x >>= f) = .ok b ↔ ∃ a, x = .ok a ∧ f a = .ok b := by
  cases x with
  | error err => simp [bind, Except.bind]
  | ok a => simp [bind, Except.bind]

end LambdaOs
