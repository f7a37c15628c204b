import LambdaOs.LastWrite
import Mathlib.Logic.Function.Basic

/-!
# Taking turns

Many parties, one of which runs; the others wait with what they left in a cell
each. A turn ends with the runner's value put into its cell, unless the runner
has none yet (`live`), and begins with what is in the cell of the next one.

The trace says who was given which value and who went on with which. A trace is
`Faithful` if everybody goes on with the last value given: nobody sees anybody
else's, in whatever order the turns come. `Turns.Inv` is the invariant, with a
rule for each thing that can happen between and at the turns.
-/

namespace LambdaOs

section Turns

variable {τ γ : Type*}

/-- `saved` are the cells. The cell of a runner that is `live` is not in use:
the runner has its value with it. -/
structure Turns (τ γ : Type*) where
  current : τ
  live : Bool
  saved : τ → γ

/-- A value for a party: it is made, or it ends a turn. `resumed` begins one. -/
inductive TurnEvent (τ γ : Type*) where
  | made (party : τ) (value : γ)
  | suspended (party : τ) (value : γ)
  | resumed (party : τ) (value : γ)
deriving Repr, DecidableEq

/-- The party and the value an event gives. -/
def TurnEvent.gives : TurnEvent τ γ → Option (τ × γ)
  | .made t g => some (t, g)
  | .suspended t g => some (t, g)
  | .resumed _ _ => none

variable [DecidableEq τ]

/-- The last value `t` was given, `init` if it was not given any. -/
def lastGiven (init : γ) (t : τ) (trace : List (TurnEvent τ γ)) : γ :=
  lastWrite (fun e => (e.gives.map Prod.fst) = some t) (fun e => (e.gives.map Prod.snd).getD init)
    trace init

@[simp] theorem lastGiven_nil (init : γ) (t : τ) : lastGiven init t [] = init := rfl

theorem lastGiven_snoc (init : γ) (t : τ) (trace : List (TurnEvent τ γ)) (e : TurnEvent τ γ) :
    lastGiven init t (trace ++ [e]) =
      if (e.gives.map Prod.fst) = some t then (e.gives.map Prod.snd).getD init
      else lastGiven init t trace := by
  simp only [lastGiven, lastWrite, List.foldl_append, List.foldl_cons, List.foldl_nil]

/-- Everybody goes on with the last value given. -/
def Faithful (init : τ → γ) (trace : List (TurnEvent τ γ)) : Prop :=
  ∀ before t g after, trace = before ++ .resumed t g :: after → g = lastGiven (init t) t before

omit [DecidableEq τ] in
theorem snoc_eq_append_cons {trace before after : List (TurnEvent τ γ)} {e e' : TurnEvent τ γ}
    (h : trace ++ [e] = before ++ e' :: after) :
    (after = [] ∧ before = trace ∧ e' = e) ∨ ∃ mid, after = mid ++ [e] ∧
      trace = before ++ e' :: mid := by
  rcases List.eq_nil_or_concat' after with rfl | ⟨mid, last, rfl⟩
  · obtain ⟨h₁, h₂⟩ := List.append_inj' h rfl
    exact Or.inl ⟨rfl, h₁.symm, (List.cons.inj h₂).1.symm⟩
  · rw [← List.cons_append, ← List.append_assoc] at h
    obtain ⟨h₁, h₂⟩ := List.append_inj' h rfl
    exact Or.inr ⟨mid, by rw [(List.cons.inj h₂).1], h₁⟩

theorem Faithful.nil (init : τ → γ) : Faithful init [] := by
  intro before t g after h
  cases before <;> cases h

theorem Faithful.snoc {init : τ → γ} {trace : List (TurnEvent τ γ)} {e : TurnEvent τ γ}
    (h : Faithful init trace)
    (he : ∀ t g, e = .resumed t g → g = lastGiven (init t) t trace) :
    Faithful init (trace ++ [e]) := by
  intro before t g after heq
  rcases snoc_eq_append_cons heq with ⟨-, rfl, hlast⟩ | ⟨mid, -, rfl⟩
  · exact he t g hlast.symm
  · exact h before t g mid rfl

/-! ## One turn -/

namespace Turns

/-- A value is put into the cell of a party. -/
def put (s : Turns τ γ) (t : τ) (g : γ) : Turns τ γ :=
  { s with saved := Function.update s.saved t g }

/-- The value of the runner goes into its cell, if it has one. -/
def leave (s : Turns τ γ) (g : γ) : Turns τ γ := if s.live then s.put s.current g else s

/-- The runner is replaced by `t`, whose turn does not begin yet. -/
def replace (s : Turns τ γ) (t : τ) (g : γ) : Turns τ γ :=
  { s.put t g with current := t, live := false }

/-- The turn of the runner ends with `g`, and the turn of `t` begins. -/
def yield (s : Turns τ γ) (g : γ) (t : τ) : Turns τ γ :=
  { s.leave g with current := t, live := true }

/-- The events of `yield`. -/
def yieldEvents (s : Turns τ γ) (g : γ) (t : τ) : List (TurnEvent τ γ) :=
  (if s.live then [.suspended s.current g] else []) ++ [.resumed t ((s.leave g).saved t)]

/-- Every cell in use holds the last value given. Those who are `retired` have
no cell that counts. -/
structure Inv (init : τ → γ) (retired : τ → Prop) (s : Turns τ γ)
    (trace : List (TurnEvent τ γ)) : Prop where
  cells : ∀ t, ¬ retired t → ¬ (t = s.current ∧ s.live = true) →
    s.saved t = lastGiven (init t) t trace
  faithful : Faithful init trace

variable {init : τ → γ} {retired retired' : τ → Prop} {s : Turns τ γ}
  {trace : List (TurnEvent τ γ)}

theorem Inv.start (current : τ) (live : Bool) (saved : τ → γ) (retired : τ → Prop) :
    Inv saved retired ⟨current, live, saved⟩ [] :=
  ⟨fun _ _ _ => rfl, Faithful.nil saved⟩

theorem Inv.retire (h : Inv init retired s trace) (hmore : ∀ t, retired t → retired' t) :
    Inv init retired' s trace :=
  ⟨fun t ht => h.cells t fun hr => ht (hmore t hr), h.faithful⟩

/-- The cell that is not in use may be written to. -/
theorem Inv.scratch (h : Inv init retired s trace) (g : γ) :
    Inv init retired (s.leave g) trace := by
  unfold leave
  split
  · rename_i hlive
    refine ⟨fun u hr hu => ?_, h.faithful⟩
    have hne : u ≠ s.current := fun he => hu ⟨he, hlive⟩
    rw [← h.cells u hr hu]
    exact Function.update_of_ne hne ..
  · exact h

/-- What a party is given counts for that party only. -/
theorem lastGiven_made {t u : τ} {g : γ} :
    lastGiven (init u) u (trace ++ [.made t g]) =
      if u = t then g else lastGiven (init u) u trace := by
  rw [lastGiven_snoc]
  by_cases hut : u = t
  · subst hut
    simp [TurnEvent.gives]
  · rw [if_neg hut, if_neg]
    simpa [TurnEvent.gives] using fun he => hut he.symm

theorem Inv.make (h : Inv init retired s trace) {t : τ} {g : γ}
    (hne : ¬ (t = s.current ∧ s.live = true)) (hretired : ∀ u, u ≠ t → retired u → retired' u) :
    Inv init retired' (s.put t g) (trace ++ [.made t g]) where
  cells u hr hu := by
    rw [lastGiven_made]
    by_cases hut : u = t
    · subst hut
      rw [if_pos rfl]
      exact Function.update_self ..
    · rw [if_neg hut, ← h.cells u (fun hr' => hr (hretired u hut hr')) hu]
      exact Function.update_of_ne hut ..
  faithful := h.faithful.snoc nofun

/-- Who is replaced in the middle of a turn is retired. -/
theorem Inv.replace (h : Inv init retired s trace) {t : τ} {g : γ}
    (hretired : ∀ u, u ≠ t → retired u → retired' u)
    (hcurrent : s.current ≠ t → s.live = true → retired' s.current) :
    Inv init retired' (s.replace t g) (trace ++ [.made t g]) where
  cells u hr _ := by
    rw [lastGiven_made]
    by_cases hut : u = t
    · subst hut
      rw [if_pos rfl]
      exact Function.update_self ..
    · rw [if_neg hut, ← h.cells u (fun hr' => hr (hretired u hut hr')) ?_]
      · exact Function.update_of_ne hut ..
      · rintro ⟨rfl, hlive⟩
        exact hr (hcurrent hut hlive)
  faithful := h.faithful.snoc nofun

/-- With its value in its cell, the runner is like all others. -/
theorem Inv.left (h : Inv init retired s trace) (g : γ) {t : τ} (ht : ¬ retired t) :
    (s.leave g).saved t = lastGiven (init t) t
      (trace ++ if s.live then [.suspended s.current g] else []) := by
  unfold leave
  by_cases hlive : s.live = true
  · rw [if_pos hlive, if_pos hlive, lastGiven_snoc]
    by_cases htc : t = s.current
    · subst htc
      simp [put, TurnEvent.gives]
    · rw [if_neg (by simpa [TurnEvent.gives] using fun he => htc he.symm),
        ← h.cells t ht fun hc => htc hc.1]
      exact Function.update_of_ne htc ..
  · rw [if_neg hlive, if_neg hlive, List.append_nil]
    exact h.cells t ht fun hc => hlive hc.2

theorem Inv.yield (h : Inv init retired s trace) (g : γ) {t : τ} (ht : ¬ retired t) :
    Inv init retired (s.yield g t) (trace ++ s.yieldEvents g t) where
  cells u hr _ := by
    rw [yieldEvents, ← List.append_assoc, lastGiven_snoc, if_neg (by simp [TurnEvent.gives])]
    exact h.left g hr
  faithful := by
    rw [yieldEvents, ← List.append_assoc]
    have hsuspended : Faithful init
        (trace ++ if s.live then [.suspended s.current g] else []) := by
      split
      · exact h.faithful.snoc nofun
      · rw [List.append_nil]
        exact h.faithful
    refine hsuspended.snoc ?_
    rintro u g' heq
    cases heq
    exact h.left g ht

end Turns

end Turns

end LambdaOs
