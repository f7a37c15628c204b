import Mathlib.Data.List.Basic
import Mathlib.Logic.Function.Basic

/-!
# Programs over a memory

A program that loads and stores cells, one after another, and goes on with
what it loaded, is a tree. `exec` runs it and `trace` lists what it did.
Notes are marks of the program's own: they do nothing.

- `Safe ok halt post` holds of a program and a memory when everything the
  program does is `ok` after what it did before, `halt` holds of what it stops
  with, and `post` where it returns. It is composed along the program
  (`Safe.bind`), and `Safe.trace_ok` and `Safe.exec_ok` say what it means for
  the run.
- A run depends on no cell that it neither finds nor writes first
  (`exec_congr`).
-/

namespace LambdaOs

/-- What a program does, in order. -/
inductive Access (τ : Type) where
  | read (tag : τ) (addr : Nat)
  | write (addr : Nat)
  | note (tag : τ)
deriving Repr, DecidableEq

/-- A program over cells of `β` that returns an `α` or stops with an `ε`. -/
inductive MemProg (ε τ β α : Type) where
  | ret (a : α)
  | stop (err : ε)
  | read (tag : τ) (addr : Nat) (next : β → MemProg ε τ β α)
  | write (addr : Nat) (b : β) (next : MemProg ε τ β α)
  | note (tag : τ) (next : MemProg ε τ β α)

namespace MemProg

variable {ε τ β α γ : Type}

protected def bind : MemProg ε τ β α → (α → MemProg ε τ β γ) → MemProg ε τ β γ
  | .ret a, f => f a
  | .stop err, _ => .stop err
  | .read tag addr next, f => .read tag addr fun b => (next b).bind f
  | .write addr b next, f => .write addr b (next.bind f)
  | .note tag next, f => .note tag (next.bind f)

instance : Monad (MemProg ε τ β) where
  pure := .ret
  bind := MemProg.bind

def load (tag : τ) (addr : Nat) : MemProg ε τ β β := .read tag addr .ret
def store (addr : Nat) (b : β) : MemProg ε τ β Unit := .write addr b (.ret ())
def mark (tag : τ) : MemProg ε τ β Unit := .note tag (.ret ())

/-- The program, with what it stops with for a result. -/
def attempt {ε' : Type} : MemProg ε τ β α → MemProg ε' τ β (Except ε α)
  | .ret a => .ret (.ok a)
  | .stop err => .ret (.error err)
  | .read tag addr next => .read tag addr fun b => (next b).attempt
  | .write addr b next => .write addr b next.attempt
  | .note tag next => .note tag next.attempt

/-- How it ends, and the memory then. -/
def exec : MemProg ε τ β α → (Nat → β) → Except ε α × (Nat → β)
  | .ret a, m => (.ok a, m)
  | .stop err, m => (.error err, m)
  | .read _ addr next, m => (next (m addr)).exec m
  | .write addr b next, m => next.exec (Function.update m addr b)
  | .note _ next, m => next.exec m

def trace : MemProg ε τ β α → (Nat → β) → List (Access τ)
  | .ret _, _ => []
  | .stop _, _ => []
  | .read tag addr next, m => .read tag addr :: (next (m addr)).trace m
  | .write addr b next, m => .write addr :: next.trace (Function.update m addr b)
  | .note tag next, m => .note tag :: next.trace m

/-! ## One after another -/

section Bind

variable {x : MemProg ε τ β α} {f : α → MemProg ε τ β γ} {m m' : Nat → β} {a : α} {err : ε}

@[simp] theorem exec_pure : (pure a : MemProg ε τ β α).exec m = (.ok a, m) := rfl

@[simp] theorem exec_stop : (stop err : MemProg ε τ β α).exec m = (.error err, m) := rfl

@[simp] theorem exec_load {tag : τ} {addr : Nat} :
    (load tag addr : MemProg ε τ β β).exec m = (.ok (m addr), m) := rfl

@[simp] theorem exec_store {addr : Nat} {b : β} :
    (store addr b : MemProg ε τ β Unit).exec m = (.ok (), Function.update m addr b) := rfl

@[simp] theorem exec_mark {tag : τ} : (mark tag : MemProg ε τ β Unit).exec m = (.ok (), m) := rfl

theorem exec_bind :
    (x >>= f).exec m =
      match x.exec m with
      | (.ok a, m') => (f a).exec m'
      | (.error err, m') => (.error err, m') := by
  change (x.bind f).exec m = _
  induction x generalizing m with
  | ret a => rfl
  | stop err => rfl
  | read tag addr next ih => exact ih (m addr)
  | write addr b next ih => exact ih
  | note tag next ih => exact ih

theorem exec_bind_ok (h : x.exec m = (.ok a, m')) : (x >>= f).exec m = (f a).exec m' := by
  rw [exec_bind, h]

theorem trace_bind :
    (x >>= f).trace m =
      x.trace m ++
        match x.exec m with
        | (.ok a, m') => (f a).trace m'
        | (.error _, _) => [] := by
  change (x.bind f).trace m = _
  induction x generalizing m with
  | ret a => rfl
  | stop err => rfl
  | read tag addr next ih => exact congrArg (_ :: ·) (ih (m addr))
  | write addr b next ih => exact congrArg (_ :: ·) ih
  | note tag next ih => exact congrArg (_ :: ·) ih

theorem trace_bind_ok (h : x.exec m = (.ok a, m')) :
    (x >>= f).trace m = x.trace m ++ (f a).trace m' := by
  rw [trace_bind, h]

theorem exec_attempt {ε' : Type} :
    (x.attempt : MemProg ε' τ β (Except ε α)).exec m = (.ok (x.exec m).1, (x.exec m).2) := by
  induction x generalizing m with
  | ret a => rfl
  | stop err => rfl
  | read tag addr next ih => exact ih (m addr)
  | write addr b next ih => exact ih
  | note tag next ih => exact ih

theorem trace_attempt {ε' : Type} :
    (x.attempt : MemProg ε' τ β (Except ε α)).trace m = x.trace m := by
  induction x generalizing m with
  | ret a => rfl
  | stop err => rfl
  | read tag addr next ih => exact congrArg (_ :: ·) (ih (m addr))
  | write addr b next ih => exact congrArg (_ :: ·) ih
  | note tag next ih => exact congrArg (_ :: ·) ih

/-- Cells that are not written stay. -/
theorem exec_frame {addr : Nat} (h : .write addr ∉ x.trace m) : (x.exec m).2 addr = m addr := by
  induction x generalizing m with
  | ret a => rfl
  | stop err => rfl
  | read tag a next ih => exact ih (m a) fun hin => h (List.mem_cons_of_mem _ hin)
  | write a b next ih =>
    have hne : addr ≠ a := fun he => h (he ▸ List.mem_cons_self)
    refine (ih fun hin => h (List.mem_cons_of_mem _ hin)).trans ?_
    exact Function.update_of_ne hne ..
  | note tag next ih => exact ih fun hin => h (List.mem_cons_of_mem _ hin)

/-- Cells outside of the ones that are written stay. -/
theorem exec_frame_of_writes {P : Nat → Prop} {r : Except ε α}
    (hwrites : ∀ addr, .write addr ∈ x.trace m → P addr) (hexec : x.exec m = (r, m'))
    {addr : Nat} (h : ¬ P addr) : m' addr = m addr := by
  have hsame := exec_frame (mt (hwrites addr) h)
  rwa [hexec] at hsame

/-- What the first does is done. -/
theorem mem_trace_bind {e : Access τ} (h : e ∈ x.trace m) : e ∈ (x >>= f).trace m := by
  rw [trace_bind]
  exact List.mem_append_left _ h

end Bind

/-! ## Looking -/

/-- The program returns `a` and writes nothing. -/
def Finds (x : MemProg ε τ β α) (m : Nat → β) (a : α) : Prop :=
  x.exec m = (.ok a, m) ∧ ∀ addr, .write addr ∉ x.trace m

section Finds

variable {x : MemProg ε τ β α} {f : α → MemProg ε τ β γ} {m : Nat → β} {a : α} {c : γ}

theorem finds_pure : (pure a : MemProg ε τ β α).Finds m a := ⟨rfl, fun _ => List.not_mem_nil⟩

theorem finds_load {tag : τ} {addr : Nat} :
    (load tag addr : MemProg ε τ β β).Finds m (m addr) :=
  ⟨rfl, by simp [load, trace]⟩

theorem Finds.unique {a' : α} (h : x.Finds m a) (h' : x.Finds m a') : a = a' :=
  Except.ok.inj (Prod.mk.inj (h.1.symm.trans h'.1)).1

theorem Finds.exec_bind (h : x.Finds m a) : (x >>= f).exec m = (f a).exec m := exec_bind_ok h.1

/-- Only what comes after it writes. -/
theorem Finds.write_mem (h : x.Finds m a) {addr : Nat} :
    .write addr ∈ (x >>= f).trace m ↔ .write addr ∈ (f a).trace m := by
  rw [trace_bind_ok h.1, List.mem_append]
  exact or_iff_right (h.2 addr)

theorem Finds.bind (h : x.Finds m a) (hf : (f a).Finds m c) : (x >>= f).Finds m c :=
  ⟨h.exec_bind.trans hf.1, fun addr => mt h.write_mem.mp (hf.2 addr)⟩

end Finds

/-! ## Running within bounds -/

/-- The program returns `a` and leaves `m'`, writing only where `P` holds. -/
def Runs (x : MemProg ε τ β α) (m : Nat → β) (a : α) (m' : Nat → β) (P : Nat → Prop) : Prop :=
  x.exec m = (.ok a, m') ∧ ∀ addr, .write addr ∈ x.trace m → P addr

section Runs

variable {x : MemProg ε τ β α} {f : α → MemProg ε τ β γ} {m m' m'' : Nat → β} {a : α} {c : γ}
  {P : Nat → Prop}

theorem runs_pure : (pure a : MemProg ε τ β α).Runs m a m P :=
  ⟨rfl, fun _ h => absurd h List.not_mem_nil⟩

theorem runs_store {addr : Nat} {b : β} (h : P addr) :
    (store addr b : MemProg ε τ β Unit).Runs m () (Function.update m addr b) P := by
  refine ⟨rfl, ?_⟩
  intro addr' hw
  simp only [store, trace, List.mem_singleton, Access.write.injEq] at hw
  exact hw ▸ h

theorem Finds.runs (h : x.Finds m a) : x.Runs m a m P := ⟨h.1, fun addr hw => absurd hw (h.2 addr)⟩

theorem Runs.bind (h : x.Runs m a m' P) (hf : (f a).Runs m' c m'' P) :
    (x >>= f).Runs m c m'' P := by
  refine ⟨(exec_bind_ok h.1).trans hf.1, ?_⟩
  intro addr hw
  rw [trace_bind_ok h.1, List.mem_append] at hw
  exact hw.elim (h.2 addr) (hf.2 addr)

theorem Runs.mono {Q : Nat → Prop} (h : x.Runs m a m' P) (hPQ : ∀ addr, P addr → Q addr) :
    x.Runs m a m' Q :=
  ⟨h.1, fun addr hw => hPQ addr (h.2 addr hw)⟩

theorem Runs.frame (h : x.Runs m a m' P) {addr : Nat} (hP : ¬ P addr) : m' addr = m addr :=
  exec_frame_of_writes h.2 h.1 hP

end Runs

/-! ## Safety -/

section Safe

variable (ok : List (Access τ) → Access τ → Prop) (halt : ε → Prop)

/-- After `h`, everything that the program does is `ok`, and it ends as `halt`
or `post` say. -/
def Safe (post : List (Access τ) → α → (Nat → β) → Prop) :
    List (Access τ) → MemProg ε τ β α → (Nat → β) → Prop
  | h, .ret a, m => post h a m
  | _, .stop err, _ => halt err
  | h, .read tag addr next, m =>
      ok h (.read tag addr) ∧ Safe post (h ++ [.read tag addr]) (next (m addr)) m
  | h, .write addr b next, m =>
      ok h (.write addr) ∧ Safe post (h ++ [.write addr]) next (Function.update m addr b)
  | h, .note tag next, m => ok h (.note tag) ∧ Safe post (h ++ [.note tag]) next m

variable {ok halt} {h : List (Access τ)} {x : MemProg ε τ β α} {m : Nat → β}

theorem Safe.bind {f : α → MemProg ε τ β γ} {post : List (Access τ) → γ → (Nat → β) → Prop}
    (hx : Safe ok halt (fun h a m => Safe ok halt post h (f a) m) h x m) :
    Safe ok halt post h (x >>= f) m := by
  change Safe ok halt post h (x.bind f) m
  induction x generalizing h m with
  | ret a => exact hx
  | stop err => exact hx
  | read tag addr next ih => exact ⟨hx.1, ih _ hx.2⟩
  | write addr b next ih => exact ⟨hx.1, ih hx.2⟩
  | note tag next ih => exact ⟨hx.1, ih hx.2⟩

theorem subset_of_snoc {e : Access τ} {h' : List (Access τ)} (hh : h ++ [e] ⊆ h') : h ⊆ h' :=
  fun _ he => hh (List.mem_append_left _ he)

/-- The rule of consequence, with what is known of the run. -/
theorem Safe.mono {post post' : List (Access τ) → α → (Nat → β) → Prop}
    (hx : Safe ok halt post h x m)
    (himp : ∀ h' a m', h ⊆ h' → x.exec m = (.ok a, m') → post h' a m' → post' h' a m') :
    Safe ok halt post' h x m := by
  induction x generalizing h m with
  | ret a => exact himp h a m (List.Subset.refl h) rfl hx
  | stop err => exact hx
  | read tag addr next ih =>
    exact ⟨hx.1, ih _ hx.2 fun h' a m' hh => himp h' a m' (subset_of_snoc hh)⟩
  | write addr b next ih => exact ⟨hx.1, ih hx.2 fun h' a m' hh => himp h' a m' (subset_of_snoc hh)⟩
  | note tag next ih => exact ⟨hx.1, ih hx.2 fun h' a m' hh => himp h' a m' (subset_of_snoc hh)⟩

/-- One program after another. -/
theorem Safe.seq {f : α → MemProg ε τ β γ} {post : List (Access τ) → α → (Nat → β) → Prop}
    {post' : List (Access τ) → γ → (Nat → β) → Prop} (hx : Safe ok halt post h x m)
    (hf : ∀ h' a m', h ⊆ h' → x.exec m = (.ok a, m') → post h' a m' →
      Safe ok halt post' h' (f a) m') :
    Safe ok halt post' h (x >>= f) m :=
  Safe.bind (hx.mono hf)

/-- The first thing done is ok after `h`, and so are the others. -/
theorem ok_cons {e₀ e : Access τ} {tail pre rest : List (Access τ)}
    (heq : e₀ :: tail = pre ++ e :: rest) (hok : ok h e₀)
    (htail : ∀ {pre'}, tail = pre' ++ e :: rest → ok (h ++ [e₀] ++ pre') e) :
    ok (h ++ pre) e := by
  cases pre with
  | nil =>
    obtain ⟨rfl, -⟩ := List.cons.inj heq
    rwa [List.append_nil]
  | cons e₁ pre' =>
    obtain ⟨rfl, hcons⟩ := List.cons.inj heq
    have hrest := htail hcons
    rwa [List.append_assoc] at hrest

theorem Safe.trace_ok {post : List (Access τ) → α → (Nat → β) → Prop} (hx : Safe ok halt post h x m)
    {pre rest : List (Access τ)} {e : Access τ} (htrace : x.trace m = pre ++ e :: rest) :
    ok (h ++ pre) e := by
  induction x generalizing h m pre with
  | ret a => simp [trace] at htrace
  | stop err => simp [trace] at htrace
  | read tag addr next ih => exact ok_cons htrace hx.1 fun ht => ih _ hx.2 ht
  | write addr b next ih => exact ok_cons htrace hx.1 fun ht => ih hx.2 ht
  | note tag next ih => exact ok_cons htrace hx.1 fun ht => ih hx.2 ht

theorem Safe.exec_ok {post : List (Access τ) → α → (Nat → β) → Prop} (hx : Safe ok halt post h x m)
    {a : α} {m' : Nat → β} (hexec : x.exec m = (.ok a, m')) : post (h ++ x.trace m) a m' := by
  induction x generalizing h m with
  | ret a' =>
    obtain ⟨hret, rfl⟩ := Prod.mk.inj hexec
    obtain rfl := Except.ok.inj hret
    rw [trace, List.append_nil]
    exact hx
  | stop err => cases (Prod.mk.inj hexec).1
  | read tag addr next ih =>
    have hrest := ih _ hx.2 hexec
    rwa [List.append_assoc] at hrest
  | write addr b next ih =>
    have hrest := ih hx.2 hexec
    rwa [List.append_assoc] at hrest
  | note tag next ih =>
    have hrest := ih hx.2 hexec
    rwa [List.append_assoc] at hrest

theorem Safe.halt_ok {post : List (Access τ) → α → (Nat → β) → Prop}
    (hx : Safe ok halt post h x m) {err : ε} {m' : Nat → β} (hexec : x.exec m = (.error err, m')) :
    halt err := by
  induction x generalizing h m with
  | ret a => cases (Prod.mk.inj hexec).1
  | stop err' =>
    obtain rfl := Except.error.inj (Prod.mk.inj hexec).1
    exact hx
  | read tag addr next ih => exact ih _ hx.2 hexec
  | write addr b next ih => exact ih hx.2 hexec
  | note tag next ih => exact ih hx.2 hexec

end Safe

/-! ## What a run depends on -/

/-- Two memories that agree on the cells of `D`, and a run that reads no other
cell before it writes it: the other run is the same. -/
theorem exec_congr {x : MemProg ε τ β α} :
    ∀ {D : Nat → Prop} {m m' : Nat → β}, (∀ a, D a → m' a = m a) →
      (∀ pre tag a rest, x.trace m = pre ++ .read tag a :: rest → D a ∨ .write a ∈ pre) →
      x.trace m' = x.trace m ∧ (x.exec m').1 = (x.exec m).1 ∧
        ∀ a, D a ∨ .write a ∈ x.trace m → (x.exec m').2 a = (x.exec m).2 a := by
  induction x with
  | ret a =>
    intro D m m' hagree _
    exact ⟨rfl, rfl, fun a ha => hagree a (ha.resolve_right (List.not_mem_nil))⟩
  | stop err =>
    intro D m m' hagree _
    exact ⟨rfl, rfl, fun a ha => hagree a (ha.resolve_right (List.not_mem_nil))⟩
  | read tag addr next ih =>
    intro D m m' hagree hreads
    have hcell : m' addr = m addr :=
      hagree addr ((hreads [] tag addr _ rfl).resolve_right List.not_mem_nil)
    obtain ⟨htrace, hret, hmem⟩ := ih (m addr) hagree fun pre tag' a rest h => by
      refine (hreads (.read tag addr :: pre) tag' a rest (congrArg (_ :: ·) h)).imp_right
        ?_
      intro hw
      simpa using hw
    simp only [trace, exec, hcell]
    refine ⟨congrArg (_ :: ·) htrace, hret, fun a ha => hmem a (ha.imp_right ?_)⟩
    intro hw
    simpa using hw
  | write addr b next ih =>
    intro D m m' hagree hreads
    -- from here on the cell is known
    have hagree' : ∀ a, D a ∨ a = addr →
        Function.update m' addr b a = Function.update m addr b a := fun a ha => by
      by_cases hc : a = addr
      · rw [hc, Function.update_self, Function.update_self]
      · rw [Function.update_of_ne hc, Function.update_of_ne hc]
        exact hagree a (ha.resolve_right hc)
    obtain ⟨htrace, hret, hmem⟩ := ih (D := fun a => D a ∨ a = addr) hagree'
      fun pre tag' a rest h => by
        rcases hreads (.write addr :: pre) tag' a rest (congrArg (_ :: ·) h) with hD | hw
        · exact Or.inl (Or.inl hD)
        · rcases List.mem_cons.mp hw with he | hw
          · exact Or.inl (Or.inr (Access.write.inj he))
          · exact Or.inr hw
    refine ⟨congrArg (_ :: ·) htrace, hret, fun a ha => hmem a ?_⟩
    rcases ha with hD | hw
    · exact Or.inl (Or.inl hD)
    · rcases List.mem_cons.mp hw with he | hw
      · exact Or.inl (Or.inr (Access.write.inj he))
      · exact Or.inr hw
  | note tag next ih =>
    intro D m m' hagree hreads
    obtain ⟨htrace, hret, hmem⟩ := ih hagree fun pre tag' a rest h => by
      refine (hreads (.note tag :: pre) tag' a rest (congrArg (_ :: ·) h)).imp_right ?_
      intro hw
      simpa using hw
    refine ⟨congrArg (_ :: ·) htrace, hret, fun a ha => hmem a (ha.imp_right ?_)⟩
    intro hw
    simpa [trace] using hw

end MemProg

end LambdaOs
