import Mathlib.Data.List.Basic
import Mathlib.Logic.Function.Basic
import LambdaOs.Word

/-!
# Bytes in memory, and copies that overlap

`HoldsAt` reads a list off a memory, and `UpTo` one that ends below the last
word. `copyForward` copies cell by cell, from
the first to the last, so that a copy whose target begins `dist` cells after
its source repeats those cells: it is `copyBack` of the list before the target
(`HoldsAt.copyBack`), the copy of LZ77. A copy from elsewhere is a plain one
(`HoldsAt.copied`).
-/

namespace LambdaOs

variable {β : Type*}

/-! ## Lists in memory -/

/-- From `a` on, the memory holds the list. -/
def HoldsAt (m : Nat → β) : Nat → List β → Prop
  | _, [] => True
  | a, b :: bs => m a = b ∧ HoldsAt m (a + 1) bs

instance HoldsAt.decidable [DecidableEq β] (m : Nat → β) :
    (a : Nat) → (bs : List β) → Decidable (HoldsAt m a bs)
  | _, [] => isTrue trivial
  | a, _ :: bs =>
      have := HoldsAt.decidable m (a + 1) bs
      inferInstanceAs (Decidable (_ ∧ _))

section HoldsAt

variable {m m' : Nat → β} {a : Nat} {bs cs : List β}

theorem holdsAt_append :
    HoldsAt m a (bs ++ cs) ↔ HoldsAt m a bs ∧ HoldsAt m (a + bs.length) cs := by
  induction bs generalizing a with
  | nil => simp [HoldsAt]
  | cons b bs ih =>
      rw [List.cons_append, HoldsAt, HoldsAt, ih, and_assoc, List.length_cons, Nat.add_assoc,
        Nat.add_comm 1]

theorem HoldsAt.getElem? (h : HoldsAt m a bs) {i : Nat} (hi : i < bs.length) :
    bs[i]? = some (m (a + i)) := by
  induction bs generalizing a i with
  | nil => exact absurd hi (Nat.not_lt_zero i)
  | cons b bs ih =>
      cases i with
      | zero => exact congrArg some h.1.symm
      | succ i =>
          have hrest := ih h.2 (i := i) (by simpa using hi)
          rw [List.getElem?_cons_succ, hrest, Nat.add_assoc, Nat.add_comm 1]

theorem holdsAt_of_getElem? (h : ∀ i < bs.length, bs[i]? = some (m (a + i))) :
    HoldsAt m a bs := by
  induction bs generalizing a with
  | nil => trivial
  | cons b bs ih =>
      refine ⟨(Option.some.inj (h 0 (by simp))).symm, ih ?_⟩
      intro i hi
      have hcell := h (i + 1) (by simpa using hi)
      rwa [List.getElem?_cons_succ, Nat.add_comm i 1, ← Nat.add_assoc] at hcell

theorem HoldsAt.congr (h : HoldsAt m a bs) (hm : ∀ i < bs.length, m' (a + i) = m (a + i)) :
    HoldsAt m' a bs :=
  holdsAt_of_getElem? fun i hi => by rw [hm i hi, h.getElem? hi]

/-- The list that a memory holds from `a` on. -/
def readAt (m : Nat → β) (a n : Nat) : List β := (List.range n).map fun i => m (a + i)

@[simp] theorem readAt_length {n : Nat} : (readAt m a n).length = n := by simp [readAt]

theorem holdsAt_readAt {n : Nat} : HoldsAt m a (readAt m a n) :=
  holdsAt_of_getElem? fun i hi => by
    rw [readAt_length] at hi
    rw [readAt, List.getElem?_map, List.getElem?_range hi]
    rfl

end HoldsAt

/-! ## Lists up to an end -/

/-- From `a` on there is `bs`, up to `e`: pointers into it do not wrap. -/
structure UpTo (m : Nat → β) (e a : Nat) (bs : List β) : Prop where
  holds : HoldsAt m a bs
  ends : a + bs.length = e
  lt : e < 4294967296

section UpTo

variable {m m' : Nat → β} {e a n : Nat} {bs rest : List β}

theorem UpTo.skip (h : UpTo m e a (bs ++ rest)) : UpTo m e (a + bs.length) rest := by
  have hends := h.ends
  rw [List.length_append] at hends
  exact ⟨(holdsAt_append.mp h.holds).2, by omega, h.lt⟩

/-- The pointer behind `bs`. -/
theorem UpTo.next (h : UpTo m e a (bs ++ rest)) (hn : bs.length = n) :
    u32 (a + n) = a + n ∧ UpTo m e (a + n) rest := by
  subst hn
  have hskip := h.skip
  have hends := hskip.ends
  have hlt := h.lt
  exact ⟨u32_of_lt (by omega), hskip⟩

theorem UpTo.frame (h : UpTo m e a bs) (hm : ∀ x, a ≤ x → x < e → m' x = m x) :
    UpTo m' e a bs := by
  have hends := h.ends
  exact ⟨h.holds.congr fun i hi => hm _ (by omega) (by omega), hends, h.lt⟩

/-- The pointer behind `bs` where `bs` is there. -/
theorem UpTo.nextIf {p : Prop} [Decidable p] (h : UpTo m e a ((if p then bs else []) ++ rest))
    (hn : bs.length = n) : UpTo m e (if p then u32 (a + n) else a) rest := by
  split at h
  · obtain ⟨hptr, hrest⟩ := h.next hn
    rwa [if_pos ‹p›, hptr]
  · rwa [if_neg ‹¬p›]

end UpTo

/-! ## Copies -/

/-- `n` cells from `s` on are copied to `d` on, one after another. -/
def copyForward (m : Nat → β) (d s : Nat) : Nat → Nat → β
  | 0 => m
  | n + 1 =>
      let m' := copyForward m d s n
      Function.update m' (d + n) (m' (s + n))

/-- The list, with `n` more elements, each the one `dist` before it. -/
def copyBack (out : List β) (dist : Nat) : Nat → List β
  | 0 => out
  | n + 1 =>
      let out' := copyBack out dist n
      out' ++ out'[out'.length - dist]?.toList

section Copy

variable {m : Nat → β} {d s n a : Nat} {out bs : List β} {dist : Nat}

theorem copyForward_frame (h : a < d ∨ d + n ≤ a) : copyForward m d s n a = m a := by
  induction n with
  | zero => rfl
  | succ n ih => rw [copyForward, Function.update_of_ne (by omega), ih (by omega)]

/-- Without overlap, every cell is copied as it was. -/
theorem copyForward_apart (h : s + n ≤ d ∨ d + n ≤ s) {i : Nat} (hi : i < n) :
    copyForward m d s n (d + i) = m (s + i) := by
  induction n with
  | zero => exact absurd hi (Nat.not_lt_zero i)
  | succ n ih =>
      rw [copyForward]
      by_cases hin : i = n
      · rw [hin, Function.update_self, copyForward_frame (by omega)]
      · rw [Function.update_of_ne (by omega), ih (by omega) (by omega)]

theorem HoldsAt.frame (h : HoldsAt m a bs) (hout : a + bs.length ≤ d ∨ d + n ≤ a) :
    HoldsAt (copyForward m d s n) a bs :=
  h.congr fun i hi => copyForward_frame (by omega)

theorem HoldsAt.copied (h : HoldsAt m s bs) (hout : s + bs.length ≤ d ∨ d + bs.length ≤ s) :
    HoldsAt (copyForward m d s bs.length) d bs :=
  holdsAt_of_getElem? fun i hi => by rw [copyForward_apart hout hi, h.getElem? hi]

theorem copyBack_length (h1 : 1 ≤ dist) (hd : dist ≤ out.length) {n : Nat} :
    (copyBack out dist n).length = out.length + n := by
  induction n with
  | zero => rfl
  | succ n ih =>
      rw [copyBack, List.length_append, ih, List.getElem?_eq_getElem (by omega),
        Option.toList_some, List.length_singleton, Nat.add_assoc]

/-- A copy from `dist` before the end of the list to its end. -/
theorem HoldsAt.copyBack (h : HoldsAt m a out) (h1 : 1 ≤ dist) (hd : dist ≤ out.length)
    {n : Nat} :
    HoldsAt (copyForward m (a + out.length) (a + out.length - dist) n) a
      (copyBack out dist n) := by
  induction n with
  | zero => exact h
  | succ n ih =>
      have hlen := copyBack_length h1 hd (n := n)
      have hlast := ih.getElem? (i := out.length + n - dist) (by omega)
      rw [LambdaOs.copyBack, hlen, hlast, copyForward, Option.toList_some, holdsAt_append]
      refine ⟨ih.congr fun i hi => Function.update_of_ne (by omega) .., ?_, trivial⟩
      rw [hlen, ← Nat.add_assoc, Function.update_self]
      congr 1
      omega

end Copy

/-! ## Sequences of literals and copies -/

inductive Lz77Token (β : Type*) where
  | literals (bs : List β)
  | copy (dist len : Nat)

/-- What the output becomes. -/
def Lz77Token.append (out : List β) : Lz77Token β → List β
  | .literals bs => out ++ bs
  | .copy dist len => copyBack out dist len

def lz77 (tokens : List (Lz77Token β)) : List β := tokens.foldl Lz77Token.append []

end LambdaOs
