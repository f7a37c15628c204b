import LambdaOs.MemProg

/-!
# `strncpy`

The versions of the kernel (`std/string.c`) and of the user library, as
programs over the bytes of memory. The kernel's counts up to `n` in both of its
loops. The user library's counts `n` down in the tests of both: the first loop
takes one more off when it stops at the `NUL`, and leaves a wrapped counter
to the second when it stops at the limit. (The kernel's `mm_check_addr` checks
of the strict builds pass for pointers that may be accessed, and are left out.)
-/

namespace LambdaOs

/-- A program over bytes. -/
abbrev StrProg := MemProg Unit Unit UInt8

namespace KernelString

/-- `while((i < n) && src[i])`, with `n - i` for what is left. -/
def strncpyLoop (dest src i : Nat) : Nat → StrProg Nat
  | 0 => return i
  | left + 1 => do
      if (← MemProg.load () (src + i)) = 0 then return i
      else
        let b ← MemProg.load () (src + i)
        MemProg.store (dest + i) b
        strncpyLoop dest src (i + 1) left

/-- `while(i < n)` -/
def strncpyFill (dest i : Nat) : Nat → StrProg Unit
  | 0 => return ()
  | left + 1 => do
      MemProg.store (dest + i) 0
      strncpyFill dest (i + 1) left

def strncpy (dest src n : Nat) : StrProg Nat := do
  let i ← strncpyLoop dest src 0 n
  strncpyFill dest i (n - i)
  return dest

end KernelString

namespace UserString

/-- `while(n-- && *src)`, with `dest` and the 64-bit `n` that it leaves. -/
def strncpyLoop (dest src : Nat) : Nat → StrProg (Nat × Nat)
  | 0 => return (dest, 18446744073709551615)
  | n + 1 => do
      if (← MemProg.load () src) = 0 then return (dest, n)
      else
        let b ← MemProg.load () src
        MemProg.store dest b
        strncpyLoop (dest + 1) (src + 1) n

/-- `while(n--)` -/
def strncpyFill (dest : Nat) : Nat → StrProg Unit
  | 0 => return ()
  | n + 1 => do
      MemProg.store dest 0
      strncpyFill (dest + 1) n

def strncpy (dest src n : Nat) : StrProg Nat := do
  let save := dest
  let (dest, n) ← strncpyLoop dest src n
  strncpyFill dest n
  return save

end UserString

/-! ## What is asked of them -/

/-- A string of `len` characters at `src`. -/
structure StrOf (m : Nat → UInt8) (src len : Nat) : Prop where
  ne_zero : ∀ i < len, m (src + i) ≠ 0
  nul : m (src + len) = 0

/-- The program writes these cells and no others. -/
def MemProg.WritesOnly {α : Type} (x : StrProg α) (m : Nat → UInt8) (lo hi : Nat) : Prop :=
  ∀ a, .write a ∈ x.trace m ↔ lo ≤ a ∧ a < hi

/-- `dest` is returned, its `n` bytes are written and nothing else is, and they
are the string up to its end and zeros. -/
def CopiesN (strncpy : Nat → Nat → Nat → StrProg Nat) (m : Nat → UInt8) (dest src len n : Nat) :
    Prop :=
  (strncpy dest src n).WritesOnly m dest (dest + n) ∧
    ∃ m', (strncpy dest src n).exec m = (.ok dest, m') ∧
      ∀ i < n, m' (dest + i) = if i < len then m (src + i) else 0

/-- Where the destination lies behind the source, the bytes that have been
copied into what is still to be read are the ones that were there. -/
def Undisturbed (m : Nat → UInt8) (dest src len n : Nat) : Prop :=
  src < dest → ∀ i < n, i ≤ len → dest ≤ src + i → m (src + i - (dest - src)) = m (src + i)

/-! ## Which cells are written -/

namespace MemProg

variable {α β : Type} {x : StrProg α} {f : α → StrProg β} {m m' : Nat → UInt8} {a : α}
  {lo mid hi : Nat}

theorem writesOnly_pure : (pure a : StrProg α).WritesOnly m lo lo := by
  intro c
  simp [pure, trace]

theorem WritesOnly.bind (hx : x.WritesOnly m lo mid) (hexec : x.exec m = (.ok a, m'))
    (hf : (f a).WritesOnly m' mid hi) (h₁ : lo ≤ mid) (h₂ : mid ≤ hi) :
    (x >>= f).WritesOnly m lo hi := by
  intro c
  rw [trace_bind_ok hexec, List.mem_append, hx c, hf c]
  omega

theorem writesOnly_store {addr : Nat} {b : UInt8} :
    (store addr b : StrProg Unit).WritesOnly m addr (addr + 1) := by
  intro c
  simp only [store, trace, List.mem_singleton, Access.write.injEq]
  omega

theorem WritesOnly.frame (hx : x.WritesOnly m lo hi) {r : Except Unit α}
    (hexec : x.exec m = (r, m')) {addr : Nat} (h : ¬ (lo ≤ addr ∧ addr < hi)) :
    m' addr = m addr :=
  exec_frame_of_writes (fun c => (hx c).mp) hexec h

end MemProg

/-! ## The kernel's version -/

namespace KernelString

open MemProg

variable {dest src i left n len : Nat} {m m' : Nat → UInt8}

theorem strncpyFill_exec (dest i left : Nat) (m : Nat → UInt8) :
    ∃ m', (strncpyFill dest i left).exec m = (.ok (), m') ∧
      (strncpyFill dest i left).WritesOnly m (dest + i) (dest + i + left) ∧
      ∀ j, i ≤ j → j < i + left → m' (dest + j) = 0 := by
  induction left generalizing i m with
  | zero => exact ⟨m, rfl, writesOnly_pure, by omega⟩
  | succ left ih =>
      obtain ⟨m', hexec, hw, hz⟩ := ih (i + 1) (Function.update m (dest + i) 0)
      refine ⟨m', hexec, ?_, fun j hj hlt => ?_⟩
      · rw [show dest + (i + 1) + left = dest + i + (left + 1) by omega] at hw
        exact writesOnly_store.bind rfl hw (by omega) (by omega)
      · rcases Nat.eq_or_lt_of_le hj with rfl | hj
        · rw [hw.frame hexec (by omega), Function.update_self]
        · exact hz j hj (by omega)

theorem strncpyLoop_nul (h : m (src + i) = 0) :
    (strncpyLoop dest src i left).exec m = (.ok i, m) ∧
      (strncpyLoop dest src i left).WritesOnly m (dest + i) (dest + i) := by
  cases left with
  | zero => exact ⟨rfl, writesOnly_pure⟩
  | succ left =>
      have hfinds : (strncpyLoop dest src i (left + 1)).Finds m i := by
        refine finds_load.bind ?_
        rw [if_pos h]
        exact finds_pure
      exact ⟨hfinds.1, fun c => iff_of_false (hfinds.2 c) (by omega)⟩

theorem strncpyLoop_step (h : m (src + i) ≠ 0) :
    (strncpyLoop dest src i (left + 1)).exec m =
        (strncpyLoop dest src (i + 1) left).exec
          (Function.update m (dest + i) (m (src + i))) ∧
      ((strncpyLoop dest src (i + 1) left).WritesOnly
          (Function.update m (dest + i) (m (src + i))) (dest + (i + 1)) n → dest + i < n →
        (strncpyLoop dest src i (left + 1)).WritesOnly m (dest + i) n) := by
  have hread : (MemProg.load () (src + i) : StrProg UInt8).Finds m (m (src + i)) := finds_load
  constructor
  · rw [strncpyLoop, hread.exec_bind, if_neg h, hread.exec_bind]
    rfl
  · intro hw hn c
    rw [strncpyLoop, hread.write_mem, if_neg h, hread.write_mem]
    exact (writesOnly_store.bind rfl hw (by omega) (by omega)) c

theorem strncpyLoop_exec (dest src i left : Nat) (m : Nat → UInt8) :
    ∃ j m', (strncpyLoop dest src i left).exec m = (.ok j, m') ∧
      (strncpyLoop dest src i left).WritesOnly m (dest + i) (dest + j) ∧
      i ≤ j ∧ j ≤ i + left := by
  induction left generalizing i m with
  | zero => exact ⟨i, m, rfl, writesOnly_pure, Nat.le_refl _, Nat.le_refl _⟩
  | succ left ih =>
      by_cases h : m (src + i) = 0
      · obtain ⟨hexec, hw⟩ := @strncpyLoop_nul dest src i (left + 1) m h
        exact ⟨i, m, hexec, hw, Nat.le_refl _, by omega⟩
      · obtain ⟨j, m', hexec, hw, hij, hj⟩ :=
          ih (i + 1) (Function.update m (dest + i) (m (src + i)))
        have hstep := @strncpyLoop_step dest src i left (dest + j) m h
        exact ⟨j, m', hstep.1.trans hexec, hstep.2 hw (by omega), by omega, by omega⟩

/-- Both loops, from `i` on. -/
def strncpyFrom (dest src i left : Nat) : StrProg Unit := do
  let j ← strncpyLoop dest src i left
  strncpyFill dest j (i + left - j)

theorem strncpyFrom_exec (dest src i left : Nat) (m : Nat → UInt8) :
    ∃ m', (strncpyFrom dest src i left).exec m = (.ok (), m') ∧
      (strncpyFrom dest src i left).WritesOnly m (dest + i) (dest + i + left) := by
  obtain ⟨j, m₁, hexec, hw, hij, hj⟩ := strncpyLoop_exec dest src i left m
  obtain ⟨m', hfill, hwf, -⟩ := strncpyFill_exec dest j (i + left - j) m₁
  rw [show dest + j + (i + left - j) = dest + i + left by omega] at hwf
  refine ⟨m', ?_, hw.bind hexec hwf (by omega) (by omega)⟩
  rw [strncpyFrom, exec_bind_ok hexec, hfill]

theorem strncpyFrom_nul (h : m (src + i) = 0) {r : Except Unit Unit}
    (hexec : (strncpyFrom dest src i left).exec m = (r, m')) {j : Nat} (hij : i ≤ j)
    (hj : j < i + left) : m' (dest + j) = 0 := by
  obtain ⟨m₁, hfill, -, hz⟩ := strncpyFill_exec dest i (i + left - i) m
  rw [strncpyFrom, exec_bind_ok (strncpyLoop_nul h).1, hfill] at hexec
  obtain ⟨-, rfl⟩ := Prod.mk.inj hexec
  exact hz j hij (by omega)

theorem strncpyFrom_step (h : m (src + i) ≠ 0) :
    (strncpyFrom dest src i (left + 1)).exec m =
      (strncpyFrom dest src (i + 1) left).exec (Function.update m (dest + i) (m (src + i))) := by
  rw [strncpyFrom, exec_bind, (strncpyLoop_step (n := 0) h).1, strncpyFrom, exec_bind]
  simp only [show i + (left + 1) = i + 1 + left by omega]

/-- The byte at `i` becomes what is read there. -/
theorem strncpyFrom_byte {r : Except Unit Unit}
    (hexec : (strncpyFrom dest src i (left + 1)).exec m = (r, m')) :
    m' (dest + i) = m (src + i) := by
  by_cases h : m (src + i) = 0
  · rw [strncpyFrom_nul h hexec (Nat.le_refl i) (by omega), h]
  · rw [strncpyFrom_step h] at hexec
    obtain ⟨m₁, hrest, hw⟩ := strncpyFrom_exec dest src (i + 1) left
      (Function.update m (dest + i) (m (src + i)))
    rw [hw.frame hexec (by omega), Function.update_self]

/-- The memory after the first `i` bytes have been copied. -/
def copied (m : Nat → UInt8) (dest src i : Nat) : Nat → UInt8 := fun a =>
  if dest ≤ a ∧ a < dest + i then m (src + (a - dest)) else m a

theorem copied_zero : copied m dest src 0 = m := by
  funext a
  exact if_neg (by omega)

theorem copied_succ :
    Function.update (copied m dest src i) (dest + i) (m (src + i)) = copied m dest src (i + 1) := by
  funext a
  by_cases ha : a = dest + i
  · rw [ha, Function.update_self, copied, if_pos (by omega), Nat.add_sub_cancel_left]
  · rw [Function.update_of_ne ha]
    simp only [copied, show (dest ≤ a ∧ a < dest + (i + 1)) ↔ (dest ≤ a ∧ a < dest + i) by omega]

/-- The condition for one byte, as what the loop reads there. -/
theorem copied_src_iff :
    copied m dest src i (src + i) = m (src + i) ↔
      (src < dest → dest ≤ src + i → m (src + i - (dest - src)) = m (src + i)) := by
  by_cases h : dest ≤ src + i ∧ src + i < dest + i
  · rw [copied, if_pos h, show src + (src + i - dest) = src + i - (dest - src) by omega]
    exact ⟨fun he _ _ => he, fun he => he (by omega) h.1⟩
  · rw [copied, if_neg h]
    exact iff_of_true rfl fun _ _ => absurd ⟨by omega, by omega⟩ h

/-- As long as the string is read as it was, the loop copies it. -/
theorem strncpyFrom_reach (h : StrOf m src len) (hi : i ≤ len) (left : Nat)
    (hread : ∀ j < i, copied m dest src j (src + j) = m (src + j)) :
    (strncpyFrom dest src 0 (i + left)).exec m =
      (strncpyFrom dest src i left).exec (copied m dest src i) := by
  induction i generalizing left with
  | zero => rw [copied_zero, Nat.zero_add]
  | succ i ih =>
      have hbyte := hread i (Nat.lt_succ_self i)
      have hne : copied m dest src i (src + i) ≠ 0 := hbyte ▸ h.ne_zero i hi
      rw [show i + 1 + left = i + (left + 1) by omega,
        ih (by omega) _ fun j hj => hread j (by omega), strncpyFrom_step hne, hbyte, copied_succ]

theorem strncpy_exec (dest src n : Nat) (m : Nat → UInt8) :
    ∃ m', (strncpy dest src n).exec m = (.ok dest, m') ∧
      (strncpy dest src n).WritesOnly m dest (dest + n) ∧
      (strncpyFrom dest src 0 n).exec m = (.ok (), m') := by
  obtain ⟨j, m₁, hloop, hw, -, hj⟩ := strncpyLoop_exec dest src 0 n m
  obtain ⟨m', hfill, hwf, -⟩ := strncpyFill_exec dest j (n - j) m₁
  rw [show dest + j + (n - j) = dest + n by omega] at hwf
  refine ⟨m', ?_, ?_, ?_⟩
  · rw [strncpy, exec_bind_ok hloop, exec_bind_ok hfill]
    rfl
  · exact hw.bind hloop (hwf.bind hfill writesOnly_pure (by omega) (Nat.le_refl _)) (by omega)
      (by omega)
  · rw [strncpyFrom, exec_bind_ok hloop, Nat.zero_add, hfill]

/-- The kernel's version does what is asked of it when what it reads of the
string is what was there. -/
theorem strncpy_right_iff (h : StrOf m src len) :
    CopiesN strncpy m dest src len n ↔ Undisturbed m dest src len n := by
  obtain ⟨m', hexec, hw, hfrom⟩ := strncpy_exec dest src n m
  -- the byte at `i`, when the bytes in front of it have been read as they were
  have hbyte : ∀ i < n, i ≤ len → (∀ j < i, copied m dest src j (src + j) = m (src + j)) →
      m' (dest + i) = copied m dest src i (src + i) := by
    intro i hi hlen hread
    obtain ⟨left, rfl⟩ : ∃ left, n = i + (left + 1) := ⟨n - i - 1, by omega⟩
    rw [strncpyFrom_reach h hlen _ hread] at hfrom
    exact strncpyFrom_byte hfrom
  have hwant : ∀ i ≤ len, (if i < len then m (src + i) else 0) = m (src + i) := by
    intro i hi
    split
    · rfl
    · rw [show i = len by omega, h.nul]
  constructor
  · rintro ⟨-, m₁, hexec₁, hm₁⟩
    obtain ⟨-, rfl⟩ := Prod.mk.inj (hexec₁.symm.trans hexec)
    have hall : ∀ i < n, i ≤ len → copied m dest src i (src + i) = m (src + i) := by
      intro i
      induction i using Nat.strongRecOn with
      | ind i ih =>
          intro hi hlen
          rw [← hbyte i hi hlen fun j hj => ih j hj (by omega) (by omega), hm₁ i hi, hwant i hlen]
    exact fun hlt i hi hlen hd => copied_src_iff.mp (hall i hi hlen) hlt hd
  · intro hund
    have hall : ∀ i < n, i ≤ len → copied m dest src i (src + i) = m (src + i) :=
      fun i hi hlen => copied_src_iff.mpr fun hlt hd => hund hlt i hi hlen hd
    refine ⟨hw, m', hexec, fun i hi => ?_⟩
    by_cases hlen : i ≤ len
    · rw [hbyte i hi hlen fun j hj => hall j (by omega) (by omega), hall i hi hlen, hwant i hlen]
    · obtain ⟨left, rfl⟩ : ∃ left, n = len + left := ⟨n - len, by omega⟩
      rw [strncpyFrom_reach h (Nat.le_refl len) _ fun j hj => hall j (by omega) (by omega)] at hfrom
      rw [if_neg (by omega)]
      refine strncpyFrom_nul ?_ hfrom (by omega) hi
      rw [hall len (by omega) (Nat.le_refl len), h.nul]

end KernelString

/-! ## The user library's version -/

namespace UserString

open MemProg

variable {dest src n : Nat} {m : Nat → UInt8}

theorem strncpyFill_exec (dest n : Nat) (m : Nat → UInt8) :
    ∃ m', (strncpyFill dest n).exec m = (.ok (), m') ∧
      (strncpyFill dest n).WritesOnly m dest (dest + n) := by
  induction n generalizing dest m with
  | zero => exact ⟨m, rfl, writesOnly_pure⟩
  | succ n ih =>
      obtain ⟨m', hexec, hw⟩ := ih (dest + 1) (Function.update m dest 0)
      rw [show dest + 1 + n = dest + (n + 1) by omega] at hw
      exact ⟨m', hexec, writesOnly_store.bind rfl hw (by omega) (by omega)⟩

/-- The loop stops at the `NUL`, with one less than what is left, or at the
limit. -/
theorem strncpyLoop_exec (dest src n : Nat) (m : Nat → UInt8) :
    ∃ k r m', (strncpyLoop dest src n).exec m = (.ok (dest + k, r), m') ∧
      (strncpyLoop dest src n).WritesOnly m dest (dest + k) ∧
      (k + r + 1 = n ∨ k = n ∧ r = 18446744073709551615) := by
  induction n generalizing dest src m with
  | zero => exact ⟨0, _, m, rfl, writesOnly_pure, .inr ⟨rfl, rfl⟩⟩
  | succ n ih =>
      have hread : (MemProg.load () src : StrProg UInt8).Finds m (m src) := finds_load
      by_cases h : m src = 0
      · have hfinds : (strncpyLoop dest src (n + 1)).Finds m (dest, n) := by
          refine hread.bind ?_
          rw [if_pos h]
          exact finds_pure
        exact ⟨0, n, m, hfinds.1, fun c => iff_of_false (hfinds.2 c) (by omega), .inl (by omega)⟩
      · obtain ⟨k, r, m', hexec, hw, hk⟩ := ih (dest + 1) (src + 1) (Function.update m dest (m src))
        rw [show dest + 1 + k = dest + (k + 1) by omega] at hexec hw
        refine ⟨k + 1, r, m', ?_, fun c => ?_, ?_⟩
        · rw [strncpyLoop, hread.exec_bind, if_neg h, hread.exec_bind]
          exact hexec
        · rw [strncpyLoop, hread.write_mem, if_neg h, hread.write_mem]
          exact writesOnly_store.bind rfl hw (by omega) (by omega) c
        · rcases hk with hk | ⟨rfl, rfl⟩
          · exact .inl (by omega)
          · exact .inr ⟨rfl, rfl⟩

/-- One byte too few is written, or `2 ^ 64 - 1` too many. -/
theorem strncpy_writes (dest src n : Nat) (m : Nat → UInt8) :
    (0 < n ∧ (strncpy dest src n).WritesOnly m dest (dest + (n - 1))) ∨
      (strncpy dest src n).WritesOnly m dest (dest + (n + 18446744073709551615)) := by
  obtain ⟨k, r, m₁, hloop, hw, hk⟩ := strncpyLoop_exec dest src n m
  obtain ⟨m', hfill, hwf⟩ := strncpyFill_exec (dest + k) r m₁
  have hall : (strncpy dest src n).WritesOnly m dest (dest + k + r) :=
    hw.bind hloop (hwf.bind hfill writesOnly_pure (by omega) (Nat.le_refl _)) (by omega) (by omega)
  rcases hk with hk | ⟨rfl, rfl⟩
  · refine .inl ⟨by omega, ?_⟩
    rwa [show dest + (n - 1) = dest + k + r by omega]
  · refine .inr ?_
    rwa [← Nat.add_assoc]

theorem strncpy_wrong (m : Nat → UInt8) (dest src len n : Nat) :
    ¬ CopiesN strncpy m dest src len n := by
  rintro ⟨hn, -⟩
  rcases strncpy_writes dest src n m with ⟨hpos, hw⟩ | hw
  · have hlast : dest ≤ dest + (n - 1) ∧ dest + (n - 1) < dest + n := by omega
    have := (hw _).mp ((hn _).mpr hlast)
    omega
  · have hnext : dest ≤ dest + n ∧ dest + n < dest + (n + 18446744073709551615) := by omega
    have := (hn _).mp ((hw _).mpr hnext)
    omega

end UserString

/-- For every string, destination and limit: the kernel's version is right
unless the string is changed while it is read, and the user library's is never
right. -/
theorem strncpy_versions_right_iff {m : Nat → UInt8} {src len : Nat} (h : StrOf m src len)
    (dest n : Nat) :
    (CopiesN KernelString.strncpy m dest src len n ↔ Undisturbed m dest src len n) ∧
      ¬ CopiesN UserString.strncpy m dest src len n :=
  ⟨KernelString.strncpy_right_iff h, UserString.strncpy_wrong m dest src len n⟩

/-- `ab` at 16, in memory that is not cleared. -/
def abMem : Nat → UInt8 := fun a =>
  if a = 16 then 97 else if a = 17 then 98 else if a = 18 then 0 else 1

theorem abMem_str : StrOf abMem 16 2 := ⟨by decide, rfl⟩

theorem strncpy_versions_ab :
    (CopiesN KernelString.strncpy abMem 32 16 2 4 ↔ Undisturbed abMem 32 16 2 4) ∧
      ¬ CopiesN UserString.strncpy abMem 32 16 2 4 :=
  strncpy_versions_right_iff abMem_str 32 4

/-- With a limit of 4 the user library leaves the last byte as it was, with a
limit of 2 it goes on behind it, and the kernel's version copies `a` over the
end of the string when it is to move it by one. -/
theorem strncpy_wrong_ab :
    ((UserString.strncpy 32 16 4).exec abMem).2 35 = 1 ∧
      ¬ CopiesN UserString.strncpy abMem 32 16 2 4 ∧
      ¬ CopiesN UserString.strncpy abMem 32 16 2 2 ∧
      ¬ CopiesN KernelString.strncpy abMem 17 16 2 3 := by
  refine ⟨rfl, UserString.strncpy_wrong abMem 32 16 2 4,
    UserString.strncpy_wrong abMem 32 16 2 2, ?_⟩
  rw [KernelString.strncpy_right_iff abMem_str]
  intro h
  exact absurd (h (by decide) 1 (by decide) (by decide) (by decide)) (by decide)

end LambdaOs
