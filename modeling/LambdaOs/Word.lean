import Mathlib.Data.Nat.Bitwise

/-!
# Machine words as naturals

A machine word is a natural number below `2 ^ 32`; `u32` is the wrap-around
of its arithmetic. Pages are 4096 bytes, and page tables pack an address and
flag bits into one word: `pageMask` is the address part.
-/

namespace LambdaOs

/-- Reduction to a 32-bit word. -/
def u32 (n : Nat) : Nat := n % 4294967296

/-- Reduction to 64 bits. -/
def u64 (n : Nat) : Nat := n % 18446744073709551616

/-- The value of 32 bits as an `int`. -/
def i32 (n : Nat) : Int := if n < 2147483648 then n else (n : Int) - 4294967296

/-- The bits of an `int`, as a word. -/
def wordOf (n : Int) : Nat := (n % 4294967296).toNat

theorem u32_lt (n : Nat) : u32 n < 4294967296 := Nat.mod_lt _ (by decide)

theorem u32_of_lt {n : Nat} (h : n < 4294967296) : u32 n = n := Nat.mod_eq_of_lt h

theorem u32_u32_add (a b : Nat) : u32 (u32 a + b) = u32 (a + b) := by
  unfold u32
  omega

/-! ## Page addresses -/

/-- `n & 0xFFFFF000`. -/
def pageMask (n : Nat) : Nat := n &&& 0xFFFFF000

theorem pageMask_eq {n : Nat} (h : n < 4294967296) : pageMask n = n - n % 4096 := by
  have hshift : n &&& 0xFFFFF000 = ((n >>> 12) &&& (2 ^ 20 - 1)) <<< 12 := by
    apply Nat.eq_of_testBit_eq
    intro i
    rw [show (0xFFFFF000 : Nat) = (2 ^ 20 - 1) <<< 12 by decide]
    simp only [Nat.testBit_and, Nat.testBit_shiftLeft, Nat.testBit_shiftRight]
    by_cases hi : 12 ≤ i
    · simp [hi, show 12 + (i - 12) = i by omega]
    · simp [hi]
  rw [pageMask, hshift, Nat.and_two_pow_sub_one_eq_mod, Nat.shiftLeft_eq,
    Nat.shiftRight_eq_div_pow]
  omega

theorem pageMask_le (n : Nat) : pageMask n ≤ 0xFFFFF000 := Nat.and_le_right

theorem pageMask_aligned (n : Nat) : pageMask n % 4096 = 0 := by
  have hlow : pageMask n &&& (2 ^ 12 - 1) = 0 := by
    simp [pageMask, Nat.and_assoc]
  rw [Nat.and_two_pow_sub_one_eq_mod] at hlow
  exact hlow

theorem pageMask_of_aligned {n : Nat} (h : n < 4294967296) (hal : n % 4096 = 0) :
    pageMask n = n := by
  rw [pageMask_eq h, hal, Nat.sub_zero]

@[simp] theorem pageMask_pageMask (n : Nat) : pageMask (pageMask n) = pageMask n := by
  simp [pageMask]

/-! ## Flag bits -/

/-- Setting flag bits does not change the address part. -/
theorem pageMask_or_flags (w f : Nat) {mask : Nat} (hmask : mask &&& 0xFFFFF000 = 0) :
    pageMask (w ||| (f &&& mask)) = pageMask w := by
  rw [pageMask, Nat.and_or_distrib_right, Nat.and_assoc, hmask, Nat.and_zero, Nat.or_zero,
    pageMask]

/-- The flag bits of an address are clear. -/
theorem pageMask_and (n : Nat) {mask : Nat} (hmask : 0xFFFFF000 &&& mask = 0) :
    pageMask n &&& mask = 0 := by
  rw [pageMask, Nat.and_assoc, hmask, Nat.and_zero]

/-! ## Words in memory -/

/-- The word at `a`, low byte first. -/
def wordIn (m : Nat → UInt8) (a : Nat) : Nat :=
  (m a).toNat + 256 * (m (a + 1)).toNat + 65536 * ((m (a + 2)).toNat + 256 * (m (a + 3)).toNat)

theorem wordIn_congr {m m' : Nat → UInt8} {a : Nat} (h : ∀ j < 4, m' (a + j) = m (a + j)) :
    wordIn m' a = wordIn m a := by
  have h0 := h 0 (by decide)
  rw [Nat.add_zero] at h0
  rw [wordIn, wordIn, h0, h 1 (by decide), h 2 (by decide), h 3 (by decide)]

end LambdaOs
