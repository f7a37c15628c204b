import LambdaOs.Paging
import LambdaOs.SeqCopy
import LambdaOs.StrCopy

/-!
# `memmove`

The versions of the kernel (`std/string.c`) and of the user library, as
programs over the bytes of memory. Both go upwards through the bytes when the
destination lies below the source, and downwards otherwise: the kernel's by
moving its pointers, the user library's with an index, which is an `int` on the
way down.

A loop is a list of copies done in order (`seqCopy`), and each byte is read
before it is written over. So the destination ends with what the source held
before the call, whatever the overlap (`memmove_simultaneous`).
-/

namespace LambdaOs

/-! ## The loops -/

/-- `LAMBDA_STRICTNESS_HIGHIMPACT` -/
def strictnessHighimpact : Nat := 5

/-- `mm_check_addr`. What `mmu_map_get` answers, flags or an error, depends on
the table that is current. -/
def mmCheckAddr (mmuMapGet : Nat → Int) (addr : Nat) : Nat :=
  let flags := mmuMapGet addr
  if flags < 0 then 0
  else if flags.toNat &&& mmuFlagWrite ≠ 0 then 2
  else if flags.toNat &&& mmuFlagRead ≠ 0 then 1
  else 0

/-- The panics of the string functions: `"Bad destination address: %p"` and
`"Bad source address: %p"`. -/
inductive BadAddress where
  | destination (addr : Nat)
  | source (addr : Nat)
deriving Repr, DecidableEq

namespace KernelString

/-- `while(n--)`, with `*_dst++ = *_src++`. -/
def memmoveUp (dst src : Nat) : Nat → MemProg BadAddress Unit UInt8 Unit
  | 0 => return ()
  | n + 1 => do
      let b ← MemProg.load () src
      MemProg.store dst b
      memmoveUp (u32 (dst + 1)) (u32 (src + 1)) n

/-- `while(n--)`, with `*--_dst = *--_src`. -/
def memmoveDown (dst src : Nat) : Nat → MemProg BadAddress Unit UInt8 Unit
  | 0 => return ()
  | n + 1 => do
      let dst := u32 (dst + 4294967295)
      let src := u32 (src + 4294967295)
      let b ← MemProg.load () src
      MemProg.store dst b
      memmoveDown dst src n

/-- `strictness` is `CONFIG_STRICTNESS`. -/
def memmove (strictness : Nat) (mmuMapGet : Nat → Int) (dst src n : Nat) :
    MemProg BadAddress Unit UInt8 Nat :=
  if strictnessHighimpact ≤ strictness ∧ mmCheckAddr mmuMapGet dst = 0 then
    .stop (.destination dst)
  else if strictnessHighimpact ≤ strictness ∧ mmCheckAddr mmuMapGet src = 0 then
    .stop (.source src)
  else do
    (if dst < src then memmoveUp dst src n
      else memmoveDown (u32 (dst + n)) (u32 (src + n)) n)
    return dst

end KernelString

namespace UserString

/-- `for(unsigned i = 0; i < n; i++)`. It does not end for an `n` of more than 32
bits. -/
def memmoveUp (dest src n : Nat) : Nat → Nat → StrProg Unit
  | 0, _ => MemProg.stop ()
  | fuel + 1, i =>
      if i < n then do
        let b ← MemProg.load () (u32 (src + i))
        MemProg.store (u32 (dest + i)) b
        memmoveUp dest src n fuel (u32 (i + 1))
      else return ()

/-- `for(int i = (n-1); i >= 0; i--)`, from `i + 1`, which counts the rounds. -/
def memmoveDown (dest src : Nat) : Nat → StrProg Unit
  | 0 => return ()
  | i + 1 => do
      let b ← MemProg.load () (u32 (src + i))
      MemProg.store (u32 (dest + i)) b
      memmoveDown dest src i

/-- `n-1` is taken in 64 bits, and becomes an `int`. -/
def memmove (fuel dest src n : Nat) : StrProg Nat := do
  (if src > dest then memmoveUp dest src n fuel 0
    else memmoveDown dest src (i32 (u32 (u64 (n + 18446744073709551615))) + 1).toNat)
  return dest

end UserString

/-- `dest` is returned, each of its `n` bytes is what the source held before, and
no other byte has changed. -/
def MemProg.MovesBytes {ε : Type} (x : MemProg ε Unit UInt8 Nat) (m : Nat → UInt8)
    (dest src n : Nat) : Prop :=
  ∃ m', x.exec m = (.ok dest, m') ∧ (∀ i < n, m' (dest + i) = m (src + i)) ∧
    ∀ a, ¬ (dest ≤ a ∧ a < dest + n) → m' a = m a

/-! ## The order of the copies -/

section Offsets

variable {m : Nat → UInt8} {dest src n i left : Nat} {offs : List Nat}

/-- The copies of the bytes at these offsets, in this order. -/
def offsetCopies (dest src : Nat) (offs : List Nat) : List (Nat × Nat) :=
  offs.map fun i => (dest + i, src + i)

theorem seqCopy_offsets_cons :
    seqCopy (offsetCopies dest src (i :: offs)) m =
      seqCopy (offsetCopies dest src offs) (Function.update m (dest + i) (m (src + i))) :=
  seqCopy_cons ..

/-- On the way down, the last byte is the first one copied. -/
theorem seqCopy_offsets_down :
    seqCopy (offsetCopies dest src (List.range (n + 1)).reverse) m =
      seqCopy (offsetCopies dest src (List.range n).reverse)
        (Function.update m (dest + n) (m (src + n))) := by
  rw [List.range_succ, List.reverse_append, List.reverse_singleton, List.singleton_append,
    seqCopy_offsets_cons]

theorem offsetCopies_oneSource : OneSource (offsetCopies dest src offs) := by
  simp only [OneSource, offsetCopies, List.forall_mem_map]
  intro i _ j _ h
  omega

theorem readsFirst_up (h : dest < src) :
    ReadsFirst (offsetCopies dest src (List.range' i left)) := by
  refine List.pairwise_map.mpr ((List.pairwise_lt_range' (s := i)).imp ?_)
  intro j k hjk heq
  -- a later byte of the source lies above what has been written
  simp only at heq
  omega

theorem readsFirst_down (h : ¬ dest < src) :
    ReadsFirst (offsetCopies dest src (List.range n).reverse) := by
  refine List.pairwise_map.mpr (List.pairwise_reverse.mpr (List.pairwise_lt_range.imp ?_))
  intro i j hij heq
  simp only at heq ⊢
  omega

/-- A program that does the copies, in an order that reads each byte before it
is written over, moves the bytes. -/
theorem MemProg.MovesBytes.of_seqCopy {ε : Type} {x : MemProg ε Unit UInt8 Nat}
    (hexec : x.exec m = (.ok dest, seqCopy (offsetCopies dest src offs) m))
    (hoffs : ∀ i, i ∈ offs ↔ i < n) (hfirst : ReadsFirst (offsetCopies dest src offs)) :
    x.MovesBytes m dest src n := by
  have horigin := origin_eq_source offsetCopies_oneSource hfirst
  refine ⟨_, hexec, fun i hi => ?_, fun a ha => ?_⟩
  · have hmem : (dest + i, src + i) ∈ offsetCopies dest src offs :=
      List.mem_map.mpr ⟨i, (hoffs i).mpr hi, rfl⟩
    rw [seqCopy_eq, horigin _ hmem]
  · rw [seqCopy_eq, origin_of_notMem]
    intro p hp heq
    obtain ⟨i, hi, rfl⟩ := List.mem_map.mp hp
    have hlt := (hoffs i).mp hi
    simp only at heq
    omega

theorem MemProg.MovesBytes.up {ε : Type} {x : MemProg ε Unit UInt8 Nat} (h : dest < src)
    (hexec : x.exec m = (.ok dest, seqCopy (offsetCopies dest src (List.range' 0 n)) m)) :
    x.MovesBytes m dest src n :=
  .of_seqCopy hexec (fun i => by simp) (readsFirst_up h)

theorem MemProg.MovesBytes.down {ε : Type} {x : MemProg ε Unit UInt8 Nat} (h : ¬ dest < src)
    (hexec : x.exec m = (.ok dest, seqCopy (offsetCopies dest src (List.range n).reverse) m)) :
    x.MovesBytes m dest src n :=
  .of_seqCopy hexec (fun i => by simp) (readsFirst_down h)

/-- One round of a loop. -/
theorem MemProg.exec_copy {ε γ : Type} {c a : Nat} {rest : MemProg ε Unit UInt8 γ} :
    (do let b ← MemProg.load () a; MemProg.store c b; rest : MemProg ε Unit UInt8 γ).exec m =
      rest.exec (Function.update m c (m a)) := rfl

end Offsets

/-! ## The kernel's version -/

namespace KernelString

variable {dst src n i left strictness : Nat} {mmuMapGet : Nat → Int} {m : Nat → UInt8}

/-- The pointers are at the bytes at `i`, if there is one left. -/
theorem memmoveUp_exec {a b : Nat} (ha : left ≠ 0 → a = dst + i) (hb : left ≠ 0 → b = src + i)
    (hdst : dst + i + left ≤ 4294967296) (hsrc : src + i + left ≤ 4294967296)
    (m : Nat → UInt8) :
    (memmoveUp a b left).exec m =
      (.ok (), seqCopy (offsetCopies dst src (List.range' i left)) m) := by
  induction left generalizing a b i m with
  | zero => rfl
  | succ left ih =>
      obtain rfl := ha (Nat.succ_ne_zero left)
      obtain rfl := hb (Nat.succ_ne_zero left)
      rw [memmoveUp, MemProg.exec_copy, List.range'_succ, seqCopy_offsets_cons]
      exact ih (i := i + 1) (fun h => u32_of_lt (by omega)) (fun h => u32_of_lt (by omega))
        (by omega) (by omega) _

/-- A pointer one behind `a`, taken back. -/
theorem u32_pred (a : Nat) : u32 (u32 (a + 1) + 4294967295) = u32 a := by
  unfold u32
  omega

theorem memmoveDown_exec (hdst : dst + n ≤ 4294967296) (hsrc : src + n ≤ 4294967296)
    (m : Nat → UInt8) :
    (memmoveDown (u32 (dst + n)) (u32 (src + n)) n).exec m =
      (.ok (), seqCopy (offsetCopies dst src (List.range n).reverse) m) := by
  induction n generalizing m with
  | zero => rfl
  | succ n ih =>
      rw [memmoveDown, ← Nat.add_assoc, ← Nat.add_assoc]
      simp only [u32_pred]
      rw [MemProg.exec_copy, ih (by omega) (by omega), u32_of_lt (by omega), u32_of_lt (by omega),
        seqCopy_offsets_down]

/-- A strict build panics at an address that cannot be read, before anything is
copied. -/
theorem memmove_panic (hstrict : strictnessHighimpact ≤ strictness)
    (hbad : mmCheckAddr mmuMapGet dst = 0 ∨ mmCheckAddr mmuMapGet src = 0) :
    ∃ err, (memmove strictness mmuMapGet dst src n).exec m = (.error err, m) := by
  unfold memmove
  split
  · exact ⟨_, rfl⟩
  · rename_i hdst
    rw [if_pos ⟨hstrict, hbad.resolve_left fun h => hdst ⟨hstrict, h⟩⟩]
    exact ⟨_, rfl⟩

theorem memmove_moves (hdst : dst + n ≤ 4294967296) (hsrc : src + n ≤ 4294967296)
    (hcheck : strictnessHighimpact ≤ strictness →
      mmCheckAddr mmuMapGet dst ≠ 0 ∧ mmCheckAddr mmuMapGet src ≠ 0) (m : Nat → UInt8) :
    (memmove strictness mmuMapGet dst src n).MovesBytes m dst src n := by
  unfold memmove
  rw [if_neg fun h => (hcheck h.1).1 h.2, if_neg fun h => (hcheck h.1).2 h.2]
  by_cases hlt : dst < src
  · have hloop : (memmoveUp dst src n).exec m =
        (.ok (), seqCopy (offsetCopies dst src (List.range' 0 n)) m) :=
      memmoveUp_exec (i := 0) (fun _ => rfl) (fun _ => rfl) hdst hsrc m
    refine .up hlt ?_
    rw [if_pos hlt, MemProg.exec_bind_ok hloop]
    rfl
  · refine .down hlt ?_
    rw [if_neg hlt, MemProg.exec_bind_ok (memmoveDown_exec hdst hsrc m)]
    rfl

end KernelString

/-! ## The user library's version -/

namespace UserString

variable {dest src n i fuel left : Nat} {m : Nat → UInt8}

theorem memmoveUp_exec (hn : i + left = n) (hfuel : left < fuel) (hsize : n < 4294967296)
    (hdest : dest + n ≤ 4294967296) (hsrc : src + n ≤ 4294967296) (m : Nat → UInt8) :
    (memmoveUp dest src n fuel i).exec m =
      (.ok (), seqCopy (offsetCopies dest src (List.range' i left)) m) := by
  obtain ⟨fuel, rfl⟩ := Nat.exists_eq_succ_of_ne_zero (Nat.ne_zero_of_lt hfuel)
  induction left generalizing fuel i m with
  | zero =>
      rw [memmoveUp, if_neg (by omega)]
      rfl
  | succ left ih =>
      obtain ⟨fuel, rfl⟩ := Nat.exists_eq_succ_of_ne_zero (show fuel ≠ 0 by omega)
      rw [memmoveUp, if_pos (by omega), MemProg.exec_copy, List.range'_succ, seqCopy_offsets_cons,
        u32_of_lt (by omega), u32_of_lt (by omega), u32_of_lt (by omega)]
      exact ih (by omega) _ fuel (by omega)

theorem memmoveDown_exec (hdest : dest + n ≤ 4294967296) (hsrc : src + n ≤ 4294967296)
    (m : Nat → UInt8) :
    (memmoveDown dest src n).exec m =
      (.ok (), seqCopy (offsetCopies dest src (List.range n).reverse) m) := by
  induction n generalizing m with
  | zero => rfl
  | succ n ih =>
      rw [memmoveDown, MemProg.exec_copy, ih (by omega) (by omega), u32_of_lt (by omega),
        u32_of_lt (by omega), seqCopy_offsets_down]

/-- The number of rounds on the way down, if `n-1` is an `int`. -/
theorem rounds_eq (hn : n ≤ 2147483648) :
    (i32 (u32 (u64 (n + 18446744073709551615))) + 1).toNat = n := by
  unfold i32 u32 u64
  split <;> omega

theorem memmove_moves (hn : n ≤ 2147483648) (hdest : dest + n ≤ 4294967296)
    (hsrc : src + n ≤ 4294967296) (hfuel : n < fuel) (m : Nat → UInt8) :
    (memmove fuel dest src n).MovesBytes m dest src n := by
  unfold memmove
  by_cases hlt : dest < src
  · refine .up hlt ?_
    rw [if_pos hlt, MemProg.exec_bind_ok
      (memmoveUp_exec (Nat.zero_add n) hfuel (by omega) hdest hsrc m)]
    rfl
  · refine .down hlt ?_
    rw [if_neg hlt, rounds_eq hn, MemProg.exec_bind_ok (memmoveDown_exec hdest hsrc m)]
    rfl

/-- Above that, the index starts below 0, and nothing is copied on the way down. -/
theorem memmove_none (hn : 2147483648 < n) (hsize : n ≤ 4294967296) (hle : src ≤ dest)
    (m : Nat → UInt8) : (memmove fuel dest src n).exec m = (.ok dest, m) := by
  have hrounds : (i32 (u32 (u64 (n + 18446744073709551615))) + 1).toNat = 0 := by
    unfold i32 u32 u64
    split <;> omega
  unfold memmove
  rw [if_neg (Nat.not_lt.mpr hle), hrounds]
  rfl

end UserString

/-! ## Both -/

/-- Both versions move the bytes as if at once, for every overlap. -/
theorem memmove_simultaneous (m : Nat → UInt8) {dest src n : Nat} (hn : n ≤ 2147483647)
    (hdest : dest + n ≤ 4294967296) (hsrc : src + n ≤ 4294967296) :
    (∀ strictness mmuMapGet, (strictnessHighimpact ≤ strictness →
        mmCheckAddr mmuMapGet dest ≠ 0 ∧ mmCheckAddr mmuMapGet src ≠ 0) →
      (KernelString.memmove strictness mmuMapGet dest src n).MovesBytes m dest src n) ∧
    ∀ fuel, n < fuel → (UserString.memmove fuel dest src n).MovesBytes m dest src n :=
  ⟨fun _ _ hcheck => KernelString.memmove_moves hdest hsrc hcheck m,
    fun _ hfuel => UserString.memmove_moves (by omega) hdest hsrc hfuel m⟩

/-- Four bytes, moved up by one and down by one. -/
theorem memmove_simultaneous_overlap :
    (KernelString.memmove 255 (fun _ => 3) 0x1001 0x1000 4).MovesBytes (fun a => .ofNat a)
        0x1001 0x1000 4 ∧
      (UserString.memmove 5 0x1000 0x1001 4).MovesBytes (fun a => .ofNat a) 0x1000 0x1001 4 :=
  ⟨(memmove_simultaneous _ (by decide) (by decide) (by decide)).1 255 _ (by decide),
    (memmove_simultaneous _ (by decide) (by decide) (by decide)).2 5 (by decide)⟩

end LambdaOs
