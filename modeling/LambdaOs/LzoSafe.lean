import LambdaOs.Lzo
import LambdaOs.Run

/-!
# What the decompressor touches

Every load, store and size of `_lzo1x_decompress_block` meets `LzoOk`: stores
stay in the output buffer, a match copies only bytes that were written before,
and no length or distance wraps. The input pointer is followed as its offset
from the start of the input (`InOk`) and the output pointer as the number of
bytes written (`OutAt`), which holds in the arithmetic of pointers too.

Loads of input bytes stay in the input as long as a length that is extended by
zero bytes ends there (`ZeroRunEnds`). All that is said of them is therefore
relative to a predicate `P` on addresses: it holds of every address, or of
those of the input and then the runs of zeroes end.
-/

namespace LambdaOs

/-! ## Pointers -/

theorem ptrDiff_u32 {a n k : Nat} (hk : k ≤ n) (hn : n < 4294967296) :
    ptrDiff (u32 (a + n)) (u32 (a + k)) = n - k := by
  unfold ptrDiff u32
  omega

theorem ptrDiff_succ {p q : Nat} (h : 1 ≤ ptrDiff p q) :
    ptrDiff p (u32 (q + 1)) + 1 = ptrDiff p q := by
  unfold ptrDiff u32 at *
  omega

theorem ptrDiff_lt (p q : Nat) : ptrDiff p q < 4294967296 := u32_lt _

/-! ## What is allowed -/

/-- What the function may do after `pre`, with input bytes from where `P`
holds. -/
def LzoOk (P : Nat → Prop) (c : LzoCall) (pre : List (Access LzoMark)) :
    Access LzoMark → Prop
  | .read .input a => P a
  | .read (.lookbehind dist) a => 1 ≤ dist ∧ .write a ∈ pre
  | .read (.size _) _ => False
  | .write a => c.output ≤ a ∧ a < c.output + c.outputLen
  | .note (.size value) => value < 4294967296
  | .note _ => False

/-- The function's programs do what is allowed, and there is one error. -/
abbrev LzoSafe {α : Type} (P : Nat → Prop) (c : LzoCall)
    (post : List (Access LzoMark) → α → (Nat → UInt8) → Prop) (h : List (Access LzoMark))
    (x : LzoProg α) (m : Nat → UInt8) : Prop :=
  MemProg.Safe (LzoOk P c) (· = .ret (-EUNSPEC)) post h x m

/-- `P` holds everywhere, or of the input, with `k` bytes from `inb` on. -/
def InOk (P : Nat → Prop) (c : LzoCall) (inb k : Nat) : Prop :=
  inb < 4294967296 ∧
    ((∀ a, P a) ∨ (∀ i < c.inputLen, P (u32 (c.input + i))) ∧
      ∃ p, p + k ≤ c.inputLen ∧ inb = u32 (c.input + p))

/-- `n` bytes are written. -/
structure OutAt (c : LzoCall) (h : List (Access LzoMark)) (outb n : Nat) : Prop where
  le : n ≤ c.outputLen
  ptr : outb = u32 (c.output + n)
  written : ∀ i < n, .write (c.output + i) ∈ h

section Rules

variable {P : Nat → Prop} {c : LzoCall} {α : Type} {h : List (Access LzoMark)} {m : Nat → UInt8}
  {post : List (Access LzoMark) → α → (Nat → UInt8) → Prop} {inb k n v : Nat}

theorem InOk.read (hin : InOk P c inb k) (hk : 0 < k) : P inb := by
  obtain ⟨-, hall | ⟨hP, p, hp, rfl⟩⟩ := hin
  · exact hall _
  · exact hP p (by omega)

theorem InOk.advance (hin : InOk P c inb k) {j : Nat} (hj : j ≤ k) :
    InOk P c (u32 (inb + j)) (k - j) := by
  obtain ⟨-, hall | ⟨hP, p, hp, rfl⟩⟩ := hin
  · exact ⟨u32_lt _, Or.inl hall⟩
  · exact ⟨u32_lt _, Or.inr ⟨hP, p + j, by omega, by rw [u32_u32_add, Nat.add_assoc]⟩⟩

theorem InOk.le (hin : InOk P c inb k) {j : Nat} (hj : j ≤ k) : InOk P c inb j :=
  ⟨hin.1, hin.2.imp_right fun ⟨hP, p, hp, hinb⟩ => ⟨hP, p, by omega, hinb⟩⟩

/-- After `CHECK_IN_LEFT`. -/
theorem InOk.check (hin : InOk P c inb 0) (hk : ¬ ptrDiff c.inEnd inb < k) : InOk P c inb k := by
  obtain ⟨hlt, hall | ⟨hP, p, hp, rfl⟩⟩ := hin
  · exact ⟨hlt, Or.inl hall⟩
  · rw [LzoCall.inEnd, ptrDiff_u32 (by omega) c.inputLen_lt] at hk
    exact ⟨hlt, Or.inr ⟨hP, p, by omega, rfl⟩⟩

/-- After `CHECK_OUT_LEFT`. -/
theorem OutAt.check {outb : Nat} (hout : OutAt c h outb n) (hk : ¬ ptrDiff c.outEnd outb < k) :
    n + k ≤ c.outputLen := by
  have hle := hout.le
  rw [hout.ptr, LzoCall.outEnd, ptrDiff_u32 hle c.outputLen_lt] at hk
  omega

theorem OutAt.mono {h' : List (Access LzoMark)} {outb : Nat} (hout : OutAt c h outb n)
    (hh : h ⊆ h') : OutAt c h' outb n :=
  ⟨hout.le, hout.ptr, fun i hi => hh (hout.written i hi)⟩

theorem safe_sizeT {f : Nat → LzoProg α} (hv : v < 4294967296)
    (hf : LzoSafe P c post (h ++ [.note (.size v)]) (f v) m) :
    LzoSafe P c post h (sizeT v >>= f) m := by
  refine ⟨hv, ?_⟩
  rw [u32_of_lt hv]
  exact hf

theorem safe_inByte {f : Nat → LzoProg α} (hin : P inb)
    (hf : LzoSafe P c post (h ++ [.read .input inb]) (f (m inb).toNat) m) :
    LzoSafe P c post h (inByte inb >>= f) m :=
  ⟨hin, hf⟩

theorem safe_checkInLeft {f : Unit → LzoProg α} (hin : InOk P c inb 0)
    (hf : ¬ ptrDiff c.inEnd inb < k → InOk P c inb k → LzoSafe P c post h (f ()) m) :
    LzoSafe P c post h (checkInLeft c inb k >>= f) m := by
  unfold checkInLeft
  split
  · exact rfl
  · rename_i hk
    exact hf hk (hin.check hk)

theorem safe_checkOutLeft {f : Unit → LzoProg α} {outb : Nat} (hout : OutAt c h outb n)
    (hf : n + k ≤ c.outputLen → LzoSafe P c post h (f ()) m) :
    LzoSafe P c post h (checkOutLeft c outb k >>= f) m := by
  unfold checkOutLeft
  split
  · exact rfl
  · rename_i hk
    exact hf (hout.check hk)

end Rules

/-! ## Runs of zeroes -/

/-- The forms whose length is extended by zero bytes. -/
def LongLength (b state : Nat) : Prop := b = 0 ∧ state = 0 ∨ b = 16 ∨ b = 24 ∨ b = 32

instance (b state : Nat) : Decidable (LongLength b state) :=
  inferInstanceAs (Decidable (_ ∨ _))

/-- A byte of the input behind the first of the instruction is not zero, if the
form looks for one. -/
def ZeroRunEnds (c : LzoCall) (m : Nat → UInt8) (inb state : Nat) : Prop :=
  LongLength (m inb).toNat state →
    ∃ q < c.inputLen, ptrDiff inb c.input < q ∧ m (u32 (c.input + q)) ≠ 0

instance (c : LzoCall) (m : Nat → UInt8) (inb state : Nat) :
    Decidable (ZeroRunEnds c m inb state) :=
  inferInstanceAs (Decidable (_ → _))

/-- From `inb` on there is such a byte. -/
def RunIn (P : Nat → Prop) (c : LzoCall) (m : Nat → UInt8) (inb : Nat) : Prop :=
  inb < 4294967296 ∧
    ((∀ a, P a) ∨ (∀ i < c.inputLen, P (u32 (c.input + i))) ∧
      ∃ p q, p ≤ q ∧ q < c.inputLen ∧ inb = u32 (c.input + p) ∧ m (u32 (c.input + q)) ≠ 0)

section Fetch

variable {P : Nat → Prop} {c : LzoCall} {h : List (Access LzoMark)} {m : Nat → UInt8}
  {inb state : Nat}

theorem RunIn.inOk (hrun : RunIn P c m inb) : InOk P c inb 1 := by
  obtain ⟨hlt, hall | ⟨hP, p, q, hpq, hq, hinb, -⟩⟩ := hrun
  · exact ⟨hlt, Or.inl hall⟩
  · exact ⟨hlt, Or.inr ⟨hP, p, by omega, hinb⟩⟩

theorem RunIn.next (hrun : RunIn P c m inb) (hzero : m inb = 0) : RunIn P c m (u32 (inb + 1)) := by
  obtain ⟨-, hall | ⟨hP, p, q, hpq, hq, rfl, hne⟩⟩ := hrun
  · exact ⟨u32_lt _, Or.inl hall⟩
  · have hpq' : p ≠ q := fun he => hne (he ▸ hzero)
    exact ⟨u32_lt _, Or.inr ⟨hP, p + 1, q, by omega, hq, u32_u32_add _ _, hne⟩⟩

theorem InOk.runIn (hin : InOk P c inb 1) (hends : (∀ a, P a) ∨ ZeroRunEnds c m inb state)
    (hlong : LongLength (m inb).toNat state) : RunIn P c m (u32 (inb + 1)) := by
  rcases hends with hall | hends
  · exact ⟨u32_lt _, Or.inl hall⟩
  obtain ⟨-, hall | ⟨hP, p, hp, rfl⟩⟩ := hin
  · exact ⟨u32_lt _, Or.inl hall⟩
  · obtain ⟨q, hq, hpq, hne⟩ := hends hlong
    have hoff := ptrDiff_u32 (a := c.input) (Nat.zero_le p) (by have := c.inputLen_lt; omega)
    rw [Nat.add_zero, u32_of_lt c.input_lt] at hoff
    exact ⟨u32_lt _, Or.inr ⟨hP, p + 1, q, by omega, hq, u32_u32_add _ _, hne⟩⟩

/-- The loop stops before the pointer comes round. -/
theorem safe_skipZeroes {fuel inb : Nat} {h : List (Access LzoMark)}
    (hfuel : ptrDiff c.inEnd inb < fuel) (hrun : RunIn P c m inb) :
    LzoSafe P c (fun _ inb' _ => InOk P c inb' 1) h (skipZeroes c fuel inb) m := by
  induction fuel generalizing inb h with
  | zero => exact absurd hfuel (Nat.not_lt_zero _)
  | succ fuel ih =>
      have hin := hrun.inOk
      rw [skipZeroes]
      refine safe_inByte (hin.read Nat.one_pos) ?_
      split
      · rename_i hzero
        have hzero : m inb = 0 := UInt8.toNat_inj.mp hzero
        refine safe_checkInLeft (hin.le (Nat.zero_le _)) ?_
        intro hleft _
        have hstep := ptrDiff_succ (Nat.le_of_not_lt hleft)
        exact ih (by omega) (hrun.next hzero)
      · exact hin

theorem safe_extendedLen {base : Nat} (hrun : RunIn P c m inb) (hbase : base ≤ 31) :
    LzoSafe P c (fun _ r _ => r.1 ≤ max255Count * 255 + base + 255 ∧ InOk P c r.2 0) h
      (extendedLen c inb base) m := by
  have hmax : max255Count = 16843007 := rfl
  refine MemProg.Safe.bind ?_
  refine MemProg.Safe.seq (safe_skipZeroes (ptrDiff_lt _ _) hrun) ?_
  intro h' inb' m' _ _ hin
  simp only [gt_iff_lt]
  split
  · exact rfl
  · rename_i hoff
    refine safe_sizeT (by omega) ?_
    refine safe_inByte (hin.read Nat.one_pos) ?_
    simp only
    have hbyte := (m' inb').toNat_lt
    exact safe_sizeT (by omega) ⟨by omega, hin.advance (Nat.le_refl 1)⟩

/-- What is fetched is behind the input pointer, reaches back at most `0xBFFF`
bytes and is at least two bytes long. -/
def FetchOk (P : Nat → Prop) (c : LzoCall) : LzoFetch → Prop
  | .verbatim inb temp => InOk P c inb 0 ∧ 2 ≤ temp ∧ temp + 3 < 4294967296
  | .lookbehind inb dist temp next =>
      InOk P c inb 0 ∧ 1 ≤ dist ∧ dist < 0xC000 ∧ 2 ≤ temp ∧ next < 4
  | .done _ _ => True

theorem safe_inLe16 {α : Type} {post : List (Access LzoMark) → α → (Nat → UInt8) → Prop}
    {f : Nat → LzoProg α} (hin : InOk P c inb 0)
    (hf : ∀ h' next, next < 65536 → InOk P c (u32 (inb + 2)) 0 → LzoSafe P c post h' (f next) m) :
    LzoSafe P c post h (inLe16 c inb >>= f) m := by
  refine MemProg.Safe.bind ?_
  refine safe_checkInLeft hin ?_
  intro _ hin
  refine safe_inByte (hin.read (by omega)) ?_
  refine safe_inByte ((hin.advance (j := 1) (by omega)).read (by omega)) ?_
  have hlo := (m inb).toNat_lt
  have hhi := (m (u32 (inb + 1))).toNat_lt
  exact hf _ _ (by omega) (hin.advance (Nat.le_refl 2))

theorem safe_matchLen {temp base : Nat} (hin : InOk P c inb 0)
    (hrun : temp = 2 → RunIn P c m inb) (htemp : 2 ≤ temp ∧ temp ≤ 33) (hbase : base ≤ 31) :
    LzoSafe P c (fun _ r _ => 2 ≤ r.1 ∧ InOk P c r.2 0) h (matchLen c inb temp base) m := by
  have hmax : max255Count = 16843007 := rfl
  unfold matchLen
  split
  · rename_i h2
    refine MemProg.Safe.seq (safe_extendedLen (hrun h2) hbase) ?_
    intro h' r m' _ _ hr
    exact safe_sizeT (by omega) ⟨by omega, hr.2⟩
  · exact ⟨htemp.1, hin⟩

section Forms

variable {temp : Nat}

theorem safe_fetchRun (hin : InOk P c inb 0) (hrun : temp = 0 → RunIn P c m inb)
    (htemp : temp < 16) :
    LzoSafe P c (fun _ r _ => FetchOk P c r) h (fetchRun c temp inb) m := by
  have hmax : max255Count = 16843007 := rfl
  unfold fetchRun
  simp only
  split
  · rename_i h0
    refine MemProg.Safe.seq (safe_extendedLen (hrun h0) (by omega)) ?_
    intro h' r m' _ _ hr
    exact safe_sizeT (by omega) ⟨hr.2, by omega, by omega⟩
  · exact safe_sizeT (by omega) ⟨hin, by omega, by omega⟩

theorem safe_fetchM1 {base len : Nat} (hin : InOk P c inb 1) (htemp : temp < 16)
    (hbase : 1 ≤ base ∧ base ≤ 2049) (hlen : 2 ≤ len) :
    LzoSafe P c (fun _ r _ => FetchOk P c r) h (fetchM1 temp inb base len) m := by
  have hend := hin.advance (Nat.le_refl 1)
  have hbyte := (m inb).toNat_lt
  have hlow : temp &&& 3 ≤ 3 := Nat.and_le_right
  unfold fetchM1
  refine safe_inByte (hin.read Nat.one_pos) ?_
  rw [Nat.shiftRight_eq_div_pow, Nat.shiftLeft_eq]
  exact safe_sizeT (by omega) ⟨hend, by omega, by omega, hlen, by omega⟩

theorem safe_fetchM4 (hin : InOk P c inb 0) (hrun : temp = 16 ∨ temp = 24 → RunIn P c m inb)
    (htemp : 16 ≤ temp ∧ temp < 32) :
    LzoSafe P c (fun _ r _ => FetchOk P c r) h (fetchM4 c temp inb) m := by
  have hbit : (temp &&& 8) <<< 11 ≤ 8 * 2 ^ 11 := by
    rw [Nat.shiftLeft_eq]
    exact Nat.mul_le_mul_right _ Nat.and_le_right
  have hmod : temp &&& 7 = temp % 8 := Nat.and_two_pow_sub_one_eq_mod temp 3
  unfold fetchM4
  refine MemProg.Safe.seq (safe_matchLen hin (fun h2 => hrun (by omega)) ⟨by omega, by omega⟩
    (by omega)) ?_
  intro h' r m' _ _ hr
  refine safe_inLe16 hr.2 ?_
  intro h'' next hn hin''
  rw [Nat.shiftRight_eq_div_pow]
  have hlow : next &&& 3 ≤ 3 := Nat.and_le_right
  refine safe_sizeT (by omega) ?_
  split
  · trivial
  · exact safe_sizeT (by omega) ⟨hin'', by omega, by omega, hr.1, by omega⟩

theorem safe_fetchM3 (hin : InOk P c inb 0) (hrun : temp = 32 → RunIn P c m inb)
    (htemp : 32 ≤ temp ∧ temp < 64) :
    LzoSafe P c (fun _ r _ => FetchOk P c r) h (fetchM3 c temp inb) m := by
  have hmod : temp &&& 31 = temp % 32 := Nat.and_two_pow_sub_one_eq_mod temp 5
  unfold fetchM3
  refine MemProg.Safe.seq (safe_matchLen hin (fun h2 => hrun (by omega)) ⟨by omega, by omega⟩
    (by omega)) ?_
  intro h' r m' _ _ hr
  refine safe_inLe16 hr.2 ?_
  intro h'' next hn hin''
  rw [Nat.shiftRight_eq_div_pow]
  have hlow : next &&& 3 ≤ 3 := Nat.and_le_right
  exact safe_sizeT (by omega) ⟨hin'', by omega, by omega, hr.1, by omega⟩

theorem safe_fetchM2 (hin : InOk P c inb 1) (htemp : 64 ≤ temp ∧ temp < 256) :
    LzoSafe P c (fun _ r _ => FetchOk P c r) h (fetchM2 temp inb) m := by
  have hend := hin.advance (Nat.le_refl 1)
  have hbyte := (m inb).toNat_lt
  have hlow : temp &&& 3 ≤ 3 := Nat.and_le_right
  have hbits : (temp >>> 2) &&& 7 ≤ 7 := Nat.and_le_right
  unfold fetchM2
  refine safe_inByte (hin.read Nat.one_pos) ?_
  rw [Nat.shiftLeft_eq, Nat.shiftRight_eq_div_pow temp 5]
  exact safe_sizeT (by omega) ⟨hend, by omega, by omega, by omega, by omega⟩

end Forms

theorem safe_lzoFetch (hin : InOk P c inb 3)
    (hends : (∀ a, P a) ∨ ZeroRunEnds c m inb state) :
    LzoSafe P c (fun _ r _ => FetchOk P c r) h (lzoFetch c inb state) m := by
  have hrun := fun hlong => (hin.le (j := 1) (by omega)).runIn hends hlong
  have hnext := hin.advance (j := 1) (by omega)
  have hb := (m inb).toNat_lt
  unfold lzoFetch
  refine safe_inByte (hin.read (by omega)) ?_
  generalize (m inb).toNat = temp at hrun hb
  unfold LongLength at hrun
  unfold fetchForm
  split
  · rename_i hlow
    split
    · rename_i hstate
      exact safe_fetchRun (hnext.le (by omega)) (fun h0 => hrun (Or.inl ⟨h0, hstate⟩)) hlow
    · split
      · exact safe_fetchM1 (hnext.le (by omega)) hlow (by omega) (by omega)
      · exact safe_fetchM1 (hnext.le (by omega)) hlow (by omega) (by omega)
  · split
    · exact safe_fetchM4 (hnext.le (by omega)) (fun h2 => hrun (by omega)) (by omega)
    · split
      · exact safe_fetchM3 (hnext.le (by omega)) (fun h2 => hrun (by omega)) (by omega)
      · exact safe_fetchM2 (hnext.le (by omega)) (by omega)

end Fetch

/-! ## Copies -/

section Copies

variable {P : Nat → Prop} {c : LzoCall} {h : List (Access LzoMark)} {m : Nat → UInt8}
  {inb outb n temp : Nat}

/-- Every byte is stored before the next one is loaded. -/
theorem safe_copyBytes {tag : LzoMark} {d s n i : Nat} {h : List (Access LzoMark)}
    {m : Nat → UInt8}
    (hread : ∀ j h', i ≤ j → j < i + n → h ⊆ h' →
      (∀ k, i ≤ k → k < j → .write (u32 (d + k)) ∈ h') → LzoOk P c h' (.read tag (u32 (s + j))))
    (hwrite : ∀ j h', i ≤ j → j < i + n → LzoOk P c h' (.write (u32 (d + j)))) :
    LzoSafe P c (fun h' _ _ => ∀ k, i ≤ k → k < i + n → .write (u32 (d + k)) ∈ h') h
      (copyBytes tag d s i n) m := by
  induction n generalizing i h m with
  | zero => exact fun k hk hk' => absurd hk' (by omega)
  | succ n ih =>
      have hfirst := hread i h (Nat.le_refl _) (by omega) (List.Subset.refl h)
        fun k hk hk' => absurd hk' (by omega)
      refine ⟨hfirst, hwrite i _ (Nat.le_refl _) (by omega), ?_⟩
      have hsub : h ⊆ h ++ [.read tag (u32 (s + i))] ++ [.write (u32 (d + i))] := fun e he =>
        List.mem_append_left _ (List.mem_append_left _ he)
      have hlast :
          .write (u32 (d + i)) ∈ h ++ [.read tag (u32 (s + i))] ++ [.write (u32 (d + i))] :=
        List.mem_append_right _ (List.mem_singleton_self _)
      refine MemProg.Safe.mono (ih (i := i + 1) ?_
        fun j h' hj hj' => hwrite j h' (by omega) (by omega)) ?_
      · intro j h' hj hj' hh hw
        refine hread j h' (by omega) (by omega) (fun e he => hh (hsub he)) ?_
        intro k hk hk'
        by_cases hki : k = i
        · exact hki ▸ hh hlast
        · exact hw k (by omega) hk'
      · intro h' _ _ hh _ hall k hk hk'
        by_cases hki : k = i
        · exact hki ▸ hh hlast
        · exact hall k (by omega) (by omega)

/-- The output after `k` more bytes. -/
theorem OutAt.advance {k : Nat} (hout : OutAt c h outb n) (hk : n + k ≤ c.outputLen)
    (hwrap : c.output + c.outputLen ≤ 4294967296) {h' : List (Access LzoMark)} (hh : h ⊆ h')
    (hall : ∀ j, 0 ≤ j → j < 0 + k → .write (u32 (outb + j)) ∈ h') :
    OutAt c h' (u32 (outb + k)) (n + k) := by
  refine ⟨hk, by rw [hout.ptr, u32_u32_add, Nat.add_assoc], ?_⟩
  intro i hi
  by_cases hin : i < n
  · exact hh (hout.written i hin)
  · have hw := hall (i - n) (Nat.zero_le _) (by omega)
    rw [hout.ptr, u32_u32_add, u32_of_lt (by omega)] at hw
    rwa [show c.output + i = c.output + n + (i - n) by omega]

/-- The room that is left is in the output. -/
theorem OutAt.writes {k : Nat} (hout : OutAt c h outb n) (hk : n + k ≤ c.outputLen)
    (hwrap : c.output + c.outputLen ≤ 4294967296) {j : Nat} (hj : j < k)
    (h' : List (Access LzoMark)) : LzoOk P c h' (.write (u32 (outb + j))) := by
  rw [hout.ptr, u32_u32_add, u32_of_lt (by omega)]
  exact ⟨by omega, by omega⟩

/-- Literals. -/
theorem safe_literals {k : Nat} (hin : InOk P c inb k) (hout : OutAt c h outb n)
    (hk : n + k ≤ c.outputLen) (hwrap : c.output + c.outputLen ≤ 4294967296) :
    LzoSafe P c (fun h' _ _ => OutAt c h' (u32 (outb + k)) (n + k)) h
      (copyBytes .input outb inb 0 k) m := by
  refine MemProg.Safe.mono (safe_copyBytes ?_
    fun j h' _ hj => hout.writes hk hwrap (by omega) h') ?_
  · intro j h' _ hj _ _
    exact (hin.advance (j := j) (by omega)).read (by omega)
  · intro h' _ _ hh _ hall
    exact hout.advance hk hwrap hh hall

/-- A match: its distance is at most what is written. -/
theorem safe_match {dist k : Nat} (hout : OutAt c h outb n) (h1 : 1 ≤ dist) (hd : dist ≤ n)
    (hk : n + k ≤ c.outputLen) (hwrap : c.output + c.outputLen ≤ 4294967296) :
    LzoSafe P c (fun h' _ _ => OutAt c h' (u32 (outb + k)) (n + k)) h
      (copyBytes (.lookbehind dist) outb (ptrDiff outb dist) 0 k) m := by
  refine MemProg.Safe.mono (safe_copyBytes (fun j h' _ hj hh hw => ⟨h1, ?_⟩)
    fun j h' _ hj => hout.writes hk hwrap (by omega) h') ?_
  · -- the byte is one of those before the match, or one that the match wrote
    have hsrc : u32 (ptrDiff outb dist + j) = c.output + (n - dist + j) := by
      rw [hout.ptr]
      unfold ptrDiff u32
      omega
    rw [hsrc]
    by_cases hold : n - dist + j < n
    · exact hh (hout.written _ hold)
    · have hnew := hw (j - dist) (Nat.zero_le _) (by omega)
      rw [hout.ptr, u32_u32_add, u32_of_lt (by omega)] at hnew
      rwa [show c.output + (n - dist + j) = c.output + n + (j - dist) by omega]
  · intro h' _ _ hh _ hall
    exact hout.advance hk hwrap hh hall

/-- `CHECK_LB`, for an output that does not begin too low. -/
theorem safe_checkLb {α : Type} {post : List (Access LzoMark) → α → (Nat → UInt8) → Prop}
    {f : Unit → LzoProg α} {dist : Nat} (hout : OutAt c h outb n) (hlow : 0xC000 ≤ c.output)
    (hwrap : c.output + c.outputLen ≤ 4294967296) (h1 : 1 ≤ dist) (hmax : dist < 0xC000)
    (hf : dist ≤ n → LzoSafe P c post h (f ()) m) :
    LzoSafe P c post h (checkLb c outb dist >>= f) m := by
  unfold checkLb
  split
  · exact rfl
  · rename_i hlb
    have hle := hout.le
    rw [hout.ptr] at hlb
    refine hf ?_
    unfold ptrDiff u32 at hlb
    omega

end Copies

/-! ## Rounds -/

/-- Between two rounds at least three bytes of the input are left. -/
def StateOk (P : Nat → Prop) (c : LzoCall) (h : List (Access LzoMark)) (n : Nat)
    (s : LzoState) : Prop :=
  InOk P c s.inb 3 ∧ ∃ n', n ≤ n' ∧ OutAt c h s.outb n'

/-- A round that is not the last writes at least two bytes. -/
def NextOk (P : Nat → Prop) (c : LzoCall) (h : List (Access LzoMark)) (n : Nat) :
    LzoNext → Prop
  | .more s => StateOk P c h (n + 2) s
  | .done _ outb _ => OutAt c h outb n

section Rounds

variable {P : Nat → Prop} {c : LzoCall} {h : List (Access LzoMark)} {m : Nat → UInt8}
  {inb outb n temp : Nat} {s : LzoState}

/-- The checks and the copy in front of what both labels return. -/
theorem safe_checkedCopy {α : Type} {post : List (Access LzoMark) → α → (Nat → UInt8) → Prop}
    {f : LzoProg α} {len : Nat} (hwrap : c.output + c.outputLen ≤ 4294967296)
    (hin : InOk P c inb 0) (hout : OutAt c h outb n) (hlen : len + 3 < 4294967296)
    (hf : ∀ h' m', InOk P c (u32 (inb + len)) 3 → OutAt c h' (u32 (outb + len)) (n + len) →
      LzoSafe P c post h' f m') :
    LzoSafe P c post h (do
      checkInLeft c inb (← sizeT (len + 3))
      checkOutLeft c outb len
      copyBytes .input outb inb 0 len
      f) m := by
  refine safe_sizeT hlen ?_
  refine safe_checkInLeft hin ?_
  intro _ hin
  have hout := hout.mono (List.subset_append_left h [.note (.size (len + 3))])
  refine safe_checkOutLeft hout ?_
  intro hk
  refine MemProg.Safe.seq (safe_literals (hin.le (by omega)) hout hk hwrap) ?_
  intro h' _ m' _ _ hout'
  exact hf h' m' ((hin.advance (j := len) (by omega)).le (by omega)) hout'

theorem safe_copyVerbatim (hwrap : c.output + c.outputLen ≤ 4294967296) (hin : InOk P c inb 0)
    (hout : OutAt c h outb n) (htemp : temp + 3 < 4294967296) :
    LzoSafe P c (fun h' s _ => StateOk P c h' (n + temp) s) h
      (copyVerbatim c inb outb temp) m := by
  refine safe_checkedCopy hwrap hin hout htemp ?_
  intro h' m' hin' hout'
  exact ⟨hin', _, Nat.le_refl _, hout'⟩

theorem safe_skipLookbehind {next : Nat} (hwrap : c.output + c.outputLen ≤ 4294967296)
    (hin : InOk P c inb 0) (hout : OutAt c h outb n) (hnext : next + 3 < 4294967296) :
    LzoSafe P c (fun h' s _ => StateOk P c h' n s) h (skipLookbehind c inb outb next) m := by
  refine safe_checkedCopy hwrap hin hout hnext ?_
  intro h' m' hin' hout'
  exact ⟨hin', _, Nat.le_add_right _ _, hout'⟩

/-- The round lemma. -/
theorem safe_lzoRound (hlow : 0xC000 ≤ c.output) (hwrap : c.output + c.outputLen ≤ 4294967296)
    (hin : InOk P c s.inb 3) (hout : OutAt c h s.outb n)
    (hends : (∀ a, P a) ∨ ZeroRunEnds c m s.inb s.state) :
    LzoSafe P c (fun h' r _ => NextOk P c h' n r) h (lzoRound c s) m := by
  unfold lzoRound
  refine MemProg.Safe.seq (safe_lzoFetch hin hends) ?_
  intro h₁ r m₁ hh _ hr
  have hout := hout.mono hh
  cases r with
  | verbatim inb temp =>
    obtain ⟨hin, h2, htemp⟩ := hr
    refine MemProg.Safe.seq (safe_copyVerbatim hwrap hin hout htemp) ?_
    intro h' s' _ _ _ hs
    obtain ⟨hin', n', hn', hout'⟩ := hs
    exact ⟨hin', n', by omega, hout'⟩
  | lookbehind inb dist temp next =>
    obtain ⟨hin, h1, hmax, h2, hnext⟩ := hr
    refine safe_checkLb hout hlow hwrap h1 hmax ?_
    intro hd
    refine safe_checkOutLeft hout ?_
    intro hk
    refine MemProg.Safe.seq (safe_match hout h1 hd hk hwrap) ?_
    intro h₂ _ _ _ _ hout'
    refine MemProg.Safe.seq (safe_skipLookbehind hwrap hin hout' (by omega))
      ?_
    intro h' s' _ _ _ hs
    obtain ⟨hin', n', hn', hout'⟩ := hs
    exact ⟨hin', n', by omega, hout'⟩
  | done inb temp => exact hout

/-- One round as a step; the run is as long as rounds follow. -/
def lzoStep (c : LzoCall) (x : LzoState × (Nat → UInt8)) (_ : Unit) :
    Option (LzoState × (Nat → UInt8)) :=
  match (lzoRound c x.1).exec x.2 with
  | (.ok (.more s), m) => some (s, m)
  | _ => none

/-- In every round the run of zeroes ends that the instruction looks for. -/
def ZeroRunsEnd (c : LzoCall) (rounds : Nat) (s : LzoState) (m : Nat → UInt8) : Prop :=
  Guarded (lzoStep c) (fun x _ => ZeroRunEnds c x.2 x.1.inb x.1.state) (s, m)
    (List.replicate rounds ())

instance (c : LzoCall) (rounds : Nat) (s : LzoState) (m : Nat → UInt8) :
    Decidable (ZeroRunsEnd c rounds s m) :=
  have : ∀ x : LzoState × (Nat → UInt8),
      DecidablePred fun _ : Unit => ZeroRunEnds c x.2 x.1.inb x.1.state := fun _ _ => inferInstance
  Guarded.decidable ..

/-- In every round of a call. -/
def AllZeroRunsEnd (c : LzoCall) (m : Nat → UInt8) : Prop :=
  match (lzoStart c).exec m with
  | (.ok s, m') => ZeroRunsEnd c 4294967296 s m'
  | (.error _, _) => True

instance (c : LzoCall) (m : Nat → UInt8) : Decidable (AllZeroRunsEnd c m) := by
  unfold AllZeroRunsEnd
  split <;> infer_instance

/-- The loop: the rounds that are left are enough for the bytes that are. -/
theorem safe_lzoLoop (hlow : 0xC000 ≤ c.output) (hwrap : c.output + c.outputLen ≤ 4294967296)
    {rounds n : Nat} {h : List (Access LzoMark)} {s : LzoState} {m : Nat → UInt8}
    (hin : InOk P c s.inb 3) (hout : OutAt c h s.outb n) (hrounds : c.outputLen < n + 2 * rounds)
    (hends : (∀ a, P a) ∨ ZeroRunsEnd c rounds s m) :
    LzoSafe P c (fun _ len _ => len ≤ c.outputLen) h (lzoLoop c rounds s) m := by
  induction rounds generalizing n h s m with
  | zero => exact absurd hout.le (by omega)
  | succ rounds ih =>
      rw [lzoLoop]
      refine MemProg.Safe.seq (safe_lzoRound hlow hwrap hin hout (hends.imp_right And.left))
        ?_
      intro h' r m' hh hexec hr
      cases r with
      | more s' =>
        obtain ⟨hin', n', hn', hout'⟩ := hr
        refine ih hin' hout' (by omega) (hends.imp_right ?_)
        intro hg
        refine hg.2 (s', m') ?_
        simp only [lzoStep, hexec]
      | done inb outb temp =>
        simp only
        split
        · exact rfl
        · have hlen := ptrDiff_u32 (a := c.output) (Nat.zero_le n)
            (by have := c.outputLen_lt; have := hr.le; omega)
          rw [Nat.add_zero, u32_of_lt c.output_lt, ← hr.ptr] at hlen
          change ptrDiff outb c.output ≤ c.outputLen
          rw [hlen]
          exact hr.le

theorem safe_lzoStart (hwrap : c.output + c.outputLen ≤ 4294967296)
    (hP : (∀ a, P a) ∨ ∀ i < c.inputLen, P (u32 (c.input + i))) :
    LzoSafe P c (fun h' s _ => StateOk P c h' 0 s) [] (lzoStart c) m := by
  unfold lzoStart
  split
  · exact rfl
  · rename_i hlen
    have hin : InOk P c c.input 3 :=
      ⟨c.input_lt, hP.imp_right fun hP => ⟨hP, 0, by omega, (u32_of_lt c.input_lt).symm⟩⟩
    have hout : ∀ h, OutAt c h c.output 0 := fun h =>
      ⟨Nat.zero_le _, (u32_of_lt c.output_lt).symm, fun i hi => absurd hi (Nat.not_lt_zero i)⟩
    have hnext := (hin.advance (j := 1) (by omega)).le (Nat.zero_le _)
    have hb := (m c.input).toNat_lt
    refine safe_inByte (hin.read (by omega)) ?_
    simp only
    split
    · exact rfl
    · split
      · split
        · exact safe_skipLookbehind hwrap hnext (hout _) (by omega)
        · refine (safe_copyVerbatim hwrap hnext (hout _) (by omega)).mono
            ?_
          intro h' s' _ _ _ hs
          obtain ⟨hin', n', hn', hout'⟩ := hs
          exact ⟨hin', n', Nat.zero_le _, hout'⟩
      · exact ⟨hin, 0, Nat.le_refl _, hout _⟩

/-- The whole function. -/
theorem safe_lzo (hlow : 0xC000 ≤ c.output) (hwrap : c.output + c.outputLen ≤ 4294967296)
    (hP : (∀ a, P a) ∨ (∀ i < c.inputLen, P (u32 (c.input + i))) ∧ AllZeroRunsEnd c m) :
    LzoSafe P c (fun _ len _ => len ≤ c.outputLen) [] (lzo1xDecompressBlock c) m := by
  refine MemProg.Safe.seq (safe_lzoStart hwrap (hP.imp_right And.left))
    ?_
  intro h' s m' _ hexec hs
  obtain ⟨hin, n, hn, hout⟩ := hs
  have hlen := c.outputLen_lt
  refine safe_lzoLoop hlow hwrap hin hout (by omega) (hP.imp_right ?_)
  intro hP
  have hends := hP.2
  rw [AllZeroRunsEnd, hexec] at hends
  exact hends

end Rounds

/-- **The decompressor writes inside its output and copies only what it wrote**,
no size wraps, the length that it returns is at most the one that it is given,
and it ends. -/
theorem lzo_writes_inside {c : LzoCall} (hlow : 0xC000 ≤ c.output)
    (hwrap : c.output + c.outputLen ≤ 4294967296) (m : Nat → UInt8) :
    let p := lzo1xDecompressBlock c
    (∀ a, .write a ∈ p.trace m → c.output ≤ a ∧ a < c.output + c.outputLen) ∧
    (∀ pre dist a rest, p.trace m = pre ++ .read (.lookbehind dist) a :: rest →
      1 ≤ dist ∧ .write a ∈ pre) ∧
    (∀ value, .note (.size value) ∈ p.trace m → value < 4294967296) ∧
    (∀ len m', p.exec m = (.ok len, m') → len ≤ c.outputLen) ∧
    (p.exec m).1 ≠ .error .fuel := by
  intro p
  have hsafe : LzoSafe (fun _ => True) c (fun _ len _ => len ≤ c.outputLen) [] p m :=
    safe_lzo hlow hwrap (Or.inl fun _ => trivial)
  have hmem : ∀ e ∈ p.trace m, ∃ pre, LzoOk (fun _ => True) c pre e := fun e he => by
    obtain ⟨pre, rest, htrace⟩ := List.append_of_mem he
    exact ⟨_, hsafe.trace_ok htrace⟩
  refine ⟨?_, ?_, ?_,
    fun len m' hexec => hsafe.exec_ok hexec, ?_⟩
  · intro a ha
    obtain ⟨pre, hok⟩ := hmem _ ha
    exact hok
  · intro pre dist a rest htrace
    have hok := hsafe.trace_ok htrace
    rwa [List.nil_append] at hok
  · intro value hv
    obtain ⟨pre, hok⟩ := hmem _ hv
    exact hok
  · intro herr
    have hstop := hsafe.halt_ok (Prod.ext herr rfl)
    cases hstop

/-! ## A small block -/

/-- Bytes from `base` on, and zeroes elsewhere. -/
def bytesFrom (base : Nat) (bs : List UInt8) (a : Nat) : UInt8 :=
  if base ≤ a then bs.getD (a - base) 0 else 0

/-- Input of `len` bytes at `0x10000`, and `outputLen` bytes of output at
`0x20000`. -/
def sampleCall (len outputLen : Nat) (hlen : len < 4294967296) (hout : outputLen < 4294967296) :
    LzoCall :=
  ⟨0x10000, len, 0x20000, outputLen, by decide, hlen, by decide, hout⟩

/-- One literal, and a match of three bytes that repeats it. -/
theorem lzo_writes_four :
    let p := lzo1xDecompressBlock (sampleCall 7 6 (by decide) (by decide))
    let m := bytesFrom 0x10000 [18, 97, 64, 0, 17, 0, 0]
    (p.exec m).1.toOption = some 4 ∧ (p.exec m).2 0x20003 = 97 ∧
      ∀ a, .write a ∈ p.trace m → 0x20000 ≤ a ∧ a < 0x20006 := by
  intro p m
  exact ⟨by decide +kernel, by decide +kernel,
    (lzo_writes_inside (c := sampleCall 7 6 (by decide) (by decide)) (by decide) (by decide) m).1⟩

end LambdaOs
