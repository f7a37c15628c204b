import Mathlib.Tactic.IntervalCases
import LambdaOs.LzoSafe

/-!
# What the decompressor reads of its input

`SKIP_AND_COUNT_ZEROES` loads a byte before it looks whether one is left. When
only zero bytes are left of the input, it loads the byte behind it, and goes
on from there if that is not zero. Everything else that is loaded is checked
first, so the loads stay in the input exactly when every run of zeroes that is
looked for ends there (`lzo_reads_input_iff`): forth by what is allowed
(`safe_lzo`), and back because the run that does not end is read to its end
(`skipZeroes_reads_end`).
-/

namespace LambdaOs

/-- The addresses of the input. -/
def InInput (c : LzoCall) (a : Nat) : Prop := ∃ i < c.inputLen, a = u32 (c.input + i)

section ReadsEnd

variable {c : LzoCall} {m : Nat → UInt8} {inb state : Nat}

theorem not_inInput_end : ¬ InInput c (u32 (c.input + c.inputLen)) := by
  rintro ⟨i, hi, heq⟩
  have hlen := c.inputLen_lt
  unfold u32 at heq
  omega

/-- A run of zeroes up to the end of the input is followed to the byte behind. -/
theorem skipZeroes_reads_end {fuel p : Nat} (hp : p ≤ c.inputLen)
    (hfuel : c.inputLen - p < fuel)
    (hzero : ∀ q, p ≤ q → q < c.inputLen → m (u32 (c.input + q)) = 0) :
    .read .input (u32 (c.input + c.inputLen)) ∈
      (skipZeroes c fuel (u32 (c.input + p))).trace m := by
  induction fuel generalizing p with
  | zero => exact absurd hfuel (Nat.not_lt_zero _)
  | succ fuel ih =>
      have htrace : (skipZeroes c (fuel + 1) (u32 (c.input + p))).trace m =
          .read .input (u32 (c.input + p)) ::
            (if (m (u32 (c.input + p))).toNat = 0 then do
              checkInLeft c (u32 (c.input + p)) 1
              skipZeroes c fuel (u32 (u32 (c.input + p) + 1))
            else return u32 (c.input + p)).trace m := rfl
      rw [htrace]
      by_cases hend : p = c.inputLen
      · rw [hend]
        exact List.mem_cons_self
      · have hlen := c.inputLen_lt
        have hleft : ¬ ptrDiff c.inEnd (u32 (c.input + p)) < 1 := by
          rw [LzoCall.inEnd, ptrDiff_u32 hp hlen]
          omega
        have hfuel' : c.inputLen - (p + 1) < fuel := by omega
        have hrest := ih (p := p + 1) (by omega) hfuel'
          fun q hq hql => hzero q (by omega) hql
        rw [hzero p (Nat.le_refl _) (by omega), if_pos UInt8.toNat_zero, checkInLeft, if_neg hleft,
          u32_u32_add, Nat.add_assoc]
        exact List.mem_cons_of_mem _ hrest

/-- An instruction whose length is extended looks for the end of the run. -/
theorem lzoFetch_skips {e : Access LzoMark} (hlong : LongLength (m inb).toNat state)
    (he : e ∈ (skipZeroes c 4294967296 (u32 (inb + 1))).trace m) :
    e ∈ (lzoFetch c inb state).trace m := by
  have hext : ∀ base, e ∈ (extendedLen c (u32 (inb + 1)) base).trace m := fun base =>
    MemProg.mem_trace_bind (MemProg.mem_trace_bind he)
  have hmatch : ∀ base, e ∈ (matchLen c (u32 (inb + 1)) 2 base).trace m := fun base =>
    MemProg.mem_trace_bind (hext base)
  have hfirst : ∀ {f : Nat → LzoProg LzoFetch}, e ∈ (f (m inb).toNat).trace m →
      e ∈ (inByte inb >>= f).trace m := fun he => List.mem_cons_of_mem _ he
  refine hfirst ?_
  obtain ⟨hb, hs⟩ | hb | hb | hb := hlong
  · rw [hb, hs]
    exact MemProg.mem_trace_bind (hext 15)
  · rw [hb]
    exact MemProg.mem_trace_bind (hmatch 7)
  · rw [hb]
    exact MemProg.mem_trace_bind (hmatch 7)
  · rw [hb]
    exact MemProg.mem_trace_bind (hmatch 31)

/-- Loads in the input mean that the run ends. -/
theorem zeroRunEnds_of_reads (hin : InOk (InInput c) c inb 3)
    (hreads : ∀ a, .read .input a ∈ (lzoFetch c inb state).trace m → InInput c a) :
    ZeroRunEnds c m inb state := by
  intro hlong
  have hlen := c.inputLen_lt
  obtain ⟨-, hall | ⟨-, p, hp, rfl⟩⟩ := hin
  · exact absurd (hall _) not_inInput_end
  have hoff := ptrDiff_u32 (a := c.input) (Nat.zero_le p) (by omega)
  rw [Nat.add_zero, u32_of_lt c.input_lt] at hoff
  rw [hoff]
  by_contra hnone
  have hzero : ∀ q, p + 1 ≤ q → q < c.inputLen → m (u32 (c.input + q)) = 0 := fun q hq hql => by
    by_contra hne
    exact hnone ⟨q, hql, by omega, hne⟩
  refine not_inInput_end (hreads _ (lzoFetch_skips hlong ?_))
  rw [u32_u32_add, Nat.add_assoc]
  exact skipZeroes_reads_end (by omega) (by omega) hzero

/-- The loop, round by round. -/
theorem zeroRunsEnd_of_reads (hlow : 0xC000 ≤ c.output)
    (hwrap : c.output + c.outputLen ≤ 4294967296) {rounds left n : Nat}
    {h : List (Access LzoMark)} {s : LzoState} {m : Nat → UInt8}
    (hin : InOk (InInput c) c s.inb 3) (hout : OutAt c h s.outb n)
    (hleft : c.outputLen < n + 2 * left)
    (hreads : ∀ a, .read .input a ∈ (lzoLoop c left s).trace m → InInput c a) :
    ZeroRunsEnd c rounds s m := by
  induction rounds generalizing left n h s m with
  | zero => trivial
  | succ rounds ih =>
      obtain ⟨left, rfl⟩ : ∃ k, left = k + 1 :=
        Nat.exists_eq_succ_of_ne_zero (by have := hout.le; omega)
      rw [lzoLoop] at hreads
      have hends : ZeroRunEnds c m s.inb s.state :=
        zeroRunEnds_of_reads hin fun a ha =>
          hreads a (MemProg.mem_trace_bind (MemProg.mem_trace_bind ha))
      refine ⟨hends, ?_⟩
      intro x hx
      simp only [lzoStep] at hx
      split at hx
      · rename_i s' m' hexec
        obtain rfl := Option.some.inj hx
        have hround := (safe_lzoRound (h := h) hlow hwrap hin hout (Or.inr hends)).exec_ok hexec
        obtain ⟨hin', n', hn', hout'⟩ := hround
        rw [MemProg.trace_bind_ok hexec] at hreads
        exact ih hin' hout' (by omega) fun a ha =>
          hreads a (List.mem_append_right _ ha)
      · cases hx

end ReadsEnd

/-- **The decompressor reads its input and depends on nothing else exactly when
the runs of zeroes end there.** -/
theorem lzo_reads_input_iff {c : LzoCall} (hlow : 0xC000 ≤ c.output)
    (hwrap : c.output + c.outputLen ≤ 4294967296) (m : Nat → UInt8) :
    let p := lzo1xDecompressBlock c
    ((∀ a, .read .input a ∈ p.trace m → InInput c a) ∧
      ∀ m', (∀ a, InInput c a → m' a = m a) →
        p.trace m' = p.trace m ∧ (p.exec m').1 = (p.exec m).1 ∧
          ∀ a, .write a ∈ p.trace m → (p.exec m').2 a = (p.exec m).2 a) ↔
    AllZeroRunsEnd c m := by
  intro p
  have hP : ∀ i < c.inputLen, InInput c (u32 (c.input + i)) := fun i hi => ⟨i, hi, rfl⟩
  constructor
  · rintro ⟨hreads, -⟩
    unfold AllZeroRunsEnd
    split
    · rename_i s m' hexec
      have hstart := (safe_lzoStart hwrap (m := m) (Or.inr hP)).exec_ok hexec
      obtain ⟨hin, n, -, hout⟩ := hstart
      have hlen := c.outputLen_lt
      have hleft : c.outputLen < n + 2 * 4294967296 := by omega
      refine zeroRunsEnd_of_reads hlow hwrap hin hout hleft fun a ha => hreads a ?_
      change _ ∈ (lzoStart c >>= lzoLoop c 4294967296).trace m
      rw [MemProg.trace_bind_ok hexec]
      exact List.mem_append_right _ ha
    · trivial
  · intro hends
    have hsafe := safe_lzo (m := m) hlow hwrap (Or.inr ⟨hP, hends⟩)
    refine ⟨?_, ?_⟩
    · intro a ha
      obtain ⟨pre, rest, htrace⟩ := List.append_of_mem ha
      exact hsafe.trace_ok htrace
    · intro m' hagree
      have hcongr := MemProg.exec_congr (D := InInput c) hagree fun pre tag a rest htrace => by
        have hok := hsafe.trace_ok htrace
        cases tag with
        | input => exact Or.inl hok
        | lookbehind dist => exact Or.inr hok.2
        | size value => exact hok.elim
      exact ⟨hcongr.1, hcongr.2.1, fun a ha => hcongr.2.2 a (Or.inr ha)⟩

/-- A literal, a match whose length is extended, and an end to the input that
is no end to the run of zeroes: the result is that of the bytes behind. -/
theorem lzo_reads_past_input :
    let p := lzo1xDecompressBlock (sampleCall 5 600 (by decide) (by decide))
    let m := bytesFrom 0x10000 [18, 97, 32, 0, 0, 5, 0, 0, 17, 0, 0]
    let m' := bytesFrom 0x10000 [18, 97, 32, 0, 0, 0]
    .read .input 0x10005 ∈ p.trace m ∧ (p.exec m).1.toOption = some 549 ∧
      (p.exec m').1.toOption = none ∧
    ¬ ∀ (c : LzoCall) (m : Nat → UInt8), 0xC000 ≤ c.output →
      c.output + c.outputLen ≤ 4294967296 → ∀ a,
      .read .input a ∈ (lzo1xDecompressBlock c).trace m → InInput c a := by
  intro p m m'
  have hread : .read .input 0x10005 ∈ p.trace m := by decide +kernel
  refine ⟨hread, by decide +kernel, by decide +kernel, ?_⟩
  intro hall
  obtain ⟨i, hi, heq⟩ := hall _ m (by decide) (by decide) _ hread
  have hi5 : i < 5 := hi
  interval_cases i <;> exact absurd heq (by decide)

/-- The block of one literal and one match. -/
theorem lzo_reads_seven :
    let c := sampleCall 7 6 (by decide) (by decide)
    let m := bytesFrom 0x10000 [18, 97, 64, 0, 17, 0, 0]
    ∀ a, .read .input a ∈ (lzo1xDecompressBlock c).trace m → InInput c a := by
  intro c m
  exact ((lzo_reads_input_iff (c := c) (by decide) (by decide) m).mpr (by decide +kernel)).1

end LambdaOs
