import LambdaOs.LzoDecode
import LambdaOs.Lzop

/-!
# The two passes over an lzop file

For a file in memory, `lzopHeader` finds the first block, and both passes are
followed block by block. The sizing pass goes on 12 bytes and the data behind
the start of a block, and the block ends there when it has one checksum
(`finds_lzopSize`). The second pass goes on to the end of the block whatever
the flags say (`lzopBlocks_spec`): what it writes, and whether it returns `0`,
is what the blocks decode to, one after another (`decodeBlocks`).
-/

namespace LambdaOs

/-! ## Reading -/

section Reading

variable {m : Nat → UInt8} {e a n : Nat} {b : UInt8} {bs rest : List UInt8}

theorem finds_inByte (h : UpTo m e a (b :: rest)) : (inByte a).Finds m b.toNat := by
  refine MemProg.finds_load.bind ?_
  rw [h.holds.1]
  exact MemProg.finds_pure

theorem be16_length (n : Nat) : (be16 n).length = 2 := rfl

theorem be32_length (n : Nat) : (be32 n).length = 4 := rfl

theorem finds_be16At (hn : n < 65536) (h : UpTo m e a (be16 n ++ rest)) :
    (be16At a).Finds m n := by
  have hhi : UpTo m e a ([UInt8.ofNat (n / 256)] ++ (UInt8.ofNat (n % 256) :: rest)) := h
  obtain ⟨hptr, hlo⟩ := hhi.next (n := 1) rfl
  refine (finds_inByte hhi).bind ?_
  rw [hptr]
  refine (finds_inByte hlo).bind ?_
  rw [UInt8.toNat_ofNat_of_lt' (show n / 256 < 256 by omega),
    UInt8.toNat_ofNat_of_lt' (show n % 256 < 256 by omega), Nat.div_add_mod]
  exact MemProg.finds_pure

theorem finds_be32At (hn : n < 4294967296) (h : UpTo m e a (be32 n ++ rest)) :
    (be32At a).Finds m n := by
  rw [be32, List.append_assoc] at h
  obtain ⟨hptr, hlo⟩ := h.next (be16_length _)
  refine (finds_be16At (by omega) h).bind ?_
  rw [hptr]
  refine (finds_be16At (Nat.mod_lt _ (by decide)) hlo).bind ?_
  rw [Nat.div_add_mod]
  exact MemProg.finds_pure

theorem finds_bytesAre {bs : List UInt8} {a : Nat} (h : UpTo m e a (bs ++ rest)) :
    (bytesAre a bs).Finds m true := by
  induction bs generalizing a with
  | nil => exact MemProg.finds_pure
  | cons b bs ih =>
      have hcons : UpTo m e a ([b] ++ (bs ++ rest)) := h
      obtain ⟨hptr, hrest⟩ := hcons.next (n := 1) rfl
      refine (finds_inByte h).bind ?_
      rw [if_pos rfl, hptr]
      exact ih hrest

end Reading

/-! ## The header -/

section Header

variable {f : LzopFile} {m : Nat → UInt8} {e input inb : Nat}

/-- The extra field, where there is one. -/
theorem finds_extra (h : UpTo m e inb (f.encodeExtra ++ f.encodeBlocks)) :
    ∃ inb', (if f.flags &&& lzopFlagsHasExtraField ≠ 0 then do
          let len ← be32At inb
          return (f.flags, u32 (inb + (len + 8)))
        else return (f.flags, inb) : LzoProg (Nat × Nat)).Finds m (f.flags, inb') ∧
      UpTo m e inb' f.encodeBlocks := by
  rw [LzopFile.encodeExtra] at h
  by_cases hextra : f.flags &&& lzopFlagsHasExtraField ≠ 0
  · rw [if_pos hextra] at h ⊢
    obtain ⟨hptr, hblocks⟩ := h.next (n := f.extra.length + 8) (by
      rw [List.length_append, List.length_append, be32_length, f.extraCheck.property]
      omega)
    have hlt := h.lt
    have hends := hblocks.ends
    rw [List.append_assoc] at h
    refine ⟨_, (finds_be32At (by omega) h).bind MemProg.finds_pure, ?_⟩
    rwa [hptr]
  · rw [if_neg hextra] at h ⊢
    exact ⟨_, MemProg.finds_pure, h⟩

theorem finds_lzopHeader (h : UpTo m e input f.encode) :
    ∃ inb, (lzopHeader input).Finds m (f.flags, inb) ∧ UpTo m e inb f.encodeBlocks := by
  obtain ⟨hmagic, hversion⟩ := h.next (n := lzopMagic.length) rfl
  have hlib := hversion
  rw [← List.append_assoc] at hlib
  obtain ⟨hseven, hlevel⟩ := hlib.next (n := 7) (by
    rw [List.length_append, be16_length, f.libraryAndMethod.property])
  have hflags := hlevel.nextIf (n := 1) rfl
  obtain ⟨hfour, hfilter⟩ := hflags.next (be32_length _)
  have hmode := hfilter.nextIf (n := 4) f.filter.property
  obtain ⟨htwelve, hname⟩ := hmode.next f.modeAndTime.property
  obtain ⟨hskip, hcheck⟩ := hname.next (n := 1 + f.filename.length) (by
    rw [List.length_cons, Nat.add_comm])
  obtain ⟨hlast, hextra⟩ := hcheck.next f.check.property
  obtain ⟨inb, hfinds, hblocks⟩ := finds_extra hextra
  refine ⟨inb, ?_, hblocks⟩
  have hlen : (UInt8.ofNat f.filename.length).toNat = f.filename.length :=
    UInt8.toNat_ofNat_of_lt' f.filename_lt
  unfold lzopHeader
  rw [hmagic]
  refine (finds_be16At f.version_lt hversion).bind ?_
  rw [hseven]
  refine (finds_be32At f.flags_lt hflags).bind ?_
  rw [hfour]
  dsimp only
  rw [htwelve]
  refine (finds_inByte hname).bind ?_
  rw [hlen, hskip, hlast]
  exact hfinds

end Header

/-! ## The sizing pass -/

/-- Every block has one checksum, and the last one may have none. -/
def OneCheckEach (flags : Nat) : List LzopBlock → Prop
  | [] => True
  | [b] => (b.checks flags).length ≤ 4
  | b :: b' :: bs => (b.checks flags).length = 4 ∧ OneCheckEach flags (b' :: bs)

instance OneCheckEach.decidable (flags : Nat) :
    (bs : List LzopBlock) → Decidable (OneCheckEach flags bs)
  | [] => isTrue trivial
  | [_] => inferInstanceAs (Decidable (_ ≤ _))
  | _ :: b' :: bs =>
      have := OneCheckEach.decidable flags (b' :: bs)
      inferInstanceAs (Decidable (_ ∧ _))

section Size

variable {b : LzopBlock} {m : Nat → UInt8} {flags fuel e ptr acc r : Nat} {rest : List UInt8}

theorem LzopBlock.encode_length :
    (b.encode flags).length = 8 + (b.checks flags).length + b.data.length := by
  simp only [LzopBlock.encode, List.length_append, be32_length]
  omega

theorem LzopBlock.checks_length (h : (b.checks flags).length ≤ 4) :
    (b.checks flags).length = 0 ∨ (b.checks flags).length = 4 := by
  have huncomp := b.check.property
  have hcomp := b.compCheck.property
  rw [LzopBlock.checks, List.length_append] at h ⊢
  split at h <;> split at h <;> simp_all

/-- What is left of a block behind its sizes. -/
theorem UpTo.block (h : UpTo m e ptr (b.encode flags ++ rest)) :
    ptr < e ∧ b.data.length < 4294967296 ∧ (be32At ptr).Finds m b.size ∧ u32 (ptr + 4) = ptr + 4 ∧
      (be32At (ptr + 4)).Finds m b.data.length ∧ u32 (ptr + 4 + 4) = ptr + 4 + 4 ∧
      UpTo m e (ptr + 4 + 4) (b.checks flags ++ (b.data ++ rest)) := by
  have hends := h.ends
  have hlt := h.lt
  rw [List.length_append, LzopBlock.encode_length] at hends
  simp only [LzopBlock.encode, List.append_assoc] at h
  obtain ⟨hfour, hcsz⟩ := h.next (be32_length _)
  obtain ⟨height, hdata⟩ := hcsz.next (be32_length _)
  have hdlen : b.data.length < 4294967296 := by omega
  exact ⟨by omega, hdlen, finds_be32At b.size_lt h, hfour, finds_be32At hdlen hcsz, height, hdata⟩

/-- A block adds its size, and the pass goes on where it ends with one checksum. -/
theorem finds_lzopSize_cons (h : UpTo m e ptr (b.encode flags ++ rest))
    (hrest : (lzopSize e fuel (u32 (ptr + (12 + b.data.length))) (u32 (acc + b.size))).Finds m r) :
    (lzopSize e (fuel + 1) ptr (u32 acc)).Finds m r := by
  obtain ⟨hptr, -, hsize, hfour, hcsz, -, -⟩ := h.block
  have hpos := b.size_pos
  rw [lzopSize, if_pos hptr]
  refine hsize.bind ?_
  rw [if_neg (by omega), hfour]
  refine hcsz.bind ?_
  rw [u32_u32_add, show ptr + 4 + (b.data.length + 8) = ptr + (12 + b.data.length) by omega]
  exact hrest

/-- The end of the blocks. -/
theorem finds_lzopSize_nil (h : UpTo m e ptr (be32 0)) :
    (lzopSize e (fuel + 1) ptr acc).Finds m acc := by
  have hends := h.ends
  rw [be32_length] at hends
  have hword : UpTo m e ptr (be32 0 ++ []) := h
  rw [lzopSize, if_pos (by omega)]
  refine (finds_be32At (by decide) hword).bind ?_
  rw [if_pos rfl]
  exact MemProg.finds_pure

/-- Behind the end. -/
theorem finds_lzopSize_end : (lzopSize e (fuel + 1) e acc).Finds m acc := by
  rw [lzopSize, if_neg (Nat.lt_irrefl e)]
  exact MemProg.finds_pure

/-- With one checksum each, the sizes are added up, in a word. -/
theorem finds_lzopSize :
    ∀ {bs : List LzopBlock} {fuel ptr : Nat} (acc : Nat), bs.length < fuel →
      OneCheckEach flags bs →
      UpTo m e ptr (bs.flatMap (·.encode flags) ++ be32 0) →
      (lzopSize e fuel ptr (u32 acc)).Finds m (u32 (acc + (bs.map LzopBlock.size).sum))
  | [], fuel + 1, ptr, acc, _, _, h => finds_lzopSize_nil h
  | [b], fuel + 2, ptr, acc, _, hone, h => by
      rw [List.flatMap_cons, List.append_assoc] at h
      refine finds_lzopSize_cons h ?_
      obtain hnone | hfour := LzopBlock.checks_length hone
      · -- the pointer is behind the terminator
        have hends := h.ends
        have hlt := h.lt
        simp only [List.length_append, LzopBlock.encode_length, List.flatMap_nil, List.length_nil,
          be32_length, hnone] at hends
        rw [u32_of_lt (by omega), show ptr + (12 + b.data.length) = e by omega]
        exact finds_lzopSize_end
      · obtain ⟨hnext, hterm⟩ := h.next (n := 12 + b.data.length) (by
          rw [LzopBlock.encode_length, hfour])
        rw [hnext]
        exact finds_lzopSize_nil hterm
  | b :: b' :: bs, fuel + 1, ptr, acc, hfuel, hone, h => by
      obtain ⟨hcheck, hone⟩ := hone
      rw [List.flatMap_cons, List.append_assoc] at h
      obtain ⟨hnext, hrest⟩ := h.next (n := 12 + b.data.length) (by
        rw [LzopBlock.encode_length, hcheck])
      have htail := finds_lzopSize (acc + b.size) (Nat.lt_of_succ_lt_succ hfuel) hone hrest
      refine finds_lzopSize_cons h ?_
      rw [hnext]
      rwa [List.map_cons, List.sum_cons, ← Nat.add_assoc acc]

end Size

/-! ## The second pass -/

/-- What the data of a block, at `inb`, becomes at `outb`, and the memory then. -/
def LzopBlock.decodeAt (b : LzopBlock) (inb outb : Nat) (m : Nat → UInt8) :
    Option (List UInt8 × (Nat → UInt8)) :=
  if b.Stored then some (b.data, copyForward m outb inb b.size)
  else
    match (lzo1xDecompressBlock (lzoCall inb b.data.length outb b.size)).exec m with
    | (.ok len, m') => some (readAt m' outb len, m')
    | (.error _, _) => none

/-- What the blocks from `inb` on become, every one where the sizes before it
say. -/
def decodeBlocks (flags : Nat) :
    List LzopBlock → Nat → Nat → (Nat → UInt8) → Option (List (List UInt8))
  | [], _, _, _ => some []
  | b :: bs, inb, outb, m =>
      match b.decodeAt (inb + 8 + (b.checks flags).length) outb m with
      | some (out, m') =>
          (decodeBlocks flags bs (inb + (b.encode flags).length) (outb + b.size) m').map (out :: ·)
      | none => none

section Blocks

variable {b : LzopBlock} {m : Nat → UInt8} {flags fuel e inb outb : Nat} {rest : List UInt8}

theorem copyBytes_writes {tag : LzoMark} {d s a n i : Nat} {m : Nat → UInt8}
    (h : .write a ∈ (copyBytes tag d s i n).trace m) : ∃ j < i + n, a = u32 (d + j) := by
  induction n generalizing i m with
  | zero => exact absurd h List.not_mem_nil
  | succ n ih =>
      rw [copyBytes, MemProg.finds_load.write_mem, MemProg.trace_bind_ok MemProg.exec_store,
        List.mem_append] at h
      rcases h with hfirst | hrest
      · refine ⟨i, by omega, ?_⟩
        simpa [MemProg.store, MemProg.trace] using hfirst
      · obtain ⟨j, hj, ha⟩ := ih hrest
        exact ⟨j, by omega, ha⟩

/-- A call of the decompressor: it writes inside its output, and its one error
is `-EUNSPEC`. -/
theorem lzo_run {c : LzoCall} (hlow : 0xC000 ≤ c.output)
    (hwrap : c.output + c.outputLen ≤ 4294967296) (m : Nat → UInt8) :
    (∀ a, .write a ∈ (lzo1xDecompressBlock c).trace m →
      c.output ≤ a ∧ a < c.output + c.outputLen) ∧
    ∀ err m', (lzo1xDecompressBlock c).exec m = (.error err, m') → err = .ret (-EUNSPEC) := by
  have hsafe : LzoSafe (fun _ => True) c (fun _ len _ => len ≤ c.outputLen) []
      (lzo1xDecompressBlock c) m := safe_lzo hlow hwrap (Or.inl fun _ => trivial)
  refine ⟨?_, fun err m' hexec => hsafe.halt_ok hexec⟩
  intro a ha
  obtain ⟨pre, tail, htrace⟩ := List.append_of_mem ha
  exact hsafe.trace_ok htrace

/-- A block is written inside its place, and it becomes what it decodes to. -/
theorem lzopBlock_spec (h : UpTo m e inb (b.data ++ rest)) (hlow : 0xC000 ≤ outb)
    (hwrap : outb + b.size ≤ 4294967296) (hapart : e ≤ outb ∨ outb + b.size ≤ inb) :
    (∀ a, .write a ∈ (lzopBlock inb outb b.size b.data.length).trace m →
      outb ≤ a ∧ a < outb + b.size) ∧
    match b.decodeAt inb outb m with
    | some (out, m') =>
        (lzopBlock inb outb b.size b.data.length).exec m = (.ok none, m') ∧ HoldsAt m' outb out
    | none =>
      ∃ m', (lzopBlock inb outb b.size b.data.length).exec m = (.ok (some (-EUNSPEC)), m') := by
  have hends := h.ends
  have hlt := h.lt
  have hpos := b.size_pos
  rw [List.length_append] at hends
  by_cases hstored : b.Stored
  · have hlen : b.data.length = b.size := hstored
    have hcopy : (copyBytes .input outb inb 0 b.size).exec m =
        (.ok (), copyForward m outb inb b.size) :=
      exec_copyBytes .input (fun j hj => u32_of_lt (by omega)) fun j hj => u32_of_lt (by omega)
    rw [LzopBlock.decodeAt, if_pos hstored, lzopBlock, if_pos hlen.symm, hlen]
    refine ⟨?_, MemProg.exec_bind_ok hcopy, ?_⟩
    · intro a ha
      rw [MemProg.trace_bind_ok hcopy, List.mem_append] at ha
      obtain ⟨j, hj, rfl⟩ := copyBytes_writes (ha.resolve_right List.not_mem_nil)
      rw [u32_of_lt (by omega)]
      omega
    · have hcopied := (holdsAt_append.mp h.holds).1.copied (d := outb) (by omega)
      rwa [hlen] at hcopied
  · have hne : b.size ≠ b.data.length := fun heq => hstored heq.symm
    have hout : (lzoCall inb b.data.length outb b.size).output = outb := u32_of_lt (by omega)
    have houtLen : (lzoCall inb b.data.length outb b.size).outputLen = b.size := u32_of_lt b.size_lt
    rw [LzopBlock.decodeAt, if_neg hstored, lzopBlock, if_neg hne]
    generalize lzoCall inb b.data.length outb b.size = c at hout houtLen
    obtain ⟨hwrites, herr⟩ := lzo_run (c := c) (by omega) (by omega) m
    rw [hout, houtLen] at hwrites
    have hattempt : ((lzo1xDecompressBlock c).attempt : LzoProg (Except LzoStop Nat)).exec m = _ :=
      MemProg.exec_attempt
    rcases hexec : (lzo1xDecompressBlock c).exec m with ⟨err | len, m'⟩
    · obtain rfl := herr err m' hexec
      rw [hexec] at hattempt
      refine ⟨fun a ha => hwrites a ?_, m', MemProg.exec_bind_ok hattempt⟩
      rw [MemProg.trace_bind_ok hattempt, MemProg.trace_attempt, List.mem_append] at ha
      exact ha.resolve_right List.not_mem_nil
    · rw [hexec] at hattempt
      refine ⟨fun a ha => hwrites a ?_, MemProg.exec_bind_ok hattempt, holdsAt_readAt⟩
      rw [MemProg.trace_bind_ok hattempt, MemProg.trace_attempt, List.mem_append] at ha
      exact ha.resolve_right List.not_mem_nil

/-- The pointer to the data: the checksums are skipped as the flags say. -/
theorem UpTo.data (h : UpTo m e inb (b.checks flags ++ rest)) :
    (if b.size ≠ b.data.length ∧ HasCompCheck flags then
        u32 ((if HasUncompCheck flags then u32 (inb + 4) else inb) + 4)
      else if HasUncompCheck flags then u32 (inb + 4) else inb) =
      inb + (b.checks flags).length ∧ UpTo m e (inb + (b.checks flags).length) rest := by
  refine ⟨?_, h.skip⟩
  rw [LzopBlock.checks, List.append_assoc] at h
  have huncomp := h.nextIf b.check.property
  have hcomp := huncomp.nextIf b.compCheck.property
  have hends := h.ends
  have hends' := hcomp.ends
  simp only [List.length_append] at hends
  rw [LzopBlock.checks, List.length_append]
  by_cases hboth : ¬ b.Stored ∧ HasCompCheck flags
  · rw [if_pos hboth] at hends hends' ⊢
    rw [if_pos ⟨fun heq => hboth.1 heq.symm, hboth.2⟩]
    omega
  · rw [if_neg hboth] at hends hends' ⊢
    rw [if_neg fun hc => hboth ⟨fun heq => hc.1 heq.symm, hc.2⟩]
    omega

/-- One block and what follows it. -/
theorem lzopBlocks_cons (fuel : Nat) (h : UpTo m e inb (b.encode flags ++ rest)) {ret : Option Int}
    {m' : Nat → UInt8}
    (hblock : (lzopBlock (inb + 8 + (b.checks flags).length) outb b.size b.data.length).exec m =
      (.ok ret, m')) :
    let next : LzoProg Int := match ret with
      | some err => return err
      | none =>
          lzopBlocks flags e fuel (inb + (b.encode flags).length) (u32 (outb + b.size))
    (lzopBlocks flags e (fuel + 1) inb outb).exec m = next.exec m' ∧
      ∀ a, .write a ∈ (lzopBlocks flags e (fuel + 1) inb outb).trace m ↔
        .write a ∈ (lzopBlock (inb + 8 + (b.checks flags).length) outb b.size
          b.data.length).trace m ∨ .write a ∈ next.trace m' := by
  intro next
  obtain ⟨hptr, -, hsize, hfour, hcsz, height, hchecks⟩ := h.block
  obtain ⟨hdata, hrest⟩ := hchecks.data
  obtain ⟨hnext, -⟩ := hrest.next rfl
  have hpos := b.size_pos
  have hinb : inb + 4 + 4 + (b.checks flags).length = inb + 8 + (b.checks flags).length := by omega
  have hencode : inb + (b.encode flags).length =
      inb + 8 + (b.checks flags).length + b.data.length := by
    rw [LzopBlock.encode_length]
    omega
  rw [lzopBlocks, if_pos hptr]
  simp only [hsize.exec_bind, hsize.write_mem]
  rw [if_neg (by omega), hfour]
  simp only [hcsz.exec_bind, hcsz.write_mem, height, hdata, hinb, MemProg.exec_bind_ok hblock,
    MemProg.trace_bind_ok hblock, List.mem_append]
  rw [hinb] at hnext
  simp only [hnext, next, hencode]
  cases ret with
  | some err => exact ⟨rfl, fun a => Iff.rfl⟩
  | none => exact ⟨rfl, fun a => Iff.rfl⟩

theorem finds_lzopBlocks_nil (h : UpTo m e inb (be32 0)) :
    (lzopBlocks flags e (fuel + 1) inb outb).Finds m 0 := by
  have hends := h.ends
  rw [be32_length] at hends
  have hword : UpTo m e inb (be32 0 ++ []) := h
  rw [lzopBlocks, if_pos (by omega)]
  refine (finds_be32At (by decide) hword).bind ?_
  dsimp only
  rw [if_pos rfl]
  exact MemProg.finds_pure

/-- What the second pass makes of the blocks. -/
def Decodes (bs : List LzopBlock) (outb : Nat) (ret : Int) (m' : Nat → UInt8) :
    Option (List (List UInt8)) → Prop
  | some outs =>
      ret = 0 ∧ (outs.map List.length = bs.map LzopBlock.size → HoldsAt m' outb outs.flatten)
  | none => ret ≠ 0

/-- A block in front of others that are written behind it. -/
theorem Decodes.cons {bs : List LzopBlock} {out : List UInt8} {ret : Int} {m₁ m' : Nat → UInt8}
    {decoded : Option (List (List UInt8))} (hout : HoldsAt m₁ outb out)
    (hframe : ∀ a < outb + b.size, m' a = m₁ a) (h : Decodes bs (outb + b.size) ret m' decoded) :
    Decodes (b :: bs) outb ret m' (decoded.map (out :: ·)) := by
  cases decoded with
  | none => exact h
  | some outs =>
    refine ⟨h.1, ?_⟩
    intro hsizes
    obtain ⟨hlen, hsizes⟩ := List.cons.inj hsizes
    rw [List.flatten_cons, holdsAt_append, hlen]
    exact ⟨hout.congr fun i hi => hframe _ (by omega), h.2 hsizes⟩

/-- The second pass writes inside the sum of the sizes and returns `0` where
every block decodes. -/
theorem lzopBlocks_spec {bs : List LzopBlock} {fuel inb outb : Nat} {m : Nat → UInt8}
    (hfuel : bs.length < fuel) (h : UpTo m e inb (bs.flatMap (·.encode flags) ++ be32 0))
    (hlow : 0xC000 ≤ outb) (hwrap : outb + (bs.map LzopBlock.size).sum ≤ 4294967296)
    (hapart : e ≤ outb ∨ outb + (bs.map LzopBlock.size).sum ≤ inb) :
    ∃ ret m', (lzopBlocks flags e fuel inb (u32 outb)).exec m = (.ok ret, m') ∧
      (∀ a, .write a ∈ (lzopBlocks flags e fuel inb (u32 outb)).trace m →
        outb ≤ a ∧ a < outb + (bs.map LzopBlock.size).sum) ∧
      Decodes bs outb ret m' (decodeBlocks flags bs inb outb m) := by
  induction bs generalizing fuel inb outb m with
  | nil =>
      obtain ⟨fuel, rfl⟩ := Nat.exists_eq_succ_of_ne_zero (Nat.ne_zero_of_lt hfuel)
      have hfinds : (lzopBlocks flags e (fuel + 1) inb (u32 outb)).Finds m 0 :=
        finds_lzopBlocks_nil h
      exact ⟨0, m, hfinds.1, fun a ha => absurd ha (hfinds.2 a), rfl, fun _ => trivial⟩
  | cons b bs ih =>
      obtain ⟨fuel, rfl⟩ := Nat.exists_eq_succ_of_ne_zero (Nat.ne_zero_of_lt hfuel)
      rw [List.map_cons, List.sum_cons] at hwrap hapart ⊢
      rw [List.flatMap_cons, List.append_assoc] at h
      have hpos := b.size_pos
      obtain ⟨-, -, -, -, -, -, hchecks⟩ := h.block
      have hdata := hchecks.skip
      rw [show inb + 4 + 4 = inb + 8 by omega] at hdata
      have hends := h.ends
      have hends' := hdata.ends
      obtain ⟨hwrites, hblock⟩ := lzopBlock_spec hdata hlow (by omega) (by omega)
      have houtb : u32 outb = outb := u32_of_lt (by omega)
      rw [houtb]
      rw [decodeBlocks]
      split at hblock
      · rename_i out m₁ _
        obtain ⟨hexec, hout⟩ := hblock
        obtain ⟨hexec', htrace⟩ := lzopBlocks_cons fuel h hexec
        -- the block is not written over what is left of the file
        have hrest : UpTo m₁ e (inb + (b.encode flags).length)
            (bs.flatMap (·.encode flags) ++ be32 0) :=
          h.skip.frame fun a ha he => MemProg.exec_frame_of_writes hwrites hexec (by omega)
        have hlow' : 0xC000 ≤ outb + b.size := by omega
        obtain ⟨ret, m', hloop, hlwrites, hlast⟩ := ih (Nat.lt_of_succ_lt_succ hfuel) hrest hlow'
          (by omega) (by omega)
        have hframe : ∀ a < outb + b.size, m' a = m₁ a := fun a ha =>
          MemProg.exec_frame_of_writes hlwrites hloop (by omega)
        refine ⟨ret, m', hexec'.trans hloop, ?_, hlast.cons hout hframe⟩
        intro a ha
        rcases (htrace a).mp ha with hw | hw
        · have hin := hwrites a hw
          omega
        · have hin := hlwrites a hw
          omega
      · obtain ⟨m₁, hexec⟩ := hblock
        obtain ⟨hexec', htrace⟩ := lzopBlocks_cons fuel h hexec
        refine ⟨-EUNSPEC, m₁, hexec', ?_, show -EUNSPEC ≠ 0 by decide⟩
        intro a ha
        have hin := hwrites a (((htrace a).mp ha).resolve_right List.not_mem_nil)
        omega

end Blocks

/-! ## The whole function -/

/-- Where the first block of a file at `input` is. -/
def LzopFile.blocksAt (f : LzopFile) (input : Nat) : Nat :=
  input + f.encode.length - f.encodeBlocks.length

/-- The file is in memory, and buffers are objects apart from it. -/
structure LzopCall (f : LzopFile) (kmalloc : Nat → Nat) (input : Nat) (m : Nat → UInt8) : Prop where
  holds : HoldsAt m input f.encode
  fits : input + f.encode.length < 4294967296
  pointer : ∀ n, kmalloc n < 4294967296
  buffer : ∀ n < 4294967296, kmalloc n ≠ 0 →
    0xC000 ≤ kmalloc n ∧ kmalloc n + n ≤ 4294967296 ∧
      (input + f.encode.length ≤ kmalloc n ∨ kmalloc n + n ≤ input)

/-- The buffer has the size of the blocks and holds them where `0` is returned. -/
structure PassesAgree (f : LzopFile) (kmalloc : Nat → Nat) (fuel input : Nat)
    (m : Nat → UInt8) : Prop where
  sized : ∃ inb, (lzopHeader input).Finds m (f.flags, inb) ∧
    (lzopSize (input + f.encode.length) fuel inb 0).Finds m f.total
  writes : ∀ a, .write a ∈ (lzopDecompress kmalloc fuel input f.encode.length).trace m →
    kmalloc f.total ≤ a ∧ a < kmalloc f.total + f.total
  returns : ∃ r m', (lzopDecompress kmalloc fuel input f.encode.length).exec m = (.ok r, m')
  decoded : ∀ buffer m',
    (lzopDecompress kmalloc fuel input f.encode.length).exec m = (.ok ⟨0, buffer⟩, m') →
      buffer = some (kmalloc f.total, f.total) ∧
      ∃ outs, decodeBlocks f.flags f.blocks (f.blocksAt input) (kmalloc f.total) m = some outs ∧
        outs.map List.length = f.blocks.map LzopBlock.size ∧
        HoldsAt m' (kmalloc f.total) outs.flatten

/-- No block decodes to less, or more, than its size. -/
def SizesKept (f : LzopFile) (input out : Nat) (m : Nat → UInt8) : Prop :=
  ∀ outs, decodeBlocks f.flags f.blocks (f.blocksAt input) out m = some outs →
    outs.map List.length = f.blocks.map LzopBlock.size

section Passes

variable {f : LzopFile} {kmalloc : Nat → Nat} {fuel input : Nat} {m : Nat → UInt8}

theorem LzopFile.encodeBlocks_le : f.encodeBlocks.length ≤ f.encode.length := by
  simp only [LzopFile.encode, LzopFile.encodeFlags, List.length_append]
  omega

theorem LzopCall.upTo (h : LzopCall f kmalloc input m) :
    UpTo m (input + f.encode.length) input f.encode :=
  ⟨h.holds, rfl, h.fits⟩

/-- The first pass, up to the buffer. -/
theorem finds_first_pass (h : LzopCall f kmalloc input m) (hfuel : f.blocks.length < fuel)
    (hone : OneCheckEach f.flags f.blocks) :
    (lzopHeader input).Finds m (f.flags, f.blocksAt input) ∧
      UpTo m (input + f.encode.length) (f.blocksAt input) f.encodeBlocks ∧
      (lzopSize (input + f.encode.length) fuel (f.blocksAt input) 0).Finds m (u32 f.total) := by
  obtain ⟨inb, hheader, hblocks⟩ := finds_lzopHeader h.upTo
  have hends := hblocks.ends
  have hinb : f.blocksAt input = inb := by
    unfold LzopFile.blocksAt
    omega
  rw [hinb]
  have hsize := finds_lzopSize 0 hfuel hone hblocks
  rw [Nat.zero_add] at hsize
  exact ⟨hheader, hblocks, hsize⟩

/-- From the buffer on. -/
def lzopFill (flags inEnd fuel inb output outputLen : Nat) : LzoProg LzopResult := do
  if output = 0 then return ⟨-ENOMEM, some (0, outputLen)⟩
  let ret ← lzopBlocks flags inEnd fuel inb output
  if ret = 0 then return ⟨0, some (output, outputLen)⟩
  else return ⟨ret, some (0, 0)⟩

theorem lzopDecompress_fill (h : LzopCall f kmalloc input m) (hfuel : f.blocks.length < fuel)
    (hone : OneCheckEach f.flags f.blocks) (htotal : f.total < 4294967296) :
    let fill := lzopFill f.flags (input + f.encode.length) fuel (f.blocksAt input)
      (kmalloc f.total) f.total
    (lzopDecompress kmalloc fuel input f.encode.length).exec m = fill.exec m ∧
      ∀ a, .write a ∈ (lzopDecompress kmalloc fuel input f.encode.length).trace m ↔
        .write a ∈ fill.trace m := by
  intro fill
  obtain ⟨hheader, -, hsize⟩ := finds_first_pass h hfuel hone
  have hmagic := finds_bytesAre h.upTo
  have hlen : ¬ f.encode.length < lzopMagic.length := by
    simp [LzopFile.encode]
  rw [u32_of_lt htotal] at hsize
  rw [lzopDecompress, if_neg hlen]
  simp only [hmagic.exec_bind, hmagic.write_mem]
  rw [if_neg Bool.true_eq_false.mp, u32_of_lt h.fits]
  simp only [hheader.exec_bind, hheader.write_mem, hsize.exec_bind, hsize.write_mem]
  exact ⟨rfl, fun a => Iff.rfl⟩

/-- The second pass into the buffer. -/
theorem lzopFill_spec (h : LzopCall f kmalloc input m) (hfuel : f.blocks.length < fuel)
    (hblocks : UpTo m (input + f.encode.length) (f.blocksAt input) f.encodeBlocks)
    (htotal : f.total < 4294967296) (hout : kmalloc f.total ≠ 0) :
    let fill := lzopFill f.flags (input + f.encode.length) fuel (f.blocksAt input)
      (kmalloc f.total) f.total
    ∃ ret m', fill.exec m =
        (.ok ⟨ret, if ret = 0 then some (kmalloc f.total, f.total) else some (0, 0)⟩, m') ∧
      (∀ a, .write a ∈ fill.trace m → kmalloc f.total ≤ a ∧ a < kmalloc f.total + f.total) ∧
      Decodes f.blocks (kmalloc f.total) ret m'
        (decodeBlocks f.flags f.blocks (f.blocksAt input) (kmalloc f.total) m) := by
  intro fill
  obtain ⟨hlow, hwrap, hapart⟩ := h.buffer f.total htotal hout
  have hstart : input ≤ f.blocksAt input := by
    have hle := f.encodeBlocks_le
    unfold LzopFile.blocksAt
    omega
  obtain ⟨ret, m', hexec, hwrites, hdecodes⟩ := lzopBlocks_spec hfuel hblocks hlow hwrap
    (hapart.imp_right fun hle => Nat.le_trans hle hstart)
  rw [u32_of_lt (h.pointer _)] at hexec hwrites
  have hfill : fill = lzopFill f.flags (input + f.encode.length) fuel (f.blocksAt input)
    (kmalloc f.total) f.total := rfl
  rw [lzopFill, if_neg hout] at hfill
  rw [hfill]
  refine ⟨ret, m', ?_, fun a ha => hwrites a ?_, hdecodes⟩
  · rw [MemProg.exec_bind_ok hexec]
    by_cases hret : ret = 0
    · rw [if_pos hret, if_pos hret, hret]
      rfl
    · rw [if_neg hret, if_neg hret]
      rfl
  · rw [MemProg.trace_bind_ok hexec, List.mem_append] at ha
    refine ha.resolve_right ?_
    split <;> exact List.not_mem_nil

end Passes

/-- **The two passes agree where blocks have one checksum each**, the sizes add
up to a word, and no block decodes to another size than it says. The third is
needed as soon as there is a buffer: a `0` is returned all the same. -/
theorem lzop_passes_agree_iff {f : LzopFile} {kmalloc : Nat → Nat} {fuel input : Nat}
    {m : Nat → UInt8} (h : LzopCall f kmalloc input m) (hfuel : f.blocks.length < fuel)
    (hone : OneCheckEach f.flags f.blocks) :
    PassesAgree f kmalloc fuel input m ↔
      f.total < 4294967296 ∧
        (kmalloc f.total = 0 ∨ SizesKept f input (kmalloc f.total) m) := by
  obtain ⟨hheader, hblocks, hsize⟩ := finds_first_pass h hfuel hone
  constructor
  · intro hagree
    have htotal : f.total < 4294967296 := by
      obtain ⟨inb, hfinds, htotal⟩ := hagree.sized
      obtain ⟨-, rfl⟩ := Prod.mk.inj (hfinds.unique hheader)
      rw [htotal.unique hsize]
      exact u32_lt _
    refine ⟨htotal, or_iff_not_imp_left.mpr ?_⟩
    intro hout outs houts
    obtain ⟨hexec, -⟩ := lzopDecompress_fill h hfuel hone htotal
    obtain ⟨ret, m', hfill, -, hdecodes⟩ := lzopFill_spec h hfuel hblocks htotal hout
    rw [houts] at hdecodes
    obtain ⟨rfl, -⟩ := hdecodes
    obtain ⟨-, outs', houts', hsizes, -⟩ := hagree.decoded _ m' (hexec.trans hfill)
    obtain rfl := Option.some.inj (houts.symm.trans houts')
    exact hsizes
  · rintro ⟨htotal, hkept⟩
    rw [u32_of_lt htotal] at hsize
    obtain ⟨hexec, htrace⟩ := lzopDecompress_fill h hfuel hone htotal
    by_cases hout : kmalloc f.total = 0
    · -- nothing is written, and the error is returned
      rw [lzopFill, if_pos hout] at hexec htrace
      refine ⟨⟨_, hheader, hsize⟩, ?_, ⟨_, _, hexec⟩, ?_⟩
      · intro a ha
        exact absurd ((htrace a).mp ha) List.not_mem_nil
      · intro buffer m' hret
        rw [hexec] at hret
        cases hret
    · obtain ⟨ret, m', hfill, hwrites, hdecodes⟩ := lzopFill_spec h hfuel hblocks htotal hout
      refine ⟨⟨_, hheader, hsize⟩, fun a ha => hwrites a ((htrace a).mp ha),
        ⟨_, _, hexec.trans hfill⟩, ?_⟩
      intro buffer m₁ hret
      rw [hexec, hfill] at hret
      obtain ⟨hresult, rfl⟩ := Prod.mk.inj hret
      obtain ⟨rfl, rfl⟩ := LzopResult.mk.inj (Except.ok.inj hresult)
      rcases hdec : decodeBlocks f.flags f.blocks (f.blocksAt input) (kmalloc f.total) m with
        _ | outs
      · rw [hdec] at hdecodes
        exact absurd rfl hdecodes
      · rw [hdec] at hdecodes
        have hsizes := hkept.resolve_left hout outs hdec
        exact ⟨rfl, outs, rfl, hsizes, hdecodes.2 hsizes⟩

/-! ## Small files -/

/-- A file with nothing optional but what the flags say. -/
def sampleFile (flags : Nat) (blocks : List LzopBlock) (hflags : flags < 4294967296) :
    LzopFile where
  version := 0x1030
  libraryAndMethod := ⟨[0x20, 0xa0, 0x09, 0x40, 1], rfl⟩
  level := 5
  flags := flags
  filter := ⟨[0, 0, 0, 0], rfl⟩
  modeAndTime := ⟨[0, 0, 0x81, 0xa4, 0, 0, 0, 0, 0, 0, 0, 0], rfl⟩
  filename := [97]
  check := ⟨[0, 0, 0, 0], rfl⟩
  extra := []
  extraCheck := ⟨[0, 0, 0, 0], rfl⟩
  blocks := blocks
  version_lt := by decide
  flags_lt := hflags
  filename_lt := by decide

def sampleBlock (size : Nat) (data : List UInt8) (hpos : 0 < size) (hlt : size < 4294967296) :
    LzopBlock :=
  ⟨size, ⟨[0, 0, 0, 0], rfl⟩, ⟨[0, 0, 0, 0], rfl⟩, data, hpos, hlt⟩

/-- A page for a buffer. -/
def sampleMalloc (n : Nat) : Nat := if n ≤ 0x1000 then 0x20000 else 0

theorem holdsAt_bytesFrom {base : Nat} {bs : List UInt8} : HoldsAt (bytesFrom base bs) base bs :=
  holdsAt_of_getElem? fun i hi => by
    rw [bytesFrom, if_pos (Nat.le_add_right ..), Nat.add_sub_cancel_left,
      List.getD_eq_getElem?_getD, List.getElem?_eq_getElem hi]
    rfl

theorem sample_lzopCall {f : LzopFile} (h : f.encode.length ≤ 0x10000) :
    LzopCall f sampleMalloc 0x10000 (bytesFrom 0x10000 f.encode) := by
  refine ⟨holdsAt_bytesFrom, by omega, ?_, ?_⟩
  · intro n
    unfold sampleMalloc
    split <;> omega
  · intro n hn hne
    unfold sampleMalloc at hne ⊢
    split at hne
    · rw [if_pos ‹_›]
      omega
    · exact absurd rfl hne

/-- A stored block and a compressed one, with checksums of what they hold. -/
def twoBlocks : LzopFile :=
  sampleFile 1 [sampleBlock 2 [98, 99] (by decide) (by decide),
    sampleBlock 4 [18, 97, 64, 0, 17, 0, 0] (by decide) (by decide)] (by decide)

theorem lzop_two_blocks_agree :
    PassesAgree twoBlocks sampleMalloc 3 0x10000 (bytesFrom 0x10000 twoBlocks.encode) := by
  refine (lzop_passes_agree_iff (sample_lzopCall (by decide)) (by decide) (by decide)).mpr
    ⟨by decide, Or.inr ?_⟩
  intro outs houts
  have hsizes : (decodeBlocks twoBlocks.flags twoBlocks.blocks (twoBlocks.blocksAt 0x10000)
      (sampleMalloc twoBlocks.total) (bytesFrom 0x10000 twoBlocks.encode)).map
        (·.map List.length) = some [2, 4] := by decide +kernel
  rw [houts] at hsizes
  exact Option.some.inj hsizes

/-- Three stored blocks without checksums. -/
def threeStored : LzopFile :=
  let b := sampleBlock 1 [65] (by decide) (by decide)
  sampleFile 0 [b, b, b] (by decide)

/-- A compressed block that decodes to four bytes and says that it has six. -/
def shortBlock : LzopFile :=
  sampleFile 1 [sampleBlock 6 [18, 97, 64, 0, 17, 0, 0] (by decide) (by decide)] (by decide)

/-- The buffer for the first file has two bytes and the third block is written
behind it; for the second file `0` is returned. -/
theorem lzop_passes_disagree :
    (LzopCall threeStored sampleMalloc 0x10000 (bytesFrom 0x10000 threeStored.encode) ∧
      ¬ PassesAgree threeStored sampleMalloc 4 0x10000 (bytesFrom 0x10000 threeStored.encode) ∧
      let p := lzopDecompress sampleMalloc 4 0x10000 threeStored.encode.length
      (p.exec (bytesFrom 0x10000 threeStored.encode)).1.toOption =
          some ⟨0, some (0x20000, 2)⟩ ∧
        .write 0x20002 ∈ p.trace (bytesFrom 0x10000 threeStored.encode)) ∧
    (LzopCall shortBlock sampleMalloc 0x10000 (bytesFrom 0x10000 shortBlock.encode) ∧
      ¬ PassesAgree shortBlock sampleMalloc 4 0x10000 (bytesFrom 0x10000 shortBlock.encode)) := by
  refine ⟨⟨sample_lzopCall (by decide), ?_, by decide +kernel, by decide +kernel⟩,
    sample_lzopCall (by decide), ?_⟩
  · intro hagree
    obtain ⟨r, m', hexec⟩ := hagree.returns
    have hret : ((lzopDecompress sampleMalloc 4 0x10000 threeStored.encode.length).exec
        (bytesFrom 0x10000 threeStored.encode)).1.toOption = some ⟨0, some (0x20000, 2)⟩ := by
      decide +kernel
    rw [hexec] at hret
    obtain rfl := Option.some.inj hret
    have hbuffer := (hagree.decoded _ m' hexec).1
    exact absurd hbuffer (by decide)
  · intro hagree
    obtain ⟨r, m', hexec⟩ := hagree.returns
    have hret : ((lzopDecompress sampleMalloc 4 0x10000 shortBlock.encode.length).exec
        (bytesFrom 0x10000 shortBlock.encode)).1.toOption = some ⟨0, some (0x20000, 6)⟩ := by
      decide +kernel
    have hlens : (decodeBlocks shortBlock.flags shortBlock.blocks (shortBlock.blocksAt 0x10000)
        (sampleMalloc shortBlock.total) (bytesFrom 0x10000 shortBlock.encode)).map
          (·.map List.length) = some [4] := by decide +kernel
    rw [hexec] at hret
    obtain rfl := Option.some.inj hret
    obtain ⟨-, outs, houts, hsizes, -⟩ := hagree.decoded _ m' hexec
    rw [houts] at hlens
    exact absurd ((Option.some.inj hlens).symm.trans hsizes) (by decide)

end LambdaOs
