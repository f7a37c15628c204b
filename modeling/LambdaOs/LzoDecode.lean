import LambdaOs.Lz77
import LambdaOs.LzoSafe

/-!
# What an LZO1X stream says

The instructions of a stream, their bytes, and what they append to the output.
A stream is an optional first run of literals, instructions and the end
marker. Which forms may follow depends on the literals before: `Fits` says so
for one instruction and `ValidFrom` for a list.

One round of the decompressor takes one instruction off its input and appends
what the instruction says (`exec_lzoRound`). The invariant between two rounds
is `Wrote`: what is written, with the rest of memory as it was.
-/

namespace LambdaOs

/-! ## Streams -/

/-- The forms of a match. -/
inductive LzoForm where
  | m1
  | m1Far
  | m2
  | m3
  | m4
deriving Repr, DecidableEq

/-- A long run of literals, or a match with the literals behind it. -/
inductive LzoInstr where
  | run (bs : List UInt8)
  | copy (form : LzoForm) (dist len : Nat) (trail : List UInt8)
deriving Repr, DecidableEq

/-- The state of the decoder, the distances and the lengths of a form. -/
def LzoForm.Fits (state dist len : Nat) : LzoForm → Prop
  | .m1 => (1 ≤ state ∧ state ≤ 3) ∧ len = 2 ∧ 1 ≤ dist ∧ dist ≤ 1024
  | .m1Far => state = 4 ∧ len = 3 ∧ 2049 ≤ dist ∧ dist ≤ 3072
  | .m2 => (3 ≤ len ∧ len ≤ 8) ∧ 1 ≤ dist ∧ dist ≤ 2048
  | .m3 => 3 ≤ len ∧ 1 ≤ dist ∧ dist ≤ 16384
  | .m4 => 3 ≤ len ∧ 16385 ≤ dist ∧ dist ≤ 49151

namespace LzoInstr

/-- The instruction may stand in this state. -/
def Fits (state : Nat) : LzoInstr → Prop
  | .run bs => state = 0 ∧ 4 ≤ bs.length
  | .copy form dist len trail => form.Fits state dist len ∧ trail.length ≤ 3

/-- The state that it leaves. -/
def next : LzoInstr → Nat
  | .run _ => 4
  | .copy _ _ _ trail => trail.length

/-- It copies nothing from before the `n` bytes of output. -/
def Reaches (n : Nat) : LzoInstr → Prop
  | .run _ => True
  | .copy _ dist _ _ => dist ≤ n

def tokens : LzoInstr → List (Lz77Token UInt8)
  | .run bs => [.literals bs]
  | .copy _ dist len trail => [.copy dist len, .literals trail]

/-- The output behind the instruction. -/
def append (out : List UInt8) (i : LzoInstr) : List UInt8 :=
  i.tokens.foldl Lz77Token.append out

end LzoInstr

/-- The bytes of a length `n` beyond what the first byte can say. -/
def extend (n : Nat) : List UInt8 :=
  List.replicate ((n - 1) / 255) 0 ++ [UInt8.ofNat ((n - 1) % 255 + 1)]

/-- What the first byte says of a length, with bits for up to `limit`. -/
def lenBits (n limit : Nat) : Nat := if n ≤ limit then n else 0

def lenBytes (n limit : Nat) : List UInt8 := if n ≤ limit then [] else extend (n - limit)

def le16 (n : Nat) : List UInt8 := [UInt8.ofNat (n % 256), UInt8.ofNat (n / 256)]

/-- The first byte of an instruction. -/
def LzoInstr.head : LzoInstr → Nat
  | .run bs => lenBits (bs.length - 3) 15
  | .copy .m1 dist _ trail => (dist - 1) % 4 * 4 + trail.length
  | .copy .m1Far dist _ trail => (dist - 2049) % 4 * 4 + trail.length
  | .copy .m2 dist len trail => (len - 1) * 32 + (dist - 1) % 8 * 4 + trail.length
  | .copy .m3 _ len _ => 32 + lenBits (len - 2) 31
  | .copy .m4 dist len _ => 16 + (dist - 16384) / 16384 * 8 + lenBits (len - 2) 7

/-- What follows it, up to the literals. -/
def LzoInstr.operands : LzoInstr → List UInt8
  | .run bs => lenBytes (bs.length - 3) 15
  | .copy .m1 dist _ _ => [UInt8.ofNat ((dist - 1) / 4)]
  | .copy .m1Far dist _ _ => [UInt8.ofNat ((dist - 2049) / 4)]
  | .copy .m2 dist _ _ => [UInt8.ofNat ((dist - 1) / 8)]
  | .copy .m3 dist len trail => lenBytes (len - 2) 31 ++ le16 ((dist - 1) * 4 + trail.length)
  | .copy .m4 dist len trail =>
      lenBytes (len - 2) 7 ++ le16 ((dist - 16384) % 16384 * 4 + trail.length)

def LzoInstr.literals : LzoInstr → List UInt8
  | .run bs => bs
  | .copy _ _ _ trail => trail

def LzoInstr.encode (i : LzoInstr) : List UInt8 :=
  UInt8.ofNat i.head :: (i.operands ++ i.literals)

/-- A stream without its end marker. -/
structure LzoStream where
  initial : List UInt8
  instrs : List LzoInstr

/-- Every instruction fits where it stands and copies from the output. -/
def ValidFrom : Nat → List UInt8 → List LzoInstr → Prop
  | _, _, [] => True
  | state, out, i :: is => i.Fits state ∧ i.Reaches out.length ∧ ValidFrom i.next (i.append out) is

namespace LzoStream

variable (st : LzoStream)

def endMarker : List UInt8 := [17, 0, 0]

/-- The state behind the first literals. -/
def start : Nat := if st.initial.length < 4 then st.initial.length else 4

/-- The stream is well formed, and not only its end marker. -/
structure Valid : Prop where
  initial_le : st.initial.length ≤ 238
  nonempty : st.initial ≠ [] ∨ st.instrs ≠ []
  instrs : ValidFrom st.start st.initial st.instrs

def encodeInitial : List UInt8 :=
  if st.initial = [] then [] else UInt8.ofNat (17 + st.initial.length) :: st.initial

def encode : List UInt8 :=
  st.encodeInitial ++ (st.instrs.flatMap LzoInstr.encode ++ endMarker)

/-- The LZ77 meaning of the stream. -/
def output : List UInt8 :=
  lz77 (.literals st.initial :: st.instrs.flatMap LzoInstr.tokens)

end LzoStream

/-! ## Bytes and bits -/

theorem and_three (n : Nat) : n &&& 3 = n % 4 := Nat.and_two_pow_sub_one_eq_mod n 2

theorem and_seven (n : Nat) : n &&& 7 = n % 8 := Nat.and_two_pow_sub_one_eq_mod n 3

theorem and_thirtyOne (n : Nat) : n &&& 31 = n % 32 := Nat.and_two_pow_sub_one_eq_mod n 5

theorem and_eight (n : Nat) : n &&& 8 = n / 8 % 2 * 8 := by
  have h := Nat.and_two_pow n 3
  rw [Nat.testBit_eq_decide_div_mod_eq] at h
  rw [show (8 : Nat) = 2 ^ 3 by rfl, h]
  rcases Nat.mod_two_eq_zero_or_one (n / 2 ^ 3) with hb | hb <;> rw [hb] <;> rfl

section Length

variable {n limit : Nat}

theorem lenBits_short (h : n ≤ limit) : lenBits n limit = n := if_pos h

theorem lenBits_long (h : limit < n) : lenBits n limit = 0 := if_neg (Nat.not_le_of_lt h)

theorem lenBits_le (n limit : Nat) : lenBits n limit ≤ limit := by
  unfold lenBits
  split <;> omega

theorem lenBytes_short (h : n ≤ limit) : lenBytes n limit = [] := if_pos h

theorem lenBytes_long (h : limit < n) : lenBytes n limit = extend (n - limit) :=
  if_neg (Nat.not_le_of_lt h)

end Length

theorem extend_length {n : Nat} : (extend n).length = (n - 1) / 255 + 1 := by
  simp [extend]

/-! ## One piece after another -/

section Exec

variable {c : LzoCall} {m m₀ : Nat → UInt8} {p n base : Nat} {bs rest out : List UInt8} {b : UInt8}

theorem exec_sizeT {v : Nat} (hv : v < 4294967296) : (sizeT v).exec m = (.ok v, m) := by
  change (Except.ok (u32 v), m) = _
  rw [u32_of_lt hv]

/-- The buffers are objects, apart from each other, and the input is `len`
bytes. -/
structure Buffers (c : LzoCall) : Prop where
  input : c.input + c.inputLen ≤ 4294967296
  output : c.output + c.outputLen ≤ 4294967296
  apart : c.input + c.inputLen ≤ c.output ∨ c.output + c.outputLen ≤ c.input

/-- From the offset `p` on the input is `bs`. -/
structure Left (c : LzoCall) (m : Nat → UInt8) (p : Nat) (bs : List UInt8) : Prop where
  len : p + bs.length = c.inputLen
  holds : HoldsAt m (c.input + p) bs

theorem Left.skip (h : Left c m p (bs ++ rest)) : Left c m (p + bs.length) rest := by
  refine ⟨?_, ?_⟩
  · rw [← h.len, List.length_append, Nat.add_assoc]
  · rw [← Nat.add_assoc]
    exact (holdsAt_append.mp h.holds).2

theorem Left.tail (h : Left c m p (b :: rest)) : Left c m (p + 1) rest := by
  have happend : Left c m p ([b] ++ rest) := h
  exact happend.skip

theorem exec_inByte (hb : Buffers c) (h : Left c m p (b :: rest)) :
    (inByte (u32 (c.input + p))).exec m = (.ok b.toNat, m) := by
  have hlen := h.len
  rw [List.length_cons] at hlen
  have hin := hb.input
  change (Except.ok (m (u32 (c.input + p))).toNat, m) = _
  rw [u32_of_lt (by omega), h.holds.1]

theorem exec_checkInLeft (h : p + n ≤ c.inputLen) :
    (checkInLeft c (u32 (c.input + p)) n).exec m = (.ok (), m) := by
  have hlen := c.inputLen_lt
  rw [checkInLeft, LzoCall.inEnd, ptrDiff_u32 (by omega) (by omega), if_neg (by omega)]
  rfl

theorem exec_checkOutLeft {k : Nat} (h : k + n ≤ c.outputLen) :
    (checkOutLeft c (u32 (c.output + k)) n).exec m = (.ok (), m) := by
  have hlen := c.outputLen_lt
  rw [checkOutLeft, LzoCall.outEnd, ptrDiff_u32 (by omega) (by omega), if_neg (by omega)]
  rfl

theorem exec_skipZeroes (hb : Buffers c) (hne : b ≠ 0) {fuel z p : Nat} (hfuel : z < fuel)
    (h : Left c m p (List.replicate z 0 ++ b :: rest)) :
    (skipZeroes c fuel (u32 (c.input + p))).exec m = (.ok (u32 (c.input + (p + z))), m) := by
  induction fuel generalizing z p with
  | zero => exact absurd hfuel (Nat.not_lt_zero z)
  | succ fuel ih =>
      cases z with
      | zero =>
          have hbyte : b.toNat ≠ 0 := fun he => hne (UInt8.toNat_inj.mp he)
          rw [skipZeroes, MemProg.exec_bind_ok (exec_inByte hb h), if_neg hbyte]
          rfl
      | succ z =>
          have hlen := h.len
          rw [List.replicate_succ, List.cons_append] at h hlen
          rw [List.length_cons] at hlen
          rw [skipZeroes, MemProg.exec_bind_ok (exec_inByte hb h), if_pos UInt8.toNat_zero,
            MemProg.exec_bind_ok (exec_checkInLeft (by omega)), u32_u32_add, Nat.add_assoc,
            ih (by omega) h.tail, Nat.add_assoc, Nat.add_comm 1 z]

/-- The bytes of an extended length. -/
theorem exec_extendedLen (hb : Buffers c) (hn : 1 ≤ n) (hbig : n + base < 4294967296)
    (hcap : (n - 1) / 255 ≤ max255Count) (h : Left c m p (extend n ++ rest)) :
    (extendedLen c (u32 (c.input + p)) base).exec m =
      (.ok (n + base, u32 (c.input + (p + (extend n).length))), m) := by
  have hlast : (UInt8.ofNat ((n - 1) % 255 + 1)).toNat = (n - 1) % 255 + 1 :=
    UInt8.toNat_ofNat_of_lt' (show _ < 256 by omega)
  have hne : UInt8.ofNat ((n - 1) % 255 + 1) ≠ 0 := fun he => by
    rw [he] at hlast
    have := hlast.symm.trans UInt8.toNat_zero
    omega
  rw [extend, List.append_assoc] at h
  have hmax : max255Count = 16843007 := rfl
  have hskip := h.skip
  rw [List.length_replicate] at hskip
  have hoff : ptrDiff (u32 (c.input + (p + (n - 1) / 255))) (u32 (c.input + p)) =
      (n - 1) / 255 := by
    rw [← Nat.add_assoc]
    have := ptrDiff_u32 (a := c.input + p) (Nat.zero_le ((n - 1) / 255)) (by omega)
    rwa [Nat.add_zero] at this
  have hzeroes : (skipAndCountZeroes c (u32 (c.input + p))).exec m =
      (.ok ((n - 1) / 255 * 255, u32 (c.input + (p + (n - 1) / 255))), m) := by
    rw [skipAndCountZeroes, MemProg.exec_bind_ok (exec_skipZeroes hb hne (by omega) h), hoff,
      if_neg (by omega), MemProg.exec_bind_ok (exec_sizeT (by omega))]
    rfl
  rw [extendedLen, MemProg.exec_bind_ok hzeroes, MemProg.exec_bind_ok (exec_inByte hb hskip),
    hlast, MemProg.exec_bind_ok (exec_sizeT (by omega)), extend_length, u32_u32_add,
    MemProg.exec_pure]
  congr 3
  omega

theorem Buffers.fit (hb : Buffers c) : c.inputLen + c.outputLen ≤ 4294967296 := by
  obtain ⟨hin, hout, hapart⟩ := hb
  omega

theorem lenBytes_cap {limit : Nat} (h : Left c m p (lenBytes n limit ++ rest))
    (hfit : n + c.inputLen ≤ 4294967296) (hlong : limit < n) :
    (n - limit - 1) / 255 ≤ max255Count := by
  have hmax : max255Count = 16843007 := rfl
  have hlen := h.len
  rw [lenBytes_long hlong, List.length_append, extend_length] at hlen
  omega

/-- The length of a match from what its first byte says. -/
theorem exec_matchLen {limit : Nat} (hb : Buffers c) (hn : 1 ≤ n)
    (hfit : limit < n → n + 2 + c.inputLen ≤ 4294967296) (h3 : 3 ≤ c.inputLen)
    (h : Left c m p (lenBytes n limit ++ rest)) :
    (matchLen c (u32 (c.input + p)) (lenBits n limit + 2) limit).exec m =
      (.ok (n + 2, u32 (c.input + (p + (lenBytes n limit).length))), m) := by
  unfold matchLen
  rcases Nat.lt_or_ge limit n with hlong | hshort
  · have hfit := hfit hlong
    have hcap := lenBytes_cap h (by omega) hlong
    rw [lenBytes_long hlong] at h ⊢
    rw [lenBits_long hlong, if_pos rfl,
      MemProg.exec_bind_ok (exec_extendedLen hb (by omega) (by omega) hcap h),
      MemProg.exec_bind_ok (exec_sizeT (by omega))]
    change (Except.ok (0 + 2 + (n - limit + limit), _), m) = _
    rw [Nat.sub_add_cancel (by omega), Nat.zero_add, Nat.add_comm 2 n]
  · rw [lenBits_short hshort, lenBytes_short hshort, if_neg (by omega)]
    rfl

theorem exec_inLe16 {v : Nat} (hb : Buffers c) (hv : v < 65536) (h : Left c m p (le16 v ++ rest)) :
    (inLe16 c (u32 (c.input + p))).exec m = (.ok v, m) := by
  have hlen : p + (2 + rest.length) = c.inputLen := by
    rw [← h.len, List.length_append]
    rfl
  have hlo : (UInt8.ofNat (v % 256)).toNat = v % 256 :=
    UInt8.toNat_ofNat_of_lt' (show _ < 256 by omega)
  have hhi : (UInt8.ofNat (v / 256)).toNat = v / 256 :=
    UInt8.toNat_ofNat_of_lt' (show _ < 256 by omega)
  rw [inLe16, MemProg.exec_bind_ok (exec_checkInLeft (by omega)),
    MemProg.exec_bind_ok (exec_inByte hb h), u32_u32_add, Nat.add_assoc,
    MemProg.exec_bind_ok (exec_inByte hb h.tail), hlo, hhi]
  change (Except.ok (v % 256 + 256 * (v / 256)), m) = _
  rw [Nat.mod_add_div]

/-- How much an instruction copies first. -/
def LzoInstr.len : LzoInstr → Nat
  | .run bs => bs.length
  | .copy _ _ len _ => len

/-- What is fetched of an instruction, with the input pointer at the literals. -/
def LzoInstr.fetched (c : LzoCall) (p : Nat) : LzoInstr → LzoFetch
  | .run bs => .verbatim (u32 (c.input + p)) bs.length
  | .copy _ dist len trail => .lookbehind (u32 (c.input + p)) dist len trail.length

end Exec

/-! ## One instruction -/

section Fetch

variable {c : LzoCall} {m : Nat → UInt8} {p state : Nat} {rest : List UInt8}

variable {n temp base len v : Nat} {b : UInt8}

theorem exec_fetchRun (hb : Buffers c) (hn : 1 ≤ n) (hfit : n + 3 + c.inputLen ≤ 4294967296)
    (h3 : 3 ≤ c.inputLen) (h : Left c m p (lenBytes n 15 ++ rest)) :
    (fetchRun c (lenBits n 15) (u32 (c.input + p))).exec m =
      (.ok (.verbatim (u32 (c.input + (p + (lenBytes n 15).length))) (n + 3)), m) := by
  unfold fetchRun
  rcases Nat.lt_or_ge 15 n with hlong | hshort
  · have hcap := lenBytes_cap h (by omega) hlong
    rw [lenBytes_long hlong] at h ⊢
    rw [lenBits_long hlong, if_pos rfl,
      MemProg.exec_bind_ok (exec_extendedLen hb (by omega) (by omega) hcap h),
      MemProg.exec_bind_ok (exec_sizeT (by omega)), Nat.sub_add_cancel (by omega)]
    rfl
  · rw [lenBits_short hshort, lenBytes_short hshort, if_neg (by omega),
      MemProg.exec_bind_ok MemProg.exec_pure, MemProg.exec_bind_ok (exec_sizeT (by omega))]
    rfl

theorem exec_fetchM1 (hb : Buffers c) (htemp : temp < 16) (hbase : base ≤ 2049)
    (h : Left c m p (b :: rest)) :
    (fetchM1 temp (u32 (c.input + p)) base len).exec m =
      (.ok (.lookbehind (u32 (c.input + (p + 1))) (base + temp / 4 + b.toNat * 4) len
        (temp % 4)), m) := by
  have hbyte := b.toNat_lt
  rw [fetchM1, MemProg.exec_bind_ok (exec_inByte hb h), Nat.shiftRight_eq_div_pow,
    Nat.shiftLeft_eq, MemProg.exec_bind_ok (exec_sizeT (by omega)), and_three, u32_u32_add,
    Nat.add_assoc]
  rfl

theorem exec_fetchM2 (hb : Buffers c) (h : Left c m p (b :: rest)) :
    (fetchM2 temp (u32 (c.input + p))).exec m =
      (.ok (.lookbehind (u32 (c.input + (p + 1))) (1 + temp / 4 % 8 + b.toNat * 8)
        (temp / 32 + 1) (temp % 4)), m) := by
  have hbyte := b.toNat_lt
  rw [fetchM2, MemProg.exec_bind_ok (exec_inByte hb h), and_seven, Nat.shiftRight_eq_div_pow,
    Nat.shiftRight_eq_div_pow, Nat.shiftLeft_eq, MemProg.exec_bind_ok (exec_sizeT (by omega)),
    and_three, u32_u32_add, Nat.add_assoc]
  rfl

theorem exec_fetchM3 (hb : Buffers c) (hn : 1 ≤ n)
    (hfit : 31 < n → n + 2 + c.inputLen ≤ 4294967296) (h3 : 3 ≤ c.inputLen) (hv : v < 65536)
    (h : Left c m p (lenBytes n 31 ++ (le16 v ++ rest))) :
    (fetchM3 c (32 + lenBits n 31) (u32 (c.input + p))).exec m =
      (.ok (.lookbehind (u32 (c.input + (p + ((lenBytes n 31).length + 2)))) (1 + v / 4) (n + 2)
        (v % 4)), m) := by
  have hbits := lenBits_le n 31
  rw [fetchM3, and_thirtyOne, Nat.add_mod_left, Nat.mod_eq_of_lt (by omega),
    MemProg.exec_bind_ok (exec_matchLen hb hn hfit h3 h)]
  simp only
  rw [MemProg.exec_bind_ok (exec_inLe16 hb hv h.skip), Nat.shiftRight_eq_div_pow,
    MemProg.exec_bind_ok (exec_sizeT (by omega)), and_three, u32_u32_add]
  rfl

/-- The distance has a bit in the first byte; without any there is no match. -/
theorem exec_fetchM4 {hi : Nat} (hb : Buffers c) (hn : 1 ≤ n) (hhi : hi < 2)
    (hfit : 7 < n → n + 2 + c.inputLen ≤ 4294967296) (h3 : 3 ≤ c.inputLen) (hv : v < 65536)
    (h : Left c m p (lenBytes n 7 ++ (le16 v ++ rest))) :
    (fetchM4 c (16 + hi * 8 + lenBits n 7) (u32 (c.input + p))).exec m =
      (.ok (if hi * 16384 + v / 4 = 0 then
          .done (u32 (c.input + (p + ((lenBytes n 7).length + 2)))) (n + 2)
        else .lookbehind (u32 (c.input + (p + ((lenBytes n 7).length + 2))))
          (hi * 16384 + v / 4 + 16384) (n + 2) (v % 4)), m) := by
  have hbits := lenBits_le n 7
  have hlow : (16 + hi * 8 + lenBits n 7) % 8 = lenBits n 7 := by omega
  have hbit : ((16 + hi * 8 + lenBits n 7) &&& 8) <<< 11 = hi * 16384 := by
    rw [and_eight, Nat.shiftLeft_eq]
    omega
  rw [fetchM4, hbit, and_seven, hlow, MemProg.exec_bind_ok (exec_matchLen hb hn hfit h3 h)]
  simp only
  rw [MemProg.exec_bind_ok (exec_inLe16 hb hv h.skip), Nat.shiftRight_eq_div_pow,
    MemProg.exec_bind_ok (exec_sizeT (by omega)), and_three, u32_u32_add]
  split
  · rfl
  · rw [MemProg.exec_bind_ok (exec_sizeT (by omega))]
    rfl

/-- The first byte of an instruction. -/
theorem exec_lzoFetch_head (hb : Buffers c) (htemp : temp < 256)
    (h : Left c m p (UInt8.ofNat temp :: rest)) :
    (lzoFetch c (u32 (c.input + p)) state).exec m =
      (fetchForm c state temp (u32 (c.input + (p + 1)))).exec m := by
  rw [lzoFetch, MemProg.exec_bind_ok (exec_inByte hb h), UInt8.toNat_ofNat_of_lt' htemp,
    u32_u32_add, Nat.add_assoc]

/-- The length that an instruction asks for leaves room in the address space. -/
theorem exec_lzoFetch {i : LzoInstr} (hb : Buffers c) (hfits : i.Fits state)
    (hfit : i.len + c.inputLen ≤ 4294967296) (h3 : 3 ≤ c.inputLen)
    (h : Left c m p (i.encode ++ rest)) :
    (lzoFetch c (u32 (c.input + p)) state).exec m =
      (.ok (i.fetched c (p + (1 + i.operands.length))), m) := by
  have htail : Left c m (p + 1) (i.operands ++ (i.literals ++ rest)) := by
    rw [← List.append_assoc]
    exact h.tail
  cases i with
  | run bs =>
    obtain ⟨rfl, h4⟩ := hfits
    have hbits := lenBits_le (bs.length - 3) 15
    have hform : fetchForm c 0 (lenBits (bs.length - 3) 15) (u32 (c.input + (p + 1))) =
        fetchRun c (lenBits (bs.length - 3) 15) (u32 (c.input + (p + 1))) := by
      rw [fetchForm, if_pos (by omega), if_pos rfl]
    have hlen : bs.length + c.inputLen ≤ 4294967296 := hfit
    rw [exec_lzoFetch_head hb (show lenBits _ 15 < 256 by omega) h, hform,
      exec_fetchRun hb (by omega) (by omega) h3 htail, Nat.sub_add_cancel (by omega), Nat.add_assoc]
    rfl
  | copy form dist len trail =>
    obtain ⟨hform, htrail⟩ := hfits
    have hlen : len + c.inputLen ≤ 4294967296 := hfit
    cases form with
    | m1 =>
      obtain ⟨⟨hs, hs'⟩, rfl, h1, hd⟩ := hform
      have hbyte : (UInt8.ofNat ((dist - 1) / 4)).toNat = (dist - 1) / 4 :=
        UInt8.toNat_ofNat_of_lt' (show _ < 256 by omega)
      have hhead : (dist - 1) % 4 * 4 + trail.length < 16 := by omega
      rw [exec_lzoFetch_head hb (show (dist - 1) % 4 * 4 + trail.length < 256 by omega) h,
        fetchForm, if_pos hhead, if_neg (by omega), if_neg (by omega),
        exec_fetchM1 hb hhead (by omega) htail, hbyte, LzoInstr.fetched]
      congr 3 <;> omega
    | m1Far =>
      obtain ⟨rfl, rfl, h1, hd⟩ := hform
      have hbyte : (UInt8.ofNat ((dist - 2049) / 4)).toNat = (dist - 2049) / 4 :=
        UInt8.toNat_ofNat_of_lt' (show _ < 256 by omega)
      have hhead : (dist - 2049) % 4 * 4 + trail.length < 16 := by omega
      rw [exec_lzoFetch_head hb (show (dist - 2049) % 4 * 4 + trail.length < 256 by omega) h,
        fetchForm, if_pos hhead, if_neg (by omega), if_pos rfl,
        exec_fetchM1 hb hhead (by omega) htail, hbyte, LzoInstr.fetched]
      congr 3 <;> omega
    | m2 =>
      obtain ⟨⟨hl, hl'⟩, h1, hd⟩ := hform
      have hbyte : (UInt8.ofNat ((dist - 1) / 8)).toNat = (dist - 1) / 8 :=
        UInt8.toNat_ofNat_of_lt' (show _ < 256 by omega)
      have hhead : (len - 1) * 32 + (dist - 1) % 8 * 4 + trail.length < 256 := by omega
      rw [exec_lzoFetch_head hb hhead h, fetchForm, if_neg (by omega), if_neg (by omega),
        if_neg (by omega), exec_fetchM2 hb htail, hbyte, LzoInstr.fetched]
      congr 3 <;> omega
    | m3 =>
      obtain ⟨hl, h1, hd⟩ := hform
      have hbits := lenBits_le (len - 2) 31
      rw [LzoInstr.operands, List.append_assoc] at htail
      rw [exec_lzoFetch_head hb (show 32 + lenBits (len - 2) 31 < 256 by omega) h, fetchForm,
        if_neg (by omega), if_neg (by omega), if_pos (by omega),
        exec_fetchM3 hb (by omega) (fun _ => by omega) h3 (by omega) htail, Nat.add_assoc p,
        LzoInstr.fetched, LzoInstr.operands, List.length_append, le16, List.length_cons,
        List.length_singleton]
      congr 3 <;> omega
    | m4 =>
      obtain ⟨hl, h1, hd⟩ := hform
      have hbits := lenBits_le (len - 2) 7
      rw [LzoInstr.operands, List.append_assoc] at htail
      rw [exec_lzoFetch_head hb
          (show 16 + (dist - 16384) / 16384 * 8 + lenBits (len - 2) 7 < 256 by omega) h, fetchForm,
        if_neg (by omega), if_pos (by omega),
        exec_fetchM4 hb (by omega) (by omega) (fun _ => by omega) h3 (by omega) htail,
        if_neg (by omega), Nat.add_assoc p, LzoInstr.fetched, LzoInstr.operands,
        List.length_append, le16, List.length_cons, List.length_singleton]
      congr 3 <;> omega

end Fetch

/-! ## Copies -/

/-- The output is written, and the rest of memory is as it was. -/
structure Wrote (c : LzoCall) (m₀ : Nat → UInt8) (out : List UInt8) (m : Nat → UInt8) : Prop where
  holds : HoldsAt m c.output out
  frame : ∀ a, a < c.output ∨ c.output + out.length ≤ a → m a = m₀ a

section Copies

variable {c : LzoCall} {m m₀ : Nat → UInt8} {p : Nat} {bs rest out : List UInt8}

/-- What is left of the input is as it was. -/
theorem Wrote.left (h : Wrote c m₀ out m) (hb : Buffers c) (hout : out.length ≤ c.outputLen)
    (hleft : Left c m₀ p bs) : Left c m p bs := by
  have hlen := hleft.len
  have hapart := hb.apart
  exact ⟨hlen, hleft.holds.congr fun i hi => h.frame _ (by omega)⟩

/-- The loop of the file's `memcpy` from the byte `i` on. -/
theorem exec_copyBytes_from (tag : LzoMark) {dp d sp s : Nat} (n i : Nat)
    (hd : ∀ j < i + n, u32 (dp + j) = d + j) (hs : ∀ j < i + n, u32 (sp + j) = s + j) :
    (copyBytes tag dp sp i n).exec (copyForward m d s i) =
      (.ok (), copyForward m d s (i + n)) := by
  induction n generalizing i with
  | zero => rfl
  | succ n ih =>
      have hrest := ih (i + 1) (fun j hj => hd j (by omega)) fun j hj => hs j (by omega)
      rw [Nat.add_assoc, Nat.add_comm 1 n] at hrest
      rw [copyBytes, MemProg.exec_bind_ok MemProg.exec_load,
        MemProg.exec_bind_ok MemProg.exec_store, hd i (by omega), hs i (by omega)]
      exact hrest

/-- Pointers that do not wrap. -/
theorem exec_copyBytes (tag : LzoMark) {dp d sp s n : Nat} (hd : ∀ j < n, u32 (dp + j) = d + j)
    (hs : ∀ j < n, u32 (sp + j) = s + j) :
    (copyBytes tag dp sp 0 n).exec m = (.ok (), copyForward m d s n) := by
  have hcopy : (copyBytes tag dp sp 0 n).exec (copyForward m d s 0) = _ :=
    exec_copyBytes_from tag n 0 (by rwa [Nat.zero_add]) (by rwa [Nat.zero_add])
  rwa [Nat.zero_add] at hcopy

/-- The output pointer in a copy of `n` bytes for which there is room. -/
theorem Buffers.out_ptr (hb : Buffers c) {k n : Nat} (hfit : k + n ≤ c.outputLen) :
    ∀ j < n, u32 (u32 (c.output + k) + j) = c.output + k + j := fun j hj => by
  have hout := hb.output
  rw [u32_u32_add, u32_of_lt (by omega)]

theorem exec_literals (hb : Buffers c) (h : Wrote c m₀ out m) (hleft : Left c m₀ p (bs ++ rest))
    (hfit : out.length + bs.length ≤ c.outputLen) :
    ∃ m', (copyBytes .input (u32 (c.output + out.length)) (u32 (c.input + p)) 0 bs.length).exec m =
      (.ok (), m') ∧ Wrote c m₀ (out ++ bs) m' := by
  have hin := hb.input
  have hapart := hb.apart
  have hlen := hleft.len
  rw [List.length_append] at hlen
  have hsrc := (holdsAt_append.mp (h.left hb (by omega) hleft).holds).1
  have hptr : ∀ j < bs.length, u32 (u32 (c.input + p) + j) = c.input + p + j := fun j hj => by
    rw [u32_u32_add, u32_of_lt (by omega)]
  refine ⟨_, exec_copyBytes .input (hb.out_ptr hfit) hptr, ?_, ?_⟩
  · rw [holdsAt_append]
    exact ⟨h.holds.frame (by omega), hsrc.copied (by omega)⟩
  · intro a ha
    rw [List.length_append] at ha
    rw [copyForward_frame (by omega), h.frame a (by omega)]

theorem exec_match (tag : LzoMark) {dist len : Nat} (hb : Buffers c) (h : Wrote c m₀ out m)
    (h1 : 1 ≤ dist) (hd : dist ≤ out.length) (hfit : out.length + len ≤ c.outputLen) :
    ∃ m', (copyBytes tag (u32 (c.output + out.length))
        (ptrDiff (u32 (c.output + out.length)) dist) 0 len).exec m = (.ok (), m') ∧
      Wrote c m₀ (copyBack out dist len) m' := by
  have hout := hb.output
  have hlen := copyBack_length h1 hd (n := len)
  have hptr : ∀ j < len, u32 (ptrDiff (u32 (c.output + out.length)) dist + j) =
      c.output + out.length - dist + j := fun j hj => by
    unfold ptrDiff u32
    omega
  refine ⟨_, exec_copyBytes tag (hb.out_ptr hfit) hptr, h.holds.copyBack h1 hd, ?_⟩
  intro a ha
  rw [hlen] at ha
  rw [copyForward_frame (by omega), h.frame a (by omega)]

/-- The checks and the copy in front of what both labels return. -/
theorem exec_checkedCopy {α : Type} {f : LzoProg α} (hb : Buffers c) (h : Wrote c m₀ out m)
    (hleft : Left c m₀ p (bs ++ rest)) (h3 : 3 ≤ rest.length) (hbig : bs.length + 3 < 4294967296)
    (hfit : out.length + bs.length ≤ c.outputLen) :
    ∃ m', (do
        checkInLeft c (u32 (c.input + p)) (← sizeT (bs.length + 3))
        checkOutLeft c (u32 (c.output + out.length)) bs.length
        copyBytes .input (u32 (c.output + out.length)) (u32 (c.input + p)) 0 bs.length
        f : LzoProg α).exec m = f.exec m' ∧
      Wrote c m₀ (out ++ bs) m' := by
  obtain ⟨m', hcopy, hwrote⟩ := exec_literals hb h hleft hfit
  have hlen := hleft.len
  rw [List.length_append] at hlen
  refine ⟨m', ?_, hwrote⟩
  rw [MemProg.exec_bind_ok (exec_sizeT hbig),
    MemProg.exec_bind_ok (exec_checkInLeft (by omega)),
    MemProg.exec_bind_ok (exec_checkOutLeft hfit), MemProg.exec_bind_ok hcopy]

theorem exec_skipLookbehind (hb : Buffers c) (h : Wrote c m₀ out m)
    (hleft : Left c m₀ p (bs ++ rest)) (h3 : 3 ≤ rest.length) (hbig : bs.length + 3 < 4294967296)
    (hfit : out.length + bs.length ≤ c.outputLen) :
    ∃ m', (skipLookbehind c (u32 (c.input + p)) (u32 (c.output + out.length)) bs.length).exec m =
        (.ok ⟨u32 (c.input + (p + bs.length)), u32 (c.output + (out ++ bs).length), bs.length⟩,
          m') ∧
      Wrote c m₀ (out ++ bs) m' := by
  obtain ⟨m', hcopy, hwrote⟩ := exec_checkedCopy hb h hleft h3 hbig hfit
  refine ⟨m', hcopy.trans ?_, hwrote⟩
  rw [u32_u32_add, u32_u32_add, Nat.add_assoc, Nat.add_assoc, List.length_append]
  rfl

theorem exec_copyVerbatim (hb : Buffers c) (h : Wrote c m₀ out m)
    (hleft : Left c m₀ p (bs ++ rest)) (h3 : 3 ≤ rest.length) (hbig : bs.length + 3 < 4294967296)
    (hfit : out.length + bs.length ≤ c.outputLen) :
    ∃ m', (copyVerbatim c (u32 (c.input + p)) (u32 (c.output + out.length)) bs.length).exec m =
        (.ok ⟨u32 (c.input + (p + bs.length)), u32 (c.output + (out ++ bs).length), 4⟩, m') ∧
      Wrote c m₀ (out ++ bs) m' := by
  obtain ⟨m', hcopy, hwrote⟩ := exec_checkedCopy hb h hleft h3 hbig hfit
  refine ⟨m', hcopy.trans ?_, hwrote⟩
  rw [u32_u32_add, u32_u32_add, Nat.add_assoc, Nat.add_assoc, List.length_append]
  rfl

/-- `CHECK_LB` passes for a match from the output. -/
theorem exec_checkLb {dist : Nat} (hb : Buffers c) (h1 : 1 ≤ dist) (hd : dist ≤ out.length)
    (hfit : out.length ≤ c.outputLen) :
    (checkLb c (u32 (c.output + out.length)) dist).exec m = (.ok (), m) := by
  have hout := hb.output
  have hptr : ptrDiff (u32 (c.output + out.length)) dist = c.output + (out.length - dist) := by
    unfold ptrDiff u32
    omega
  rw [checkLb, hptr, if_neg (by omega)]
  rfl

end Copies

/-! ## Rounds -/

section Rounds

variable {c : LzoCall} {m m₀ : Nat → UInt8} {p state : Nat} {rest out : List UInt8} {i : LzoInstr}

theorem LzoForm.Fits.dist_pos {form : LzoForm} {dist len : Nat} (h : form.Fits state dist len) :
    1 ≤ dist := by
  cases form <;> simp only [LzoForm.Fits] at h <;> omega

theorem LzoInstr.encode_length : i.encode.length = 1 + i.operands.length + i.literals.length := by
  rw [encode, List.length_cons, List.length_append]
  omega

/-- What follows the operands. -/
theorem Left.literals (h : Left c m p (i.encode ++ rest)) :
    Left c m (p + (1 + i.operands.length)) (i.literals ++ rest) := by
  have hassoc : i.encode ++ rest =
      (UInt8.ofNat i.head :: i.operands) ++ (i.literals ++ rest) := by
    simp [LzoInstr.encode]
  rw [hassoc] at h
  have hskip := h.skip
  rwa [List.length_cons, Nat.add_comm i.operands.length 1] at hskip

/-- The step lemma: one round takes one instruction. -/
theorem exec_lzoRound (hb : Buffers c) (h : Wrote c m₀ out m) (hfits : i.Fits state)
    (hreach : i.Reaches out.length) (hleft : Left c m₀ p (i.encode ++ rest))
    (h3 : 3 ≤ rest.length) (hfit : (i.append out).length ≤ c.outputLen) :
    ∃ m', (lzoRound c ⟨u32 (c.input + p), u32 (c.output + out.length), state⟩).exec m =
        (.ok (.more ⟨u32 (c.input + (p + i.encode.length)),
          u32 (c.output + (i.append out).length), i.next⟩), m') ∧
      Wrote c m₀ (i.append out) m' := by
  have hsum := hb.fit
  have hsmall := c.inputLen_lt
  have hlen := hleft.len
  rw [List.length_append, LzoInstr.encode_length] at hlen
  have hlits := hleft.literals
  rw [LzoInstr.encode_length, ← Nat.add_assoc p]
  have hfetch : out.length + i.len ≤ c.outputLen →
      (lzoFetch c (u32 (c.input + p)) state).exec m =
        (.ok (i.fetched c (p + (1 + i.operands.length))), m) := fun hi =>
    exec_lzoFetch hb hfits (by omega) (by omega) (h.left hb (by omega) hleft)
  cases i with
  | run bs =>
    change Left c m₀ _ (bs ++ rest) at hlits
    have hfit' : out.length + bs.length ≤ c.outputLen := by
      rw [← List.length_append]
      exact hfit
    have hbig : bs.length + 3 < 4294967296 := by
      simp only [LzoInstr.literals] at hlen
      omega
    obtain ⟨m', hcopy, hwrote⟩ := exec_copyVerbatim hb h hlits h3 hbig hfit'
    refine ⟨m', ?_, hwrote⟩
    rw [lzoRound, MemProg.exec_bind_ok (hfetch hfit')]
    simp only [LzoInstr.fetched]
    rw [MemProg.exec_bind_ok hcopy]
    rfl
  | copy form dist len trail =>
    change Left c m₀ _ (trail ++ rest) at hlits
    obtain ⟨hform, htrail⟩ := hfits
    have h1 := hform.dist_pos
    have hd : dist ≤ out.length := hreach
    have hback := copyBack_length h1 hd (n := len)
    have hfit' : out.length + len + trail.length ≤ c.outputLen := by
      rw [← hback, ← List.length_append]
      exact hfit
    obtain ⟨m₁, hcopy, hwrote₁⟩ :=
      exec_match (.lookbehind dist) hb h h1 hd (show out.length + len ≤ _ by omega)
    obtain ⟨m', htrail', hwrote⟩ := exec_skipLookbehind hb hwrote₁ hlits h3
      (show trail.length + 3 < _ by omega) (by rw [hback]; exact hfit')
    refine ⟨m', ?_, hwrote⟩
    rw [lzoRound, MemProg.exec_bind_ok (hfetch (show out.length + len ≤ _ by omega))]
    simp only [LzoInstr.fetched]
    rw [MemProg.exec_bind_ok (exec_checkLb hb h1 hd (by omega)),
      MemProg.exec_bind_ok (exec_checkOutLeft (by omega)), MemProg.exec_bind_ok hcopy,
      u32_u32_add, Nat.add_assoc, ← hback, MemProg.exec_bind_ok htrail']
    rfl

theorem LzoInstr.le_append (hfits : i.Fits state) (hreach : i.Reaches out.length) :
    out.length ≤ (i.append out).length := by
  cases i with
  | run bs =>
    change out.length ≤ (out ++ bs).length
    rw [List.length_append]
    omega
  | copy form dist len trail =>
    change out.length ≤ (copyBack out dist len ++ trail).length
    rw [List.length_append, copyBack_length hfits.1.dist_pos hreach]
    omega

theorem ValidFrom.le_output {is : List LzoInstr} {state : Nat} {out : List UInt8}
    (h : ValidFrom state out is) : out.length ≤ (is.foldl LzoInstr.append out).length := by
  induction is generalizing state out with
  | nil => exact Nat.le_refl _
  | cons i is ih =>
      obtain ⟨hfits, hreach, hvalid⟩ := h
      exact Nat.le_trans (LzoInstr.le_append hfits hreach) (ih hvalid)

/-- The end marker is a match without a distance. -/
theorem exec_lzoRound_end (state outb : Nat) (hb : Buffers c)
    (hleft : Left c m p LzoStream.endMarker) :
    (lzoRound c ⟨u32 (c.input + p), outb, state⟩).exec m = (.ok (.done c.inEnd outb 3), m) := by
  have hsum := hb.fit
  have hlen : p + 3 = c.inputLen := hleft.len
  have hfetch : (lzoFetch c (u32 (c.input + p)) state).exec m = (.ok (.done c.inEnd 3), m) := by
    have htail : Left c m (p + 1) (lenBytes 1 7 ++ (le16 0 ++ [])) := hleft.tail
    have hm4 := exec_fetchM4 hb (Nat.le_refl 1) Nat.zero_lt_two (by omega) (by omega) (by omega)
      htail
    rw [exec_lzoFetch_head hb (show 17 < 256 by omega) hleft]
    refine hm4.trans ?_
    rw [LzoCall.inEnd, ← hlen]
    rfl
  rw [lzoRound, MemProg.exec_bind_ok hfetch]
  rfl

/-- The run lemma: a round for each instruction, and one for the end. -/
theorem exec_lzoLoop (hb : Buffers c) {is : List LzoInstr} {rounds p state : Nat}
    {out : List UInt8} {m : Nat → UInt8} (hrounds : is.length < rounds)
    (hvalid : ValidFrom state out is) (h : Wrote c m₀ out m)
    (hleft : Left c m₀ p (is.flatMap LzoInstr.encode ++ LzoStream.endMarker))
    (hfit : (is.foldl LzoInstr.append out).length ≤ c.outputLen) :
    ∃ m', (lzoLoop c rounds ⟨u32 (c.input + p), u32 (c.output + out.length), state⟩).exec m =
        (.ok (is.foldl LzoInstr.append out).length, m') ∧
      Wrote c m₀ (is.foldl LzoInstr.append out) m' := by
  induction is generalizing rounds p state out m with
  | nil =>
      obtain ⟨rounds, rfl⟩ := Nat.exists_eq_succ_of_ne_zero (Nat.ne_zero_of_lt hrounds)
      have hround := exec_lzoRound_end state (u32 (c.output + out.length)) hb (h.left hb hfit hleft)
      have hlen := c.outputLen_lt
      have hout := ptrDiff_u32 (a := c.output) (n := out.length) (Nat.zero_le _)
        (Nat.lt_of_le_of_lt hfit hlen)
      rw [Nat.add_zero, u32_of_lt c.output_lt] at hout
      refine ⟨m, ?_, h⟩
      rw [lzoLoop, MemProg.exec_bind_ok hround]
      simp only
      rw [if_neg (by simp), hout]
      rfl
  | cons i is ih =>
      obtain ⟨rounds, rfl⟩ := Nat.exists_eq_succ_of_ne_zero (Nat.ne_zero_of_lt hrounds)
      obtain ⟨hfits, hreach, hvalid⟩ := hvalid
      rw [List.flatMap_cons, List.append_assoc] at hleft
      have h3 : 3 ≤ (is.flatMap LzoInstr.encode ++ LzoStream.endMarker).length := by
        rw [List.length_append]
        exact Nat.le_add_left _ _
      obtain ⟨m₁, hround, hwrote⟩ := exec_lzoRound hb h hfits hreach hleft h3
        (Nat.le_trans hvalid.le_output hfit)
      obtain ⟨m', hloop, hwrote'⟩ := ih (Nat.lt_of_succ_lt_succ hrounds) hvalid hwrote
        hleft.skip hfit
      refine ⟨m', ?_, hwrote'⟩
      rw [lzoLoop, MemProg.exec_bind_ok hround]
      exact hloop

end Rounds

/-! ## A whole stream -/

section Stream

variable {c : LzoCall} {m : Nat → UInt8} {st : LzoStream}

theorem LzoStream.output_eq : st.output = st.instrs.foldl LzoInstr.append st.initial := by
  rw [output, lz77, List.foldl_cons, List.foldl_flatMap]
  rfl

/-- The first instruction of a stream without first literals is a run. -/
theorem ValidFrom.head_lt {i : LzoInstr} {is : List LzoInstr} (h : ValidFrom 0 [] (i :: is)) :
    i.head < 17 := by
  obtain ⟨hfits, hreach, -⟩ := h
  cases i with
  | run bs => exact Nat.lt_of_le_of_lt (lenBits_le _ 15) (by omega)
  | copy form dist len trail =>
    have h1 := hfits.1.dist_pos
    have hd : dist ≤ 0 := hreach
    omega

theorem length_le_encode (is : List LzoInstr) :
    is.length ≤ (is.flatMap LzoInstr.encode).length := by
  induction is with
  | nil => exact Nat.le_refl _
  | cons i is ih =>
    rw [List.flatMap_cons, List.length_append, LzoInstr.encode_length, List.length_cons]
    omega

/-- The first literals. -/
theorem exec_lzoStart (hb : Buffers c) (hvalid : st.Valid) (hleft : Left c m 0 st.encode)
    (hfit : st.initial.length ≤ c.outputLen) :
    ∃ m', (lzoStart c).exec m =
        (.ok ⟨u32 (c.input + st.encodeInitial.length), u32 (c.output + st.initial.length),
          st.start⟩, m') ∧
      Wrote c m st.initial m' := by
  have hwrote : Wrote c m [] m := ⟨trivial, fun _ _ => rfl⟩
  have hlen : 3 ≤ c.inputLen := by
    rw [← hleft.len, LzoStream.encode, LzoStream.endMarker]
    simp only [List.length_append, List.length_cons, List.length_nil]
    omega
  have hin : u32 (c.input + 0) = c.input := u32_of_lt c.input_lt
  have hout : u32 (c.output + ([] : List UInt8).length) = c.output := u32_of_lt c.output_lt
  by_cases hnil : st.initial = []
  · -- the first byte is that of an instruction, and the loop begins with it
    have hinit : st.encodeInitial = [] := if_pos hnil
    have hstart : st.start = 0 := by
      rw [LzoStream.start, hnil]
      rfl
    obtain ⟨i, is, his⟩ := List.exists_cons_of_ne_nil (hvalid.nonempty.resolve_left fun h => h hnil)
    have hinstrs := hvalid.instrs
    rw [hstart, hnil, his] at hinstrs
    have hhead := hinstrs.head_lt
    have hbyte := UInt8.toNat_ofNat_of_lt' (show i.head < 256 by omega)
    rw [LzoStream.encode, hinit, his] at hleft
    have hfirst := exec_inByte hb hleft
    rw [hin, hbyte] at hfirst
    refine ⟨m, ?_, hnil ▸ hwrote⟩
    rw [lzoStart, if_neg (by omega), MemProg.exec_bind_ok hfirst, hinit, hnil, hstart, hout]
    simp only
    rw [if_neg (by omega), if_neg (by omega), List.length_nil, hin]
    rfl
  · have hpos := List.length_pos_of_ne_nil hnil
    have hle := hvalid.initial_le
    have hinit : st.encodeInitial = UInt8.ofNat (17 + st.initial.length) :: st.initial :=
      if_neg hnil
    have hbyte := UInt8.toNat_ofNat_of_lt' (show 17 + st.initial.length < 256 by omega)
    rw [LzoStream.encode, hinit] at hleft
    have hfirst := exec_inByte hb hleft
    rw [hin, hbyte] at hfirst
    have htail : Left c m (0 + 1) (st.initial ++
        (st.instrs.flatMap LzoInstr.encode ++ LzoStream.endMarker)) := hleft.tail
    have h3 : 3 ≤ (st.instrs.flatMap LzoInstr.encode ++ LzoStream.endMarker).length := by
      rw [List.length_append]
      exact Nat.le_add_left _ _
    have hsub : 17 + st.initial.length - 17 = st.initial.length := by omega
    have hp : 0 + 1 + st.initial.length = st.encodeInitial.length := by
      rw [hinit, List.length_cons, Nat.zero_add, Nat.add_comm]
    have hroom : ([] : List UInt8).length + st.initial.length ≤ c.outputLen := by
      rwa [List.length_nil, Nat.zero_add]
    by_cases hshort : st.initial.length < 4
    · obtain ⟨m', hcopy, hwrote'⟩ := exec_skipLookbehind hb hwrote htail h3 (by omega) hroom
      refine ⟨m', ?_, hwrote'⟩
      rw [hp, hout, Nat.zero_add] at hcopy
      rw [lzoStart, if_neg (by omega), MemProg.exec_bind_ok hfirst]
      simp only
      rw [if_neg (by omega), if_pos (by omega), hsub, if_pos hshort, hcopy, LzoStream.start,
        if_pos hshort]
      rfl
    · obtain ⟨m', hcopy, hwrote'⟩ := exec_copyVerbatim hb hwrote htail h3 (by omega) hroom
      refine ⟨m', ?_, hwrote'⟩
      rw [hp, hout, Nat.zero_add] at hcopy
      rw [lzoStart, if_neg (by omega), MemProg.exec_bind_ok hfirst]
      simp only
      rw [if_neg (by omega), if_pos (by omega), hsub, if_neg hshort, hcopy, LzoStream.start,
        if_neg hshort]
      rfl

/-- **Decompressing a stream gives what its instructions mean**, and writes
nothing else. -/
theorem lzo_decodes (hb : Buffers c) (hvalid : st.Valid) (hlen : c.inputLen = st.encode.length)
    (hheld : HoldsAt m c.input st.encode) (hfit : st.output.length ≤ c.outputLen) :
    ∃ m', (lzo1xDecompressBlock c).exec m = (.ok st.output.length, m') ∧
      HoldsAt m' c.output st.output ∧
      ∀ a, a < c.output ∨ c.output + st.output.length ≤ a → m' a = m a := by
  have hleft : Left c m 0 st.encode := ⟨by rw [Nat.zero_add, hlen], hheld⟩
  have hinstrs := hvalid.instrs
  rw [LzoStream.output_eq] at hfit ⊢
  have hinit := Nat.le_trans hinstrs.le_output hfit
  obtain ⟨m₁, hstart, hwrote⟩ := exec_lzoStart hb hvalid hleft hinit
  have hrest := hleft.skip
  rw [Nat.zero_add] at hrest
  have hrounds : st.instrs.length < 4294967296 := by
    have hsmall := c.inputLen_lt
    have hle := length_le_encode st.instrs
    have hsum := hrest.len
    rw [List.length_append] at hsum
    omega
  obtain ⟨m', hloop, hwrote'⟩ := exec_lzoLoop hb hrounds hinstrs hwrote hrest hfit
  refine ⟨m', ?_, hwrote'.holds, hwrote'.frame⟩
  rw [lzo1xDecompressBlock, MemProg.exec_bind_ok hstart]
  exact hloop

end Stream

/-- One literal, and a match of three bytes that repeats it. -/
theorem lzo_decodes_four :
    let st : LzoStream := ⟨[97], [.copy .m2 1 3 []]⟩
    let c := sampleCall 7 6 (by decide) (by decide)
    let m := bytesFrom 0x10000 [18, 97, 64, 0, 17, 0, 0]
    st.encode = [18, 97, 64, 0, 17, 0, 0] ∧ st.output = [97, 97, 97, 97] ∧
      ∃ m', (lzo1xDecompressBlock c).exec m = (.ok 4, m') ∧ HoldsAt m' 0x20000 st.output := by
  intro st c m
  have hb : Buffers c := ⟨by decide, by decide, by decide⟩
  have hfits : (LzoInstr.copy .m2 1 3 []).Fits 1 :=
    ⟨⟨⟨by decide, by decide⟩, by decide, by decide⟩, by decide⟩
  have hvalid : st.Valid := ⟨by decide, Or.inl (by decide), hfits, Nat.le_refl 1, trivial⟩
  obtain ⟨m', hexec, hheld, -⟩ := lzo_decodes (m := m) hb hvalid (by decide) (by decide) (by decide)
  exact ⟨by decide, by decide, m', hexec, hheld⟩

end LambdaOs
