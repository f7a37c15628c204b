import LambdaOs.Word
import Mathlib.Data.Nat.Digits.Lemmas

/-!
# Integers in the kernel's formatter

`_print_int` of `io/output.c`. The digits are found from the last one on, in
the 25 bytes of `ans`; what is put in `out` comes with the index the code
counts along. `digitsOf` is what the digits are: those of the number in the
base, from the first one on, and `0` for none.
-/

namespace LambdaOs

/-- The bits of `PRINTFLAG_*`. -/
structure PrintFlags where
  unsigned : Bool
  padZero : Bool
  posSign : Bool
  posSpace : Bool
  upperCase : Bool
  leftAlign : Bool
deriving DecidableEq

/-- What has been put in `out`, and the index. -/
structure IntOut where
  out : List UInt8
  outidx : Nat
deriving DecidableEq

namespace IntOut

/-- `out[outidx++] = c` -/
def put (o : IntOut) (c : UInt8) : IntOut := ⟨o.out ++ [c], o.outidx + 1⟩

/-- `while(p--)` -/
def putPad (c : UInt8) : Nat → IntOut → IntOut
  | 0, o => o
  | p + 1, o => putPad c p (o.put c)

/-- `while(--i >= 0)` over the `i` bytes found in `ans`. -/
def putAns (ans : List UInt8) (o : IntOut) : IntOut := ans.foldr (fun c o => o.put c) o

/-- The index counts what has been put. -/
def filled (out : List UInt8) : IntOut := ⟨out, out.length⟩

@[simp] theorem put_filled (out : List UInt8) (c : UInt8) :
    (filled out).put c = filled (out ++ [c]) := by
  simp [put, filled]

@[simp] theorem putPad_filled (c : UInt8) (p : Nat) (out : List UInt8) :
    putPad c p (filled out) = filled (out ++ List.replicate p c) := by
  induction p generalizing out with
  | zero => simp [putPad]
  | succ p ih => rw [putPad, put_filled, ih, List.append_assoc, List.replicate_succ]; rfl

@[simp] theorem putAns_filled (ans out : List UInt8) :
    putAns ans (filled out) = filled (out ++ ans.reverse) := by
  induction ans with
  | nil => simp [putAns]
  | cons c ans ih =>
      rw [putAns] at ih
      rw [putAns, List.foldr_cons, ih, put_filled, List.reverse_cons, List.append_assoc]

end IntOut

/-- `"0123456789ABCDEF"` -/
def upperNums : List UInt8 := [48, 49, 50, 51, 52, 53, 54, 55, 56, 57, 65, 66, 67, 68, 69, 70]

/-- `"0123456789abcdef"` -/
def lowerNums : List UInt8 := [48, 49, 50, 51, 52, 53, 54, 55, 56, 57, 97, 98, 99, 100, 101, 102]

def numsOf (upper : Bool) : List UInt8 := if upper then upperNums else lowerNums

/-- `while(num)`, with the room left in `ans`; `none` when a byte outside of
`nums` or `ans` would be used. -/
def ansLoop (nums : List UInt8) (base : Nat) : Nat → Nat → Option (List UInt8)
  | 0, num => if num = 0 then some [] else none
  | room + 1, num =>
      if num = 0 then some []
      else do
        let c ← nums[num % base]?
        let ans ← ansLoop nums base room (num / base)
        return c :: ans

/-- `num & (1ULL << 63)` for a number not printed as unsigned. -/
def isNeg (num : Nat) (flags : PrintFlags) : Bool := !flags.unsigned && num.testBit 63

/-- `if(neg) num = (~num) + 1` -/
def magnitude (num : Nat) (flags : PrintFlags) : Nat :=
  if isNeg num flags then u64 (18446744073709551615 - num + 1) else num

def printInt (num base pad : Nat) (flags : PrintFlags) : Option IntOut := do
  let ans ← ansLoop (numsOf flags.upperCase) base 25 (magnitude num flags)
  let ans := if ans.length = 0 then [48] else ans
  let out : IntOut := ⟨[], 0⟩
  let out :=
    if isNeg num flags then out.put 45
    else if flags.posSign then out.put 43
    else if flags.posSpace then out.put 32
    else out
  let out := IntOut.putPad (if flags.padZero then 48 else 32) (pad - ans.length) out
  return IntOut.putAns ans out

/-! ## What it puts out -/

def digitByte (upper : Bool) (d : Nat) : UInt8 := (numsOf upper).getD d 0

/-- The digits of a number, from the first one on. -/
def digitsOf (base n : Nat) : List Nat := if n = 0 then [0] else (Nat.digits base n).reverse

def signText (num : Nat) (flags : PrintFlags) : List UInt8 :=
  if isNeg num flags then [45]
  else if flags.posSign then [43]
  else if flags.posSpace then [32]
  else []

def padText (pad : Nat) (flags : PrintFlags) (digits : List Nat) : List UInt8 :=
  List.replicate (pad - digits.length) (if flags.padZero then 48 else 32)

def intText (num base pad : Nat) (flags : PrintFlags) : List UInt8 :=
  let digits := digitsOf base (magnitude num flags)
  signText num flags ++ padText pad flags digits ++ digits.map (digitByte flags.upperCase)

theorem numsOf_getElem? (upper : Bool) {d : Nat} (hd : d < 16) :
    (numsOf upper)[d]? = some (digitByte upper d) := by
  have hlen : d < (numsOf upper).length := by cases upper <;> exact hd
  rw [digitByte, List.getD_eq_getElem?_getD, List.getElem?_eq_getElem hlen, Option.getD_some]

theorem ansLoop_eq (upper : Bool) {base : Nat} (hb : 2 ≤ base) (hb16 : base ≤ 16) {room num : Nat}
    (hroom : (Nat.digits base num).length ≤ room) :
    ansLoop (numsOf upper) base room num = some ((Nat.digits base num).map (digitByte upper)) := by
  induction room generalizing num with
  | zero =>
      have hnil : Nat.digits base num = [] := List.length_eq_zero_iff.mp (Nat.le_zero.mp hroom)
      obtain rfl := Nat.digits_eq_nil_iff_eq_zero.mp hnil
      simp [ansLoop]
  | succ room ih =>
      by_cases hnum : num = 0
      · simp [ansLoop, hnum]
      · have hcons := Nat.digits_def' (b := base) (by omega) (Nat.pos_of_ne_zero hnum)
        rw [hcons, List.length_cons, Nat.add_le_add_iff_right] at hroom
        have hmod : num % base < 16 := Nat.lt_of_lt_of_le (Nat.mod_lt _ (by omega)) hb16
        rw [ansLoop, if_neg hnum, numsOf_getElem? upper hmod, ih hroom, hcons]
        rfl

/-- The room in `ans` is enough for 64 bits. -/
theorem digits_length_le {base num : Nat} (hb : 8 ≤ base) (hnum : num < 18446744073709551616) :
    (Nat.digits base num).length ≤ 25 := by
  rw [Nat.digits_length_le_iff (by omega)]
  calc num < 8 ^ 25 := by omega
    _ ≤ base ^ 25 := Nat.pow_le_pow_left hb 25

theorem magnitude_lt {num : Nat} (hnum : num < 18446744073709551616) (flags : PrintFlags) :
    magnitude num flags < 18446744073709551616 := by
  rw [magnitude]
  split
  · exact Nat.mod_lt _ (by decide)
  · exact hnum

theorem digitsOf_ne_nil (base n : Nat) : digitsOf base n ≠ [] := by
  rw [digitsOf]
  split
  · simp
  · next hn => simpa [Nat.digits_ne_nil_iff_ne_zero] using hn

/-- What `ans` holds after `if(i == 0) i++`. -/
theorem ans_eq (upper : Bool) (base n : Nat) :
    (if ((Nat.digits base n).map (digitByte upper)).length = 0 then [48]
      else (Nat.digits base n).map (digitByte upper)) =
      ((digitsOf base n).map (digitByte upper)).reverse := by
  by_cases hn : n = 0
  · subst hn
    cases upper <;> simp [digitsOf, digitByte, numsOf, upperNums, lowerNums]
  · have hlen : (Nat.digits base n).length ≠ 0 := by
      rwa [Ne, List.length_eq_zero_iff, Nat.digits_eq_nil_iff_eq_zero]
    rw [List.length_map, if_neg hlen, digitsOf, if_neg hn, List.map_reverse, List.reverse_reverse]

theorem sign_eq (num : Nat) (flags : PrintFlags) :
    (if isNeg num flags then IntOut.put ⟨[], 0⟩ 45
      else if flags.posSign then IntOut.put ⟨[], 0⟩ 43
      else if flags.posSpace then IntOut.put ⟨[], 0⟩ 32 else ⟨[], 0⟩) =
      IntOut.filled (signText num flags) := by
  rw [signText]
  split
  · rfl
  · split
    · rfl
    · split <;> rfl

theorem printInt_eq {num base : Nat} (pad : Nat) (flags : PrintFlags) (hb : 8 ≤ base)
    (hb16 : base ≤ 16) (hnum : num < 18446744073709551616) :
    printInt num base pad flags = some (IntOut.filled (intText num base pad flags)) := by
  have hans := ansLoop_eq flags.upperCase (by omega) hb16
    (digits_length_le hb (magnitude_lt hnum flags))
  simp only [printInt, hans, Option.bind_eq_bind, Option.bind_some, sign_eq, ans_eq]
  rw [IntOut.putPad_filled, IntOut.putAns_filled, List.reverse_reverse, List.length_reverse,
    List.length_map]
  rfl

theorem length_intText (num base pad : Nat) (flags : PrintFlags) :
    (intText num base pad flags).length = (signText num flags).length +
      max pad (digitsOf base (magnitude num flags)).length := by
  simp only [intText, padText, List.length_append, List.length_replicate, List.length_map]
  omega

end LambdaOs
