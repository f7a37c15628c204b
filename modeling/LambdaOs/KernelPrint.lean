import LambdaOs.Fs
import LambdaOs.PrintInt

/-!
# The kernel's formatter

`print` of `io/output.c`. It goes over the format one character at a time and
has two places it keeps, the pointer `out` and the count `nchars`. What a
character of the format puts out is its `Conversion`; the conversions of a
format can be read off it without putting them out.

The words of a call's arguments are told apart by kind, and an argument of
another kind than the format asks for gives `none`. A number in the format
makes the pointer into it jump: the characters to be skipped are counted.
-/

namespace LambdaOs

/-! ## Formats -/

/-- An argument: an `int` or a pointer, a `long long`, a string that may be
`NULL`, a wide string, or a `double`. -/
inductive PrintArg
  | word (v : Nat)
  | dword (v : Nat)
  | str (s : Option CString)
  | wstr (s : List Nat)
  | dbl
deriving DecidableEq

/-- The labels of the `switch`. -/
inductive FmtChar
  | percent | long | longOne | short | sizeZero | plus | space | minus | zero | digit | dot
  | decimal (signed : Bool) | float | hex (upper : Bool) | octal | str | chr | ptr | count | other
deriving DecidableEq

def fmtChar (c : CChar) : FmtChar :=
  if c.val = 37 then .percent
  else if c.val = 108 then .long
  else if c.val = 76 then .longOne
  else if c.val = 104 then .short
  else if c.val = 122 ∨ c.val = 106 ∨ c.val = 116 then .sizeZero
  else if c.val = 43 then .plus
  else if c.val = 32 then .space
  else if c.val = 45 then .minus
  else if c.val = 48 then .zero
  else if 49 ≤ c.val ∧ c.val ≤ 57 then .digit
  else if c.val = 46 then .dot
  else if c.val = 117 then .decimal false
  else if c.val = 100 ∨ c.val = 105 then .decimal true
  else if c.val = 102 ∨ c.val = 70 ∨ c.val = 101 ∨ c.val = 69 ∨ c.val = 103 ∨ c.val = 71 ∨
      c.val = 97 ∨ c.val = 65 then .float
  else if c.val = 88 then .hex true
  else if c.val = 120 then .hex false
  else if c.val = 111 then .octal
  else if c.val = 115 then .str
  else if c.val = 99 then .chr
  else if c.val = 112 then .ptr
  else if c.val = 110 then .count
  else .other

/-- `_get_dec`: the number, and how many digits it has. -/
def getDec : Nat → CString → Nat × Nat
  | n, [] => (n, 0)
  | n, c :: str =>
      if 48 ≤ c.val ∧ c.val ≤ 57 then
        let (n, k) := getDec (u32 (n * 10 + (c.val.toNat - 48))) str
        (n, k + 1)
      else (n, 0)

/-- What the loop keeps between two characters. -/
structure FmtState where
  isInSpec : Bool
  size : Int
  width : Nat
  precision : Nat
  flags : PrintFlags
deriving DecidableEq

/-- `ZERO_ALL_VID` -/
def zeroAllVid : FmtState := ⟨false, 0, 0, 0, ⟨false, false, false, false, false, false⟩⟩

/-! ## Arguments -/

/-- The low `bits` of a word, sign-extended to 64 of them. -/
def signExtend (bits val : Nat) : Nat :=
  if (val % 2 ^ bits).testBit (bits - 1) then u64 (2 ^ 64 - 2 ^ bits + val % 2 ^ bits)
  else u64 (val % 2 ^ bits)

/-- `_get_arg`, and the arguments behind it. -/
def getArg (varg : List PrintArg) (size : Int) : Option (Nat × List PrintArg) :=
  match varg with
  | .word v :: varg =>
      if size = -2 then some (v % 256, varg)
      else if size = -1 then some (v % 65536, varg)
      else if size = 0 then some (u32 v, varg)
      else if size = 1 then some (signExtend 32 v, varg)
      else none
  | .dword v :: varg => if size = 2 then some (u64 v, varg) else none
  | _ => none

/-- `_sign_extend` -/
def signExtendSize (val : Nat) (size : Int) : Nat :=
  if size = -2 then signExtend 8 val
  else if size = -1 then signExtend 16 val
  else if size = 0 then signExtend 32 val
  else if size = 1 then signExtend 32 val
  else val

/-- `va_arg(*varg, double)` -/
def skipDouble : List PrintArg → Option (List PrintArg)
  | .dbl :: varg => some varg
  | _ => none

/-- `va_arg(*varg, int)` -/
def vaInt : List PrintArg → Option (Nat × List PrintArg)
  | .word v :: varg => some (v, varg)
  | _ => none

/-- `va_arg(varg, char *)`, with `(null)` for `NULL`. -/
def vaStr : List PrintArg → Option (CString × List PrintArg)
  | .str (some s) :: varg => some (s, varg)
  | .str none :: varg =>
      some (CString.ofBytes [40, 110, 117, 108, 108, 41], varg)
  | _ => none

/-! ## Conversions -/

/-- What a character of the format puts out. -/
inductive Conversion
  | nothing
  | plain (c : CChar)
  | int (num base pad : Nat) (flags : PrintFlags)
  | str (s : CString) (precision : Nat)
  | chr (v : Nat)
deriving DecidableEq

/-- What is in front of the pointer `out`, and the count. -/
structure PrintOut where
  out : List UInt8
  nchars : Nat
deriving DecidableEq

/-- `while(*(char *)temp && precision--)` -/
def putStr : CString → Nat → List UInt8
  | [], _ => []
  | _ :: _, 0 => []
  | c :: s, precision + 1 => c.val :: putStr s precision

def Conversion.run (o : PrintOut) : Conversion → Option PrintOut
  | nothing => some o
  | plain c => some ⟨o.out ++ [c.val], u32 (o.nchars + 1)⟩
  | int num base pad flags => do
      let temp ← printInt num base pad flags
      return ⟨o.out ++ temp.out.take temp.outidx, u32 (o.nchars + temp.outidx)⟩
  | str s precision =>
      let precision := if precision = 0 then 4294967295 else precision
      some ⟨o.out ++ putStr s precision, u32 (o.nchars + s.length)⟩
  | chr v => some ⟨o.out ++ [UInt8.ofNat v], u32 (o.nchars + 1)⟩

/-- What the body of the loop comes to: the characters it has gone over beside
its own, the arguments left, and what it puts out. -/
structure FmtBody where
  state : FmtState
  skip : Nat
  varg : List PrintArg
  conv : Conversion
deriving DecidableEq

/-- The cases of integers. -/
def intBody (size : Int) (signed : Bool) (base width : Nat) (flags : PrintFlags)
    (varg : List PrintArg) : Option FmtBody := do
  let (arg, varg) ← getArg varg size
  let arg := if signed then signExtendSize arg size else arg
  return ⟨zeroAllVid, 0, varg, .int arg base width flags⟩

/-- The body of the loop. -/
def printBody (st : FmtState) (c : CChar) (format : CString) (varg : List PrintArg) :
    Option FmtBody :=
  if st.isInSpec = false then
    if c.val = 37 then some ⟨{ st with isInSpec := true }, 0, varg, .nothing⟩
    else some ⟨st, 0, varg, .plain c⟩
  else
    match fmtChar c with
    | .percent => some ⟨{ st with isInSpec := false }, 0, varg, .plain c⟩
    | .long =>
        some ⟨{ st with size := if st.size < 2 then st.size + 1 else st.size }, 0, varg, .nothing⟩
    | .longOne => some ⟨{ st with size := 1 }, 0, varg, .nothing⟩
    | .short =>
        some ⟨{ st with size := if st.size > -2 then st.size - 1 else st.size }, 0, varg, .nothing⟩
    | .sizeZero => some ⟨{ st with size := 0 }, 0, varg, .nothing⟩
    | .plus => some ⟨{ st with flags := { st.flags with posSign := true } }, 0, varg, .nothing⟩
    | .space => some ⟨{ st with flags := { st.flags with posSpace := true } }, 0, varg, .nothing⟩
    | .minus => some ⟨{ st with flags := { st.flags with leftAlign := true } }, 0, varg, .nothing⟩
    | .zero => some ⟨{ st with flags := { st.flags with padZero := true } }, 0, varg, .nothing⟩
    | .digit =>
        let (n, k) := getDec 0 (c :: format)
        some ⟨{ st with width := n % 256 }, k - 1, varg, .nothing⟩
    | .dot =>
        let (n, k) := getDec 0 format
        some ⟨{ st with precision := n % 256 }, k, varg, .nothing⟩
    | .decimal signed =>
        intBody st.size signed 10 st.width
          { st.flags with unsigned := st.flags.unsigned || !signed } varg
    | .float => do
        let varg ← skipDouble varg
        return ⟨zeroAllVid, 0, varg, .nothing⟩
    | .hex upper =>
        intBody st.size false 16 st.width
          { st.flags with unsigned := true, upperCase := st.flags.upperCase || upper } varg
    | .octal => intBody st.size false 8 st.width { st.flags with unsigned := true } varg
    | .str => do
        let (s, varg) ← vaStr varg
        return ⟨zeroAllVid, 0, varg, .str s st.precision⟩
    | .chr => do
        let (v, varg) ← vaInt varg
        return ⟨zeroAllVid, 0, varg, .chr v⟩
    | .ptr =>
        intBody st.size false 16 (if st.width = 0 then 8 else st.width)
          { st.flags with unsigned := true } varg
    | .count => do
        let (_, varg) ← vaInt varg
        return ⟨zeroAllVid, 0, varg, .nothing⟩
    | .other => some ⟨st, 0, varg, .nothing⟩

/-- The loop over the format. -/
def printLoop : Nat → FmtState → PrintOut → CString → List PrintArg → Option PrintOut
  | _, _, o, [], _ => some o
  | skip + 1, st, o, _ :: format, varg => printLoop skip st o format varg
  | 0, st, o, c :: format, varg => do
      let x ← printBody st c format varg
      let o ← x.conv.run o
      printLoop x.skip x.state o format x.varg

/-- What `out` holds before the terminator, and the value returned. -/
def kernelPrint (format : CString) (varg : List PrintArg) : Option (List UInt8 × Int) :=
  (printLoop 0 zeroAllVid ⟨[], 0⟩ format varg).map fun o => (o.out, i32 o.nchars)

/-! ## The conversions of a format -/

/-- The conversions a format asks for, in the order they are carried out. -/
def conversions : Nat → FmtState → CString → List PrintArg → Option (List Conversion)
  | _, _, [], _ => some []
  | skip + 1, st, _ :: format, varg => conversions skip st format varg
  | 0, st, c :: format, varg => do
      let x ← printBody st c format varg
      let cs ← conversions x.skip x.state format x.varg
      return x.conv :: cs

namespace Conversion

/-- How much of a string a precision leaves. -/
def limit (precision : Nat) : Nat := if precision = 0 then 4294967295 else precision

def text : Conversion → List UInt8
  | nothing => []
  | plain c => [c.val]
  | int num base pad flags => intText num base pad flags
  | str s precision => (s.take (limit precision)).map Subtype.val
  | chr v => [UInt8.ofNat v]

/-- The characters that are counted and not put out. -/
def cut : Conversion → Nat
  | str s precision => s.length - limit precision
  | _ => 0

/-- What the `switch` gives `_print_int`. -/
def Ok : Conversion → Prop
  | int num base _ _ => 8 ≤ base ∧ base ≤ 16 ∧ num < 18446744073709551616
  | _ => True

theorem putStr_eq (s : CString) (precision : Nat) :
    putStr s precision = (s.take precision).map Subtype.val := by
  induction s generalizing precision with
  | nil => simp [putStr]
  | cons c s ih =>
      cases precision with
      | zero => rfl
      | succ precision => rw [putStr, ih]; rfl

/-- A conversion puts its text out, and counts what it cuts off as well. -/
theorem run_eq {c : Conversion} (h : c.Ok) (out : List UInt8) (n : Nat) :
    c.run ⟨out, u32 n⟩ = some ⟨out ++ c.text, u32 (n + (c.text.length + c.cut))⟩ := by
  cases c with
  | nothing => simp [run, text, cut]
  | plain c => simp [run, text, cut, u32_u32_add]
  | int num base pad flags =>
      obtain ⟨hb, hb16, hnum⟩ := h
      rw [run, printInt_eq pad flags hb hb16 hnum]
      simp [text, cut, IntOut.filled, u32_u32_add]
  | str s precision =>
      have hlen : (s.take (limit precision)).length + (s.length - limit precision) = s.length := by
        rw [List.length_take]
        omega
      rw [run, text, cut, List.length_map, hlen]
      simp [putStr_eq, limit, u32_u32_add]
  | chr v => simp [run, text, cut, u32_u32_add]

end Conversion

/-! ## The loop carries them out -/

theorem signExtend_lt (bits val : Nat) : signExtend bits val < 18446744073709551616 := by
  rw [signExtend]
  split <;> exact Nat.mod_lt _ (by decide)

theorem signExtendSize_lt {val : Nat} (h : val < 18446744073709551616) (size : Int) :
    signExtendSize val size < 18446744073709551616 := by
  rw [signExtendSize]
  repeat' split
  all_goals first | exact signExtend_lt _ _ | exact h

theorem getArg_lt {varg rest : List PrintArg} {size : Int} {arg : Nat}
    (h : getArg varg size = some (arg, rest)) : arg < 18446744073709551616 := by
  have hmod : ∀ v m : Nat, 0 < m → m ≤ 18446744073709551616 → v % m < 18446744073709551616 :=
    fun v m hm hle => Nat.lt_of_lt_of_le (Nat.mod_lt v hm) hle
  match varg with
  | .word v :: varg =>
      rw [getArg] at h
      split at h
      · cases h
        exact hmod v _ (by decide) (by decide)
      · split at h
        · cases h
          exact hmod v _ (by decide) (by decide)
        · split at h
          · cases h
            exact hmod v _ (by decide) (by decide)
          · split at h
            · cases h
              exact signExtend_lt 32 v
            · cases h
  | .dword v :: varg =>
      rw [getArg] at h
      split at h
      · cases h
        exact hmod v _ (by decide) (by decide)
      · cases h
  | [] | .str _ :: _ | .wstr _ :: _ | .dbl :: _ => cases h

theorem intBody_ok {size : Int} {signed : Bool} {base width : Nat} {flags : PrintFlags}
    {varg : List PrintArg} {x : FmtBody} (hb : 8 ≤ base) (hb16 : base ≤ 16)
    (h : intBody size signed base width flags varg = some x) : x.conv.Ok := by
  rw [intBody, Option.bind_eq_bind] at h
  obtain ⟨⟨arg, rest⟩, harg, h⟩ := Option.bind_eq_some_iff.mp h
  cases h
  refine ⟨hb, hb16, ?_⟩
  cases signed with
  | true => exact signExtendSize_lt (getArg_lt harg) size
  | false => exact getArg_lt harg

theorem printBody_ok {st : FmtState} {c : CChar} {format : CString} {varg : List PrintArg}
    {x : FmtBody} (h : printBody st c format varg = some x) : x.conv.Ok := by
  rw [printBody] at h
  split at h
  · split at h <;> cases h <;> trivial
  · generalize fmtChar c = label at h
    cases label with
    | decimal | hex | octal | ptr => exact intBody_ok (by decide) (by decide) h
    | float | str | chr | count =>
        obtain ⟨_, _, h⟩ := Option.bind_eq_some_iff.mp h
        cases h
        trivial
    | _ =>
        cases h
        trivial

theorem conversions_ok {skip : Nat} {st : FmtState} {format : CString} {varg : List PrintArg}
    {cs : List Conversion} (h : conversions skip st format varg = some cs) : ∀ c ∈ cs, c.Ok := by
  induction format generalizing skip st varg cs with
  | nil =>
      cases skip <;> cases h <;> nofun
  | cons c format ih =>
      cases skip with
      | succ skip => exact ih h
      | zero =>
          rw [conversions, Option.bind_eq_bind] at h
          obtain ⟨x, hx, h⟩ := Option.bind_eq_some_iff.mp h
          obtain ⟨cs, hcs, h⟩ := Option.bind_eq_some_iff.mp h
          cases h
          exact List.forall_mem_cons.mpr ⟨printBody_ok hx, ih hcs⟩

/-- The text of a run, and the characters it counts on top of it. -/
def textOf (cs : List Conversion) : List UInt8 := cs.flatMap Conversion.text

def cutOf (cs : List Conversion) : Nat := (cs.map Conversion.cut).sum

theorem printLoop_eq {skip : Nat} {st : FmtState} {format : CString} {varg : List PrintArg}
    {cs : List Conversion} (h : conversions skip st format varg = some cs) (out : List UInt8)
    (n : Nat) :
    printLoop skip st ⟨out, u32 n⟩ format varg =
      some ⟨out ++ textOf cs, u32 (n + ((textOf cs).length + cutOf cs))⟩ := by
  induction format generalizing skip st varg cs out n with
  | nil => cases skip <;> cases h <;> simp [printLoop, textOf, cutOf]
  | cons c format ih =>
      cases skip with
      | succ skip => exact ih h out n
      | zero =>
          rw [conversions, Option.bind_eq_bind] at h
          obtain ⟨x, hx, h⟩ := Option.bind_eq_some_iff.mp h
          obtain ⟨cs, hcs, h⟩ := Option.bind_eq_some_iff.mp h
          cases h
          rw [printLoop, hx, Option.bind_eq_bind, Option.bind_some,
            Conversion.run_eq (printBody_ok hx), Option.bind_eq_bind, Option.bind_some, ih hcs]
          simp only [textOf, cutOf, List.flatMap_cons, List.map_cons, List.sum_cons,
            List.length_append, List.append_assoc, Option.some.injEq, PrintOut.mk.injEq, true_and]
          congr 1
          omega

/-! ## No character of it ends the string -/

theorem digitByte_ne_zero (upper : Bool) {d : Nat} (hd : d < 16) : digitByte upper d ≠ 0 := by
  have h : ∀ up : Bool, ∀ d < 16, digitByte up d ≠ 0 := by decide
  exact h upper d hd

theorem zero_notMem_intText (num pad : Nat) (flags : PrintFlags) {base : Nat} (hb : 8 ≤ base)
    (hb16 : base ≤ 16) : (0 : UInt8) ∉ intText num base pad flags := by
  have hsign : (0 : UInt8) ∉ signText num flags := by
    rw [signText]
    repeat' split
    all_goals decide
  have hpad : (0 : UInt8) ∉ padText pad flags (digitsOf base (magnitude num flags)) := by
    intro h
    have := List.eq_of_mem_replicate h
    cases hz : flags.padZero <;> simp [hz] at this
  have hdigits : (0 : UInt8) ∉
      (digitsOf base (magnitude num flags)).map (digitByte flags.upperCase) := by
    intro h
    obtain ⟨d, hd, hzero⟩ := List.mem_map.mp h
    refine digitByte_ne_zero flags.upperCase ?_ hzero
    rw [digitsOf] at hd
    split at hd
    · rw [List.mem_singleton.mp hd]
      decide
    · exact Nat.lt_of_lt_of_le (Nat.digits_lt_base (by omega) (List.mem_reverse.mp hd)) hb16
  simp [intText, hsign, hpad, hdigits]

theorem Conversion.zero_notMem_text {c : Conversion} (h : c.Ok)
    (hchr : ∀ v, c = .chr v → UInt8.ofNat v ≠ 0) : (0 : UInt8) ∉ c.text := by
  cases c with
  | nothing => exact nofun
  | plain c => simpa [text] using c.2.symm
  | int num base pad flags => exact zero_notMem_intText num pad flags h.1 h.2.1
  | str s precision =>
      intro hmem
      obtain ⟨c, -, hc⟩ := List.mem_map.mp hmem
      exact c.2 hc
  | chr v => simpa [text] using (hchr v rfl).symm

/-- `strlen` of what is stored. -/
def storedStrlen (m : List UInt8) : Nat := (m.takeWhile (· ≠ 0)).length

theorem storedStrlen_terminated {m : List UInt8} (h : (0 : UInt8) ∉ m) :
    storedStrlen (m ++ [0]) = m.length := by
  have hall : ∀ b ∈ m, decide (b ≠ 0) = true := by
    intro b hb
    simpa using fun e : b = 0 => h (e ▸ hb)
  rw [storedStrlen, List.takeWhile_append_of_pos hall]
  simp

/-! ## The value returned -/

theorem i32_u32_eq_iff (len cut : Nat) :
    i32 (u32 (len + cut)) = len ↔ cut % 4294967296 = 0 ∧ len < 2147483648 := by
  unfold i32 u32
  split <;> omega

/-- The value returned is the length of the string stored unless characters
are cut off strings, which are counted all the same. -/
theorem kernel_print_count_iff {format : CString} {varg : List PrintArg} {cs : List Conversion}
    (hmatch : conversions 0 zeroAllVid format varg = some cs)
    (hchr : ∀ v, Conversion.chr v ∈ cs → UInt8.ofNat v ≠ 0) :
    (∃ out ret, kernelPrint format varg = some (out, ret) ∧ ret = (out.length : Int) ∧
      ret = (storedStrlen (out ++ [0]) : Int)) ↔
      cutOf cs % 4294967296 = 0 ∧ (textOf cs).length < 2147483648 := by
  have hzero : (0 : UInt8) ∉ textOf cs := by
    intro hmem
    obtain ⟨c, hc, hmem⟩ := List.mem_flatMap.mp hmem
    refine Conversion.zero_notMem_text (conversions_ok hmatch c hc) ?_ hmem
    rintro v rfl
    exact hchr v hc
  have hrun : kernelPrint format varg =
      some (textOf cs, i32 (u32 ((textOf cs).length + cutOf cs))) := by
    have := printLoop_eq hmatch [] 0
    rw [List.nil_append, Nat.zero_add] at this
    rw [kernelPrint, show (⟨[], 0⟩ : PrintOut) = ⟨[], u32 0⟩ from rfl, this]
    rfl
  rw [← i32_u32_eq_iff, hrun]
  constructor
  · rintro ⟨_, _, h, hret, -⟩
    cases h
    exact hret
  · intro hret
    refine ⟨_, _, rfl, hret, ?_⟩
    rw [storedStrlen_terminated hzero]
    exact hret

/-- `"%s"` -/
theorem kernel_print_count_str :
    (∃ out ret, kernelPrint (CString.ofBytes [37, 115])
        [.str (some (CString.ofBytes [97, 98]))] = some (out, ret) ∧
      ret = (out.length : Int) ∧ ret = (storedStrlen (out ++ [0]) : Int)) ↔
      cutOf [.nothing, .str (CString.ofBytes [97, 98]) 0] % 4294967296 = 0 ∧
        (textOf [.nothing, .str (CString.ofBytes [97, 98]) 0]).length < 2147483648 :=
  kernel_print_count_iff rfl (by simp)

/-- `"%.1s"` with a string of two characters returns 2 and stores one. -/
theorem kernel_print_count_wrong :
    kernelPrint (CString.ofBytes [37, 46, 49, 115])
      [.str (some (CString.ofBytes [97, 98]))] = some ([97], 2) ∧
    ¬ ∃ out ret, kernelPrint (CString.ofBytes [37, 46, 49, 115])
        [.str (some (CString.ofBytes [97, 98]))] = some (out, ret) ∧
      ret = (out.length : Int) ∧ ret = (storedStrlen (out ++ [0]) : Int) := by
  have h : kernelPrint (CString.ofBytes [37, 46, 49, 115])
      [.str (some (CString.ofBytes [97, 98]))] = some ([97], 2) := by decide
  refine ⟨h, ?_⟩
  rintro ⟨out, ret, hrun, hret, -⟩
  rw [h] at hrun
  cases hrun
  exact absurd hret (by decide)

end LambdaOs
