import LambdaOs.KernelPrint
import LambdaOs.LastWrite

/-!
# The user library's formatter

`snprintf` of `stdio/fmt/sprintf.c`, with `print`, `print_int` and `get_dec`
of the helpers and `wcslen`. What is put out is a sequence of stores at offsets
from the buffer. A conversion stores some bytes, moves the pointer `out`, and
adds to `nchars`, and these need not be the same number.

The bound is looked at before each character of the format, on `nchars`, and
the terminator it then puts is at `out[maxlen-1]`, with `out` moved along.
-/

namespace LambdaOs

namespace UserPrint

/-! ## Integers -/

/-- The arguments of `print_int`, but for `out`. -/
structure IntArgs where
  num : Nat
  base : Nat
  u : Bool
  pad : Nat
  padzero : Bool
  possign : Bool
  posspace : Bool
  upper : Bool
deriving DecidableEq

namespace IntArgs

/-- `(onum < 0) && !u` -/
def neg (a : IntArgs) : Bool := a.num.testBit 31 && !a.u

/-- `num = (~num) + 1` for these. -/
def magnitude (a : IntArgs) : Nat := if a.neg then u32 (4294967295 - a.num + 1) else a.num

def sign (a : IntArgs) : List UInt8 :=
  if a.u then []
  else if a.num.testBit 31 then [45]
  else if a.possign then [43]
  else if a.posspace then [32]
  else []

/-- The sign in the value returned, found once more. -/
def signCount (a : IntArgs) : Nat :=
  if ((a.possign || a.posspace) && !a.u && !a.num.testBit 31) || a.neg then 1 else 0

end IntArgs

/-- `print_int`: the bytes put in `out`, and the value returned. `strlen(ans)`
is how many bytes of `ans` are set. -/
def printInt (a : IntArgs) : Option (List UInt8 × Nat) := do
  let ans ← ansLoop (numsOf a.upper) a.base 16 a.magnitude
  let ans := if ans.length = 0 then [48] else ans
  if ans.length < a.pad then
    return (a.sign ++ List.replicate (a.pad - ans.length) (if a.padzero then 48 else 32) ++
      ans.reverse, max a.pad ans.length + a.signCount + 1)
  else return (a.sign ++ ans.reverse, ans.length + a.signCount)

/-! ## Wide strings -/

/-- `wcslen`. The index has gone past the terminator when it is returned. -/
def wcslen : List Nat → Nat
  | [] => 1
  | _ :: str => wcslen str + 1

/-- A wide string in memory: a `wchar_t` is a `short`. -/
def wideBytes (s : List Nat) : List UInt8 :=
  s.flatMap (fun w => [UInt8.ofNat w, UInt8.ofNat (w / 256)]) ++ [0, 0]

/-- `while(*(wchar_t *)temp) *out++ = (char)*(wchar_t *)temp++`: `temp` is an
integer, so it moves by one byte. -/
def putWide : List UInt8 → List UInt8
  | lo :: hi :: mem => if lo = 0 ∧ hi = 0 then [] else lo :: putWide (hi :: mem)
  | _ => []

/-- How many bytes of a wide string come before the first two that are zero. -/
def wideStored : List Nat → Nat
  | [] => 0
  | w :: s => if w < 256 ∧ s.headD 0 % 256 = 0 then 1 else wideStored s + 2

theorem ofNat_eq_zero_iff {w : Nat} : UInt8.ofNat w = 0 ↔ w % 256 = 0 := by
  rw [← UInt8.toNat_inj, UInt8.toNat_ofNat']
  rfl

theorem wideBytes_head (s : List Nat) :
    ∃ mem, wideBytes s = UInt8.ofNat (s.headD 0) :: mem := by
  cases s with
  | nil => exact ⟨[0], rfl⟩
  | cons w s => exact ⟨_, rfl⟩

theorem length_putWide {s : List Nat} (h : ∀ w ∈ s, 0 < w ∧ w < 65536) :
    (putWide (wideBytes s)).length = wideStored s := by
  induction s with
  | nil => rfl
  | cons w s ih =>
      obtain ⟨mem, hmem⟩ := wideBytes_head s
      have hw := h w List.mem_cons_self
      have ih := ih fun w hw => h w (List.mem_cons_of_mem _ hw)
      have hsplit : wideBytes (w :: s) =
          UInt8.ofNat w :: UInt8.ofNat (w / 256) :: wideBytes s := rfl
      have hlow : ¬ (UInt8.ofNat w = 0 ∧ UInt8.ofNat (w / 256) = 0) := by
        rw [ofNat_eq_zero_iff, ofNat_eq_zero_iff]
        omega
      have hhigh : (UInt8.ofNat (w / 256) = 0 ∧ UInt8.ofNat (s.headD 0) = 0) ↔
          w < 256 ∧ s.headD 0 % 256 = 0 := by
        rw [ofNat_eq_zero_iff, ofNat_eq_zero_iff]
        omega
      rw [hsplit, putWide, if_neg hlow, hmem, putWide, wideStored, List.length_cons]
      split
      · rw [if_pos (hhigh.mp ‹_›)]
        rfl
      · rw [if_neg (mt hhigh.mpr ‹_›), List.length_cons, ← hmem, ih]

/-! ## The loop over the format -/

/-- What the loop keeps between two characters. -/
structure SpecState where
  isInSpec : Bool
  size : Int
  width : Nat
  precision : Nat
  showsign : Bool
  signspace : Bool
  leftalign : Bool
  padzeros : Bool
deriving DecidableEq

/-- `ZERO_ALL_VID` -/
def zeroAllVid : SpecState := ⟨false, 0, 0, 0, false, false, false, false⟩

/-- What a character of the format puts out. -/
inductive Conv
  | nothing
  | plain (c : CChar)
  | int (a : IntArgs)
  | str (s : CString)
  | wide (s : List Nat)
  | chr (v : Nat)
deriving DecidableEq

/-- What has been stored, the offset of `out`, and the count. -/
structure PrintOut where
  stores : List (Nat × UInt8)
  out : Nat
  nchars : Nat
deriving DecidableEq

/-- `*out++ = ...` for these bytes. -/
def storesAt : Nat → List UInt8 → List (Nat × UInt8)
  | _, [] => []
  | out, b :: bytes => (out, b) :: storesAt (out + 1) bytes

def Conv.run (o : PrintOut) : Conv → Option PrintOut
  | nothing => some o
  | plain c => some ⟨o.stores ++ [(o.out, c.val)], o.out + 1, u64 (o.nchars + 1)⟩
  | int a => do
      let (bytes, temp) ← printInt a
      return ⟨o.stores ++ storesAt o.out bytes, o.out + temp, u64 (o.nchars + temp)⟩
  | str s =>
      some ⟨o.stores ++ storesAt o.out (s.map Subtype.val), o.out + s.length,
        u64 (o.nchars + s.length)⟩
  | wide s =>
      let bytes := putWide (wideBytes s)
      some ⟨o.stores ++ storesAt o.out bytes, o.out + bytes.length, u64 (o.nchars + wcslen s)⟩
  | chr v => some ⟨o.stores ++ [(o.out, UInt8.ofNat v)], o.out + 1, u64 (o.nchars + 1)⟩

/-- `va_arg(varg, char *)` -/
def vaCharPtr : List PrintArg → Option (CString × List PrintArg)
  | .str (some s) :: varg => some (s, varg)
  | _ => none

/-- `va_arg(varg, wchar_t *)` -/
def vaWcharPtr : List PrintArg → Option (List Nat × List PrintArg)
  | .wstr s :: varg => if ∀ w ∈ s, 0 < w ∧ w < 65536 then some (s, varg) else none
  | _ => none

/-- What the body of the loop comes to: the characters it has gone over beside
its own, the arguments left, and what it puts out. -/
structure SpecBody where
  state : SpecState
  skip : Nat
  varg : List PrintArg
  conv : Conv
deriving DecidableEq

def SpecState.intArgs (st : SpecState) (num base : Nat) (u upper : Bool) : IntArgs :=
  ⟨num, base, u, st.width, st.padzeros, st.showsign, st.signspace, upper⟩

/-- The cases of integers. -/
def intBody (st : SpecState) (base : Nat) (u upper : Bool) (varg : List PrintArg) :
    Option SpecBody := do
  let (temp, varg) ← vaInt varg
  let temp :=
    if st.size = -1 then temp % 65536 else if st.size = -2 then temp % 256 else u32 temp
  return ⟨zeroAllVid, 0, varg, .int (st.intArgs temp base u upper)⟩

/-- The body of the loop. -/
def printBody (st : SpecState) (c : CChar) (format : CString) (varg : List PrintArg) :
    Option SpecBody :=
  if st.isInSpec = false then
    if c.val = 37 then some ⟨{ st with isInSpec := true }, 0, varg, .nothing⟩
    else some ⟨st, 0, varg, .plain c⟩
  else
    match fmtChar c with
    | .percent => some ⟨{ st with isInSpec := false }, 0, varg, .plain c⟩
    | .long =>
        some ⟨{ st with size := if st.size < 2 then st.size + 1 else st.size }, 0, varg, .nothing⟩
    | .longOne => some ⟨{ st with size := 1 }, 0, varg, .nothing⟩
    | .short =>
        some ⟨{ st with size := if st.size > -2 then st.size - 1 else st.size }, 0, varg, .nothing⟩
    | .sizeZero => some ⟨{ st with size := 0 }, 0, varg, .nothing⟩
    | .plus => some ⟨{ st with showsign := true }, 0, varg, .nothing⟩
    | .space => some ⟨{ st with signspace := true }, 0, varg, .nothing⟩
    | .minus => some ⟨{ st with leftalign := true }, 0, varg, .nothing⟩
    | .zero => some ⟨{ st with padzeros := true }, 0, varg, .nothing⟩
    | .digit =>
        let (n, k) := getDec 0 (c :: format)
        some ⟨{ st with width := n % 256 }, k - 1, varg, .nothing⟩
    | .dot =>
        let (n, k) := getDec 0 format
        some ⟨{ st with precision := n % 256 }, k, varg, .nothing⟩
    | .decimal signed => intBody st 10 (!signed) false varg
    | .float => do
        let varg ← skipDouble varg
        return ⟨zeroAllVid, 0, varg, .nothing⟩
    | .hex upper => intBody st 16 true upper varg
    | .octal => intBody st 8 true false varg
    | .str =>
        if st.size > 0 then do
          let (s, varg) ← vaWcharPtr varg
          return ⟨zeroAllVid, 0, varg, .wide s⟩
        else do
          let (s, varg) ← vaCharPtr varg
          return ⟨zeroAllVid, 0, varg, .str s⟩
    | .chr => do
        let (v, varg) ← vaInt varg
        return ⟨zeroAllVid, 0, varg, .chr v⟩
    | .ptr => do
        -- the specification goes on behind it
        let (temp, varg) ← vaInt varg
        return ⟨st, 0, varg, .int (st.intArgs (u32 temp) 16 true true)⟩
    | .count => do
        let (_, varg) ← vaInt varg
        return ⟨zeroAllVid, 0, varg, .nothing⟩
    | .other => some ⟨st, 0, varg, .nothing⟩

/-- `print`: the stores, and the value returned. -/
def print (maxlen : Nat) : Nat → SpecState → PrintOut → CString → List PrintArg →
    Option (List (Nat × UInt8) × Int)
  | _, _, o, [], _ => some (o.stores ++ [(o.out, 0)], i32 (u32 o.nchars))
  | skip + 1, st, o, _ :: format, varg => print maxlen skip st o format varg
  | 0, st, o, c :: format, varg =>
      if maxlen ≤ o.nchars then
        some (o.stores ++ [(o.out + (maxlen - 1), 0)], i32 (u32 maxlen))
      else do
        let x ← printBody st c format varg
        let o ← x.conv.run o
        print maxlen x.skip x.state o format x.varg

def snprintf (size : Nat) (format : CString) (varg : List PrintArg) :
    Option (List (Nat × UInt8) × Int) :=
  print size 0 zeroAllVid ⟨[], 0, 0⟩ format varg

/-! ## What is asked of it -/

/-- The conversions a format asks for, in the order they are carried out. -/
def convs : Nat → SpecState → CString → List PrintArg → Option (List Conv)
  | _, _, [], _ => some []
  | skip + 1, st, _ :: format, varg => convs skip st format varg
  | 0, st, c :: format, varg => do
      let x ← printBody st c format varg
      let cs ← convs x.skip x.state format x.varg
      return x.conv :: cs

/-- The byte at an offset after the stores. -/
def stored (stores : List (Nat × UInt8)) (init : Nat → UInt8) (k : Nat) : UInt8 :=
  lastWrite (fun w => w.1 = k) Prod.snd stores (init k)

/-- The bound is kept, there is a terminator, and a text that fits is there, with
its length returned, whatever the buffer held. -/
def SnprintfRight (size : Nat) (text : List UInt8) (stores : List (Nat × UInt8)) (ret : Int) :
    Prop :=
  (∀ w ∈ stores, w.1 < size) ∧ ∀ init : Nat → UInt8,
    (∃ k < size, stored stores init k = 0) ∧
    (text.length < size → (∀ i (hi : i < text.length), stored stores init i = text[i]) ∧
      stored stores init text.length = 0 ∧ ret = text.length)

/-! ## One conversion -/

namespace IntArgs

def digits (a : IntArgs) : List Nat := digitsOf a.base a.magnitude

def text (a : IntArgs) : List UInt8 :=
  a.sign ++ List.replicate (a.pad - a.digits.length) (if a.padzero then 48 else 32) ++
    a.digits.map (digitByte a.upper)

/-- What `print` gives `print_int`. -/
def Ok (a : IntArgs) : Prop := 8 ≤ a.base ∧ a.base ≤ 16 ∧ a.num < 4294967296

theorem signCount_eq (a : IntArgs) : a.signCount = a.sign.length := by
  unfold signCount sign neg
  cases a.u <;> cases a.num.testBit 31 <;> cases a.possign <;> cases a.posspace <;> rfl

/-- With padding the value returned is one too many. -/
theorem printInt_eq {a : IntArgs} (h : a.Ok) :
    printInt a = some (a.text, a.text.length + if a.digits.length < a.pad then 1 else 0) := by
  obtain ⟨hb, hb16, hnum⟩ := h
  have hmag : a.magnitude < 4294967296 := by
    unfold magnitude
    split
    · exact Nat.mod_lt _ (by decide)
    · exact hnum
  have hroom : (Nat.digits a.base a.magnitude).length ≤ 16 := by
    rw [Nat.digits_length_le_iff (by omega)]
    calc a.magnitude < 8 ^ 16 := by omega
      _ ≤ a.base ^ 16 := Nat.pow_le_pow_left hb 16
  have hans := ansLoop_eq a.upper (by omega) hb16 hroom
  have hlen : a.text.length = a.sign.length + max a.pad a.digits.length := by
    simp only [text, List.length_append, List.length_replicate, List.length_map]
    omega
  simp only [printInt, hans, Option.bind_eq_bind, Option.bind_some, ans_eq, signCount_eq]
  rw [List.length_reverse, List.length_map, List.reverse_reverse,
    show digitsOf a.base a.magnitude = a.digits from rfl]
  by_cases hpad : a.digits.length < a.pad
  · rw [if_pos hpad, if_pos hpad, hlen, Nat.add_comm a.sign.length]
    rfl
  · have hmax : max a.pad a.digits.length = a.digits.length := by omega
    have htext : a.text = a.sign ++ a.digits.map (digitByte a.upper) := by
      rw [text, Nat.sub_eq_zero_of_le (Nat.le_of_not_lt hpad), List.replicate_zero,
        List.append_nil]
    rw [if_neg hpad, if_neg hpad, hlen, hmax, Nat.add_zero, Nat.add_comm a.sign.length, htext]
    rfl

end IntArgs

namespace Conv

/-- The text of a conversion. -/
def text : Conv → List UInt8
  | nothing => []
  | plain c => [c.val]
  | int a => a.text
  | str s => s.map Subtype.val
  | wide s => s.map UInt8.ofNat
  | chr v => [UInt8.ofNat v]

/-- What is stored for it. -/
def bytes : Conv → List UInt8
  | wide s => putWide (wideBytes s)
  | c => c.text

/-- What is counted on top of the text: 1 for a padded number or a wide string. -/
def slip : Conv → Nat
  | int a => if a.digits.length < a.pad then 1 else 0
  | wide _ => 1
  | _ => 0

/-- How far `out` is moved. -/
def move : Conv → Nat
  | int a => a.text.length + if a.digits.length < a.pad then 1 else 0
  | c => c.bytes.length

/-- How much of the buffer it takes, by the lengths of the text and of what is
stored of a wide string. -/
def room : Conv → Nat
  | wide s => wideStored s
  | c => c.text.length + c.slip

def Ok : Conv → Prop
  | int a => a.Ok
  | wide s => ∀ w ∈ s, 0 < w ∧ w < 65536
  | _ => True

def after (o : PrintOut) (c : Conv) : PrintOut :=
  ⟨o.stores ++ storesAt o.out c.bytes, o.out + c.move, u64 (o.nchars + (c.text.length + c.slip))⟩

theorem wcslen_eq (s : List Nat) : wcslen s = s.length + 1 := by
  induction s with
  | nil => rfl
  | cons w s ih => rw [wcslen, ih, List.length_cons]

theorem run_eq {c : Conv} (h : c.Ok) (o : PrintOut) (hn : u64 o.nchars = o.nchars) :
    c.run o = some (c.after o) := by
  cases c with
  | nothing => simp [run, after, text, bytes, move, slip, storesAt, hn]
  | plain c => simp [run, after, text, bytes, move, slip, storesAt]
  | int a => simp [run, IntArgs.printInt_eq h, after, text, bytes, move, slip]
  | str s => simp [run, after, text, bytes, move, slip]
  | wide s => simp [run, after, text, bytes, move, slip, wcslen_eq]
  | chr v => simp [run, after, text, bytes, move, slip, storesAt]

end Conv

theorem intBody_ok {st : SpecState} {base : Nat} {u upper : Bool} {varg : List PrintArg}
    {x : SpecBody} (hb : 8 ≤ base) (hb16 : base ≤ 16)
    (h : intBody st base u upper varg = some x) : x.conv.Ok := by
  rw [intBody, Option.bind_eq_bind] at h
  obtain ⟨⟨temp, rest⟩, -, h⟩ := Option.bind_eq_some_iff.mp h
  cases h
  refine ⟨hb, hb16, ?_⟩
  simp only [SpecState.intArgs, u32]
  split
  · omega
  · split <;> omega

theorem vaWcharPtr_ok {varg rest : List PrintArg} {s : List Nat}
    (h : vaWcharPtr varg = some (s, rest)) : (Conv.wide s).Ok := by
  unfold vaWcharPtr at h
  split at h
  · split at h
    · cases h
      assumption
    · cases h
  · cases h

theorem printBody_ok {st : SpecState} {c : CChar} {format : CString} {varg : List PrintArg}
    {x : SpecBody} (h : printBody st c format varg = some x) : x.conv.Ok := by
  rw [printBody] at h
  split at h
  · split at h <;> cases h <;> trivial
  · generalize fmtChar c = label at h
    cases label with
    | decimal | hex | octal => exact intBody_ok (by decide) (by decide) h
    | ptr =>
        obtain ⟨⟨temp, rest⟩, -, h⟩ := Option.bind_eq_some_iff.mp h
        cases h
        exact ⟨by simp [SpecState.intArgs], by simp [SpecState.intArgs],
          Nat.mod_lt _ (by decide)⟩
    | str =>
        simp only at h
        split at h
        · obtain ⟨⟨s, rest⟩, hs, h⟩ := Option.bind_eq_some_iff.mp h
          cases h
          exact vaWcharPtr_ok hs
        · obtain ⟨_, _, h⟩ := Option.bind_eq_some_iff.mp h
          cases h
          trivial
    | float | chr | count =>
        obtain ⟨_, _, h⟩ := Option.bind_eq_some_iff.mp h
        cases h
        trivial
    | _ =>
        cases h
        trivial

/-! ## The loop carries them out -/

/-- The conversions before the bound is met, for a count to start from. -/
def carriedOut (maxlen : Nat) : Nat → List Conv → List Conv
  | _, [] => []
  | nchars, c :: cs =>
      if maxlen ≤ nchars then []
      else c :: carriedOut maxlen (u64 (nchars + (c.text.length + c.slip))) cs

/-- The terminator, at the end or where the bound is met. -/
def finish (maxlen : Nat) (met : Bool) (o : PrintOut) : List (Nat × UInt8) × Int :=
  if met then (o.stores ++ [(o.out + (maxlen - 1), 0)], i32 (u32 maxlen))
  else (o.stores ++ [(o.out, 0)], i32 (u32 o.nchars))

/-- Whether the bound is met before the format ends. -/
def boundMet (maxlen nchars : Nat) (cs : List Conv) : Bool :=
  decide ((carriedOut maxlen nchars cs).length < cs.length)

theorem convs_cons_eq_some {st : SpecState} {c : CChar} {format : CString}
    {varg : List PrintArg} {cs : List Conv} (h : convs 0 st (c :: format) varg = some cs) :
    ∃ x rest, printBody st c format varg = some x ∧
      convs x.skip x.state format x.varg = some rest ∧ cs = x.conv :: rest := by
  rw [convs, Option.bind_eq_bind] at h
  obtain ⟨x, hx, h⟩ := Option.bind_eq_some_iff.mp h
  obtain ⟨rest, hrest, h⟩ := Option.bind_eq_some_iff.mp h
  exact ⟨x, rest, hx, hrest, (Option.some.inj h).symm⟩

theorem print_eq {maxlen skip : Nat} {st : SpecState} {format : CString} {varg : List PrintArg}
    {cs : List Conv} (h : convs skip st format varg = some cs) {o : PrintOut}
    (hn : u64 o.nchars = o.nchars) :
    print maxlen skip st o format varg = some (finish maxlen (boundMet maxlen o.nchars cs)
      ((carriedOut maxlen o.nchars cs).foldl Conv.after o)) := by
  induction format generalizing skip st varg cs o with
  | nil => cases skip <;> cases h <;> rfl
  | cons c format ih =>
      cases skip with
      | succ skip => exact ih h hn
      | zero =>
          obtain ⟨x, cs, hx, hcs, rfl⟩ := convs_cons_eq_some h
          by_cases hmet : maxlen ≤ o.nchars
          · simp [print, carriedOut, boundMet, finish, hmet]
          · have hn' : u64 (x.conv.after o).nchars = (x.conv.after o).nchars := Nat.mod_mod _ _
            have hbound : boundMet maxlen o.nchars (x.conv :: cs) =
                boundMet maxlen (x.conv.after o).nchars cs := by
              rw [boundMet, carriedOut, if_neg hmet, List.length_cons, List.length_cons]
              exact decide_eq_decide.mpr Nat.succ_lt_succ_iff
            rw [print, if_neg hmet, hx, Option.bind_eq_bind, Option.bind_some,
              Conv.run_eq (printBody_ok hx) o hn, Option.bind_eq_bind, Option.bind_some,
              ih hcs hn', hbound, carriedOut, if_neg hmet, List.foldl_cons]
            rfl

/-! ## The text and the places -/

def textOf (cs : List Conv) : List UInt8 := cs.flatMap Conv.text

def slipOf (cs : List Conv) : Nat := (cs.map Conv.slip).sum

def moveOf (cs : List Conv) : Nat := (cs.map Conv.move).sum

theorem length_textOf_cons (c : Conv) (cs : List Conv) :
    (textOf (c :: cs)).length = c.text.length + (textOf cs).length := by
  rw [textOf, List.flatMap_cons, List.length_append, textOf]

theorem slipOf_cons (c : Conv) (cs : List Conv) : slipOf (c :: cs) = c.slip + slipOf cs :=
  List.sum_cons

theorem moveOf_cons (c : Conv) (cs : List Conv) : moveOf (c :: cs) = c.move + moveOf cs :=
  List.sum_cons

theorem storesAt_append (out : Nat) (bytes more : List UInt8) :
    storesAt out (bytes ++ more) = storesAt out bytes ++ storesAt (out + bytes.length) more := by
  induction bytes generalizing out with
  | nil => rfl
  | cons b bytes ih =>
      rw [List.cons_append, storesAt, ih, storesAt, List.length_cons, List.cons_append]
      congr 3
      omega

theorem mem_storesAt {out : Nat} {bytes : List UInt8} {w : Nat × UInt8} :
    w ∈ storesAt out bytes ↔ ∃ i, bytes[i]? = some w.2 ∧ w.1 = out + i := by
  induction bytes generalizing out with
  | nil => simp [storesAt]
  | cons b bytes ih =>
      rw [storesAt, List.mem_cons, ih]
      constructor
      · rintro (rfl | ⟨i, hi, hw⟩)
        · exact ⟨0, rfl, rfl⟩
        · exact ⟨i + 1, hi, by omega⟩
      · rintro ⟨i, hi, hw⟩
        cases i with
        | zero =>
            rw [List.getElem?_cons_zero] at hi
            exact Or.inl (Prod.ext hw (Option.some.inj hi).symm)
        | succ i => exact Or.inr ⟨i, hi, by omega⟩

theorem Conv.length_bytes_le (c : Conv) : c.bytes.length ≤ c.move := by
  cases c with
  | int a => exact Nat.le_add_right _ _
  | _ => exact Nat.le_refl _

/-- A conversion without a slip stores its text. -/
theorem Conv.bytes_of_slip {c : Conv} (h : c.slip = 0) :
    c.bytes = c.text ∧ c.move = c.text.length := by
  cases c with
  | wide s => cases h
  | int a => exact ⟨rfl, congrArg (a.text.length + ·) h⟩
  | _ => exact ⟨rfl, rfl⟩

theorem Conv.slip_le (c : Conv) : c.slip ≤ 1 := by
  cases c with
  | int a =>
      rw [slip]
      split <;> decide
  | wide s => exact Nat.le_refl 1
  | _ => exact Nat.zero_le 1

/-- The places after some conversions. -/
theorem foldl_after (cs : List Conv) (o : PrintOut) :
    (cs.foldl Conv.after o).out = o.out + moveOf cs ∧
      (u64 o.nchars = o.nchars → (cs.foldl Conv.after o).nchars =
        u64 (o.nchars + ((textOf cs).length + slipOf cs))) := by
  induction cs generalizing o with
  | nil => exact ⟨rfl, fun hn => by simpa [textOf, slipOf] using hn.symm⟩
  | cons c cs ih =>
      obtain ⟨hout, hcount⟩ := ih (c.after o)
      rw [List.foldl_cons]
      refine ⟨?_, fun hn => ?_⟩
      · rw [hout, Conv.after, moveOf_cons, Nat.add_assoc]
      · rw [hcount (Nat.mod_mod _ _), length_textOf_cons, slipOf_cons]
        simp only [Conv.after, u64]
        omega

/-- Nothing is stored from `out` on. -/
theorem foldl_after_stores (cs : List Conv) {o : PrintOut} (h : ∀ w ∈ o.stores, w.1 < o.out) :
    ∀ w ∈ (cs.foldl Conv.after o).stores, w.1 < (cs.foldl Conv.after o).out := by
  induction cs generalizing o with
  | nil => exact h
  | cons c cs ih =>
      rw [List.foldl_cons]
      refine ih fun w hw => ?_
      have hle := c.length_bytes_le
      simp only [Conv.after] at hw ⊢
      rcases List.mem_append.mp hw with hw | hw
      · have := h w hw
        omega
      · obtain ⟨i, hi, hw⟩ := mem_storesAt.mp hw
        have := (List.getElem?_eq_some_iff.mp hi).1
        omega

/-- Where nothing is padded or wide, all of a text that fits is stored. -/
theorem run_text {size : Nat} (hsize : size < 18446744073709551616) {cs : List Conv}
    (hslip : ∀ c ∈ cs, c.slip = 0) (done : List UInt8)
    (hfit : done.length + (textOf cs).length < size) :
    carriedOut size done.length cs = cs ∧
      cs.foldl Conv.after ⟨storesAt 0 done, done.length, done.length⟩ =
        ⟨storesAt 0 (done ++ textOf cs), (done ++ textOf cs).length,
          (done ++ textOf cs).length⟩ := by
  induction cs generalizing done with
  | nil => simp [carriedOut, textOf]
  | cons c cs ih =>
      have hc := hslip c List.mem_cons_self
      obtain ⟨hbytes, hmove⟩ := Conv.bytes_of_slip hc
      rw [length_textOf_cons] at hfit
      have hcount : u64 (done.length + (c.text.length + c.slip)) = (done ++ c.text).length := by
        rw [hc, Nat.add_zero, u64, Nat.mod_eq_of_lt (by omega), List.length_append]
      obtain ⟨hall, hrun⟩ := ih (fun c hc => hslip c (List.mem_cons_of_mem _ hc)) (done ++ c.text)
        (by rw [List.length_append]; omega)
      constructor
      · rw [carriedOut, if_neg (by omega), hcount, hall]
      · have hstored : storesAt 0 done ++ storesAt done.length c.text =
            storesAt 0 (done ++ c.text) := by
          rw [storesAt_append, Nat.zero_add]
        rw [List.foldl_cons, Conv.after, hcount, hbytes, hmove, hstored, ← List.length_append,
          hrun, textOf, textOf, List.flatMap_cons, List.append_assoc]

theorem carriedOut_initial (maxlen nchars : Nat) (cs : List Conv) :
    carriedOut maxlen nchars cs <+: cs := by
  induction cs generalizing nchars with
  | nil => exact List.prefix_refl []
  | cons c cs ih =>
      rw [carriedOut]
      split
      · exact List.nil_prefix
      · exact List.cons_prefix_cons.mpr ⟨rfl, ih _⟩

theorem carriedOut_all {maxlen nchars : Nat} {cs : List Conv}
    (h : boundMet maxlen nchars cs = false) : carriedOut maxlen nchars cs = cs := by
  have hpre := carriedOut_initial maxlen nchars cs
  have hlen : ¬ (carriedOut maxlen nchars cs).length < cs.length := of_decide_eq_false h
  exact hpre.eq_of_length (Nat.le_antisymm hpre.length_le (Nat.le_of_not_lt hlen))

theorem slipOf_le (cs : List Conv) : slipOf cs ≤ cs.length := by
  induction cs with
  | nil => exact Nat.le_refl 0
  | cons c cs ih =>
      have hc := c.slip_le
      rw [slipOf_cons, List.length_cons]
      omega

theorem length_convs_le {skip : Nat} {st : SpecState} {format : CString} {varg : List PrintArg}
    {cs : List Conv} (h : convs skip st format varg = some cs) : cs.length ≤ format.length := by
  induction format generalizing skip st varg cs with
  | nil => cases skip <;> cases h <;> exact Nat.le_refl 0
  | cons c format ih =>
      cases skip with
      | succ skip => exact Nat.le_succ_of_le (ih h)
      | zero =>
          obtain ⟨x, cs, -, hcs, rfl⟩ := convs_cons_eq_some h
          exact Nat.succ_le_succ (ih hcs)

theorem convs_ok {skip : Nat} {st : SpecState} {format : CString} {varg : List PrintArg}
    {cs : List Conv} (h : convs skip st format varg = some cs) : ∀ c ∈ cs, c.Ok := by
  induction format generalizing skip st varg cs with
  | nil => cases skip <;> cases h <;> exact nofun
  | cons c format ih =>
      cases skip with
      | succ skip => exact ih h
      | zero =>
          obtain ⟨x, cs, hx, hcs, rfl⟩ := convs_cons_eq_some h
          exact List.forall_mem_cons.mpr ⟨printBody_ok hx, ih hcs⟩

/-! ## The bound -/

/-- Where the terminator is stored. -/
def terminatorAt (size : Nat) (cs : List Conv) : Nat :=
  moveOf (carriedOut size 0 cs) + if boundMet size 0 cs then size - 1 else 0

/-- The text is shorter than the buffer, no number is padded and no string wide,
and its length is an `int`. -/
def Fits (size : Nat) (cs : List Conv) : Prop :=
  (textOf cs).length < size ∧ slipOf cs = 0 ∧ (textOf cs).length < 2147483648

def roomOf (cs : List Conv) : Nat := (cs.map Conv.room).sum

/-- `nchars` after some conversions. -/
def countOf (cs : List Conv) : Nat := u64 ((textOf cs).length + slipOf cs)

/-- The text is not, but what is stored of its wide strings is: `size` of them
are empty and come before anything else, or the count stays below `size` until
the last conversion and all of them take less than the buffer. -/
def Short (size : Nat) (cs : List Conv) : Prop :=
  size ≤ (textOf cs).length ∧
    ((∃ pre, pre <+: cs ∧ size ≤ slipOf pre ∧ roomOf pre = 0) ∨
      (∀ pre, pre <+: cs → pre ≠ cs → countOf pre < size) ∧ roomOf cs < size)

instance (size : Nat) (cs : List Conv) : Decidable (Fits size cs) :=
  inferInstanceAs (Decidable (_ ∧ _ ∧ _))

theorem stored_last (stores : List (Nat × UInt8)) (out : Nat) (b : UInt8) (init : Nat → UInt8)
    (k : Nat) : stored (stores ++ [(out, b)]) init k =
      if out = k then b else stored stores init k := by
  rw [stored, lastWrite, List.foldl_append]
  rfl

/-- Of bytes stored once each, all are found. -/
theorem stored_storesAt {text : List UInt8} (init : Nat → UInt8) {i : Nat} (hi : i < text.length) :
    stored (storesAt 0 text) init i = text[i] := by
  refine lastWrite_of_mem ⟨(i, text[i]), mem_storesAt.mpr ⟨i, ?_, by simp⟩, rfl⟩ ?_
  · exact List.getElem?_eq_getElem hi
  · intro w hw hwi
    obtain ⟨j, hj, hwj⟩ := mem_storesAt.mp hw
    obtain rfl : j = i := by omega
    exact (List.getElem?_eq_some_iff.mp hj).2.symm

section Run

variable {size : Nat} {format : CString} {varg : List PrintArg} {cs : List Conv}

/-- What a call stores: nothing from `out` on, and then the terminator. -/
theorem snprintf_eq (hmatch : convs 0 zeroAllVid format varg = some cs) :
    ∃ stores, snprintf size format varg = some (stores ++ [(terminatorAt size cs, 0)],
        i32 (u32 (if boundMet size 0 cs then size else
          u64 ((textOf (carriedOut size 0 cs)).length + slipOf (carriedOut size 0 cs))))) ∧
      ∀ w ∈ stores, w.1 < moveOf (carriedOut size 0 cs) := by
  have hrun := @print_eq size 0 zeroAllVid format varg cs hmatch ⟨[], 0, 0⟩ rfl
  obtain ⟨hout, hcount⟩ := foldl_after (carriedOut size 0 cs) ⟨[], 0, 0⟩
  have hstores := foldl_after_stores (carriedOut size 0 cs) (o := ⟨[], 0, 0⟩) nofun
  have hcount := hcount rfl
  simp only [Nat.zero_add] at hout hcount
  generalize (carriedOut size 0 cs).foldl Conv.after ⟨[], 0, 0⟩ = o at hrun hout hcount hstores
  refine ⟨o.stores, ?_, fun w hw => by have := hstores w hw; omega⟩
  rw [snprintf, hrun, finish, terminatorAt]
  split <;> simp [hout, hcount]

/-- At the bound the count has reached it. -/
theorem count_of_boundMet {nchars : Nat} (hn : u64 nchars = nchars)
    (h : boundMet size nchars cs = true) :
    size ≤ u64 (nchars + ((textOf (carriedOut size nchars cs)).length +
      slipOf (carriedOut size nchars cs))) := by
  induction cs generalizing nchars with
  | nil => cases h
  | cons c cs ih =>
      by_cases hmet : size ≤ nchars
      · rw [carriedOut, if_pos hmet]
        simpa [textOf, slipOf, hn] using hmet
      · rw [boundMet, carriedOut, if_neg hmet] at h
        have hrest := ih (Nat.mod_mod _ _) (decide_eq_true (Nat.succ_lt_succ_iff.mp
          (of_decide_eq_true h)))
        rw [carriedOut, if_neg hmet, length_textOf_cons, slipOf_cons]
        simp only [u64] at hrest ⊢
        omega

/-- The loop goes no further than to where the count has reached the bound. -/
theorem carriedOut_prefix {nchars : Nat} {pre : List Conv} (hn : u64 nchars = nchars)
    (hpre : pre <+: cs) (h : size ≤ u64 (nchars + ((textOf pre).length + slipOf pre))) :
    carriedOut size nchars cs <+: pre := by
  induction cs generalizing nchars pre with
  | nil => exact List.nil_prefix
  | cons c cs ih =>
      by_cases hmet : size ≤ nchars
      · rw [carriedOut, if_pos hmet]
        exact List.nil_prefix
      · cases pre with
        | nil => exact absurd (by simpa [textOf, slipOf, hn] using h) hmet
        | cons c' pre =>
            obtain ⟨rfl, hrest⟩ := List.cons_prefix_cons.mp hpre
            rw [carriedOut, if_neg hmet]
            refine List.cons_prefix_cons.mpr ⟨rfl, ih (Nat.mod_mod _ _) hrest ?_⟩
            rw [length_textOf_cons, slipOf_cons] at h
            simp only [u64] at h ⊢
            omega

theorem Conv.move_eq {c : Conv} (h : c.Ok) : c.move = c.room := by
  cases c with
  | wide s => exact length_putWide h
  | _ => rfl

theorem moveOf_eq_room (h : ∀ c ∈ cs, c.Ok) : moveOf cs = roomOf cs := by
  rw [moveOf, roomOf, List.map_congr_left fun c hc => Conv.move_eq (h c hc)]

theorem Conv.text_of_room {c : Conv} (h : c.room = 0) : c.text = [] := by
  cases c with
  | wide s =>
      cases s with
      | nil => rfl
      | cons w s =>
          rw [room, wideStored] at h
          split at h <;> omega
  | _ => exact List.eq_nil_of_length_eq_zero (Nat.eq_zero_of_add_eq_zero_right h)

theorem textOf_of_room {pre : List Conv} (h : roomOf pre = 0) : textOf pre = [] :=
  List.flatMap_eq_nil_iff.mpr fun _ hc => Conv.text_of_room
    (List.sum_eq_zero_iff_forall_eq_nat.mp h _ (List.mem_map_of_mem hc))

/-- Behind a prefix that takes no room, and counts to the bound, there is more of a
text as long as the buffer, so that the loop does not get to the end. -/
theorem boundMet_of_empty (hsize : 0 < size) (hlong : size ≤ (textOf cs).length)
    {pre : List Conv} (hpre : pre <+: cs) (hempty : roomOf pre = 0)
    (h : carriedOut size 0 cs <+: pre) : boundMet size 0 cs = true := by
  refine decide_eq_true (Nat.lt_of_le_of_ne (h.trans hpre).length_le fun hall => ?_)
  have hcs : pre = cs := hpre.eq_of_length (Nat.le_antisymm hpre.length_le (hall ▸ h.length_le))
  rw [← hcs, textOf_of_room hempty, List.length_nil] at hlong
  omega

/-- **A terminator in the buffer, by lengths.** At the bound it is `size - 1` behind
`out`, so `out` has not been moved. -/
theorem short_iff (hsize : 0 < size) (hlen : format.length < 4294967296)
    (hmatch : convs 0 zeroAllVid format varg = some cs) :
    Short size cs ↔ size ≤ (textOf cs).length ∧ terminatorAt size cs < size := by
  refine and_congr_right fun hlong => ?_
  have hok := convs_ok hmatch
  have hdone := carriedOut_initial size 0 cs
  have hreach : ∀ pre, pre <+: cs → size ≤ slipOf pre → roomOf pre = 0 →
      carriedOut size 0 cs <+: pre := by
    intro pre hpre hslip hempty
    have hle := slipOf_le pre
    have hconvs := length_convs_le hmatch
    have hpart := hpre.length_le
    refine carriedOut_prefix rfl hpre ?_
    rw [textOf_of_room hempty, List.length_nil, u64]
    omega
  rw [terminatorAt, moveOf_eq_room fun c hc => hok c (hdone.subset hc)]
  cases hmet : boundMet size 0 cs with
  | true =>
      have hcount := count_of_boundMet rfl hmet
      have hmore : carriedOut size 0 cs ≠ cs := fun hall => by
        rw [boundMet, hall] at hmet
        simp at hmet
      rw [if_pos rfl]
      constructor
      · rintro (⟨pre, hpre, hslip, hempty⟩ | ⟨hbelow, -⟩)
        · -- what is carried out is part of what takes no room
          obtain ⟨rest, rfl⟩ := hreach pre hpre hslip hempty
          rw [roomOf, List.map_append, List.sum_append] at hempty
          rw [roomOf]
          omega
        · have := hbelow _ hdone hmore
          rw [countOf] at this
          rw [Nat.zero_add] at hcount
          omega
      · intro hterm
        have hempty : roomOf (carriedOut size 0 cs) = 0 := by omega
        refine Or.inl ⟨_, hdone, ?_, hempty⟩
        rw [textOf_of_room hempty, List.length_nil, Nat.zero_add, Nat.zero_add] at hcount
        exact Nat.le_trans hcount (Nat.mod_le _ _)
  | false =>
      have hall := carriedOut_all hmet
      rw [if_neg Bool.false_ne_true, Nat.add_zero, hall]
      constructor
      · rintro (⟨pre, hpre, hslip, hempty⟩ | ⟨-, hroom⟩)
        · have := boundMet_of_empty hsize hlong hpre hempty (hreach pre hpre hslip hempty)
          rw [hmet] at this
          cases this
        · exact hroom
      · refine fun hterm => Or.inr ⟨fun pre hpre hne => ?_, hterm⟩
        by_contra hcount
        have hreached : size ≤ u64 (0 + ((textOf pre).length + slipOf pre)) := by
          rw [Nat.zero_add]
          exact Nat.le_of_not_lt hcount
        have hcs := carriedOut_prefix rfl hpre hreached
        rw [hall] at hcs
        exact hne (hpre.eq_of_length (Nat.le_antisymm hpre.length_le hcs.length_le))

/-- A buffer that holds the text gets it. -/
theorem right_of_fits (hmax : size < 18446744073709551616)
    (hmatch : convs 0 zeroAllVid format varg = some cs) (h : Fits size cs) :
    ∃ stores ret, snprintf size format varg = some (stores, ret) ∧
      SnprintfRight size (textOf cs) stores ret := by
  obtain ⟨hfit, hslip, hint⟩ := h
  have hnone : ∀ c ∈ cs, c.slip = 0 := fun c hc =>
    List.sum_eq_zero_iff_forall_eq_nat.mp hslip _ (List.mem_map_of_mem hc)
  obtain ⟨hall, hrun⟩ := run_text hmax hnone [] (by simpa using hfit)
  have hprint := @print_eq size 0 zeroAllVid format varg cs hmatch ⟨[], 0, 0⟩ rfl
  have hmet : boundMet size 0 cs = false := by
    rw [boundMet, show carriedOut size 0 cs = cs from hall]
    simp
  rw [hmet, show carriedOut size 0 cs = cs from hall, show
    cs.foldl Conv.after ⟨[], 0, 0⟩ = _ from hrun, List.nil_append] at hprint
  refine ⟨_, _, hprint, ?_, fun init => ⟨⟨(textOf cs).length, hfit, ?_⟩, fun _ => ⟨?_, ?_, ?_⟩⟩⟩
  · intro w hw
    rcases List.mem_append.mp hw with hw | hw
    · obtain ⟨i, hi, hw⟩ := mem_storesAt.mp hw
      have := (List.getElem?_eq_some_iff.mp hi).1
      omega
    · rw [List.mem_singleton.mp hw]
      exact hfit
  · rw [stored_last, if_pos rfl]
  · intro i hi
    rw [stored_last, if_neg (by simp only; omega), stored_storesAt init hi]
  · rw [stored_last, if_pos rfl]
  · exact (i32_u32_eq_iff (textOf cs).length 0).mpr ⟨rfl, hint⟩

theorem right_of_short (hsize : 0 < size) (hlen : format.length < 4294967296)
    (hmatch : convs 0 zeroAllVid format varg = some cs) (h : Short size cs) :
    ∃ stores ret, snprintf size format varg = some (stores, ret) ∧
      SnprintfRight size (textOf cs) stores ret := by
  obtain ⟨hlong, hterm⟩ := (short_iff hsize hlen hmatch).mp h
  obtain ⟨stores, hrun, hstores⟩ := @snprintf_eq size format varg cs hmatch
  refine ⟨_, _, hrun, ?_, fun init => ⟨⟨terminatorAt size cs, hterm, ?_⟩, fun hfit => ?_⟩⟩
  · intro w hw
    rcases List.mem_append.mp hw with hw | hw
    · have hle : moveOf (carriedOut size 0 cs) ≤ terminatorAt size cs := Nat.le_add_right _ _
      have := hstores w hw
      omega
    · rw [List.mem_singleton.mp hw]
      exact hterm
  · rw [stored_last, if_pos rfl]
  · omega

theorem fits_or_short_of_right (hsize : 0 < size) (hlen : format.length < 4294967296)
    (hmatch : convs 0 zeroAllVid format varg = some cs) {stores : List (Nat × UInt8)} {ret : Int}
    (hrun : snprintf size format varg = some (stores, ret))
    (h : SnprintfRight size (textOf cs) stores ret) : Fits size cs ∨ Short size cs := by
  obtain ⟨hbound, hright⟩ := h
  obtain ⟨pre, hrun', hpre⟩ := @snprintf_eq size format varg cs hmatch
  rw [hrun] at hrun'
  cases hrun'
  have hterm : terminatorAt size cs < size :=
    hbound (terminatorAt size cs, 0) (List.mem_append_right _ List.mem_cons_self)
  by_cases hfit : (textOf cs).length < size
  · obtain ⟨-, hend, hret⟩ := (hright fun _ => 1).2 hfit
    cases hmet : boundMet size 0 cs with
    | true =>
        -- only the terminator is stored, at the end of the buffer
        rw [terminatorAt, hmet, if_pos rfl] at hterm
        have hnil : pre = [] := List.eq_nil_iff_forall_not_mem.mpr fun w hw => by
          have := hpre w hw
          omega
        rw [hnil, stored_last] at hend
        have hat : terminatorAt size cs = (textOf cs).length := by
          by_contra hne
          rw [if_neg hne] at hend
          exact absurd hend (show (1 : UInt8) ≠ 0 by decide)
        rw [terminatorAt, hmet, if_pos rfl] at hat
        rw [hmet, if_pos rfl, i32, u32] at hret
        split at hret <;> omega
    | false =>
        rw [hmet, carriedOut_all hmet] at hret
        have hslip := slipOf_le cs
        have hconvs := length_convs_le hmatch
        have hmod : u32 (u64 ((textOf cs).length + slipOf cs)) =
            u32 ((textOf cs).length + slipOf cs) := by
          rw [u32, u64, u32]
          omega
        rw [if_neg Bool.false_ne_true, hmod] at hret
        obtain ⟨hzero, hint⟩ := (i32_u32_eq_iff _ _).mp hret
        exact Or.inl ⟨hfit, by omega, hint⟩
  · exact Or.inr ((short_iff hsize hlen hmatch).mpr ⟨Nat.le_of_not_lt hfit, hterm⟩)

theorem moveOf_eq (h : ∀ s, Conv.wide s ∉ cs) : moveOf cs = (textOf cs).length + slipOf cs := by
  induction cs with
  | nil => rfl
  | cons c cs ih =>
      have hc : c.move = c.text.length + c.slip := by
        cases c with
        | wide s => exact absurd List.mem_cons_self (h s)
        | _ => rfl
      have ih := ih fun s hs => h s (List.mem_cons_of_mem _ hs)
      rw [moveOf_cons, length_textOf_cons, slipOf_cons]
      omega

/-- This takes a wide string. -/
theorem not_short_of_no_wide (hsize : 0 < size) (hlen : format.length < 4294967296)
    (hmatch : convs 0 zeroAllVid format varg = some cs) (h : ∀ s, Conv.wide s ∉ cs) :
    ¬ Short size cs := by
  intro hshort
  obtain ⟨hlong, hterm⟩ := (short_iff hsize hlen hmatch).mp hshort
  have hpre := moveOf_eq fun s hs => h s ((carriedOut_initial size 0 cs).subset hs)
  rw [terminatorAt] at hterm
  cases hmet : boundMet size 0 cs with
  | true =>
      have hcount := count_of_boundMet rfl hmet
      rw [hmet, if_pos rfl] at hterm
      rw [u64] at hcount
      omega
  | false =>
      rw [carriedOut_all hmet] at hterm hpre
      omega

end Run

/-- **`snprintf` keeps to its buffer exactly when the text fits** and neither
padding nor a wide string makes it count more than it puts out. A format fits
the address space. -/
theorem snprintf_right_iff {size : Nat} {format : CString} {varg : List PrintArg}
    {cs : List Conv} (hsize : 0 < size) (hmax : size < 18446744073709551616)
    (hlen : format.length < 4294967296) (hmatch : convs 0 zeroAllVid format varg = some cs) :
    (∃ stores ret, snprintf size format varg = some (stores, ret) ∧
      SnprintfRight size (textOf cs) stores ret) ↔ Fits size cs ∨ Short size cs := by
  constructor
  · rintro ⟨stores, ret, hrun, h⟩
    exact fits_or_short_of_right hsize hlen hmatch hrun h
  · rintro (h | h)
    · exact right_of_fits hmax hmatch h
    · exact right_of_short hsize hlen hmatch h

/-- `"%d"` with 12, in four bytes. -/
theorem snprintf_right_int :
    ∃ stores ret, snprintf 4 (CString.ofBytes [37, 100]) [.word 12] = some (stores, ret) ∧
      SnprintfRight 4 [49, 50] stores ret := by
  have hmatch : convs 0 zeroAllVid (CString.ofBytes [37, 100]) [.word 12] =
      some [.nothing, .int ⟨12, 10, false, 0, false, false, false, false⟩] := rfl
  have hfits : Fits 4 [.nothing, .int ⟨12, 10, false, 0, false, false, false, false⟩] := by
    decide
  have htext : textOf [.nothing, .int ⟨12, 10, false, 0, false, false, false, false⟩] =
      [49, 50] := by decide
  rw [← htext]
  exact (snprintf_right_iff (by decide) (by decide) (by decide) hmatch).mpr (Or.inl hfits)

/-- `"a"` in one byte is cut off with a terminator behind the buffer. -/
theorem snprintf_wrong_on_one_byte :
    ¬ ∀ size format varg cs, 0 < size → size < 18446744073709551616 →
      format.length < 4294967296 → convs 0 zeroAllVid format varg = some cs →
      (∀ v, Conv.chr v ∈ cs → UInt8.ofNat v ≠ 0) →
      ∃ stores ret, snprintf size format varg = some (stores, ret) ∧
        SnprintfRight size (textOf cs) stores ret := by
  intro hall
  have hrun : snprintf 1 (CString.ofBytes [97]) [] = some ([(0, 97), (1, 0)], 1) := by decide
  obtain ⟨stores, ret, h, hbound, -⟩ :=
    hall 1 (CString.ofBytes [97]) [] _ (by decide) (by decide) (by decide) rfl (by simp)
  rw [hrun] at h
  cases h
  exact absurd (hbound (1, 0) (by simp)) (by decide)

end UserPrint

end LambdaOs
