import LambdaOs.Errno
import LambdaOs.MemProg
import LambdaOs.Word

/-!
# Decompressing an LZO1X block

`_lzo1x_decompress_block` of `crypto/comp/lzop.c`, as a program over the bytes
of memory: pointers are 32-bit words, and the source may run on past the end
of its input. Every load of an input byte and of a byte that a match copies is
marked as such, and every length and distance is noted before it is cut to 32
bits.

The two labels of the source are the functions `copyVerbatim` and
`skipLookbehind`; `lzoFetch` is the loop's body up to the checks that precede
a copy. The bounds of the two loops are never reached: the input pointer comes
round, and every round writes (`lzo_ends`).
-/

namespace LambdaOs

/-- How the function ends when it does not return `0`. -/
inductive LzoStop where
  | ret (err : Int)
  | fuel
deriving Repr, DecidableEq

inductive LzoMark where
  | input
  | lookbehind (dist : Nat)
  | size (value : Nat)
deriving Repr, DecidableEq

abbrev LzoProg := MemProg LzoStop LzoMark UInt8

/-- The arguments, which are words. -/
structure LzoCall where
  input : Nat
  inputLen : Nat
  output : Nat
  outputLen : Nat
  input_lt : input < 4294967296
  inputLen_lt : inputLen < 4294967296
  output_lt : output < 4294967296
  outputLen_lt : outputLen < 4294967296
deriving Repr, DecidableEq

namespace LzoCall

variable (c : LzoCall)

def inEnd : Nat := u32 (c.input + c.inputLen)
def outEnd : Nat := u32 (c.output + c.outputLen)

end LzoCall

/-- The locals that live through a round of the loop. -/
structure LzoState where
  inb : Nat
  outb : Nat
  state : Nat
deriving Repr, DecidableEq

/-- `p - q` of pointers, as a `size_t`. -/
def ptrDiff (p q : Nat) : Nat := u32 (p + 4294967296 - q)

def max255Count : Nat := 4294967295 / 255 - 2

/-- The value of an expression of type `size_t`. -/
def sizeT (value : Nat) : LzoProg Nat := do
  MemProg.mark (.size value)
  return u32 value

/-- `*inb` -/
def inByte (inb : Nat) : LzoProg Nat := do
  let b ← MemProg.load .input inb
  return b.toNat

def unspec {α : Type} : LzoProg α := .stop (.ret (-EUNSPEC))

def checkLb (c : LzoCall) (outb lb : Nat) : LzoProg Unit :=
  if ptrDiff outb lb < c.output then unspec else pure ()

def checkOutLeft (c : LzoCall) (outb n : Nat) : LzoProg Unit :=
  if ptrDiff c.outEnd outb < n then unspec else pure ()

def checkInLeft (c : LzoCall) (inb n : Nat) : LzoProg Unit :=
  if ptrDiff c.inEnd inb < n then unspec else pure ()

/-- The loop of `SKIP_AND_COUNT_ZEROES`: the first byte that is not zero. -/
def skipZeroes (c : LzoCall) : Nat → Nat → LzoProg Nat
  | 0, _ => .stop .fuel
  | fuel + 1, inb => do
      if (← inByte inb) = 0 then
        checkInLeft c inb 1
        skipZeroes c fuel (u32 (inb + 1))
      else return inb

def skipAndCountZeroes (c : LzoCall) (pos : Nat) : LzoProg (Nat × Nat) := do
  let inb ← skipZeroes c 4294967296 pos
  let offset := ptrDiff inb pos
  if offset > max255Count then unspec
  let n ← sizeT (offset * 255)
  return (n, inb)

/-- `SKIP_AND_COUNT_ZEROES() + base + *inb++`, from the left to the right. -/
def extendedLen (c : LzoCall) (inb base : Nat) : LzoProg (Nat × Nat) := do
  let (n, inb) ← skipAndCountZeroes c inb
  let b ← inByte inb
  let len ← sizeT (n + base + b)
  return (len, u32 (inb + 1))

/-- `temp`, or `temp += ...` where the bits of the first byte are zero. -/
def matchLen (c : LzoCall) (inb temp base : Nat) : LzoProg (Nat × Nat) := do
  if temp = 2 then
    let (n, inb) ← extendedLen c inb base
    let temp ← sizeT (temp + n)
    return (temp, inb)
  else return (temp, inb)

/-- The `memcpy` of the file, from the byte `i` on. -/
def copyBytes (tag : LzoMark) (d s : Nat) : Nat → Nat → LzoProg Unit
  | _, 0 => return
  | i, n + 1 => do
      let b ← MemProg.load tag (u32 (s + i))
      MemProg.store (u32 (d + i)) b
      copyBytes tag d s (i + 1) n

/-- From `copy_verbatim` to `continue`. -/
def copyVerbatim (c : LzoCall) (inb outb temp : Nat) : LzoProg LzoState := do
  checkInLeft c inb (← sizeT (temp + 3))
  checkOutLeft c outb temp
  copyBytes .input outb inb 0 temp
  return ⟨u32 (inb + temp), u32 (outb + temp), 4⟩

/-- From `skip_lookbehind` to the end of the loop's body. -/
def skipLookbehind (c : LzoCall) (inb outb next : Nat) : LzoProg LzoState := do
  checkInLeft c inb (← sizeT (next + 3))
  checkOutLeft c outb next
  copyBytes .input outb inb 0 next
  return ⟨u32 (inb + next), u32 (outb + next), next⟩

/-- What an instruction asks for, with `inb` behind it. -/
inductive LzoFetch where
  | verbatim (inb temp : Nat)
  | lookbehind (inb dist temp next : Nat)
  | done (inb temp : Nat)

/-- `LE16(inb)` after its check. -/
def inLe16 (c : LzoCall) (inb : Nat) : LzoProg Nat := do
  checkInLeft c inb 2
  let lo ← inByte inb
  let hi ← inByte (u32 (inb + 1))
  return lo + 256 * hi

/-- A first byte below 16 in state `0`. -/
def fetchRun (c : LzoCall) (temp inb : Nat) : LzoProg LzoFetch := do
  let (temp, inb) ← if temp = 0 then extendedLen c inb 15 else pure (temp, inb)
  let temp ← sizeT (temp + 3)
  return .verbatim inb temp

/-- A first byte below 16 in another state: `len` bytes, from `base` on. -/
def fetchM1 (temp inb base len : Nat) : LzoProg LzoFetch := do
  let next := temp &&& 3
  let b ← inByte inb
  let lookbehind ← sizeT (base + (temp >>> 2) + (b <<< 2))
  return .lookbehind (u32 (inb + 1)) lookbehind len next

/-- A first byte below 32. -/
def fetchM4 (c : LzoCall) (temp inb : Nat) : LzoProg LzoFetch := do
  let lookbehind := (temp &&& 0x08) <<< 11
  let (temp, inb) ← matchLen c inb ((temp &&& 0x07) + 2) 7
  let next ← inLe16 c inb
  let lookbehind ← sizeT (lookbehind + (next >>> 2))
  if lookbehind = 0 then return .done (u32 (inb + 2)) temp
  let lookbehind ← sizeT (lookbehind + 0x4000)
  return .lookbehind (u32 (inb + 2)) lookbehind temp (next &&& 3)

/-- A first byte below 64. -/
def fetchM3 (c : LzoCall) (temp inb : Nat) : LzoProg LzoFetch := do
  let (temp, inb) ← matchLen c inb ((temp &&& 0x1f) + 2) 31
  let next ← inLe16 c inb
  let lookbehind ← sizeT (1 + (next >>> 2))
  return .lookbehind (u32 (inb + 2)) lookbehind temp (next &&& 3)

/-- The other first bytes. -/
def fetchM2 (temp inb : Nat) : LzoProg LzoFetch := do
  let b ← inByte inb
  let lookbehind ← sizeT (1 + ((temp >>> 2) &&& 7) + (b <<< 3))
  return .lookbehind (u32 (inb + 1)) lookbehind ((temp >>> 5) + 1) (temp &&& 3)

/-- The branches of the loop's body. -/
def fetchForm (c : LzoCall) (state temp inb : Nat) : LzoProg LzoFetch :=
  if temp < 16 then
    if state = 0 then fetchRun c temp inb
    else if state = 4 then fetchM1 temp inb (1 + 0x0800) 3
    else fetchM1 temp inb 1 2
  else if temp < 32 then fetchM4 c temp inb
  else if temp < 64 then fetchM3 c temp inb
  else fetchM2 temp inb

def lzoFetch (c : LzoCall) (inb state : Nat) : LzoProg LzoFetch := do
  let temp ← inByte inb
  fetchForm c state temp (u32 (inb + 1))

/-- What is left to do after a round. -/
inductive LzoNext where
  | more (s : LzoState)
  | done (inb outb temp : Nat)

/-- One round of the loop. -/
def lzoRound (c : LzoCall) (s : LzoState) : LzoProg LzoNext := do
  match ← lzoFetch c s.inb s.state with
  | .verbatim inb temp =>
      let s ← copyVerbatim c inb s.outb temp
      return .more s
  | .lookbehind inb dist temp next =>
      checkLb c s.outb dist
      checkOutLeft c s.outb temp
      copyBytes (.lookbehind dist) s.outb (ptrDiff s.outb dist) 0 temp
      let s ← skipLookbehind c inb (u32 (s.outb + temp)) next
      return .more s
  | .done inb temp => return .done inb s.outb temp

/-- The loop and what follows it: the value of `*output_len` behind `return 0`. -/
def lzoLoop (c : LzoCall) : Nat → LzoState → LzoProg Nat
  | 0, _ => .stop .fuel
  | rounds + 1, s => do
      match ← lzoRound c s with
      | .more s => lzoLoop c rounds s
      | .done inb outb temp =>
          if temp ≠ 3 ∨ inb < c.inEnd then unspec
          else return ptrDiff outb c.output

/-- Up to the loop: a first byte above 17 counts literals. -/
def lzoStart (c : LzoCall) : LzoProg LzoState := do
  if c.inputLen < 3 then unspec
  let b ← inByte c.input
  -- the run-length extension is not supported
  if b = 17 then unspec
  if b > 17 then
    let temp := b - 17
    if temp < 4 then skipLookbehind c (u32 (c.input + 1)) c.output temp
    else copyVerbatim c (u32 (c.input + 1)) c.output temp
  else return ⟨c.input, c.output, 0⟩

/-- The new `*output_len`. -/
def lzo1xDecompressBlock (c : LzoCall) : LzoProg Nat := do
  let s ← lzoStart c
  lzoLoop c 4294967296 s

end LambdaOs
