import LambdaOs.Lz77
import LambdaOs.LzoSafe

/-!
# Decompressing an lzop file

`lzop_decompress` of `crypto/comp/lzop.c`. A file has a header, some parts of
which are there or not as its flags say, and blocks, each with the sizes of
its data before and after compression, checksums as the flags say, and the
data. A size of zero ends the blocks.

The function goes over the blocks twice: `lzopSize` adds up their sizes for
the buffer and `lzopBlocks` fills it. The first takes every block to have one
checksum, which the second does not, and that a block came out shorter than it
says is not returned: the `ret` that is set lives in the branch only.
-/

namespace LambdaOs

def lzopMagic : List UInt8 := [0x89, 0x4c, 0x5a, 0x4f, 0x00, 0x0d, 0x0a, 0x1a, 0x0a]

def lzopFlagsUncompUseAdler32 : Nat := 1
def lzopFlagsCompUseAdler32 : Nat := 2
def lzopFlagsHasExtraField : Nat := 64
def lzopFlagsUncompUseCrc32 : Nat := 256
def lzopFlagsCompUseCrc32 : Nat := 512
def lzopFlagsHasFilter : Nat := 2048

/-- Blocks have a checksum of the uncompressed data. -/
def HasUncompCheck (flags : Nat) : Prop :=
  flags &&& (lzopFlagsUncompUseAdler32 ||| lzopFlagsUncompUseCrc32) ≠ 0

/-- Compressed blocks have a checksum of the compressed data. -/
def HasCompCheck (flags : Nat) : Prop :=
  flags &&& (lzopFlagsCompUseAdler32 ||| lzopFlagsCompUseCrc32) ≠ 0

instance (flags : Nat) : Decidable (HasUncompCheck flags) := inferInstanceAs (Decidable (_ ≠ _))
instance (flags : Nat) : Decidable (HasCompCheck flags) := inferInstanceAs (Decidable (_ ≠ _))

/-! ## Reading -/

def be16At (a : Nat) : LzoProg Nat := do
  let b₀ ← inByte a
  let b₁ ← inByte (u32 (a + 1))
  return 256 * b₀ + b₁

def be32At (a : Nat) : LzoProg Nat := do
  let hi ← be16At a
  let lo ← be16At (u32 (a + 2))
  return 65536 * hi + lo

/-- `memcmp` with a constant: whether there is no difference. -/
def bytesAre (a : Nat) : List UInt8 → LzoProg Bool
  | [] => return true
  | b :: bs => do
      if (← inByte a) = b.toNat then bytesAre (u32 (a + 1)) bs else return false

/-- The flags, and the pointer to the first block. -/
def lzopHeader (input : Nat) : LzoProg (Nat × Nat) := do
  let inb := u32 (input + lzopMagic.length)
  let version ← be16At inb
  -- library version, version needed, method
  let inb := u32 (inb + 7)
  let inb := if version ≥ 0x0940 then u32 (inb + 1) else inb
  let flags ← be32At inb
  let inb := u32 (inb + 4)
  let inb := if flags &&& lzopFlagsHasFilter ≠ 0 then u32 (inb + 4) else inb
  -- mode, mtime
  let inb := u32 (inb + 12)
  let filenameLen ← inByte inb
  let inb := u32 (inb + (1 + filenameLen))
  let inb := u32 (inb + 4)
  if flags &&& lzopFlagsHasExtraField ≠ 0 then
    let len ← be32At inb
    return (flags, u32 (inb + (len + 8)))
  else return (flags, inb)

/-! ## The two passes -/

/-- The first pass from `ptr` on, behind `outputLen` bytes. -/
def lzopSize (inEnd : Nat) : Nat → Nat → Nat → LzoProg Nat
  | 0, _, _ => .stop .fuel
  | fuel + 1, ptr, outputLen => do
      if ptr < inEnd then
        let sz ← be32At ptr
        if sz = 0 then return outputLen
        else
          let ptr := u32 (ptr + 4)
          let csz ← be32At ptr
          lzopSize inEnd fuel (u32 (ptr + (csz + 8))) (u32 (outputLen + sz))
      else return outputLen

/-- A call with words for arguments. -/
def lzoCall (input inputLen output outputLen : Nat) : LzoCall :=
  ⟨u32 input, u32 inputLen, u32 output, u32 outputLen, u32_lt _, u32_lt _, u32_lt _, u32_lt _⟩

/-- Behind the sizes of a block: `none`, or the error to return. -/
def lzopBlock (inb outb outSz inSz : Nat) : LzoProg (Option Int) := do
  if outSz = inSz then
    copyBytes .input outb inb 0 inSz
    return none
  else
    match ← (lzo1xDecompressBlock (lzoCall inb inSz outb outSz)).attempt with
    | .error (.ret err) => return some err
    | .error .fuel => .stop .fuel
    -- where the size differs `ret` is set, and not looked at again
    | .ok _ => return none

/-- The second pass: what is returned. -/
def lzopBlocks (flags inEnd : Nat) : Nat → Nat → Nat → LzoProg Int
  | 0, _, _ => .stop .fuel
  | fuel + 1, inb, outb => do
      if inb < inEnd then
        let outSz ← be32At inb
        let inb := u32 (inb + 4)
        if outSz = 0 then return 0
        else
          let inSz ← be32At inb
          let inb := u32 (inb + 4)
          let inb := if HasUncompCheck flags then u32 (inb + 4) else inb
          -- the other checksum is there when the data is compressed
          let inb := if outSz ≠ inSz ∧ HasCompCheck flags then u32 (inb + 4) else inb
          match ← lzopBlock inb outb outSz inSz with
          | some err => return err
          | none => lzopBlocks flags inEnd fuel (u32 (inb + inSz)) (u32 (outb + outSz))
      else return 0

/-- What is returned, and `*output` and `*output_len` where they are set. -/
structure LzopResult where
  ret : Int
  buffer : Option (Nat × Nat)
deriving Repr, DecidableEq

/-- `kmalloc` is the pointer for a size; `fuel` bounds the blocks that either
pass looks at. -/
def lzopDecompress (kmalloc : Nat → Nat) (fuel input inputLen : Nat) : LzoProg LzopResult := do
  if inputLen < lzopMagic.length then return ⟨-EUNSPEC, none⟩
  if (← bytesAre input lzopMagic) = false then return ⟨-EUNSPEC, none⟩
  let (flags, inb) ← lzopHeader input
  let inEnd := u32 (input + inputLen)
  let outputLen ← lzopSize inEnd fuel inb 0
  let output := kmalloc outputLen
  if output = 0 then return ⟨-ENOMEM, some (0, outputLen)⟩
  let ret ← lzopBlocks flags inEnd fuel inb output
  if ret = 0 then return ⟨0, some (output, outputLen)⟩
  else return ⟨ret, some (0, 0)⟩

/-! ## Files -/

/-- A number of bytes. -/
abbrev Bytes (n : Nat) := { bs : List UInt8 // bs.length = n }

def be16 (n : Nat) : List UInt8 := [UInt8.ofNat (n / 256), UInt8.ofNat (n % 256)]

def be32 (n : Nat) : List UInt8 := be16 (n / 65536) ++ be16 (n % 65536)

/-- A block: its size without compression, checksums, of which a file holds
those that its flags say, and data. -/
structure LzopBlock where
  size : Nat
  check : Bytes 4
  compCheck : Bytes 4
  data : List UInt8
  size_pos : 0 < size
  size_lt : size < 4294967296

/-- A structurally complete file. -/
structure LzopFile where
  version : Nat
  libraryAndMethod : Bytes 5
  level : UInt8
  flags : Nat
  filter : Bytes 4
  modeAndTime : Bytes 12
  filename : List UInt8
  check : Bytes 4
  extra : List UInt8
  extraCheck : Bytes 4
  blocks : List LzopBlock
  version_lt : version < 65536
  flags_lt : flags < 4294967296
  filename_lt : filename.length < 256

namespace LzopBlock

variable (flags : Nat) (b : LzopBlock)

/-- The data is not compressed. -/
def Stored : Prop := b.data.length = b.size

instance : Decidable b.Stored := inferInstanceAs (Decidable (_ = _))

def checks : List UInt8 :=
  (if HasUncompCheck flags then b.check.val else []) ++
    (if ¬ b.Stored ∧ HasCompCheck flags then b.compCheck.val else [])

def encode : List UInt8 := be32 b.size ++ (be32 b.data.length ++ (b.checks flags ++ b.data))

end LzopBlock

namespace LzopFile

variable (f : LzopFile)

def encodeBlocks : List UInt8 := f.blocks.flatMap (·.encode f.flags) ++ be32 0

def encodeExtra : List UInt8 :=
  if f.flags &&& lzopFlagsHasExtraField ≠ 0 then
    be32 f.extra.length ++ (f.extra ++ f.extraCheck.val)
  else []

/-- From the flags on. -/
def encodeFlags : List UInt8 :=
  be32 f.flags ++ ((if f.flags &&& lzopFlagsHasFilter ≠ 0 then f.filter.val else []) ++
    (f.modeAndTime.val ++ ((UInt8.ofNat f.filename.length :: f.filename) ++
      (f.check.val ++ (f.encodeExtra ++ f.encodeBlocks)))))

def encode : List UInt8 :=
  lzopMagic ++ (be16 f.version ++ (f.libraryAndMethod.val ++
    ((if f.version ≥ 0x0940 then [f.level] else []) ++ f.encodeFlags)))

/-- What the blocks take without compression. -/
def total : Nat := (f.blocks.map LzopBlock.size).sum

end LzopFile

end LambdaOs
