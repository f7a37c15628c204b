import LambdaOs.FsNames
import LambdaOs.Lzop

/-!
# The initial file system

`fs/initrd.c`: `initrd_mount` goes over the records of a CPIO archive in
memory, in the old binary format, and adds a file to the tree for each, up to
the record called `TRAILER!!!`. A record has a header of 26 bytes, a name that
ends in a zero byte, and data, both filled up to an even length; 32-bit
numbers are two 16-bit ones, the high one first. The name is split into the
directory, which is looked up in the tree that is being built, and the last
component.

The files are opened and read where they lie in the archive. The calls of
`kmalloc` for the file structures are given as what they return (`Grant`).
-/

namespace LambdaOs

/-! ## Reading -/

def le16At (m : Nat → UInt8) (a : Nat) : Nat := (m a).toNat + 256 * (m (u32 (a + 1))).toNat

def le32At (m : Nat → UInt8) (a : Nat) : Nat := le16At m a + 65536 * le16At m (u32 (a + 2))

/-- `CPIO2LE` -/
def cpio2le (x : Nat) : Nat := u32 (x <<< 16) ||| (x >>> 16)

/-- What is read of a `struct header_old_cpio`. -/
structure CpioHeader where
  magic : Nat
  mode : Nat
  uid : Nat
  gid : Nat
  mtime : Nat
  namesize : Nat
  filesize : Nat
deriving Repr, DecidableEq

def cpioHeaderSize : Nat := 26

def cpioHeaderAt (m : Nat → UInt8) (a : Nat) : CpioHeader where
  magic := le16At m a
  mode := le16At m (u32 (a + 6))
  uid := le16At m (u32 (a + 8))
  gid := le16At m (u32 (a + 10))
  mtime := le32At m (u32 (a + 16))
  namesize := le16At m (u32 (a + 20))
  filesize := le32At m (u32 (a + 22))

/-- The string at `a`, or its first `n` characters. -/
def strAt (m : Nat → UInt8) (a : Nat) : Nat → CString
  | 0 => []
  | n + 1 => if h : m a ≠ 0 then ⟨m a, h⟩ :: strAt m (u32 (a + 1)) n else []

def cpioMagic : Nat := 0o070707

/-- `TRAILER!!!` -/
def trailerName : CString :=
  [⟨84, by decide⟩, ⟨82, by decide⟩, ⟨65, by decide⟩, ⟨73, by decide⟩, ⟨76, by decide⟩,
    ⟨69, by decide⟩, ⟨82, by decide⟩, ⟨33, by decide⟩, ⟨33, by decide⟩, ⟨33, by decide⟩]

def fileNameMax : Nat := 256

/-! ## Directory and name -/

/-- The loop of `dirname` and `basename`: `p2` as an index. -/
def lastSlash : Nat → Option Nat → CString → Option Nat
  | _, p2, [] => p2
  | i, p2, c :: path => lastSlash (i + 1) (if c = slash then some i else p2) path

def dirname (path : CString) : CString :=
  match lastSlash 0 none path with
  | none => [dot]
  | some i => path.take i

def basename (path : CString) : CString :=
  match lastSlash 0 none path with
  | none => path
  | some i => path.drop (i + 1)

/-! ## Files of an archive -/

def cpioModeSocket : Nat := 0o140000
def cpioModeSymlink : Nat := 0o120000
def cpioModeRegular : Nat := 0o100000
def cpioModeBlock : Nat := 0o060000
def cpioModeDirectory : Nat := 0o040000
def cpioModeChar : Nat := 0o020000
def cpioModePipe : Nat := 0o010000

def fsFile : Nat := 1
def fsDir : Nat := 2
def fsChardev : Nat := 4
def fsBlckdev : Nat := 8
def fsPipe : Nat := 16
def fsSymlink : Nat := 32

/-- The type of a file; there is no flag for a socket. -/
def modeFlags (mode : Nat) : Nat :=
  let type := mode &&& 0o170000
  if type = cpioModeSocket then 0
  else if type = cpioModeSymlink then fsSymlink
  else if type = cpioModeRegular then fsFile
  else if type = cpioModeBlock then fsBlckdev
  else if type = cpioModeDirectory then fsDir
  else if type = cpioModeChar then fsChardev
  else if type = cpioModePipe then fsPipe
  else 0

/-- The structure that is filled in for a record. -/
def cpioFile (h : CpioHeader) (name : CString) (impl data : Nat) : Kfile :=
  { blankFile with
    name := name
    length := cpio2le h.filesize
    impl := impl
    uid := h.uid
    gid := h.gid
    pflags := h.mode &&& 0o7777
    flags := modeFlags h.mode
    mtime := cpio2le h.mtime
    ctime := cpio2le h.mtime
    ops := .initrd
    info := data }

/-- A structure from `kmalloc`, and whether `tlock_init` finds memory for it. -/
structure Grant where
  file : Nat
  lock : Bool
deriving Repr, DecidableEq

/-- How `initrd_mount` ends. `stuck` is a list whose lock is held, or no fuel for
a lookup. -/
inductive MountEnd where
  | done
  | undecompressed
  | invalid
  | corrupt
  | panic
  | stuck
deriving Repr, DecidableEq

section Mount

variable (m : Nat → UInt8)

/-- The checks at the top of the loop. -/
def cpioEnd (cfile : Nat) : Option MountEnd :=
  if (cpioHeaderAt m cfile).magic ≠ cpioMagic then some .corrupt
  else if strcmp (strAt m (u32 (cfile + cpioHeaderSize)) (trailerName.length + 1)) trailerName = 0
  then some .done
  else none

/-- The rest of the loop: the file is added, and the pointer goes on. -/
def cpioEntry (fuel mnt cfile : Nat) (g : Grant) (s : FsState) : Option (FsState × Nat) := do
  let h := cpioHeaderAt m cfile
  let data := u32 (cfile + cpioHeaderSize + h.namesize + (h.namesize &&& 1))
  let filesize := cpio2le h.filesize
  let s := s.setFile g.file blankFile
  let fname := strAt m (u32 (cfile + cpioHeaderSize)) fileNameMax
  let dir ← fsFindFile s fuel mnt (dirname fname)
  let dir := if dir = 0 then s.fsRoot else dir
  let file := cpioFile h (basename fname) (s.files dir).inode data
  let (s, _) ← fsAddFile (s.setFile g.file file) g.file dir g.lock
  return (s, u32 (data + filesize + (filesize &&& 1)))

def cpioLoop (fuel mnt : Nat) : List Grant → Nat → FsState → MountEnd × FsState
  | [], cfile, s => ((cpioEnd m cfile).getD .panic, s)
  | g :: grants, cfile, s =>
      match cpioEnd m cfile with
      | some e => (e, s)
      | none =>
          if g.file = 0 then (.panic, s)
          else
            match cpioEntry m fuel mnt cfile g s with
            | none => (.stuck, s)
            | some (s, next) => cpioLoop fuel mnt grants next s

end Mount

/-- `"\x89LZO"` -/
def lzopStart : List UInt8 := lzopMagic.take 4

/-- The archive, decompressed where it is an lzop file, and the memory then. -/
def cpioArchive (kmalloc : Nat → Nat) (fuel initrd len : Nat) (m : Nat → UInt8) :
    Option Nat × (Nat → UInt8) :=
  match (bytesAre initrd lzopStart).exec m with
  | (.ok true, _) =>
      match (lzopDecompress kmalloc fuel initrd len).exec m with
      | (.ok ⟨ret, some (output, _)⟩, m) => (if ret = 0 then some output else none, m)
      | (_, m) => (none, m)
  | _ => (some initrd, m)

/-- How it ends, with the file system and the memory then. -/
def initrdMount (kmalloc : Nat → Nat) (fuel : Nat) (grants : List Grant) (mnt initrd len : Nat)
    (s : FsState) (m : Nat → UInt8) : MountEnd × FsState × (Nat → UInt8) :=
  match cpioArchive kmalloc fuel initrd len m with
  | (none, m) => (.undecompressed, s, m)
  | (some cpio, m) =>
      if (cpioHeaderAt m cpio).magic ≠ cpioMagic then (.invalid, s, m)
      else
        let (e, s) := cpioLoop m fuel mnt grants cpio s
        (e, s, m)

/-! ## Open files -/

def oflagsWrite : Nat := 2
def oflagsOpen : Nat := 0x80000000

/-- `struct kfile_hand`, less its lock; `ops` says whose operations it has. -/
structure KfileHand where
  openFlags : Nat
  ops : FileOps
  file : Nat
deriving Repr, DecidableEq

section Hand

variable (m : Nat → UInt8) (s : FsState)

/-- `fs_open`, with `_open` for the files of an archive: a link is followed.
`none` is no fuel. -/
def fsOpen : Nat → Nat → KfileHand → Option (Int × KfileHand)
  | 0, _, _ => none
  | fuel + 1, f, hand =>
      let k := s.files f
      if f = 0 ∨ hand.openFlags &&& oflagsOpen ≠ 0 then some (-EINVAL, hand)
      else
        match k.ops with
        | .null => some (0, { hand with openFlags := hand.openFlags ||| oflagsOpen, file := f })
        | .initrd =>
            if hand.openFlags &&& oflagsWrite ≠ 0 then some (-EROFS, hand)
            else if k.flags &&& fsSymlink ≠ 0 then
              match fsFindFile s fuel k.parent (strAt m k.info k.length) with
              | none => none
              | some link => if link ≠ 0 then fsOpen fuel link hand else some (-ENOENT, hand)
            else some (0, ⟨hand.openFlags ||| oflagsOpen, .initrd, f⟩)

/-- `fs_read`, with `_read` for the files of an archive: the bytes that are
copied. -/
def fsRead (hand : KfileHand) (off sz : Nat) : List UInt8 :=
  let k := s.files hand.file
  match hand.ops with
  | .null => []
  | .initrd =>
      if hand.file = 0 ∨ k.info = 0 then []
      else if k.length ≤ off then []
      else
        let len := if k.length < u32 (sz + off) then k.length - off else sz
        (List.range len).map fun i => m (u32 (k.info + off + i))

end Hand

end LambdaOs
