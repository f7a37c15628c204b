import Mathlib.Tactic.FinCases
import LambdaOs.Proc
import LambdaOs.Symlink

/-!
# Calls on descriptors

The calls of `fs/procfs.c` and `fs/stat.c` that a process makes on a
descriptor, and the calls of `fs/fs.c` behind them. A descriptor is an index
of `open_files` and `file_position`. Most calls check it in the same way
(`withHand`), with `>` where the tables end at `MAX_OPEN_FILES`, and with no
lower bound.

What a driver does is behind the function pointers of a handle; like the
scheduler it is a parameter, and may change everything.
`desc_call_validated_iff` says for each call which descriptors it handles as
it should.
-/

namespace LambdaOs

/-! ## State -/

/-- What a `struct kproc` has for each descriptor. -/
structure FileTable where
  openFiles : Fin maxOpenFiles → Nat
  filePosition : Fin maxOpenFiles → Nat

/-- `struct kfile_hand`, less its lock; `ops` is a pointer. -/
structure FileHand where
  openFlags : Nat
  ops : Nat
  file : Nat
deriving Repr, DecidableEq

/-- What the calls find and change. `thread` is the process of the current
thread, `0` when there is none. -/
structure FsKernel (δ : Type) where
  thread : Nat
  tables : Nat → FileTable
  hands : Nat → FileHand
  fs : FsState
  link : Nat → Nat
  mem : Nat → UInt8
  dev : δ

/-- `file_hand_ops_t`; `none` is a null pointer. -/
structure FileHandOps (σ : Type) where
  close : Option (Nat → σ → σ × Int)
  read : Option (Nat → Nat → Nat → Nat → σ → σ × Int)
  write : Option (Nat → Nat → Nat → Nat → σ → σ × Int)
  ioctl : Option (Nat → Int → Nat → σ → σ × Int)

/-- `file_ops_t`, less what opens a file. -/
structure FileDirOps (σ : Type) where
  mkdir : Option (Nat → Nat → Nat → σ → σ × Int)
  create : Option (Nat → Nat → Nat → σ → σ × Int)

/-- What is behind the calls. `handOps` is what is at an address, taken for a
table, and `nullOps` what is at address `0`. -/
structure Drivers (δ : Type) where
  handOps : Nat → FileHandOps (FsKernel δ)
  nullOps : FileDirOps (FsKernel δ)
  kfree : Nat → FsKernel δ → FsKernel δ
  runSched : FsKernel δ → FsKernel δ

/-- Where a call goes wrong: behind a table, or through an empty slot. -/
inductive DescFault where
  | outOfTable
  | nullSlot
  | unfinished
deriving Repr, DecidableEq

def oflagsNonblock : Nat := 0x80
def fsStream : Nat := 128

namespace FsKernel

variable {δ : Type}

/-- `open_files[desc]` -/
def slot (s : FsKernel δ) (p : Nat) (desc : Int) : Except DescFault Nat :=
  if h : 0 ≤ desc ∧ desc < maxOpenFiles then
    .ok ((s.tables p).openFiles ⟨desc.toNat, (Int.toNat_lt h.1).mpr h.2⟩)
  else .error .outOfTable

/-- `file_position[desc]` -/
def position (s : FsKernel δ) (p : Nat) (desc : Int) : Except DescFault Nat :=
  if h : 0 ≤ desc ∧ desc < maxOpenFiles then
    .ok ((s.tables p).filePosition ⟨desc.toNat, (Int.toNat_lt h.1).mpr h.2⟩)
  else .error .outOfTable

def setTable (s : FsKernel δ) (p : Nat) (t : FileTable) : FsKernel δ :=
  { s with tables := Function.update s.tables p t }

@[simp] theorem setTable_self {s : FsKernel δ} {p : Nat} {t : FileTable} :
    (s.setTable p t).tables p = t := Function.update_self ..

def setSlot (s : FsKernel δ) (p : Nat) (desc : Int) (hand : Nat) :
    Except DescFault (FsKernel δ) :=
  if h : 0 ≤ desc ∧ desc < maxOpenFiles then
    .ok (s.setTable p { s.tables p with
      openFiles := Function.update (s.tables p).openFiles
        ⟨desc.toNat, (Int.toNat_lt h.1).mpr h.2⟩ hand })
  else .error .outOfTable

def setPosition (s : FsKernel δ) (p : Nat) (desc : Int) (off : Nat) :
    Except DescFault (FsKernel δ) :=
  if h : 0 ≤ desc ∧ desc < maxOpenFiles then
    .ok (s.setTable p { s.tables p with
      filePosition := Function.update (s.tables p).filePosition
        ⟨desc.toNat, (Int.toNat_lt h.1).mpr h.2⟩ off })
  else .error .outOfTable

def setHand (s : FsKernel δ) (hand : Nat) (h : FileHand) : FsKernel δ :=
  { s with hands := Function.update s.hands hand h }

/-- The handle that a slot points to. -/
def deref (s : FsKernel δ) (hand : Nat) : Except DescFault FileHand :=
  if hand = 0 then .error .nullSlot else .ok (s.hands hand)

/-- The descriptor is one of an open file of the current process. -/
def IsOpen (s : FsKernel δ) (desc : Int) : Prop :=
  s.thread ≠ 0 ∧ ∃ hand, s.slot s.thread desc = .ok hand ∧ hand ≠ 0

end FsKernel

section Calls

variable {δ : Type} (K : Drivers δ)

/-! ## Calls on handles -/

def fsReadHand (hand off sz buff : Nat) (s : FsKernel δ) : FsKernel δ × Int :=
  if hand = 0 ∨ (s.hands hand).ops = 0 then (s, 0)
  else
    match (K.handOps (s.hands hand).ops).read with
    | some read => read hand off sz buff s
    | none => (s, 0)

def fsWriteHand (hand off sz buff : Nat) (s : FsKernel δ) : FsKernel δ × Int :=
  if hand = 0 ∨ (s.hands hand).ops = 0 then (s, 0)
  else
    match (K.handOps (s.hands hand).ops).write with
    | some write => write hand off sz buff s
    | none => (s, 0)

def fsCloseHand (hand : Nat) (s : FsKernel δ) : FsKernel δ × Int :=
  if hand = 0 then (s, -EINVAL)
  else
    let s :=
      match (K.handOps (s.hands hand).ops).close with
      | some close => if (s.hands hand).ops ≠ 0 then (close hand s).1 else s
      | none => s
    (s.setHand hand { s.hands hand with openFlags := 0 }, 0)

/-- A file with operations is refused: the check of `f->ops` is the wrong way
round. -/
def fsMkdir (f name perms : Nat) (s : FsKernel δ) : FsKernel δ × Int :=
  if f = 0 ∨ (s.fs.files f).ops ≠ .null then (s, -EINVAL)
  else
    match K.nullOps.mkdir with
    | some mkdir => mkdir f name perms s
    | none => (s, -EINVAL)

/-- As in `fs_mkdir`. -/
def fsCreate (f name perms : Nat) (s : FsKernel δ) : FsKernel δ × Int :=
  if f = 0 ∨ (s.fs.files f).ops ≠ .null then (s, -EINVAL)
  else
    match K.nullOps.create with
    | some create => create f name perms s
    | none => (s, -EINVAL)

/-- As in `fs_mkdir`. -/
def fsIoctl (hand : Nat) (req : Int) (args : Nat) (s : FsKernel δ) : FsKernel δ × Int :=
  if hand = 0 ∨ (s.hands hand).ops ≠ 0 then (s, -EINVAL)
  else
    match (K.handOps 0).ioctl with
    | some ioctl => ioctl hand req args s
    | none => (s, -EINVAL)

/-! ## Calls on descriptors -/

/-- How most calls begin: what they return for a descriptor that is too large,
without a thread, and for an empty slot. -/
def withHand (large noThread closed : Int) (desc : Int) (s : FsKernel δ)
    (call : Nat → Except DescFault (FsKernel δ × Int)) : Except DescFault (FsKernel δ × Int) :=
  if desc > maxOpenFiles then .ok (s, large)
  else if s.thread = 0 then .ok (s, noThread)
  else do
    let hand ← s.slot s.thread desc
    if hand ≠ 0 then call hand else return (s, closed)

def procFsRead (desc : Int) (off sz buff : Nat) (s : FsKernel δ) :
    Except DescFault (FsKernel δ × Int) :=
  withHand 0 0 0 desc s fun hand => do
    let (s, n) := fsReadHand K hand off sz buff s
    return (s, wordOf n)

/-- The loop over a stream. -/
def readBlkLoop (hand off sz buff : Nat) :
    Nat → Nat → FsKernel δ → Except DescFault (FsKernel δ × Int)
  | 0, _, _ => .error .unfinished
  | fuel + 1, count, s =>
      if count < sz then
        let (s, n) := fsReadHand K hand off (sz - count) (u32 (buff + count)) s
        let ret := wordOf n
        if ret > 0x80000000 then .ok (s, count)
        else readBlkLoop hand off sz buff fuel (u32 (count + ret)) (K.runSched s)
      else .ok (s, count)

/-- The read of a file that is no stream: from the position on, which it moves. -/
def readAtPosition (hand : Nat) (desc : Int) (sz buff : Nat) (s : FsKernel δ) :
    Except DescFault (FsKernel δ × Int) := do
  let process := s.thread
  let off ← s.position process desc
  let (s, n) := fsReadHand K hand off sz buff s
  let n := wordOf n
  let position ← s.position process desc
  let s ← s.setPosition process desc (u32 (position + n))
  return (s, n)

def procFsReadBlk (fuel : Nat) (desc : Int) (off sz buff : Nat) (s : FsKernel δ) :
    Except DescFault (FsKernel δ × Int) :=
  withHand 0 0 0 desc s fun hand =>
    let file := (s.hands hand).file
    if file ≠ 0 ∧ (s.fs.files file).flags &&& fsStream ≠ 0 ∧
        (s.hands hand).openFlags &&& oflagsNonblock = 0 then
      readBlkLoop K hand off sz buff fuel 0 s
    else readAtPosition K hand desc sz buff s

def procFsWrite (desc : Int) (off sz buff : Nat) (s : FsKernel δ) :
    Except DescFault (FsKernel δ × Int) :=
  withHand 0 (wordOf (-EUNSPEC)) 0 desc s fun hand => do
    let (s, n) := fsWriteHand K hand off sz buff s
    return (s, wordOf n)

def procFsClose (desc : Int) (s : FsKernel δ) : Except DescFault (FsKernel δ × Int) :=
  withHand (-EBADF) (-EUNSPEC) (-EBADF) desc s fun hand => do
    let process := s.thread
    let (s, _) := fsCloseHand K hand s
    let hand ← s.slot process desc
    let s ← (K.kfree hand s).setSlot process desc 0
    return (s, 0)

def procFsMkdir (desc : Int) (name perms : Nat) (s : FsKernel δ) :
    Except DescFault (FsKernel δ × Int) :=
  withHand (-EBADF) (-EUNSPEC) (-EBADF) desc s fun hand => do
    return fsMkdir K (s.hands hand).file name perms s

def procFsCreate (desc : Int) (name perms : Nat) (s : FsKernel δ) :
    Except DescFault (FsKernel δ × Int) :=
  withHand (-EBADF) (-EUNSPEC) (-EBADF) desc s fun hand => do
    return fsCreate K (s.hands hand).file name perms s

def procFsIoctl (desc req : Int) (args : Nat) (s : FsKernel δ) :
    Except DescFault (FsKernel δ × Int) :=
  withHand (-EBADF) (-EUNSPEC) (-EBADF) desc s fun hand => do
    return fsIoctl K hand req args s

/-- `struct dirinfo` -/
structure DirInfo where
  ino : Nat
  nChildren : Nat
  parentIno : Nat
  name : CString
deriving Repr, DecidableEq

/-- The return value, and what is stored to `*dinfo`. The slot is not looked at
before it is used. -/
def procFsGetdirinfo (fuel : Nat) (desc : Int) (dinfo : Nat) (s : FsKernel δ) :
    Except DescFault (Int × Option DirInfo) :=
  if desc > maxOpenFiles then .ok (-EBADF, none)
  else if dinfo = 0 then .ok (-EINVAL, none)
  else if s.thread = 0 then .ok (-EUNSPEC, none)
  else do
    let hand ← s.slot s.thread desc
    let h ← s.deref hand
    if h.file = 0 then return (0, none)
    else
      let k := s.fs.files h.file
      let parentIno := if k.parent ≠ 0 then (s.fs.files k.parent).inode else 0
      match llistCount fuel s.fs.items k.children with
      | none => .error .unfinished
      | some n => return (0, some ⟨k.inode, wordOf n, parentIno, k.name⟩)

/-- `struct user_dirent` -/
structure UserDirent where
  dIno : Nat
  dName : CString
deriving Repr, DecidableEq

def userDirentSize : Nat := 4

/-- The return value, and what is stored to `*buff`. -/
def procFsReaddir (fuel : Nat) (desc : Int) (idx buff buffSize : Nat) (s : FsKernel δ) :
    Except DescFault (Int × Option UserDirent) :=
  if desc > maxOpenFiles then .ok (-EBADF, none)
  else if buff = 0 then .ok (-EINVAL, none)
  else if buffSize = 0 then .ok (-EINVAL, none)
  else if s.thread = 0 then .ok (-EUNSPEC, none)
  else do
    let hand ← s.slot s.thread desc
    let h ← s.deref hand
    let f := h.file
    let entry (f : Nat) (name : CString) : Int × Option UserDirent :=
      (userDirentSize + name.length + 1, some ⟨(s.fs.files f).inode, name⟩)
    if f = 0 then return (-EBADF, none)
    else if idx = 0 then return entry f [dot]
    else if idx = 1 then
      let parent := (s.fs.files f).parent
      return entry (if parent ≠ 0 then parent else f) [dot, dot]
    else
      match llistGet fuel s.fs.items (s.fs.files f).children (idx - 2) with
      | none => .error .unfinished
      | some 0 => return (-EUNSPEC, none)
      | some child =>
          let f := (s.fs.items child).data
          return entry f (s.fs.files f).name

/-- The return value, and what is stored to `*buf`. -/
def fstat (fuel : Nat) (fd : Int) (buf : Nat) (s : FsKernel δ) :
    Except DescFault (Int × Option Kstat) :=
  if fd < 0 ∨ fd ≥ maxOpenFiles then .ok (-EBADF, none)
  else if s.thread = 0 then .ok (-EUNSPEC, none)
  else do
    let hand ← s.slot s.thread fd
    let h ← s.deref hand
    match kfstat s.fs s.link fuel h.file buf with
    | none => .error .unfinished
    | some r => return r

end Calls

/-- `proc_add_file` -/
def procAddFile {δ : Type} (p hand : Nat) (s : FsKernel δ) : FsKernel δ × Int :=
  match (List.finRange maxOpenFiles).find? fun i => (s.tables p).openFiles i = 0 with
  | some i =>
      (s.setTable p ⟨Function.update (s.tables p).openFiles i hand,
        Function.update (s.tables p).filePosition i 0⟩, i)
  | none => (s, -ENFILE)

/-! ## All of them -/

inductive DescCall where
  | read (off sz buff : Nat)
  | readBlk (off sz buff : Nat)
  | write (off sz buff : Nat)
  | close
  | mkdir (name perms : Nat)
  | create (name perms : Nat)
  | ioctl (req : Int) (args : Nat)
  | getdirinfo (dinfo : Nat)
  | readdir (idx buff buffSize : Nat)
  | fstat (buf : Nat)
deriving Repr, DecidableEq

/-- What a call stores where its argument points. -/
inductive Stored where
  | nothing
  | dirinfo (d : DirInfo)
  | dirent (d : UserDirent)
  | stat (k : Kstat)
deriving Repr, DecidableEq

section Run

variable {δ : Type} (K : Drivers δ)

def runDesc (fuel : Nat) (desc : Int) (s : FsKernel δ) :
    DescCall → Except DescFault (FsKernel δ × Int × Stored)
  | .read off sz buff => (procFsRead K desc off sz buff s).map fun (s, r) => (s, r, .nothing)
  | .readBlk off sz buff =>
      (procFsReadBlk K fuel desc off sz buff s).map fun (s, r) => (s, r, .nothing)
  | .write off sz buff => (procFsWrite K desc off sz buff s).map fun (s, r) => (s, r, .nothing)
  | .close => (procFsClose K desc s).map fun (s, r) => (s, r, .nothing)
  | .mkdir name perms => (procFsMkdir K desc name perms s).map fun (s, r) => (s, r, .nothing)
  | .create name perms => (procFsCreate K desc name perms s).map fun (s, r) => (s, r, .nothing)
  | .ioctl req args => (procFsIoctl K desc req args s).map fun (s, r) => (s, r, .nothing)
  | .getdirinfo dinfo =>
      (procFsGetdirinfo fuel desc dinfo s).map fun (r, d) => (s, r, d.elim .nothing .dirinfo)
  | .readdir idx buff buffSize =>
      (procFsReaddir fuel desc idx buff buffSize s).map fun (r, d) =>
        (s, r, d.elim .nothing .dirent)
  | .fstat buf => (fstat fuel desc buf s).map fun (r, k) => (s, r, k.elim .nothing .stat)

/-- The values that tell of an error. What reads and writes return is unsigned. -/
def DescCall.IsError : DescCall → Int → Prop
  | .read .., r => r = 0
  | .readBlk .., r => r = 0
  | .write .., r => r = 0 ∨ r = wordOf (-EUNSPEC)
  | _, r => r < 0

/-- The tables are indexed within their bounds, no empty slot is gone through,
and for a descriptor that is not open there is an error and nothing else. -/
structure Validated (desc : Int) (s : FsKernel δ) (isError : Int → Prop)
    (r : Except DescFault (FsKernel δ × Int × Stored)) : Prop where
  inTable : r ≠ .error .outOfTable
  noNull : r ≠ .error .nullSlot
  closed : ¬ s.IsOpen desc → ∃ ret, r = .ok (s, ret, .nothing) ∧ isError ret

/-- When a call handles its descriptor as it should. -/
def DescCall.Checked (desc : Int) (s : FsKernel δ) : DescCall → Prop
  | .getdirinfo dinfo => desc > maxOpenFiles ∨ dinfo = 0 ∨ s.thread = 0 ∨ s.IsOpen desc
  | .readdir _ buff buffSize =>
      desc > maxOpenFiles ∨ buff = 0 ∨ buffSize = 0 ∨ s.thread = 0 ∨ s.IsOpen desc
  | .fstat _ => desc < 0 ∨ desc ≥ maxOpenFiles ∨ s.thread = 0 ∨ s.IsOpen desc
  | _ => desc > maxOpenFiles ∨ s.thread = 0 ∨ 0 ≤ desc ∧ desc < maxOpenFiles

/-! ## One call -/

section Slot

variable {K} {s : FsKernel δ} {p : Nat} {desc : Int}

theorem slot_eq_ok (h : 0 ≤ desc ∧ desc < maxOpenFiles) : ∃ hand, s.slot p desc = .ok hand :=
  ⟨_, dif_pos h⟩

theorem slot_eq_error (h : ¬ (0 ≤ desc ∧ desc < maxOpenFiles)) :
    s.slot p desc = .error .outOfTable := dif_neg h

theorem slot_inTable {hand : Nat} (h : s.slot p desc = .ok hand) :
    0 ≤ desc ∧ desc < maxOpenFiles := by
  by_contra hout
  rw [slot_eq_error hout] at h
  cases h

/-- A descriptor within the tables. -/
theorem desc_fin (h : 0 ≤ desc ∧ desc < maxOpenFiles) :
    ∃ d : Fin maxOpenFiles, desc = (d : Int) :=
  ⟨⟨desc.toNat, (Int.toNat_lt h.1).mpr h.2⟩, (Int.toNat_of_nonneg h.1).symm⟩

theorem slot_fin (d : Fin maxOpenFiles) : s.slot p d = .ok ((s.tables p).openFiles d) :=
  dif_pos ⟨Int.natCast_nonneg _, Int.ofNat_lt.mpr d.isLt⟩

theorem position_fin (d : Fin maxOpenFiles) : s.position p d = .ok ((s.tables p).filePosition d) :=
  dif_pos ⟨Int.natCast_nonneg _, Int.ofNat_lt.mpr d.isLt⟩

theorem setPosition_fin (d : Fin maxOpenFiles) (off : Nat) :
    s.setPosition p d off = .ok (s.setTable p { s.tables p with
      filePosition := Function.update (s.tables p).filePosition d off }) :=
  dif_pos ⟨Int.natCast_nonneg _, Int.ofNat_lt.mpr d.isLt⟩

theorem setSlot_eq_ok (h : 0 ≤ desc ∧ desc < maxOpenFiles) (hand : Nat) :
    ∃ s', s.setSlot p desc hand = .ok s' := ⟨_, dif_pos h⟩

/-- A read at a position, as a whole. -/
theorem readAtPosition_fin (d : Fin maxOpenFiles) (hand sz buff : Nat) (s : FsKernel δ) :
    let r := fsReadHand K hand ((s.tables s.thread).filePosition d) sz buff s
    let t := r.1.tables s.thread
    readAtPosition K hand d sz buff s =
      .ok (r.1.setTable s.thread { t with
        filePosition := Function.update t.filePosition d (u32 (t.filePosition d + wordOf r.2)) },
        wordOf r.2) := by
  intro r t
  rw [readAtPosition]
  dsimp only
  rw [position_fin]
  change (do
    let position ← r.1.position s.thread d
    let s ← r.1.setPosition s.thread d (u32 (position + wordOf r.2))
    return (s, (wordOf r.2 : Int))) = _
  rw [position_fin]
  change (do
    let s ← r.1.setPosition s.thread d (u32 (t.filePosition d + wordOf r.2))
    return (s, (wordOf r.2 : Int))) = _
  rw [setPosition_fin]
  rfl

end Slot

/-- What a computation on an open descriptor must not do. -/
def NoFault {α : Type} (r : Except DescFault α) : Prop :=
  r ≠ .error .outOfTable ∧ r ≠ .error .nullSlot

theorem noFault_ok {α : Type} (a : α) : NoFault (.ok a : Except DescFault α) :=
  ⟨(by intro h; cases h), (by intro h; cases h)⟩

theorem noFault_unfinished {α : Type} : NoFault (.error .unfinished : Except DescFault α) :=
  ⟨(by intro h; cases h), (by intro h; cases h)⟩

theorem NoFault.map {α β : Type} {r : Except DescFault α} (h : NoFault r) (f : α → β) :
    NoFault (r.map f) := by
  cases r with
  | ok a => exact noFault_ok (f a)
  | error e =>
    cases e with
    | outOfTable => exact absurd rfl h.1
    | nullSlot => exact absurd rfl h.2
    | unfinished => exact noFault_unfinished

section Hand

variable {K} {s : FsKernel δ} {desc large noThread closed : Int} {isError : Int → Prop}
  {call : Nat → Except DescFault (FsKernel δ × Int)}

theorem validated_error {ret : Int} (h : isError ret) :
    Validated desc s isError (.ok (s, ret, .nothing)) :=
  ⟨(noFault_ok _).1, (noFault_ok _).2, fun _ => ⟨ret, rfl, h⟩⟩

theorem validated_open {r : Except DescFault (FsKernel δ × Int × Stored)} (hopen : s.IsOpen desc)
    (h : NoFault r) : Validated desc s isError r :=
  ⟨h.1, h.2, fun hclosed => absurd hopen hclosed⟩

/-- On an open descriptor there is the call. -/
theorem withHand_open {hand : Nat} (ht : s.thread ≠ 0) (hslot : s.slot s.thread desc = .ok hand)
    (hne : hand ≠ 0) : withHand large noThread closed desc s call = call hand := by
  have hin := slot_inTable hslot
  rw [withHand, if_neg (by omega), if_neg ht, hslot]
  change (if hand ≠ 0 then call hand else return (s, closed)) = call hand
  rw [if_pos hne]

/-- What a call that begins with the common check returned. -/
theorem withHand_ok {r : FsKernel δ × Int}
    (h : withHand large noThread closed desc s call = .ok r) :
    r.1 = s ∨ ∃ hand, s.slot s.thread desc = .ok hand ∧ hand ≠ 0 ∧ call hand = .ok r := by
  unfold withHand at h
  split at h
  · cases h
    exact .inl rfl
  · split at h
    · cases h
      exact .inl rfl
    · cases hslot : s.slot s.thread desc with
      | error e =>
        rw [hslot] at h
        cases h
      | ok hand =>
        rw [hslot] at h
        change (if hand ≠ 0 then call hand else return (s, closed)) = .ok r at h
        by_cases hne : hand ≠ 0
        · rw [if_pos hne] at h
          exact .inr ⟨hand, rfl, hne, h⟩
        · rw [if_neg hne] at h
          cases h
          exact .inl rfl

/-- The calls that begin with the common check. -/
theorem withHand_validated_iff (hlarge : isError large) (hthread : isError noThread)
    (hclosed : isError closed)
    (hcall : 0 ≤ desc ∧ desc < maxOpenFiles → ∀ hand, NoFault (call hand)) :
    Validated desc s isError
        ((withHand large noThread closed desc s call).map fun (s, r) => (s, r, .nothing)) ↔
      desc > maxOpenFiles ∨ s.thread = 0 ∨ 0 ≤ desc ∧ desc < maxOpenFiles := by
  unfold withHand
  by_cases hl : desc > maxOpenFiles
  · rw [if_pos hl]
    exact iff_of_true (validated_error hlarge) (.inl hl)
  · rw [if_neg hl]
    by_cases ht : s.thread = 0
    · rw [if_pos ht]
      exact iff_of_true (validated_error hthread) (.inr (.inl ht))
    · rw [if_neg ht]
      by_cases hin : 0 ≤ desc ∧ desc < maxOpenFiles
      · refine iff_of_true ?_ (.inr (.inr hin))
        obtain ⟨hand, hslot⟩ := slot_eq_ok (s := s) (p := s.thread) hin
        rw [hslot]
        change Validated desc s isError
          ((if hand ≠ 0 then call hand else pure (s, closed)).map _)
        by_cases hne : hand ≠ 0
        · rw [if_pos hne]
          exact validated_open ⟨ht, hand, hslot, hne⟩ ((hcall hin hand).map _)
        · rw [if_neg hne]
          exact validated_error hclosed
      · refine iff_of_false (fun h => ?_) (by tauto)
        rw [slot_eq_error hin] at h
        exact h.inTable rfl

/-- The calls that go through the slot without a look at it. -/
theorem deref_validated_iff {α : Type} {use : FileHand → Except DescFault α}
    {f : α → FsKernel δ × Int × Stored} (ht : s.thread ≠ 0) (huse : ∀ h, NoFault (use h)) :
    Validated desc s isError
        ((do let hand ← s.slot s.thread desc; let h ← s.deref hand; use h).map f) ↔
      s.IsOpen desc := by
  by_cases hin : 0 ≤ desc ∧ desc < maxOpenFiles
  · obtain ⟨hand, hslot⟩ := slot_eq_ok (s := s) (p := s.thread) hin
    by_cases hne : hand = 0
    · refine iff_of_false (fun h => ?_) ?_
      · rw [hslot, hne] at h
        exact h.noNull rfl
      · rintro ⟨-, hand', hslot', hne'⟩
        rw [hslot] at hslot'
        exact hne' ((Except.ok.inj hslot').symm.trans hne)
    · have hopen : s.IsOpen desc := ⟨ht, hand, hslot, hne⟩
      have hderef : s.deref hand = .ok (s.hands hand) := if_neg hne
      refine iff_of_true (validated_open hopen ?_) hopen
      rw [hslot]
      change NoFault ((s.deref hand >>= use).map f)
      rw [hderef]
      exact (huse _).map f
  · refine iff_of_false (fun h => ?_) ?_
    · rw [slot_eq_error hin] at h
      exact h.inTable rfl
    · rintro ⟨-, hand, hslot, -⟩
      exact hin (slot_inTable hslot)

end Hand

/-! ## Every call -/

section Every

variable {s : FsKernel δ} {desc : Int}

theorem readBlkLoop_noFault (hand off sz buff fuel count : Nat) (s : FsKernel δ) :
    NoFault (readBlkLoop K hand off sz buff fuel count s) := by
  induction fuel generalizing count s with
  | zero => exact noFault_unfinished
  | succ fuel ih =>
    unfold readBlkLoop
    dsimp only
    split
    · split
      · exact noFault_ok _
      · exact ih _ _
    · exact noFault_ok _

theorem readAtPosition_noFault (hin : 0 ≤ desc ∧ desc < maxOpenFiles) (hand sz buff : Nat) :
    NoFault (readAtPosition K hand desc sz buff s) := by
  obtain ⟨d, rfl⟩ := desc_fin hin
  rw [readAtPosition_fin]
  exact noFault_ok _

theorem procFsClose_noFault (hin : 0 ≤ desc ∧ desc < maxOpenFiles) (hand : Nat) :
    NoFault (do
      let process := s.thread
      let (s, _) := fsCloseHand K hand s
      let hand ← s.slot process desc
      let s ← (K.kfree hand s).setSlot process desc 0
      return (s, (0 : Int)) : Except DescFault (FsKernel δ × Int)) := by
  change NoFault (((fsCloseHand K hand s).1.slot s.thread desc) >>= _)
  obtain ⟨hand', hslot⟩ := slot_eq_ok (s := (fsCloseHand K hand s).1) (p := s.thread) hin
  rw [hslot]
  obtain ⟨s', hset⟩ := setSlot_eq_ok (s := K.kfree hand' (fsCloseHand K hand s).1) (p := s.thread)
    hin 0
  change NoFault (((K.kfree hand' (fsCloseHand K hand s).1).setSlot s.thread desc 0) >>= _)
  rw [hset]
  exact noFault_ok _

theorem runDesc_validated_iff (fuel : Nat) (c : DescCall) :
    Validated desc s c.IsError (runDesc K fuel desc s c) ↔ c.Checked desc s := by
  have hebadf : -EBADF < 0 := by decide
  have heinval : -EINVAL < 0 := by decide
  have heunspec : -EUNSPEC < 0 := by decide
  cases c with
  | read off sz buff =>
    exact withHand_validated_iff rfl rfl rfl fun _ _ => noFault_ok _
  | readBlk off sz buff =>
    refine withHand_validated_iff rfl rfl rfl fun hin hand => ?_
    dsimp only
    split
    · exact readBlkLoop_noFault K _ _ _ _ _ _ _
    · exact readAtPosition_noFault K hin hand sz buff
  | write off sz buff =>
    exact withHand_validated_iff (.inl rfl) (.inr rfl) (.inl rfl) fun _ _ => noFault_ok _
  | close =>
    exact withHand_validated_iff hebadf heunspec hebadf fun hin hand =>
      procFsClose_noFault K hin hand
  | mkdir name perms =>
    exact withHand_validated_iff hebadf heunspec hebadf fun _ _ => noFault_ok _
  | create name perms =>
    exact withHand_validated_iff hebadf heunspec hebadf fun _ _ => noFault_ok _
  | ioctl req args =>
    exact withHand_validated_iff hebadf heunspec hebadf fun _ _ => noFault_ok _
  | getdirinfo dinfo =>
    change Validated desc s _ ((procFsGetdirinfo fuel desc dinfo s).map _) ↔ _
    unfold procFsGetdirinfo
    by_cases hlarge : desc > maxOpenFiles
    · rw [if_pos hlarge]
      exact iff_of_true (validated_error hebadf) (.inl hlarge)
    · rw [if_neg hlarge]
      by_cases hnull : dinfo = 0
      · rw [if_pos hnull]
        exact iff_of_true (validated_error heinval) (.inr (.inl hnull))
      · rw [if_neg hnull]
        by_cases ht : s.thread = 0
        · rw [if_pos ht]
          exact iff_of_true (validated_error heunspec) (.inr (.inr (.inl ht)))
        · rw [if_neg ht]
          refine (deref_validated_iff ht fun h => ?_).trans (by
            simp only [DescCall.Checked, hlarge, hnull, ht, false_or])
          split
          · exact noFault_ok _
          · dsimp only
            split
            · exact noFault_unfinished
            · exact noFault_ok _
  | readdir idx buff buffSize =>
    change Validated desc s _ ((procFsReaddir fuel desc idx buff buffSize s).map _) ↔ _
    unfold procFsReaddir
    by_cases hlarge : desc > maxOpenFiles
    · rw [if_pos hlarge]
      exact iff_of_true (validated_error hebadf) (.inl hlarge)
    · rw [if_neg hlarge]
      by_cases hnull : buff = 0
      · rw [if_pos hnull]
        exact iff_of_true (validated_error heinval) (.inr (.inl hnull))
      · rw [if_neg hnull]
        by_cases hsize : buffSize = 0
        · rw [if_pos hsize]
          exact iff_of_true (validated_error heinval) (.inr (.inr (.inl hsize)))
        · rw [if_neg hsize]
          by_cases ht : s.thread = 0
          · rw [if_pos ht]
            exact iff_of_true (validated_error heunspec) (.inr (.inr (.inr (.inl ht))))
          · rw [if_neg ht]
            refine (deref_validated_iff ht fun h => ?_).trans (by
              simp only [DescCall.Checked, hlarge, hnull, hsize, ht, false_or])
            dsimp only
            split
            · exact noFault_ok _
            · split
              · exact noFault_ok _
              · split
                · exact noFault_ok _
                · split
                  · exact noFault_unfinished
                  · exact noFault_ok _
                  · exact noFault_ok _
  | fstat buf =>
    change Validated desc s _ ((fstat fuel desc buf s).map _) ↔ _
    unfold fstat
    by_cases hout : desc < 0 ∨ desc ≥ maxOpenFiles
    · rw [if_pos hout]
      exact iff_of_true (validated_error hebadf) (hout.imp_right .inl)
    · rw [if_neg hout]
      obtain ⟨h0, h8⟩ := not_or.mp hout
      by_cases ht : s.thread = 0
      · rw [if_pos ht]
        exact iff_of_true (validated_error heunspec) (.inr (.inr (.inl ht)))
      · rw [if_neg ht]
        refine (deref_validated_iff ht fun h => ?_).trans (by
          simp only [DescCall.Checked, h0, h8, ht, false_or])
        split
        · exact noFault_unfinished
        · exact noFault_ok _

/-- Each call handles these descriptors as it should, and no others. -/
theorem desc_call_validated_iff (s : FsKernel δ) (desc : Int) (c : DescCall) :
    (∀ fuel, Validated desc s c.IsError (runDesc K fuel desc s c)) ↔ c.Checked desc s :=
  ⟨fun h => (runDesc_validated_iff K 0 c).mp (h 0),
    fun h fuel => (runDesc_validated_iff K fuel c).mpr h⟩

end Every

end Run

/-! ## Descriptors that no call refuses -/

/-- No file is open. -/
def emptyKernel : FsKernel Unit where
  thread := 1
  tables := fun _ => ⟨fun _ => 0, fun _ => 0⟩
  hands := fun _ => ⟨0, 0, 0⟩
  fs := fsInit 16 (fun _ => blankFile) (fun _ => ⟨0, 0, 0⟩)
  link := fun _ => 0
  mem := fun _ => 0
  dev := ()

def noDrivers : Drivers Unit where
  handOps := fun _ => ⟨none, none, none, none⟩
  nullOps := ⟨none, none⟩
  kfree := fun _ s => s
  runSched := id

/-- `MAX_OPEN_FILES` itself, a negative descriptor, and an empty slot. -/
theorem bad_descriptors_go_through :
    (∀ c ∈ [DescCall.read 0 1 4096, .readBlk 0 1 4096, .write 0 1 4096, .close, .mkdir 4096 0,
        .create 4096 0, .ioctl 0 0, .getdirinfo 4096, .readdir 0 4096 64],
      ∀ desc ∈ [8, -1], ¬ Validated desc emptyKernel c.IsError
        (runDesc noDrivers 1 desc emptyKernel c)) ∧
    ∀ c ∈ [DescCall.getdirinfo 4096, .readdir 0 4096 64, .fstat 4096],
      ¬ Validated 3 emptyKernel c.IsError (runDesc noDrivers 1 3 emptyKernel c) := by
  refine ⟨fun c hc desc hd h => h.inTable ?_, fun c hc h => h.noNull ?_⟩
  · fin_cases hd <;> fin_cases hc <;> rfl
  · fin_cases hc <;> rfl

end LambdaOs
