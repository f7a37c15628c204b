import Mathlib.Data.Nat.Bitwise
import LambdaOs.Word

/-!
# The kernel heap

`mm/alloc.c`: a table of entries, each describing a used or a free block of
memory. The table is `allocs`, an array of pointers to blocks of
`ALLOC_BLOCK` entries. Slots of `allocs` are only ever filled in order, so
the table is modelled by its non-`NULL` blocks. The first block is static;
further ones are carved out of the heap itself, and start with whatever that
memory holds (`BlockMem`).

Every call holds `alloc_lock` from its first table access to its last, so a
call is one step. `kpanic` and the faults that stop the machine are errors.
-/

namespace LambdaOs

/-! ## The table -/

def allocBlock : Nat := 1024

def allocBlocks : Nat := 512

/-- `struct alcent`. The two flag bytes are only read as truth values. -/
structure Alcent where
  valid : Bool
  used : Bool
  addr : Nat
  size : Nat
deriving Repr, DecidableEq

instance : Inhabited Alcent := ⟨⟨false, false, 0, 0⟩⟩

/-- What stops the machine in the allocator. -/
inductive AllocPanic where
  | listFull
  | noBlockHole
  | allocsOverrun
  | notAllocated
  | divideError
deriving Repr, DecidableEq

/-- The non-`NULL` blocks of `allocs`. -/
abbrev Table := List (List Alcent)

/-- What the entries of a bookkeeping block placed at an address read as. -/
abbrev BlockMem := Nat → Nat → Alcent

namespace Table

/-- `allocs[p.1][p.2]`, if there is such an entry. -/
def ent (t : Table) (p : Nat × Nat) : Option Alcent := t[p.1]?.bind (·[p.2]?)

/-- `allocs[p.1][p.2]`. -/
def get (t : Table) (p : Nat × Nat) : Alcent := (t.ent p).getD default

/-- Update `allocs[p.1][p.2]` in place. -/
def upd (t : Table) (p : Nat × Nat) (f : Alcent → Alcent) : Table :=
  t.modify p.1 (·.modify p.2 f)

/-- All entries with their positions, in the order of the scanning loops:
`j` over the blocks, `i` over the entries of a block. -/
def scan (t : Table) : List ((Nat × Nat) × Alcent) :=
  t.zipIdx.flatMap fun (blk, j) => blk.zipIdx.map fun (e, i) => ((j, i), e)

end Table

/-! ## Adding and freeing entries -/

def addAlloc (t : Table) (al : Alcent) : Except AllocPanic Table :=
  match t.scan.find? fun pe => !pe.2.valid with
  | some (p, _) => .ok (t.upd p fun _ => al)
  | none => .error .listFull

/-- The test of `rm_alloc`: is the free entry `e` next to the block
`(addr, size)` being freed? -/
def mergeTest (addr size : Nat) (e : Alcent) : Bool :=
  e.valid && ((u32 (e.addr + size) == addr || e.addr == u32 (addr + size)) && !e.used)

def rmAlloc (t : Table) (p : Nat × Nat) : Table :=
  let addr := (t.get p).addr
  let size := (t.get p).size
  match t.scan.find? fun pe => mergeTest addr size pe.2 with
  | some (q, _) =>
      let t := t.upd q fun e =>
        { e with
          size := u32 (e.size + size)
          addr := if e.addr > addr then addr else e.addr }
      t.upd p fun e => { e with valid := false }
  | none => t.upd p fun e => { e with used := false }

/-! ## Finding a hole -/

/-- `_find_hole`'s and `_alloc_new_block`'s "nothing found". -/
def noHole : Nat := 0xFFFFFFFF

/-- `(uint16_t)i | j << 16`. -/
def packIdx (p : Nat × Nat) : Nat := p.2 % 65536 ||| p.1 <<< 16

def unpackIdx (idx : Nat) : Nat × Nat := (idx >>> 16, idx &&& 0xFFFF)

/-- Bytes to skip at `addr` to reach an aligned address. -/
def holeOff (addr align : Nat) : Nat :=
  let off := align - addr % align
  if off = align then 0 else off

/-- One round of `_find_hole`, on the best index and its size so far. -/
def findHoleStep (sz align : Nat) (best : Nat × Nat) (pe : (Nat × Nat) × Alcent) :
    Nat × Nat :=
  if pe.2.valid && !pe.2.used then
    if pe.2.size ≥ u32 (sz + holeOff pe.2.addr align) ∧ pe.2.size < best.2 then
      (packIdx pe.1, pe.2.size)
    else best
  else best

def findHole (t : Table) (sz align : Nat) : Nat :=
  (t.scan.foldl (findHoleStep sz align) (noHole, 0xFFFFFFFF)).1

/-! ## Growing the table -/

def emptySlots (t : Table) (block : Nat) : Nat :=
  allocBlock - (t.getD block []).countP (·.valid)

/-- `sizeof(struct alcent)` times `ALLOC_BLOCK`. -/
def allocBlockSize : Nat := allocBlock * 12

/-- `allocs[get_free_block()] = (struct alcent *)addr`. With no free slot the
store goes past the end of `allocs`. -/
def addBlock (mem : BlockMem) (t : Table) (addr : Nat) : Except AllocPanic Table :=
  if t.length < allocBlocks then .ok (t ++ [(List.range allocBlock).map (mem addr)])
  else .error .allocsOverrun

def allocNewBlock (mem : BlockMem) (t : Table) : Except AllocPanic Table :=
  let idx := findHole t allocBlockSize 1
  if idx = noHole then .error .noBlockHole
  else
    let p := unpackIdx idx
    let e := t.get p
    if e.size = allocBlockSize then
      addBlock mem (t.upd p fun e => { e with used := true }) e.addr
    else do
      let t := t.upd p fun e =>
        { e with size := e.size - allocBlockSize, addr := u32 (e.addr + allocBlockSize) }
      let t ← addAlloc t ⟨true, true, e.addr, allocBlockSize⟩
      addBlock mem t e.addr

/-- The table `kamalloc` takes its block from: grown first when the block of
entries that holds the first hole found has exactly four free slots. -/
def growTable (mem : BlockMem) (t : Table) (idx : Nat) : Except AllocPanic Table :=
  if emptySlots t (idx >>> 16) = 4 then allocNewBlock mem t else .ok t

/-! ## The interface -/

/-- Take `sz` bytes aligned to `align` out of the hole at `p`. -/
def carve (t : Table) (p : Nat × Nat) (sz align : Nat) :
    Except AllocPanic (Nat × Table) :=
  let e := t.get p
  if e.size = sz then .ok (e.addr, t.upd p fun e => { e with used := true })
  else if e.addr % align ≠ 0 then do
    -- the hole does not start aligned
    let correction := align - e.addr % align
    let ae : Alcent := ⟨true, true, u32 (e.addr + correction), sz⟩
    let t ←
      if e.size > u32 (sz + correction) then
        -- and extends past the block
        addAlloc t ⟨true, false, u32 (e.addr + u32 (sz + correction)),
          e.size - u32 (sz + correction)⟩
      else .ok t
    let t := t.upd p fun e => { e with size := correction }
    let t ← addAlloc t ae
    return (ae.addr, t)
  else do
    -- aligned, with space left at the end
    let t := t.upd p fun e => { e with size := e.size - sz, addr := u32 (e.addr + sz) }
    let t ← addAlloc t ⟨true, true, e.addr, sz⟩
    return (e.addr, t)

/-- The returned address (`0` for `NULL`) and the new table. -/
def kamalloc (mem : BlockMem) (t : Table) (sz align : Nat) :
    Except AllocPanic (Nat × Table) :=
  if align = 0 ∨ sz = 0 then .ok (0, t)
  else if findHole t sz align = noHole then .ok (0, t)
  else do
    let t ← growTable mem t (findHole t sz align)
    -- the table may have changed: look again
    if findHole t sz align = noHole then return (0, t)
    carve t (unpackIdx (findHole t sz align)) sz align

/-- `MIN_ALIGN`. -/
def minAlign : Nat := 4

def kmalloc (mem : BlockMem) (t : Table) (sz : Nat) : Except AllocPanic (Nat × Table) :=
  kamalloc mem t sz minAlign

/-- `sz` rounded up to a multiple of `align`, in 32 bits. -/
def roundSize (sz align : Nat) : Nat :=
  if sz % align ≠ 0 then u32 (sz + (align - sz % align)) else sz

def kmamalloc (mem : BlockMem) (t : Table) (sz align : Nat) :
    Except AllocPanic (Nat × Table) :=
  if align = 0 then .error .divideError
  else kamalloc mem t (roundSize sz align) align

def kfree (t : Table) (ptr : Nat) : Except AllocPanic Table :=
  match t.scan.find? fun pe => pe.2.valid && pe.2.addr == ptr with
  | some (p, _) => .ok (rmAlloc t p)
  | none => .error .notAllocated

/-- The static first block, all entries zero. -/
def blankTable : Table := [List.replicate allocBlock default]

/-- `init_alloc`, up to its `mmu_map`. That call reaches the heap only to ask
for page-table pages: its requests are the first `kamalloc` calls of a run. -/
def initAlloc (base size : Nat) : Except AllocPanic Table :=
  addAlloc blankTable ⟨true, false, base, size⟩

end LambdaOs
