import LambdaOs.Word
import LambdaOs.Errno

/-!
# The x86 page tables

`arch/x86/src/mm/paging.c` and `arch/x86/src/mm/mmu.c`. An MMU table is the
page of its directory; a directory word and a table word pack the address of
a page with flag bits. Tables are always page aligned, so the memory they
live in is modelled page by page: `PageMem` gives the words of each page.

The kernel's own directory is the variable `pagedir`, mapped at its virtual
address and, as `kernel_cr3`, at its physical one. Both name the same words:
here it is the one page `kernel`. (With `pgdir` its physical address the
code takes the "other table" branch and copies a word onto itself.)

Page tables come from `kamalloc`. What the code relies on is `PageHeap`: the
kernel heap is one (`AllocPages`).
-/

namespace LambdaOs

/-! ## Constants -/

def pageSz : Nat := 0x1000

/-- `PGDIR_ENTRIES` and `PGTBL_ENTRIES`. -/
def pgdirEntries : Nat := 1024

def kernelOffset : Nat := 0xC0000000

def mmuFlagRead : Nat := 0x01
def mmuFlagWrite : Nat := 0x02
def mmuFlagExec : Nat := 0x04
def mmuFlagKernel : Nat := 0x10

/-- `PAGE_TABLE_FLAG_*`; the directory flags have the same values. -/
def pageFlagPresent : Nat := 1
def pageFlagWritable : Nat := 2
def pageFlagUser : Nat := 4

/-! ## Memory and heap -/

/-- The words of the page at an address. -/
abbrev PageMem := Nat → Nat → Nat

def PageMem.setWord (m : PageMem) (page idx word : Nat) : PageMem := fun p i =>
  if p = page ∧ i = idx then word else m p i

def PageMem.zeroPage (m : PageMem) (page : Nat) : PageMem := fun p i =>
  if p = page then 0 else m p i

def PageMem.copyPage (m : PageMem) (dest src : Nat) : PageMem := fun p i =>
  if p = dest then m src i else m p i

/-- What the code relies on of the kernel heap. `held` are the bytes no block
will be taken from; a granted block is made of bytes that were not held and
now are. `none` is a call that does not return. -/
structure PageHeap (H : Type) where
  kamalloc : H → Nat → Nat → Option (Nat × H)
  held : H → Nat → Prop
  fresh : ∀ {h h' : H} {sz align r : Nat}, kamalloc h sz align = some (r, h') → r ≠ 0 →
    r % align = 0 ∧ r + sz ≤ 4294967296 ∧
      ∀ x, r ≤ x → x < r + sz → ¬ held h x ∧ held h' x
  keeps : ∀ {h h' : H} {sz align r x : Nat}, kamalloc h sz align = some (r, h') →
    held h x → held h' x

/-- Every byte of the page at `a` is held. -/
def PageHeap.heldPage {H : Type} (A : PageHeap H) (h : H) (a : Nat) : Prop :=
  ∀ x, a ≤ x → x < a + 4096 → A.held h x

/-- No request for pages is answered with `NULL`. -/
def PageHeap.NeverNull {H : Type} (A : PageHeap H) : Prop :=
  ∀ {h h' : H} {sz r : Nat}, A.kamalloc h sz 0x1000 = some (r, h') → r ≠ 0

/-- The runs of a heap in which every request is served. -/
def PageHeap.served {H : Type} (A : PageHeap H) : PageHeap H where
  kamalloc h sz align := (A.kamalloc h sz align).filter fun rh => rh.1 ≠ 0
  held := A.held
  fresh := by
    intro h h' sz align r hk hr
    exact A.fresh (Option.filter_eq_some_iff.mp hk).1 hr
  keeps := by
    intro h h' sz align r x hk hx
    exact A.keeps (Option.filter_eq_some_iff.mp hk).1 hx

theorem PageHeap.served_neverNull {H : Type} (A : PageHeap H) : A.served.NeverNull := by
  intro h h' sz r hk
  simpa using (Option.filter_eq_some_iff.mp hk).2

/-- The memory of the page tables, and the heap they come from. -/
structure Mmu (H : Type) where
  mem : PageMem
  heap : H

/-! ## One page -/

/-- `PAGE_DIRECTORY_FLAG_PRESENT` and `PAGE_TABLE_FLAG_PRESENT`. -/
abbrev Present (word : Nat) : Prop := word &&& pageFlagPresent ≠ 0

def pdindex (virt : Nat) : Nat := virt >>> 22

def ptindex (virt : Nat) : Nat := virt >>> 12 &&& 0x3FF

def pgdirGetPageEntry (m : PageMem) (pgdir virt : Nat) : Nat :=
  if Present (m pgdir (pdindex virt)) then
    m (pageMask (m pgdir (pdindex virt))) (ptindex virt)
  else 0

section Map

variable {H : Type} (A : PageHeap H) (kernel : Nat)

/-- The directory slot `pd` of `dir` gets an empty page table if it has none. -/
def addPageTable (s : Mmu H) (dir pd : Nat) : Option (Mmu H) :=
  if Present (s.mem dir pd) then some s
  else do
    let (page, heap) ← A.kamalloc s.heap 0x1000 0x1000
    let entry := page ||| pageFlagPresent ||| pageFlagWritable
    return ⟨(s.mem.setWord dir pd entry).zeroPage (pageMask entry), heap⟩

/-- The directory a mapping goes to: any page at or above `KERNEL_OFFSET` is
meant to be global. -/
def mapDir (pgdir virt : Nat) : Nat :=
  if kernelOffset ≤ virt ∧ pgdir ≠ kernel then kernel else pgdir

/-- The stores of `pgdir_map_page`, once the table exists. -/
def storeEntry (m : PageMem) (dir pgdir pd pt phys flags : Nat) : PageMem :=
  let m := m.setWord dir pd (m dir pd ||| (flags &&& pageFlagUser))
  let m := m.setWord (pageMask (m dir pd)) pt (phys ||| (flags &&& 0xFFF) ||| 1)
  if dir ≠ pgdir then m.setWord pgdir pd (m dir pd) else m

def pgdirMapPage (s : Mmu H) (pgdir physaddr virtualaddr flags : Nat) :
    Option (Mmu H) := do
  let virt := pageMask virtualaddr
  let phys := pageMask physaddr
  let dir := mapDir kernel pgdir virt
  let s ← addPageTable A s dir (pdindex virt)
  return { s with mem := storeEntry s.mem dir pgdir (pdindex virt) (ptindex virt) phys flags }

/-! ## Ranges -/

/-- The values of `off` in `for(off = 0; off < size; off += PAGE_SZ)`. Past
`0xFFFFF000` the 32-bit counter wraps to `0` and the loop never ends. -/
def pageOffs (size : Nat) : Option (List Nat) :=
  if size ≤ 0xFFFFF000 then some ((List.range ((size + 4095) / 4096)).map (· * 4096))
  else none

/-- The page flags of a mapping. -/
def pageFlags (flags : Nat) : Nat :=
  pageFlagPresent
    ||| (if flags &&& mmuFlagWrite ≠ 0 then pageFlagWritable else 0)
    ||| (if flags &&& mmuFlagKernel = 0 then pageFlagUser else 0)

/-- It always returns `0`. -/
def mmuMapTable (s : Mmu H) (table virt phys size flags : Nat) : Option (Mmu H) := do
  let offs ← pageOffs size
  offs.foldlM (fun s off =>
    pgdirMapPage A kernel s table (u32 (pageMask phys + off)) (u32 (pageMask virt + off))
      (pageFlags flags)) s

/-- One round of `mmu_unmap_table`. -/
def unmapPage (m : PageMem) (table virt : Nat) : PageMem :=
  if Present (m table (pdindex virt)) then
    m.setWord (pageMask (m table (pdindex virt))) (ptindex virt) 0
  else m

def mmuUnmapTable (m : PageMem) (table virt size : Nat) : Option PageMem := do
  let offs ← pageOffs size
  return offs.foldl (fun m off => unmapPage m table (u32 (virt + off))) m

/-- The flags and the frame a table word answers with. -/
def entryAnswer (entry : Nat) : Except Int (Nat × Nat) :=
  if Present entry then
    .ok (mmuFlagRead
        ||| (if entry &&& pageFlagWritable ≠ 0 then mmuFlagWrite else 0)
        ||| (if entry &&& pageFlagUser = 0 then mmuFlagKernel else 0),
      pageMask entry)
  else .error (-EUNSPEC)

/-- The return value (flags or error), and `*phys`. -/
def mmuMapGetTable (m : PageMem) (table virt : Nat) : Except Int (Nat × Nat) :=
  entryAnswer (pgdirGetPageEntry m table virt)

/-! ## Cloning -/

/-- One round of the copying loop of `mmu_clone_table`, on the memory and
`off`. -/
def cloneSlot (new src : Nat) (mo : PageMem × Nat) (i : Nat) : PageMem × Nat :=
  if Present (mo.1 new i) then
    let m := mo.1.setWord new i ((mo.1 new i &&& 0xFFF) ||| u32 (new + mo.2))
    (m.copyPage (pageMask (m new i)) (pageMask (m src i)), mo.2 + 0x1000)
  else mo

/-- The copy of the directory and of its page tables into the block at
`new`. -/
def copyTables (m : PageMem) (new src : Nat) : PageMem :=
  ((List.range pgdirEntries).foldl (cloneSlot new src) (m.copyPage new src, 0x1000)).1

/-- `n_tables`. -/
def countTables (m : PageMem) (src : Nat) : Nat :=
  (List.range pgdirEntries).countP fun i => Present (m src i)

/-- `dirsz`. -/
def cloneSize (m : PageMem) (src : Nat) : Nat := 0x1000 + 0x1000 * countTables m src

/-- The flags the new block is mapped with. -/
def cloneFlags : Nat := mmuFlagRead ||| mmuFlagWrite ||| mmuFlagKernel

/-- `current` is the table in `cr3`, where the new block is mapped. -/
def mmuCloneTable (current : Nat) (s : Mmu H) (src : Nat) : Option (Nat × Mmu H) := do
  let (new, heap) ← A.kamalloc s.heap (cloneSize s.mem src) pageSz
  let s ← mmuMapTable A kernel { s with heap := heap } current new new (cloneSize s.mem src)
    cloneFlags
  return (new, { s with mem := copyTables s.mem new src })

end Map

end LambdaOs
