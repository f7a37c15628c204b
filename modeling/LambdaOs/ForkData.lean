import LambdaOs.CopyData
import LambdaOs.Mmap

/-!
# The memory of a fork

`proc/fork.c` and, for x86, `arch/x86/src/proc/tasking.c` and `stack.c`: what
`fork` does to memory. The child starts with a clone of the parent's table.
It gets its own stacks, and for every entry of the parent's memory map a
block of its own, mapped over the parent's pages and filled by
`mmu_copy_data`. The rest of `fork` is in `Proc`.

An entry is copied as a whole if its pages are exactly those that
`mmu_map_table` maps for its length, its virtual and physical address have
the same place in their page (`MemMapEnt.Fits`), and no other entry uses its
pages (`NoSharedPage`): `copyEntries_spec`.
-/

namespace LambdaOs

/-! ## The model -/

/-- What `fork` reads of the calling thread: its stack, whether its process
is a user process, and the registers saved by the system call, with `ebx`
the address of the call's arguments. -/
structure ForkThread where
  stackSize : Nat
  stackUserBegin : Nat
  stackUserSize : Nat
  userspace : Bool
  regs : Nat → Nat
  ebx : Nat

/-- `sizeof(x86_iret_regs_t)` and `sizeof(x86_pusha_regs_t)`. -/
def forkRegsSize : Nat := 52

/-- `CONFIG_PROC_KERN_STACK_SIZE`, as configured by default. -/
def procKernStackSize : Nat := 4096

/-- Where the first thread's stack is mapped. -/
def userStackVirt : Nat := 0x7F000000

/-- An entry of the child's memory map, and the block `kmalloc` returned for
it. (The code keeps only the address after the fix-up.) -/
structure CopiedEnt where
  ent : MemMapEnt
  block : Nat

/-- The result of the memory part of `fork`. -/
structure ForkMem (H : Type) where
  ret : Int
  child : Nat
  ents : List CopiedEnt
  mmu : Mmu H

/-- The first address from `cphys` on with the place of `pphys` in its
page. -/
def fixAlign (cphys pphys : Nat) : Nat :=
  if cphys &&& 0xFFF ≤ pphys &&& 0xFFF then pageMask cphys ||| (pphys &&& 0xFFF)
  else u32 (cphys + (0x1000 - ((cphys &&& 0xFFF) - (pphys &&& 0xFFF))))

section Fork

variable {H : Type} (A : PageHeap H) (kernel : Nat) (strict : Bool)

/-- One round of `proc_copy_data`; the parent's table is the current one. -/
def copyEntry (child parent : Nat) (s : Mmu H) (pent : MemMapEnt) :
    Option (Int × CopiedEnt × Mmu H) := do
  let (block, heap) ← A.kamalloc s.heap (u32 (pent.length + 0x1000)) minAlign
  let s := { s with heap := heap }
  if block = 0 then return (-ENOMEM, ⟨⟨pent.virtAddress, 0, pent.length⟩, 0⟩, s)
  let phys := fixAlign block pent.physAddress
  let cent : CopiedEnt := ⟨⟨pent.virtAddress, phys, pent.length⟩, block⟩
  let s ← mmuMapTable A kernel s child pent.virtAddress phys pent.length
    (mmuFlagRead ||| mmuFlagWrite)
  let (ret, s) ← mmuCopyData A kernel strict parent child pent.virtAddress parent
    pent.virtAddress pent.length s
  return (if ret ≠ 0 then -EUNSPEC else 0, cent, s)

/-- The loop of `proc_copy_data`. -/
def copyEntries (child parent : Nat) :
    List MemMapEnt → Mmu H → Option (Int × List CopiedEnt × Mmu H)
  | [], s => some (0, [], s)
  | pent :: pents, s => do
      let (ret, cent, s) ← copyEntry A kernel strict child parent s pent
      if ret ≠ 0 then return (ret, [cent], s)
      let (ret, cents, s) ← copyEntries child parent pents s
      return (ret, cent :: cents, s)

/-- The child's entries are one array: with none to copy the request is for
`0` bytes, and the heap answers `NULL`. -/
def procCopyData (child parent : Nat) (pents : List MemMapEnt) (s : Mmu H) :
    Option (Int × List CopiedEnt × Mmu H) := do
  let (list, heap) ← A.kamalloc s.heap (u32 (memMapEntSize * pents.length)) minAlign
  let s := { s with heap := heap }
  if list = 0 then return (-ENOMEM, [], s)
  copyEntries A kernel strict child parent pents s

/-- `arch_proc_create_stack` for the first thread of a process. The block is
not checked. -/
def procCreateStack (table : Nat) (t : ForkThread) (s : Mmu H) : Option (Mmu H) := do
  let (stack, heap) ← A.kamalloc s.heap (roundSize t.stackSize 4096) 4096
  mmuMapTable A kernel { s with heap := heap } table userStackVirt stack t.stackSize
    (if t.userspace then mmuFlagRead ||| mmuFlagWrite
      else mmuFlagRead ||| mmuFlagWrite ||| mmuFlagKernel)

/-- `arch_proc_create_kernel_stack`: the end of the stack, and the state. -/
def procCreateKernelStack (table : Nat) (s : Mmu H) : Option (Nat × Mmu H) := do
  let (stack, heap) ← A.kamalloc s.heap (roundSize procKernStackSize 4096) 4096
  let s ← mmuMapTable A kernel { s with heap := heap } table stack stack procKernStackSize
    (mmuFlagRead ||| mmuFlagWrite ||| mmuFlagKernel)
  return (u32 (stack + procKernStackSize), s)

/-- The child's stack begins at `userStackVirt + stackSize` and is as long.
The return value of the copy is ignored. -/
def procCopyStack (child parent : Nat) (t : ForkThread) (s : Mmu H) : Option (Mmu H) := do
  let (_, s) ← mmuCopyData A kernel strict parent child userStackVirt parent
    (u32 (t.stackUserBegin + 4294967296 - t.stackUserSize)) t.stackUserSize s
  return s

/-- The saved registers go to the end of the child's kernel stack, at its own
address in the current table, and the child's return value to the arguments
of the system call. -/
def archPostforkSetup (child parent : Nat) (t : ForkThread) (kernStack : Nat) (s : Mmu H) :
    Option (Mmu H) := do
  let regs := u32 (kernStack + 4294967296 - forkRegsSize)
  let mem ← storeVirt parent regs ((List.range forkRegsSize).map t.regs) s.mem
  let (_, s) ← mmuWriteData A kernel parent child t.ebx [0, 0, 0, 0] { s with mem := mem }
  return s

/-- `fork_clone_process`, from `mmu_clone_table` on. -/
def forkCloneMemory (parent : Nat) (t : ForkThread) (pents : List MemMapEnt) (s : Mmu H) :
    Option (ForkMem H) := do
  let (child, s) ← mmuCloneTable A kernel parent s parent
  let s ← procCreateStack A kernel child t s
  let (kernStack, s) ← procCreateKernelStack A kernel child s
  let s ← procCopyStack A kernel strict child parent t s
  let (ret, cents, s) ← procCopyData A kernel strict child parent pents s
  if ret ≠ 0 then return ⟨-EUNSPEC, child, cents, s⟩
  let s ← archPostforkSetup A kernel child parent t kernStack s
  return ⟨0, child, cents, s⟩

end Fork

section Spec

variable {H : Type} {A : PageHeap H} {kernel : Nat} {strict : Bool} {tabs : List Nat}

/-! ## New blocks -/

theorem PageHeap.block_low {h h' : H} {sz align r : Nat}
    (hlow : ∀ x, kernelOffset ≤ x → A.held h x)
    (hk : A.kamalloc h sz align = some (r, h')) (hr : r ≠ 0) (hsz : 0 < sz) :
    r + sz ≤ kernelOffset := by
  have hlast := ((A.fresh hk hr).2.2 (r + sz - 1) (by omega) (by omega)).1
  by_contra hcon
  exact hlast (hlow _ (by omega))

theorem roundSize_spec {sz : Nat} (hsz : sz + 4096 ≤ 4294967296) :
    roundSize sz 4096 % 4096 = 0 ∧ sz ≤ roundSize sz 4096 ∧ roundSize sz 4096 < sz + 4096 := by
  unfold roundSize
  split
  · rw [u32_of_lt (by omega)]
    omega
  · omega

/-- A page table takes a whole page. -/
theorem Tables.tablePage_held {s : Mmu H} (ht : Tables A kernel tabs s) {p : Nat}
    (hp : TablePage tabs s.mem p) : A.heldPage s.heap p := by
  rcases hp with hp | ⟨T, hT, i, hi, hpres, rfl⟩
  · exact ht.dirHeld p hp
  · exact ht.pageHeld T hT i hi hpres

theorem OnlyTables.granted {s s' : Mmu H} {sz align r : Nat} {heap : H}
    (hkam : A.kamalloc s.heap sz align = some (r, heap))
    (h : OnlyTables A tabs { s with heap := heap } s') : OnlyTables A tabs s s' :=
  ⟨⟨fun x hx => h.keeps x (A.keeps hkam hx), h.grows, fun p hp =>
    (h.fresh p hp).imp_right fun hfree x hx hx' hheld => hfree x hx hx' (A.keeps hkam hheld)⟩,
    h.same⟩

/-- A page with a byte of a new block is no table. -/
theorem Grown.newPage {s s' : Mmu H} (ht : Tables A kernel tabs s) {heap : H} {p x : Nat}
    (hnew : ¬ A.held s.heap x ∧ A.held heap x) (h : Grown A tabs { s with heap := heap } s')
    (hx : p ≤ x) (hx' : x < p + 4096) : DataPage A tabs s' p := by
  refine ⟨⟨x, hx, hx', h.keeps x hnew.2⟩, fun hin => ?_⟩
  rcases h.fresh p hin with hold | hfree
  · exact hnew.1 (ht.tablePage_held hold x hx hx')
  · exact hfree x hx hx' hnew.2

/-! ## The pages of an entry -/

theorem fixAlign_spec {c p : Nat} (hc : c + 4096 < 4294967296) :
    c ≤ fixAlign c p ∧ fixAlign c p < c + 4096 ∧ fixAlign c p % 4096 = p % 4096 := by
  have hor : pageMask c ||| p % 4096 = pageMask c + p % 4096 := by
    have hal := pageMask_aligned c
    obtain ⟨a, ha⟩ : ∃ a, pageMask c = 2 ^ 12 * a := ⟨pageMask c / 4096, by omega⟩
    rw [ha, Nat.two_pow_add_eq_or_of_lt (Nat.mod_lt p (by decide))]
  have hmask := pageMask_eq (show c < 4294967296 by omega)
  simp only [fixAlign, and_low, hor]
  split
  · omega
  · rw [u32_of_lt (by omega)]
    omega

/-- The entry uses the page of `v`. -/
def MemMapEnt.OnPage (e : MemMapEnt) (v : Nat) : Prop :=
  ∃ k < e.length, (e.virtAddress + k) / 4096 = v / 4096

/-- The page of `v` is mapped for the entry. -/
def MemMapEnt.MapsPage (e : MemMapEnt) (v : Nat) : Prop :=
  pageMask e.virtAddress ≤ pageMask v ∧ pageMask v < pageMask e.virtAddress + e.length

def MemMapEnt.Low (e : MemMapEnt) : Prop := e.virtAddress + e.length ≤ kernelOffset

/-- The entry is on no more pages than its length fills. -/
def MemMapEnt.WholePages (e : MemMapEnt) : Prop :=
  0 < e.length → e.virtAddress % 4096 + e.length ≤ 4096 * ((e.length + 4095) / 4096)

theorem MemMapEnt.Low.lt {e : MemMapEnt} (h : e.Low) {k : Nat} (hk : k ≤ e.length) :
    e.virtAddress + k < 4294967296 := by
  simp only [MemMapEnt.Low, kernelOffset] at h
  omega

theorem MemMapEnt.Low.onPage {e : MemMapEnt} (he : e.Low) {v : Nat} (hv : v < 4294967296)
    (h : e.MapsPage v) : e.OnPage v := by
  have hlt : e.virtAddress < 4294967296 := he.lt (Nat.zero_le _)
  simp only [MemMapEnt.MapsPage, pageMask_eq hv, pageMask_eq hlt] at h
  by_cases hfirst : v / 4096 = e.virtAddress / 4096
  · exact ⟨0, by omega, by omega⟩
  · exact ⟨v - v % 4096 - e.virtAddress, by omega, by omega⟩

/-- Whole pages: the pages mapped for the entry are the pages it uses. -/
theorem MemMapEnt.WholePages.mapsPage {e : MemMapEnt} (he : e.WholePages) (hlow : e.Low) {v : Nat}
    (hv : v < 4294967296) (h : e.OnPage v) : e.MapsPage v := by
  obtain ⟨k, hk, hpage⟩ := h
  have hpages := he (by omega)
  have hlt : e.virtAddress < 4294967296 := hlow.lt (Nat.zero_le _)
  simp only [MemMapEnt.MapsPage, pageMask_eq hv, pageMask_eq hlt]
  omega

/-! ## One entry -/

/-- A byte in use, on a page that is no table. -/
def DataByte (A : PageHeap H) (tabs : List Nat) (s : Mmu H) (x : Nat) : Prop :=
  A.held s.heap x ∧ ¬ TablePage tabs s.mem (pageBase x)

theorem DataByte.page {s : Mmu H} {x : Nat} (h : DataByte A tabs s x) :
    DataPage A tabs s (pageBase x) :=
  ⟨⟨x, pageBase_le x, lt_pageBase x, h.1⟩, h.2⟩

theorem Grown.dataByte {s s' : Mmu H} (h : Grown A tabs s s') {x : Nat}
    (hx : DataByte A tabs s x) : DataByte A tabs s' x :=
  ⟨h.keeps x hx.1, (h.dataPage hx.page).2⟩

theorem OnlyTables.byte {s s' : Mmu H} (h : OnlyTables A tabs s s') {x : Nat}
    (hx : DataByte A tabs s x) : s'.mem.byte x = s.mem.byte x :=
  PageMem.byte_congr (h.same _ (h.dataByte hx).2)

/-- The addresses `V` are mapped to frames below the kernel that are no
tables. -/
def MapsData (A : PageHeap H) (tabs : List Nat) (V : Nat → Prop) (s : Mmu H) (T : Nat) : Prop :=
  ∀ v, V v → ∀ flags frame, mmuMapGetTable s.mem T v = .ok (flags, frame) →
    frame < kernelOffset ∧ DataPage A tabs s frame

theorem MapsData.kept {V : Nat → Prop} {s s' : Mmu H} {T : Nat} (h : MapsData A tabs V s T)
    (hgrown : Grown A tabs s s')
    (hsame : ∀ v, V v → mmuMapGetTable s'.mem T v = mmuMapGetTable s.mem T v) :
    MapsData A tabs V s' T := by
  intro v hv flags frame hget
  rw [hsame v hv] at hget
  exact (h v hv flags frame hget).imp_right hgrown.dataPage

theorem MapsData.touches {V : Nat → Prop} {s : Mmu H} {T virt size : Nat}
    (h : MapsData A tabs V s T) (hin : ∀ k < size, V (virt + k))
    (hlow : virt + size ≤ kernelOffset) : TouchesData A tabs s T virt size := by
  intro k hk flags frame hget
  have hK : kernelOffset = 3221225472 := rfl
  rw [u32_of_lt (by omega)] at hget
  exact h _ (hin k hk) flags frame hget

/-- What holds between the steps of a fork, with `V` the user's addresses
that it reads and writes. -/
structure ForkState (A : PageHeap H) (kernel : Nat) (tabs : List Nat) (V : Nat → Prop)
    (parent child : Nat) (s : Mmu H) : Prop where
  tables : Tables A kernel tabs s
  heapLow : ∀ x, kernelOffset ≤ x → A.held s.heap x
  low : ∀ v, V v → v < kernelOffset
  parentData : MapsData A tabs V s parent
  childData : MapsData A tabs V s child

/-- What a step leaves alone: what is in use, and the other tables. -/
structure ForkFrame (A : PageHeap H) (tabs : List Nat) (child : Nat) (s s' : Mmu H) :
    Prop where
  grown : Grown A tabs s s'
  others : ∀ U ∈ tabs, U ≠ child → ∀ v < 4294967296,
    mmuMapGetTable s'.mem U v = mmuMapGetTable s.mem U v

theorem ForkFrame.trans {child : Nat} {s s₁ s' : Mmu H} (h₁ : ForkFrame A tabs child s s₁)
    (h₂ : ForkFrame A tabs child s₁ s') : ForkFrame A tabs child s s' :=
  ⟨h₁.grown.trans h₂.grown,
    fun U hU hne v hv => (h₂.others U hU hne v hv).trans (h₁.others U hU hne v hv)⟩

theorem ForkFrame.translate {child : Nat} {s s' : Mmu H} (h : ForkFrame A tabs child s s')
    {U v : Nat} (hU : U ∈ tabs) (hne : U ≠ child) (hv : v < 4294967296) :
    translate s'.mem U v = translate s.mem U v := by
  rw [LambdaOs.translate, LambdaOs.translate, h.others U hU hne v hv]

/-- The bytes in use are not written. -/
def DataKept (A : PageHeap H) (tabs : List Nat) (s s' : Mmu H) : Prop :=
  ∀ x, DataByte A tabs s x → s'.mem.byte x = s.mem.byte x

theorem DataKept.trans {s s₁ s' : Mmu H} (h₁ : DataKept A tabs s s₁) (hgrown : Grown A tabs s s₁)
    (h₂ : DataKept A tabs s₁ s') : DataKept A tabs s s' :=
  fun x hx => (h₂ x (hgrown.dataByte hx)).trans (h₁ x hx)

/-- `x` is in the block taken for the entry. -/
def CopiedEnt.InBlock (c : CopiedEnt) (e : MemMapEnt) (x : Nat) : Prop :=
  c.block ≤ x ∧ x < c.block + (e.length + 0x1000)

/-- The block taken for an entry was not in use. -/
def BlockFresh (A : PageHeap H) (s : Mmu H) (e : MemMapEnt) (c : CopiedEnt) : Prop :=
  ∀ x, c.InBlock e x → ¬ A.held s.heap x

theorem BlockFresh.frame {child : Nat} {s s₁ : Mmu H} {e : MemMapEnt} {c : CopiedEnt}
    (hfr : ForkFrame A tabs child s s₁) (h : BlockFresh A s₁ e c) : BlockFresh A s e c :=
  fun x hin hx => h x hin (hfr.grown.keeps x hx)

/-- No byte is in the blocks of two entries. -/
def CopiesApart (ents : List MemMapEnt) (cents : List CopiedEnt) : Prop :=
  (ents.zip cents).Pairwise fun p q => ∀ x, ¬ (p.2.InBlock p.1 x ∧ q.2.InBlock q.1 x)

theorem CopiesApart.get {ents : List MemMapEnt} {cents : List CopiedEnt}
    (h : CopiesApart ents cents) {i j x : Nat} (hi : i < ents.length) (hi' : i < cents.length)
    (hj : j < ents.length) (hj' : j < cents.length) (hne : i ≠ j)
    (hx : cents[i].InBlock ents[i] x) : ¬ cents[j].InBlock ents[j] x := by
  have hzip : ∀ n, n < ents.length → n < cents.length → n < (ents.zip cents).length := by
    intro n hn hn'
    rw [List.length_zip]
    omega
  intro hx'
  rcases Nat.lt_or_gt_of_ne hne with hlt | hlt
  · have := List.pairwise_iff_getElem.mp h i j (hzip i hi hi') (hzip j hj hj') hlt x
    rw [List.getElem_zip, List.getElem_zip] at this
    exact this ⟨hx, hx'⟩
  · have := List.pairwise_iff_getElem.mp h j i (hzip j hj hj') (hzip i hi hi') hlt x
    rw [List.getElem_zip, List.getElem_zip] at this
    exact this ⟨hx', hx⟩

/-- The block at `block` is mapped in the child for the entry. -/
structure EntryMapped (A : PageHeap H) (kernel : Nat) (tabs : List Nat) (child : Nat)
    (e : MemMapEnt) (block : Nat) (s s₁ : Mmu H) : Prop where
  tables : Tables A kernel tabs s₁
  only : OnlyTables A tabs s s₁
  others : ∀ U ∈ tabs, U ≠ child → ∀ v < 4294967296,
    mmuMapGetTable s₁.mem U v = mmuMapGetTable s.mem U v
  outside : ∀ v < 4294967296, ¬ e.MapsPage v →
    mmuMapGetTable s₁.mem child v = mmuMapGetTable s.mem child v
  inside : ∀ v < 4294967296, e.MapsPage v → ∃ flags frame,
    mmuMapGetTable s₁.mem child v = .ok (flags, frame) ∧ flags &&& mmuFlagWrite ≠ 0 ∧
      frame = pageMask (fixAlign block e.physAddress) + (pageMask v - pageMask e.virtAddress) ∧
      frame < kernelOffset ∧ DataPage A tabs s₁ frame
  fresh : ∀ x, block ≤ x → x < block + (e.length + 0x1000) →
    ¬ A.held s.heap x ∧ DataByte A tabs s₁ x

section Entry

variable {V : Nat → Prop} {parent child : Nat}

theorem mapEntry_spec {s s₁ : Mmu H} {e : MemMapEnt} {block : Nat} {heap : H}
    (hnull : A.NeverNull) (hst : ForkState A kernel tabs V parent child s) (hchild : child ∈ tabs)
    (he : e.Low) (hkam : A.kamalloc s.heap (u32 (e.length + 0x1000)) minAlign =
      some (block, heap)) (hblock : block ≠ 0)
    (hmap : mmuMapTable A kernel { s with heap := heap } child e.virtAddress
      (fixAlign block e.physAddress) e.length (mmuFlagRead ||| mmuFlagWrite) = some s₁) :
    EntryMapped A kernel tabs child e block s s₁ ∧
      block + (e.length + 0x1000) ≤ kernelOffset := by
  have hK : kernelOffset = 3221225472 := rfl
  have hlow : e.virtAddress + e.length ≤ kernelOffset := he
  have hlen : u32 (e.length + 0x1000) = e.length + 0x1000 := u32_of_lt (by omega)
  rw [hlen] at hkam
  have hfits := A.block_low hst.heapLow hkam hblock (by omega)
  have hbytes := (A.fresh hkam hblock).2.2
  obtain ⟨hge, hlt, -⟩ := @fixAlign_spec block e.physAddress (by omega)
  have hmaskv := pageMask_eq (show e.virtAddress < 4294967296 by omega)
  have hmaskp := pageMask_eq (show fixAlign block e.physAddress < 4294967296 by omega)
  have htg := hst.tables.granted hkam
  have hr := mapRange_remaps hnull htg hchild (by omega) hmap
  have honly := mapRange_grown htg hnull hchild (by omega) hmap
  refine ⟨⟨hr.tables, honly.granted hkam, hr.others, ?_, ?_, ?_⟩, hfits⟩
  · intro v hv hout
    exact (hr.self v hv).trans (if_neg hout)
  · rintro v hv ⟨hpage, hpage'⟩
    generalize fixAlign block e.physAddress = phys at *
    have hans := hr.self v hv
    have hpal := pageMask_aligned v
    have hoff : pageMask v - pageMask e.virtAddress < e.length := by omega
    have hframe : u32 (pageMask phys + (pageMask v - pageMask e.virtAddress)) =
        pageMask phys + (pageMask v - pageMask e.virtAddress) := u32_of_lt (by omega)
    dsimp only at hans
    rw [if_pos ⟨hpage, hpage'⟩, hframe] at hans
    refine ⟨_, _, hans, by simp [mmuFlagRead, mmuFlagWrite, mmuFlagKernel], rfl, by omega, ?_⟩
    -- every page that is mapped has a byte of the block
    by_cases hfirst : pageMask v = pageMask e.virtAddress
    · have hin : phys < block + (e.length + 0x1000) :=
        Nat.lt_of_lt_of_le hlt (Nat.add_le_add_left (Nat.le_add_left ..) block)
      rw [hfirst, Nat.sub_self, Nat.add_zero]
      exact honly.toGrown.newPage hst.tables (hbytes phys hge hin) Nat.and_le_left
        (lt_pageMask (Nat.lt_trans hlt (by omega)))
    · exact honly.toGrown.newPage hst.tables
        (hbytes (pageMask phys + (pageMask v - pageMask e.virtAddress)) (by omega) (by omega))
        (Nat.le_refl _) (by omega)
  · intro x hx hx'
    refine ⟨(hbytes x hx hx').1, honly.keeps x (hbytes x hx hx').2, ?_⟩
    exact (honly.toGrown.newPage hst.tables (hbytes x hx hx') (pageBase_le x)
      (lt_pageBase x)).2

theorem EntryMapped.state {s s₁ : Mmu H} {e : MemMapEnt} {block : Nat}
    (h : EntryMapped A kernel tabs child e block s s₁)
    (hst : ForkState A kernel tabs V parent child s) (hparent : parent ∈ tabs)
    (hne : parent ≠ child) : ForkState A kernel tabs V parent child s₁ := by
  have hlt : ∀ v, V v → v < 4294967296 := fun v hv => Nat.lt_trans (hst.low v hv) (by decide)
  refine ⟨h.tables, fun x hx => h.only.keeps x (hst.heapLow x hx), hst.low,
    hst.parentData.kept h.only.toGrown fun v hv => h.others parent hparent hne v (hlt v hv), ?_⟩
  intro v hv flags frame hget
  by_cases hin : e.MapsPage v
  · obtain ⟨flags', frame', hget', -, -, hlow, hdata⟩ := h.inside v (hlt v hv) hin
    obtain ⟨-, rfl⟩ := Prod.mk.inj (Except.ok.inj (hget.symm.trans hget'))
    exact ⟨hlow, hdata⟩
  · rw [h.outside v (hlt v hv) hin] at hget
    exact (hst.childData v hv flags frame hget).imp_right h.only.dataPage

/-- A successful round: the block is mapped, then the bytes are copied. -/
theorem copyEntry_run {s s' : Mmu H} {e : MemMapEnt} {c : CopiedEnt} (hnull : A.NeverNull)
    (hst : ForkState A kernel tabs V parent child s) (hparent : parent ∈ tabs)
    (hchild : child ∈ tabs) (hne : parent ≠ child) (he : e.Low)
    (hV : ∀ k < e.length, V (e.virtAddress + k))
    (h : copyEntry A kernel strict child parent s e = some (0, c, s')) :
    ∃ s₁ ps, EntryMapped A kernel tabs child e c.block s s₁ ∧
      c.block + (e.length + 0x1000) ≤ kernelOffset ∧
      ForkState A kernel tabs V parent child s₁ ∧
      Copied A kernel tabs child e.virtAddress parent e.virtAddress 0 e.length ps s₁ s' := by
  obtain ⟨⟨block, heap⟩, hkam, hrest⟩ := Option.bind_eq_some_iff.mp h
  simp only at hrest
  split at hrest
  · cases (Prod.mk.inj (Option.some.inj hrest)).1
  · rename_i hblock
    obtain ⟨s₁, hmap, hrest⟩ := Option.bind_eq_some_iff.mp hrest
    obtain ⟨⟨ret, s₂⟩, hcopy, hret⟩ := Option.bind_eq_some_iff.mp hrest
    obtain ⟨hzero, hcs⟩ := Prod.mk.inj (Option.some.inj hret)
    obtain ⟨rfl, rfl⟩ := Prod.mk.inj hcs
    have hret0 : ret = 0 := by
      by_contra hcon
      rw [if_pos hcon] at hzero
      revert hzero
      decide
    subst hret0
    obtain ⟨hmapped, hfits⟩ := mapEntry_spec hnull hst hchild he hkam hblock hmap
    have hst₁ := hmapped.state hst hparent hne
    have hloop : copyLoop A kernel parent child e.virtAddress parent e.virtAddress e.length
        e.length s₁ 0 = some (0, s₂) := by
      rw [mmuCopyData, if_neg (by simp)] at hcopy
      exact hcopy
    obtain ⟨n, -, hall, ps, hcopied⟩ := copyLoop_spec hnull hparent hchild hparent hst₁.tables
      (hst₁.childData.touches hV he) (hst₁.parentData.touches hV he) hloop
    obtain rfl : n = e.length := hall rfl
    exact ⟨s₁, ps, hmapped, hfits, hst₁, hcopied⟩

/-- What a round does to the tables, for any entry below the kernel. -/
theorem copyEntry_low {s s' : Mmu H} {e : MemMapEnt} {c : CopiedEnt} (hnull : A.NeverNull)
    (hst : ForkState A kernel tabs V parent child s) (hparent : parent ∈ tabs)
    (hchild : child ∈ tabs) (hne : parent ≠ child) (he : e.Low)
    (hV : ∀ k < e.length, V (e.virtAddress + k))
    (h : copyEntry A kernel strict child parent s e = some (0, c, s')) :
    ForkState A kernel tabs V parent child s' ∧ ForkFrame A tabs child s s' ∧
      (∀ v < 4294967296, ¬ e.MapsPage v →
        mmuMapGetTable s'.mem child v = mmuMapGetTable s.mem child v) ∧
      BlockFresh A s e c ∧ ∀ x, c.InBlock e x → A.held s'.heap x := by
  obtain ⟨s₁, ps, hmapped, -, hst₁, hcopied⟩ :=
    copyEntry_run hnull hst hparent hchild hne he hV h
  have hun := hcopied.moved.unmoved
  have hgrown := hcopied.moved.grown
  have hlt : ∀ v, V v → v < 4294967296 := fun v hv => Nat.lt_trans (hst.low v hv) (by decide)
  refine ⟨⟨hun.tables, fun x hx => hun.keeps x (hst₁.heapLow x hx), hst.low,
    hst₁.parentData.kept hgrown fun v hv => hun.same parent hparent v (hlt v hv),
    hst₁.childData.kept hgrown fun v hv => hun.same child hchild v (hlt v hv)⟩,
    ⟨hmapped.only.toGrown.trans hgrown, ?_⟩, ?_,
    fun x hin => (hmapped.fresh x hin.1 hin.2).1,
    fun x hin => hgrown.keeps x (hmapped.fresh x hin.1 hin.2).2.1⟩
  · intro U hU hUc v hv
    rw [hun.same U hU v hv, hmapped.others U hU hUc v hv]
  · intro v hv hout
    rw [hun.same child hchild v hv, hmapped.outside v hv hout]

/-- A round stores where the child finds the bytes of the entry, and nowhere
else in memory in use. -/
theorem copyEntry_bytes {s s' : Mmu H} {e : MemMapEnt} {c : CopiedEnt} (hnull : A.NeverNull)
    (hst : ForkState A kernel tabs V parent child s) (hparent : parent ∈ tabs)
    (hchild : child ∈ tabs) (hne : parent ≠ child) (he : e.Low)
    (hV : ∀ k < e.length, V (e.virtAddress + k))
    (h : copyEntry A kernel strict child parent s e = some (0, c, s')) {x : Nat}
    (hx : DataByte A tabs s x)
    (hout : ∀ k < e.length, translate s'.mem child (u32 (e.virtAddress + k)) ≠ some x) :
    s'.mem.byte x = s.mem.byte x := by
  obtain ⟨s₁, ps, hmapped, -, -, hcopied⟩ := copyEntry_run hnull hst hparent hchild hne he hV h
  have hx₁ := hmapped.only.toGrown.dataByte hx
  rw [hcopied.moved.bytes x (hcopied.moved.grown.dataByte hx₁).2, origin_of_notMem,
    hmapped.only.byte hx]
  rw [hcopied.pairs rfl]
  simp only [copyPairs, List.forall_mem_map, List.mem_range'_1]
  intro k hk hkx
  have hread := (hcopied.can rfl k hk.1 hk.2).pair.1
  rw [hkx, ← hcopied.moved.unmoved.translate hchild (u32_lt _)] at hread
  exact hout k (by omega) hread

/-- The bytes the table maps for the entry are in use. -/
def SourceHeld (A : PageHeap H) (tabs : List Nat) (parent : Nat) (s : Mmu H) (e : MemMapEnt) :
    Prop :=
  ∀ k < e.length, ∀ pa, translate s.mem parent (e.virtAddress + k) = some pa →
    DataByte A tabs s pa

theorem SourceHeld.frame {s s' : Mmu H} (h : ForkFrame A tabs child s s') (hp : parent ∈ tabs)
    (hne : parent ≠ child) {e : MemMapEnt} (he : e.Low) (hsrc : SourceHeld A tabs parent s e) :
    SourceHeld A tabs parent s' e := by
  intro k hk pa hpa
  rw [h.translate hp hne (he.lt (Nat.le_of_lt hk))] at hpa
  exact h.grown.dataByte (hsrc k hk pa hpa)

/-- The entry fits the code that copies it. -/
structure MemMapEnt.Fits (e : MemMapEnt) : Prop where
  low : e.Low
  offset : e.virtAddress % 4096 = e.physAddress % 4096
  pages : e.WholePages

/-- The child reads the pages of the entry in the block taken for it, and finds
the bytes of the entry there. -/
structure EntryCopied (A : PageHeap H) (tabs : List Nat) (parent child : Nat) (s s' : Mmu H)
    (e : MemMapEnt) (c : CopiedEnt) : Prop where
  placed : ∀ v < 4294967296, e.MapsPage v → access s'.mem child v mmuFlagWrite =
    some (pageMask (fixAlign c.block e.physAddress) + (v - pageMask e.virtAddress))
  bytes : ∀ k < e.length, ∃ pa ca, translate s.mem parent (e.virtAddress + k) = some pa ∧
    translate s'.mem child (e.virtAddress + k) = some ca ∧ s'.mem.byte ca = s.mem.byte pa ∧
    c.InBlock e ca ∧ DataByte A tabs s' ca

/-- Where the child finds the pages of an entry. -/
theorem EntryMapped.placed {s s₁ : Mmu H} {e : MemMapEnt} {block : Nat}
    (h : EntryMapped A kernel tabs child e block s s₁) {v : Nat}
    (hv : v < 4294967296) (hin : e.MapsPage v) : access s₁.mem child v mmuFlagWrite =
      some (pageMask (fixAlign block e.physAddress) + (v - pageMask e.virtAddress)) := by
  obtain ⟨flags, frame, hget, hflags, hframe, -⟩ := h.inside v hv hin
  have hge := hin.1
  rw [access, hget]
  dsimp only
  rw [if_neg hflags]
  generalize fixAlign block e.physAddress = phys at *
  generalize pageMask e.virtAddress = base at *
  rw [pageMask_eq hv] at hge hframe
  simp only [Option.some.injEq]
  omega

/-- Where the child finds the bytes of an entry that fits. -/
theorem EntryMapped.translate {s s₁ : Mmu H} {e : MemMapEnt} {block : Nat}
    (h : EntryMapped A kernel tabs child e block s s₁) (he : e.Fits)
    (hblock : block + (e.length + 0x1000) ≤ kernelOffset) {k : Nat} (hk : k < e.length) :
    translate s₁.mem child (e.virtAddress + k) = some (fixAlign block e.physAddress + k) := by
  have hv : e.virtAddress + k < 4294967296 := he.low.lt (Nat.le_of_lt hk)
  simp only [kernelOffset] at hblock
  obtain ⟨hge, hlt, hmod⟩ := @fixAlign_spec block e.physAddress (by omega)
  have hoffset := he.offset
  rw [(access_eq_some_iff.mp (h.placed hv (he.pages.mapsPage he.low hv ⟨k, hk, rfl⟩))).2,
    pageMask_eq (show e.virtAddress < 4294967296 by omega),
    pageMask_eq (show fixAlign block e.physAddress < 4294967296 by omega)]
  congr 1
  omega

/-- What a round does to the bytes, for an entry that fits. -/
theorem copyEntry_fits {s s' : Mmu H} {e : MemMapEnt} {c : CopiedEnt} (hnull : A.NeverNull)
    (hst : ForkState A kernel tabs V parent child s) (hparent : parent ∈ tabs)
    (hchild : child ∈ tabs) (hne : parent ≠ child) (he : e.Fits)
    (hV : ∀ k < e.length, V (e.virtAddress + k)) (hsrc : SourceHeld A tabs parent s e)
    (h : copyEntry A kernel strict child parent s e = some (0, c, s')) :
    DataKept A tabs s s' ∧ EntryCopied A tabs parent child s s' e c := by
  obtain ⟨s₁, ps, hmapped, hfits, -, hcopied⟩ :=
    copyEntry_run hnull hst hparent hchild hne he.low hV h
  have hun := hcopied.moved.unmoved
  have hgrown := hcopied.moved.grown
  have hK : kernelOffset = 3221225472 := rfl
  obtain ⟨hge, hlt, -⟩ := @fixAlign_spec c.block e.physAddress (by omega)
  have hchildtr : ∀ k < e.length, translate s₁.mem child (e.virtAddress + k) =
      some (fixAlign c.block e.physAddress + k) := fun k hk => hmapped.translate he hfits hk
  have hnew : ∀ k < e.length, ¬ A.held s.heap (fixAlign c.block e.physAddress + k) ∧
      DataByte A tabs s₁ (fixAlign c.block e.physAddress + k) := fun k hk =>
    hmapped.fresh _ (by omega) (by omega)
  -- every byte is copied to its place in the block, from memory in use
  have hpair : ∀ k < e.length, ∃ pa, translate s.mem parent (e.virtAddress + k) = some pa ∧
      DataByte A tabs s pa ∧ copyPair s₁.mem child e.virtAddress parent e.virtAddress k =
        (fixAlign c.block e.physAddress + k, pa) := by
    intro k hk
    have hv := he.low.lt (Nat.le_of_lt hk)
    obtain ⟨hdest, hsource⟩ := (hcopied.can rfl k (Nat.zero_le _) (by omega)).pair
    rw [u32_of_lt hv] at hdest hsource
    rw [LambdaOs.translate, hmapped.others parent hparent hne _ hv, ← LambdaOs.translate]
      at hsource
    exact ⟨_, hsource, hsrc k hk _ hsource,
      Prod.ext (Option.some.inj (hdest.symm.trans (hchildtr k hk))) rfl⟩
  have hps := hcopied.pairs rfl
  have horigin : ∀ p ∈ ps, origin ps p.1 = p.2 := by
    refine origin_eq_iff.mpr ⟨?_, ?_⟩
    · rw [hps]
      simp only [OneSource, copyPairs, List.forall_mem_map, List.mem_range'_1]
      intro i hi j hj heq
      obtain ⟨pa, -, -, hi'⟩ := hpair i (by omega)
      obtain ⟨pb, -, -, hj'⟩ := hpair j (by omega)
      rw [hi', hj'] at heq
      obtain rfl : i = j := Nat.add_left_cancel heq
      rfl
    · rw [ReadsFirst, hps, copyPairs, List.pairwise_map]
      refine List.Pairwise.imp_of_mem ?_ List.pairwise_lt_range'
      intro i j hi hj _ heq
      have hi := List.mem_range'_1.mp hi
      have hj := List.mem_range'_1.mp hj
      obtain ⟨pa, -, -, hi'⟩ := hpair i (by omega)
      obtain ⟨pb, -, hpb, hj'⟩ := hpair j (by omega)
      rw [hi', hj'] at heq
      dsimp only at heq
      exact absurd hpb.1 (heq ▸ (hnew i (by omega)).1)
  refine ⟨fun x hx => ?_, fun v hv hin => ?_, fun k hk => ?_⟩
  · have hx₁ := hmapped.only.toGrown.dataByte hx
    rw [hcopied.moved.bytes x (hgrown.dataByte hx₁).2, origin_of_notMem, hmapped.only.byte hx]
    rw [hps]
    simp only [copyPairs, List.forall_mem_map, List.mem_range'_1]
    intro k hk heq
    obtain ⟨pa, -, -, hk'⟩ := hpair k (by omega)
    rw [hk'] at heq
    dsimp only at heq
    exact (hnew k (by omega)).1 (heq ▸ hx.1)
  · rw [access, hun.same child hchild v hv]
    exact hmapped.placed hv hin
  · obtain ⟨pa, hpa, hpabyte, hk'⟩ := hpair k hk
    have hca := hgrown.dataByte (hnew k hk).2
    refine ⟨pa, _, hpa, ?_, ?_, ⟨by omega, by omega⟩, hca⟩
    · rw [hun.translate hchild (he.low.lt (Nat.le_of_lt hk))]
      exact hchildtr k hk
    · have hmem : (fixAlign c.block e.physAddress + k, pa) ∈ ps := by
        rw [hps, ← hk']
        exact List.mem_map_of_mem (List.mem_range'_1.mpr (by omega))
      rw [hcopied.moved.bytes _ hca.2, horigin _ hmem, hmapped.only.byte hpabyte]

/-! ## The list of entries -/

/-- No two entries use the same page. -/
def NoSharedPage (ents : List MemMapEnt) : Prop :=
  ents.Pairwise fun e e' => ∀ v, ¬ (e.OnPage v ∧ e'.OnPage v)

/-- A successful loop over a list of entries is a successful round and a
successful loop over the rest. -/
theorem copyEntries_cons {e : MemMapEnt} {ents : List MemMapEnt} {s s' : Mmu H}
    {cents : List CopiedEnt}
    (h : copyEntries A kernel strict child parent (e :: ents) s = some (0, cents, s')) :
    ∃ c s₁ cs, cents = c :: cs ∧ copyEntry A kernel strict child parent s e = some (0, c, s₁) ∧
      copyEntries A kernel strict child parent ents s₁ = some (0, cs, s') := by
  obtain ⟨⟨ret, c, s₁⟩, hstep, hrest⟩ := Option.bind_eq_some_iff.mp h
  simp only at hrest
  split at hrest
  · rename_i hret
    exact absurd (Prod.mk.inj (Option.some.inj hrest)).1 hret
  · rename_i hret
    obtain rfl : ret = 0 := not_not.mp hret
    obtain ⟨⟨ret, cs, s₂⟩, hloop, hret⟩ := Option.bind_eq_some_iff.mp hrest
    obtain ⟨hzero, hcs⟩ := Prod.mk.inj (Option.some.inj hret)
    obtain ⟨rfl, rfl⟩ := Prod.mk.inj hcs
    simp only at hzero
    subst hzero
    exact ⟨c, s₁, cs, rfl, hstep, hloop⟩

/-- The addresses of the entries are among those that the fork reads and
writes. -/
def EntsIn (V : Nat → Prop) (ents : List MemMapEnt) : Prop :=
  ∀ e ∈ ents, ∀ k < e.length, V (e.virtAddress + k)

theorem EntsIn.tail {e : MemMapEnt} {ents : List MemMapEnt} (h : EntsIn V (e :: ents)) :
    EntsIn V ents := fun e' he' => h e' (List.mem_cons_of_mem e he')

/-- The loop leaves the child's other pages alone, and all its blocks are new
and apart. -/
theorem copyEntries_low {ents : List MemMapEnt} {s s' : Mmu H} {cents : List CopiedEnt}
    (hnull : A.NeverNull) (hst : ForkState A kernel tabs V parent child s)
    (hparent : parent ∈ tabs) (hchild : child ∈ tabs) (hne : parent ≠ child)
    (hents : ∀ e ∈ ents, e.Low) (hV : EntsIn V ents)
    (h : copyEntries A kernel strict child parent ents s = some (0, cents, s')) :
    ForkState A kernel tabs V parent child s' ∧ ForkFrame A tabs child s s' ∧
      (∀ v < 4294967296, (∀ e ∈ ents, ¬ e.MapsPage v) →
        mmuMapGetTable s'.mem child v = mmuMapGetTable s.mem child v) ∧
      List.Forall₂ (BlockFresh A s) ents cents ∧ CopiesApart ents cents := by
  induction ents generalizing s cents with
  | nil =>
    obtain ⟨-, hcs⟩ := Prod.mk.inj (Option.some.inj h)
    obtain ⟨rfl, rfl⟩ := Prod.mk.inj hcs
    exact ⟨hst, ⟨Grown.refl s, fun _ _ _ _ _ => rfl⟩, fun _ _ _ => rfl, List.Forall₂.nil,
      List.Pairwise.nil⟩
  | cons e ents ih =>
    obtain ⟨c, s₁, cs, rfl, hstep, hloop⟩ := copyEntries_cons h
    obtain ⟨hst₁, hfr₁, hout₁, hfresh, hheld⟩ := copyEntry_low hnull hst hparent hchild hne
      (hents e List.mem_cons_self) (hV e List.mem_cons_self) hstep
    obtain ⟨hst', hfr', hout', hrest, hapart⟩ := ih hst₁
      (fun e' he' => hents e' (List.mem_cons_of_mem _ he')) hV.tail hloop
    refine ⟨hst', hfr₁.trans hfr', ?_,
      List.Forall₂.cons hfresh (hrest.imp fun _ _ => BlockFresh.frame hfr₁), ?_⟩
    · intro v hv hnot
      rw [hout' v hv fun e' he' => hnot e' (List.mem_cons_of_mem _ he'),
        hout₁ v hv (hnot e List.mem_cons_self)]
    · -- the first block is in use when the others are taken
      refine List.pairwise_cons.mpr ⟨fun q hq x hx => ?_, hapart⟩
      obtain ⟨hlen, hget⟩ := List.forall₂_iff_zip.mp hrest
      exact hget hq x hx.2 (hheld x hx.1)

/-- The bytes, by induction on the entries. A copied entry stays: its pages
are used by no later entry, and its block is in use. -/
theorem copyEntries_fits {ents : List MemMapEnt} {s s' : Mmu H} {cents : List CopiedEnt}
    (hnull : A.NeverNull) (hst : ForkState A kernel tabs V parent child s)
    (hparent : parent ∈ tabs) (hchild : child ∈ tabs) (hne : parent ≠ child)
    (hents : ∀ e ∈ ents, e.Fits) (hV : EntsIn V ents)
    (hsrc : ∀ e ∈ ents, SourceHeld A tabs parent s e) (hshare : NoSharedPage ents)
    (h : copyEntries A kernel strict child parent ents s = some (0, cents, s')) :
    DataKept A tabs s s' ∧ List.Forall₂ (EntryCopied A tabs parent child s s') ents cents := by
  induction ents generalizing s cents with
  | nil =>
    obtain ⟨-, hcs⟩ := Prod.mk.inj (Option.some.inj h)
    obtain ⟨rfl, rfl⟩ := Prod.mk.inj hcs
    exact ⟨fun _ _ => rfl, List.Forall₂.nil⟩
  | cons e ents ih =>
    obtain ⟨c, s₁, cs, rfl, hstep, hloop⟩ := copyEntries_cons h
    have he := hents e List.mem_cons_self
    have hVe := hV e List.mem_cons_self
    have hents' : ∀ e' ∈ ents, e'.Fits := fun e' he' => hents e' (List.mem_cons_of_mem _ he')
    obtain ⟨hfirst, hlater⟩ := List.pairwise_cons.mp hshare
    obtain ⟨hst₁, hfr₁, -⟩ := copyEntry_low hnull hst hparent hchild hne he.low hVe hstep
    obtain ⟨hbytes₁, hcopied⟩ := copyEntry_fits hnull hst hparent hchild hne he hVe
      (hsrc e List.mem_cons_self) hstep
    obtain ⟨-, hfr', hout', -, -⟩ := copyEntries_low hnull hst₁ hparent hchild hne
      (fun e' he' => (hents' e' he').low) hV.tail hloop
    obtain ⟨hbytes', hrest⟩ := ih hst₁ hents' hV.tail (fun e' he' =>
      (hsrc e' (List.mem_cons_of_mem _ he')).frame hfr₁ hparent hne (hents' e' he').low) hlater
      hloop
    refine ⟨hbytes₁.trans hfr₁.grown hbytes', List.Forall₂.cons ?_ ?_⟩
    · -- no later entry uses its pages
      have hsame : ∀ v < 4294967296, e.OnPage v →
          mmuMapGetTable s'.mem child v = mmuMapGetTable s₁.mem child v :=
        fun v hv hon => hout' v hv fun e' he' hmaps =>
          hfirst e' he' v ⟨hon, (hents' e' he').low.onPage hv hmaps⟩
      refine ⟨fun v hv hin => ?_, fun k hk => ?_⟩
      · rw [access, hsame v hv (he.low.onPage hv hin)]
        exact hcopied.placed v hv hin
      · obtain ⟨pa, ca, hpa, hca, hbyte, hin, hdata⟩ := hcopied.bytes k hk
        refine ⟨pa, ca, hpa, ?_, (hbytes' ca hdata).trans hbyte, hin, hfr'.grown.dataByte hdata⟩
        rw [translate, hsame _ (he.low.lt (Nat.le_of_lt hk)) ⟨k, hk, rfl⟩]
        exact hca
    · refine List.forall₂_iff_get.mpr ⟨hrest.length_eq, ?_⟩
      intro i hi hi'
      have hold := hrest.get hi hi'
      refine ⟨hold.placed, fun k hk => ?_⟩
      have hmem := List.get_mem ents ⟨i, hi⟩
      obtain ⟨pa, ca, hpa, hca, hbyte, hrest⟩ := hold.bytes k hk
      simp only [List.get_eq_getElem] at hmem hk hpa
      rw [hfr₁.translate hparent hne ((hents' _ hmem).low.lt (Nat.le_of_lt hk))] at hpa
      refine ⟨pa, ca, hpa, hca, hbyte.trans (hbytes₁ pa ?_), hrest⟩
      exact hsrc _ (List.mem_cons_of_mem _ hmem) k hk pa hpa

end Entry

/-- A block is taken from the heap. -/
theorem ForkState.granted {V : Nat → Prop} {parent child sz align r : Nat} {s : Mmu H} {heap : H}
    (hst : ForkState A kernel tabs V parent child s)
    (hkam : A.kamalloc s.heap sz align = some (r, heap)) :
    ForkState A kernel tabs V parent child { s with heap := heap } :=
  have hgrown := (OnlyTables.granted hkam ⟨Grown.refl _, fun _ _ => rfl⟩).toGrown
  ⟨hst.tables.granted hkam, fun x hx => A.keeps hkam (hst.heapLow x hx), hst.low,
    hst.parentData.kept hgrown fun _ _ => rfl, hst.childData.kept hgrown fun _ _ => rfl⟩

/-- Success of `proc_copy_data` is success of its loop, from a state with the
array of entries taken. -/
theorem procCopyData_run {V : Nat → Prop} {parent child : Nat} {ents : List MemMapEnt}
    {s s' : Mmu H} {cents : List CopiedEnt} (hst : ForkState A kernel tabs V parent child s)
    (h : procCopyData A kernel strict child parent ents s = some (0, cents, s')) :
    ∃ s₁, ForkState A kernel tabs V parent child s₁ ∧ Grown A tabs s s₁ ∧ s₁.mem = s.mem ∧
      copyEntries A kernel strict child parent ents s₁ = some (0, cents, s') := by
  obtain ⟨⟨list, heap⟩, hkam, hrest⟩ := Option.bind_eq_some_iff.mp h
  simp only at hrest
  split at hrest
  · cases (Prod.mk.inj (Option.some.inj hrest)).1
  · exact ⟨{ s with heap := heap }, hst.granted hkam,
      (OnlyTables.granted hkam ⟨Grown.refl _, fun _ _ => rfl⟩).toGrown, rfl, hrest⟩

end Spec

end LambdaOs
