import LambdaOs.PagingRefused

/-!
# `mmap`

`mm/mmap.c`: an anonymous mapping takes a block from the heap and maps it
into the caller's table, at the caller's address when the mapping is fixed.
The block is not checked: a request the heap refuses is mapped to physical
address `0` and up. Nor is the address: a fixed mapping may lie in the
kernel's part.

`mmap_safe_iff` says exactly when a call hands out only fresh memory.
-/

namespace LambdaOs

/-! ## The call -/

/-- `struct kproc_mem_map_ent`; a process's list is a `List`. -/
structure MemMapEnt where
  virtAddress : Nat
  physAddress : Nat
  length : Nat
deriving Repr, DecidableEq

def mmapFlagFixed : Nat := 0x10
def mmapFlagAnonymous : Nat := 0x20

def mmapProtRead : Nat := 1
def mmapProtWrite : Nat := 2
def mmapProtExec : Nat := 4

/-- The arguments of `mmap`; `filedes` is not used. -/
structure MmapArgs where
  addr : Nat
  len : Nat
  prot : Nat
  flags : Nat
  off : Nat
deriving Repr, DecidableEq

/-- `len` rounded up to whole pages, in 32 bits. -/
def mmapLen (len : Nat) : Nat :=
  if len % pageSz ≠ 0 then u32 (pageMask len + pageSz) else len

def mmapMmuFlags (prot : Nat) : Nat :=
  (if prot &&& mmapProtRead ≠ 0 then mmuFlagRead else 0)
    ||| (if prot &&& mmapProtWrite ≠ 0 then mmuFlagWrite else 0)
    ||| (if prot &&& mmapProtExec ≠ 0 then mmuFlagExec else 0)

/-- Where the block at `phys` is mapped. -/
def mmapVirt (a : MmapArgs) (phys : Nat) : Nat :=
  if a.flags &&& mmapFlagFixed ≠ 0 then a.addr else phys

/-- A fixed mapping at an address that is not page aligned. -/
def MmapArgs.Misplaced (a : MmapArgs) : Prop :=
  a.flags &&& mmapFlagFixed ≠ 0 ∧ a.addr % pageSz ≠ 0

instance (a : MmapArgs) : Decidable a.Misplaced := inferInstanceAs (Decidable (_ ∧ _))

/-- The return value, and the caller's memory and list of mappings. -/
structure MmapResult (H : Type) where
  ret : Nat
  mmu : Mmu H
  ents : List MemMapEnt

/-- `sizeof(struct kproc_mem_map_ent)`. -/
def memMapEntSize : Nat := 16

section Mmap

variable {H : Type} (A : PageHeap H) (kernel : Nat)

/-- The list grows if `kmalloc` has room for the entry. -/
def mmProcMmapAdd (s : Mmu H) (ents : List MemMapEnt) (phys virt sz : Nat) :
    Option (Mmu H × List MemMapEnt) := do
  let (ent, heap) ← A.kamalloc s.heap memMapEntSize minAlign
  return ({ s with heap := heap }, if ent = 0 then ents else ents ++ [⟨virt, phys, sz⟩])

/-- `mmap` in a process with MMU table `table` and mappings `ents`. -/
def mmap (table : Nat) (s : Mmu H) (ents : List MemMapEnt) (a : MmapArgs) :
    Option (MmapResult H) :=
  if a.flags &&& mmapFlagAnonymous = 0 then some ⟨0, s, ents⟩
  else if a.off % pageSz ≠ 0 then some ⟨0xFFFFFFFF, s, ents⟩
  else do
    let (phys, heap) ← A.kamalloc s.heap (mmapLen a.len) pageSz
    if a.Misplaced then return ⟨0, { s with heap := heap }, ents⟩
    let virt := mmapVirt a phys
    let s ← mmuMapTable A kernel { s with heap := heap } table virt phys (mmapLen a.len)
      (mmapMmuFlags a.prot)
    let (s, ents) ← mmProcMmapAdd A s ents phys virt (mmapLen a.len)
    return ⟨virt, s, ents⟩

/-! ## What it should do -/

/-- The block obtained for this call. -/
def mmapBlock (s : Mmu H) (a : MmapArgs) : Option Nat :=
  if a.flags &&& mmapFlagAnonymous = 0 ∨ a.off % pageSz ≠ 0 then none
  else (A.kamalloc s.heap (mmapLen a.len) pageSz).bind fun ph =>
    if ph.1 = 0 then none else some ph.1

/-- Only fresh memory is handed out: a page whose translation changes is
mapped into the block of this call, no kernel translation changes, and
without a block the call fails and changes nothing. -/
structure MmapSafe (table : Nat) (s : Mmu H) (ents : List MemMapEnt) (a : MmapArgs)
    (r : MmapResult H) : Prop where
  fresh : ∀ v < 4294967296, mmuMapGetTable r.mmu.mem table v ≠ mmuMapGetTable s.mem table v →
    ∃ block flags frame, mmapBlock A s a = some block ∧
      mmuMapGetTable r.mmu.mem table v = .ok (flags, frame) ∧
      block ≤ frame ∧ frame + pageSz ≤ block + mmapLen a.len
  kernel : ∀ v, kernelOffset ≤ v → v < 4294967296 →
    mmuMapGetTable r.mmu.mem table v = mmuMapGetTable s.mem table v
  noBlock : mmapBlock A s a = none → r.ret = 0 ∧ r.ents = ents ∧
    ∀ v < 4294967296, mmuMapGetTable r.mmu.mem table v = mmuMapGetTable s.mem table v

/-- The page of `v` is one of the range. -/
def RangeCovers (virt size v : Nat) : Prop :=
  ∃ off, off % 4096 = 0 ∧ off < size ∧ v / 4096 = u32 (pageMask virt + off) / 4096

/-- A page of the range lies in the directory slot of `v`. -/
def RangeReaches (virt size v : Nat) : Prop :=
  ∃ off, off % 4096 = 0 ∧ off < size ∧ pdindex (u32 (pageMask virt + off)) = pdindex v

/-- The pages of the range from `bound` on are mapped already, as the call
would map them, and the rest of each kernel slot the range reaches into reads
as in the kernel's table. -/
structure RangeMapped (m : PageMem) (table virt phys size flags bound : Nat) : Prop where
  pages : ∀ off, off % 4096 = 0 → off < size → bound ≤ u32 (pageMask virt + off) →
    mmuMapGetTable m table (u32 (pageMask virt + off)) =
      .ok (mmuFlagRead ||| (flags &&& mmuFlagWrite) ||| (flags &&& mmuFlagKernel),
        u32 (pageMask phys + off))
  rest : ∀ v, kernelOffset ≤ v → v < 4294967296 → RangeReaches virt size v →
    ¬ RangeCovers virt size v → mmuMapGetTable m table v = mmuMapGetTable m kernel v

/-- When a call is safe. It asks for no anonymous mapping, or its offset is
aligned and either it is misplaced, or the heap grants a block and the kernel's
pages of the range are mapped to it already; or, without a block, the range
begins at address `0` with every page of it mapped to its own address already,
and the heap has no room for the list entry either. -/
def MmapOk (table : Nat) (s : Mmu H) (a : MmapArgs) : Prop :=
  a.flags &&& mmapFlagAnonymous = 0 ∨ a.off % pageSz = 0 ∧ (a.Misplaced ∨
    ∀ phys heap, A.kamalloc s.heap (mmapLen a.len) pageSz = some (phys, heap) →
      (phys ≠ 0 → RangeMapped kernel s.mem table (mmapVirt a phys) phys (mmapLen a.len)
        (mmapMmuFlags a.prot) kernelOffset) ∧
      (phys = 0 → mmapVirt a 0 = 0 ∧
        RangeMapped kernel s.mem table 0 0 (mmapLen a.len) (mmapMmuFlags a.prot) 0 ∧
        ∀ ent heap', A.kamalloc heap memMapEntSize minAlign = some (ent, heap') → ent = 0))

/-! ## When it does -/

variable {A kernel} {tabs : List Nat}

section Answer

variable {m : PageMem} {T virt phys size flags : Nat}

/-- A page of the range. -/
theorem mapAnswer_page (hsize : size ≤ 0xFFFFF000) {off v : Nat} (hal : off % 4096 = 0)
    (hlt : off < size) (hv : v / 4096 = u32 (pageMask virt + off) / 4096) :
    mapAnswer m kernel T virt phys size flags v =
      .ok (mmuFlagRead ||| (flags &&& mmuFlagWrite) ||| (flags &&& mmuFlagKernel),
        u32 (pageMask phys + off)) := by
  have hoffs : pageOffs size = some _ := if_pos hsize
  rw [mapAnswer, hoffs, Option.getD_some, readAfterMap,
    lastWrite_of_mem (b := pageWord (u32 (pageMask phys + off)) (pageFlags flags))
      ⟨off, (mem_pageOffs hoffs).mpr ⟨hal, hlt⟩, hv⟩ ?_]
  · exact entryAnswer_pageWord (u32_lt _) (page_off phys off hal)
  · intro o ho hhit
    obtain ⟨hal', hlt'⟩ := (mem_pageOffs hoffs).mp ho
    have hmask := pageMask_aligned virt
    -- the range is shorter than the address space
    obtain rfl : o = off := by
      rw [hv] at hhit
      simp only [u32] at hhit
      omega
    rfl

/-- An address on no page of the range. -/
theorem mapAnswer_rest (hsize : size ≤ 0xFFFFF000) {v : Nat} (hno : ¬ RangeCovers virt size v) :
    (kernelOffset ≤ v → RangeReaches virt size v →
      mapAnswer m kernel T virt phys size flags v = mmuMapGetTable m kernel v) ∧
    (¬ (kernelOffset ≤ v ∧ RangeReaches virt size v) →
      mapAnswer m kernel T virt phys size flags v = mmuMapGetTable m T v) := by
  have hoffs : pageOffs size = some _ := if_pos hsize
  have hlast : mapAnswer m kernel T virt phys size flags v =
      entryAnswer (if TouchesSlot (pageMask virt) ((pageOffs size).getD []) v then
        pgdirGetPageEntry m kernel v else pgdirGetPageEntry m T v) := by
    rw [mapAnswer, readAfterMap, lastWrite_of_forall_not]
    intro off hoff hhit
    rw [hoffs, Option.getD_some] at hoff
    obtain ⟨hal, hlt⟩ := (mem_pageOffs hoffs).mp hoff
    exact hno ⟨off, hal, hlt, hhit⟩
  rw [hlast, hoffs, Option.getD_some]
  constructor
  · intro hvk hreach
    obtain ⟨off, hal, hlt, hpd⟩ := hreach
    rw [← kernelSlot_le_pdindex, ← hpd, kernelSlot_le_pdindex] at hvk
    rw [if_pos ⟨off, (mem_pageOffs hoffs).mpr ⟨hal, hlt⟩, hvk, hpd⟩, mmuMapGetTable]
  · intro hnot
    rw [if_neg, mmuMapGetTable]
    intro htouch
    obtain ⟨off, hoff, -, hpd⟩ := id htouch
    obtain ⟨hal, hlt⟩ := (mem_pageOffs hoffs).mp hoff
    exact hnot ⟨htouch.above, off, hal, hlt, hpd⟩

end Answer

variable {s s' : Mmu H} {table virt phys size flags : Nat}

theorem mmuMapTable_size (h : mmuMapTable A kernel s table virt phys size flags = some s') :
    size ≤ 0xFFFFF000 := by
  obtain ⟨offs, hoffs, -⟩ := Option.bind_eq_some_iff.mp h
  exact pageOffs_le hoffs

/-- **When mapping a range changes nothing** from `bound` on: when the range is
mapped already. -/
theorem mapped_iff (hr : MapReady A kernel table tabs s)
    (h : mmuMapTable A kernel s table virt phys size flags = some s') {bound : Nat}
    (hslot : bound % 4194304 = 0) (hle : bound ≤ kernelOffset) :
    (∀ v, bound ≤ v → v < 4294967296 →
      mmuMapGetTable s'.mem table v = mmuMapGetTable s.mem table v) ↔
      RangeMapped kernel s.mem table virt phys size flags bound := by
  have hsize := mmuMapTable_size h
  have hbound : ∀ v w, pdindex v = pdindex w → bound ≤ w → bound ≤ v := by
    intro v w hpd hw
    rw [pdindex_eq, pdindex_eq] at hpd
    omega
  constructor
  · intro hsame
    -- a slot that had no page table would show the range now
    have hfilled : ∀ off, off % 4096 = 0 → off < size → bound ≤ u32 (pageMask virt + off) →
        SlotFilled kernel table s.mem (pdindex (u32 (pageMask virt + off))) := by
      intro off hal hlt hb
      by_contra hf
      obtain ⟨v, hv, hpd, hne⟩ := mmuMapTable_asked hr h hal hlt hf
      exact hne (hsame v (hbound v _ hpd hb) hv)
    refine ⟨?_, ?_⟩
    · intro off hal hlt hb
      rw [← hsame _ hb (u32_lt _), mmuMapTable_filled hr h (u32_lt _) (hfilled off hal hlt hb),
        mapAnswer_page hsize hal hlt rfl]
    · intro v hvk hv hreach hno
      have hf : SlotFilled kernel table s.mem (pdindex v) := by
        obtain ⟨off, hal, hlt, hpd⟩ := hreach
        rw [← hpd]
        exact hfilled off hal hlt (hbound _ v hpd (Nat.le_trans hle hvk))
      rw [← hsame v (Nat.le_trans hle hvk) hv, mmuMapTable_filled hr h hv hf,
        (mapAnswer_rest hsize hno).1 hvk hreach]
  · intro hok v hb hv
    by_cases hcov : RangeCovers virt size v
    · obtain ⟨off, hal, hlt, hpage⟩ := hcov
      have hpd : pdindex (u32 (pageMask virt + off)) = pdindex v := (index_eq_iff.mpr hpage).1.symm
      have hold := hok.pages off hal hlt (hbound _ v hpd hb)
      -- a page that is mapped has a page table
      have hf : SlotFilled kernel table s.mem (pdindex v) := by
        by_contra hf
        rw [← mmuMapGetTable_page _ _ hpage, (hr.slotEmpty (pdindex_lt hv) hf).get] at hold
        exact nomatch hold
      rw [mmuMapTable_filled hr h hv hf, mapAnswer_page hsize hal hlt hpage,
        mmuMapGetTable_page _ _ hpage, hold]
    · by_cases hf : SlotFilled kernel table s.mem (pdindex v)
      · rw [mmuMapTable_filled hr h hv hf]
        by_cases hk : kernelOffset ≤ v ∧ RangeReaches virt size v
        · rw [(mapAnswer_rest hsize hcov).1 hk.1 hk.2, hok.rest v hk.1 hv hk.2 hcov]
        · exact (mapAnswer_rest hsize hcov).2 hk
      · refine mmuMapTable_untouched hr h hv hf fun off hal hlt hpd => hf ?_
        -- its page of the range is mapped, and so the slot has a page table
        have hold := hok.pages off hal hlt (hbound _ v hpd hb)
        by_contra hf'
        rw [← hpd] at hf'
        rw [(hr.slotEmpty (pdindex_lt (u32_lt _)) hf').get] at hold
        exact nomatch hold

/-- Every slot of a range that is mapped has a page table. -/
theorem RangeMapped.filled (hr : MapReady A kernel table tabs s)
    (h : RangeMapped kernel s.mem table virt phys size flags 0) {off : Nat} (hal : off % 4096 = 0)
    (hlt : off < size) : SlotFilled kernel table s.mem (pdindex (u32 (pageMask virt + off))) := by
  have hold := h.pages off hal hlt (Nat.zero_le _)
  by_contra hf
  rw [(hr.slotEmpty (pdindex_lt (u32_lt _)) hf).get] at hold
  exact nomatch hold

theorem mmapLen_aligned {len : Nat} : mmapLen len % 4096 = 0 := by
  have hal := pageMask_aligned len
  unfold mmapLen
  split
  · simp only [pageSz, u32]
    omega
  · rename_i h
    simpa [pageSz] using h

/-- Below the kernel, a page whose answer changes is mapped into the block. -/
theorem mapped_low (hr : MapReady A kernel table tabs s)
    (h : mmuMapTable A kernel s table virt phys size flags = some s') {v : Nat}
    (hv : v < kernelOffset) (hphys : phys % 4096 = 0) (hfits : phys + size ≤ 4294967296)
    (hsz : size % 4096 = 0)
    (hne : mmuMapGetTable s'.mem table v ≠ mmuMapGetTable s.mem table v) :
    ∃ fl frame, mmuMapGetTable s'.mem table v = .ok (fl, frame) ∧
      phys ≤ frame ∧ frame + pageSz ≤ phys + size := by
  have hsize := mmuMapTable_size h
  have hlt : v < 4294967296 := Nat.lt_trans hv (by decide)
  have hblock : ∀ off, off % 4096 = 0 → off < size →
      phys ≤ u32 (pageMask phys + off) ∧ u32 (pageMask phys + off) + pageSz ≤ phys + size := by
    intro off hal hoff
    rw [pageMask_of_aligned (by omega) hphys, u32_of_lt (by omega), pageSz]
    omega
  by_cases hf : SlotFilled kernel table s.mem (pdindex v)
  · rw [mmuMapTable_filled hr h hlt hf] at hne ⊢
    by_cases hcov : RangeCovers virt size v
    · obtain ⟨off, hal, hoff, hpage⟩ := hcov
      exact ⟨_, _, mapAnswer_page hsize hal hoff hpage, hblock off hal hoff⟩
    · exact absurd ((mapAnswer_rest hsize hcov).2 fun hk => absurd hk.1 (Nat.not_le.mpr hv)) hne
  · rcases mmuMapTable_empty hr h hlt hf with herr | ⟨off, hal, hoff, hans⟩
    · rw [herr, (hr.slotEmpty (pdindex_lt hlt) hf).get] at hne
      exact absurd rfl hne
    · exact ⟨_, _, hans, hblock off hal hoff⟩

/-- **When `mmap` hands out only fresh memory.** For every call, whatever the
heap answers. -/
theorem mmap_safe_iff {ents : List MemMapEnt} {a : MmapArgs} {r : MmapResult H}
    (hr : MapReady A kernel table tabs s) (h : mmap A kernel table s ents a = some r) :
    MmapSafe A table s ents a r ↔ MmapOk A kernel table s a := by
  unfold mmap at h
  by_cases hanon : a.flags &&& mmapFlagAnonymous = 0
  · rw [if_pos hanon] at h
    obtain rfl := Option.some.inj h
    exact ⟨fun _ => Or.inl hanon,
      fun _ => ⟨fun _ _ hne => absurd rfl hne, fun _ _ _ => rfl,
        fun _ => ⟨rfl, rfl, fun _ _ => rfl⟩⟩⟩
  rw [if_neg hanon] at h
  by_cases hoff : a.off % pageSz = 0
  swap
  · -- an offset that is not aligned: the call returns `-1`
    rw [if_pos hoff] at h
    obtain rfl := Option.some.inj h
    have hnone : mmapBlock A s a = none := if_pos (Or.inr hoff)
    exact ⟨fun hsafe => absurd (hsafe.noBlock hnone).1 (by simp),
      fun hok => (hok.elim hanon fun hc => hoff hc.1).elim⟩
  rw [if_neg (not_not.mpr hoff)] at h
  obtain ⟨⟨phys, heap⟩, hkam, h⟩ := Option.bind_eq_some_iff.mp h
  have hblock : mmapBlock A s a = if phys = 0 then none else some phys := by
    rw [mmapBlock, if_neg (not_or.mpr ⟨hanon, not_not.mpr hoff⟩), hkam]
    rfl
  by_cases hmis : a.Misplaced
  · simp only [if_pos hmis] at h
    obtain rfl := Option.some.inj h
    exact ⟨fun _ => Or.inr ⟨hoff, Or.inl hmis⟩,
      fun _ => ⟨fun _ _ hne => absurd rfl hne, fun _ _ _ => rfl,
        fun _ => ⟨rfl, rfl, fun _ _ => rfl⟩⟩⟩
  simp only [if_neg hmis] at h
  obtain ⟨s₁, hmap, h⟩ := Option.bind_eq_some_iff.mp h
  obtain ⟨⟨s₂, ents₂⟩, hadd, hret⟩ := Option.bind_eq_some_iff.mp h
  obtain ⟨⟨ent, heap₂⟩, hent, hadd⟩ := Option.bind_eq_some_iff.mp hadd
  obtain ⟨rfl, rfl⟩ := Prod.mk.inj (Option.some.inj hadd)
  obtain rfl := Option.some.inj hret
  have hr' := hr.granted hkam
  by_cases hphys : phys = 0
  · subst hphys
    rw [if_pos rfl] at hblock
    constructor
    · intro hsafe
      obtain ⟨hret, hents, hsame⟩ := hsafe.noBlock hblock
      simp only at hret hents hsame
      rw [hret] at hmap
      have hmapped := (mapped_iff hr' hmap (Nat.zero_mod _) (Nat.zero_le _)).mp
        fun v _ hv => hsame v hv
      -- the call asked for no page table, so the heap is the one before it
      have hheap : s₁.heap = heap :=
        mmuMapTable_heap hr' hmap fun off hal hlt => hmapped.filled hr' hal hlt
      have hzero : ent = 0 := by
        by_contra hne
        simp [hne] at hents
      refine Or.inr ⟨hoff, Or.inr ?_⟩
      intro phys' heap' hkam'
      obtain ⟨rfl, rfl⟩ := Prod.mk.inj (Option.some.inj (hkam'.symm.trans hkam))
      refine ⟨fun hne => absurd rfl hne, fun _ => ⟨hret, hmapped, ?_⟩⟩
      intro ent' h' hent'
      rw [hheap] at hent
      obtain ⟨rfl, -⟩ := Prod.mk.inj (Option.some.inj (hent'.symm.trans hent))
      exact hzero
    · intro hok
      obtain ⟨hvirt, hmapped, hroom⟩ :=
        ((hok.resolve_left hanon).2.resolve_left hmis 0 heap hkam).2 rfl
      rw [hvirt] at hmap
      have hheap : s₁.heap = heap :=
        mmuMapTable_heap hr' hmap fun off hal hlt => RangeMapped.filled hr' hmapped hal hlt
      rw [hheap] at hent
      obtain rfl : ent = 0 := hroom _ _ hent
      have hsame := fun v => (mapped_iff hr' hmap (Nat.zero_mod _) (Nat.zero_le _)).mpr hmapped v
        (Nat.zero_le _)
      exact ⟨fun v hv hne => absurd (hsame v hv) hne, fun v _ hv => hsame v hv,
        fun _ => ⟨hvirt, rfl, hsame⟩⟩
  · rw [if_neg hphys] at hblock
    obtain ⟨hal, hfits, -⟩ := A.fresh_pages hkam hphys mmapLen_aligned
    have hiff := mapped_iff hr' hmap (by decide) (Nat.le_refl kernelOffset)
    constructor
    · intro hsafe
      refine Or.inr ⟨hoff, Or.inr ?_⟩
      intro phys' heap' hkam'
      obtain ⟨rfl, rfl⟩ := Prod.mk.inj (Option.some.inj (hkam'.symm.trans hkam))
      exact ⟨fun _ => hiff.mp hsafe.kernel, fun hzero => absurd hzero hphys⟩
    · intro hok
      have hkern := hiff.mpr (((hok.resolve_left hanon).2.resolve_left hmis phys heap hkam).1 hphys)
      refine ⟨?_, hkern, fun hnone => by simp [hblock] at hnone⟩
      intro v hv hne
      have hlow : v < kernelOffset := Nat.lt_of_not_le fun hvk => hne (hkern v hvk hv)
      obtain ⟨fl, frame, hans, hlo, hhi⟩ := mapped_low hr' hmap hlow hal hfits mmapLen_aligned hne
      exact ⟨phys, fl, frame, hblock, hans, hlo, hhi⟩

/-- A range below the kernel. -/
theorem RangeMapped.of_low {m : PageMem}
    (hlow : ∀ off, off % 4096 = 0 → off < size → u32 (pageMask virt + off) < kernelOffset) :
    RangeMapped kernel m table virt phys size flags kernelOffset := by
  refine ⟨fun off hal hlt hb => absurd hb (Nat.not_le.mpr (hlow off hal hlt)), ?_⟩
  rintro v hvk - ⟨off, hal, hlt, hpd⟩ -
  rw [← kernelSlot_le_pdindex, ← hpd, kernelSlot_le_pdindex] at hvk
  exact absurd hvk (Nat.not_le.mpr (hlow off hal hlt))

end Mmap

/-! ## On the boot heap -/

/-- A fixed, writable mapping at `0x8000000`. -/
def fixedArgs (len : Nat) : MmapArgs :=
  ⟨0x8000000, len, mmapProtRead ||| mmapProtWrite, mmapFlagFixed ||| mmapFlagAnonymous, 0⟩

/-- The boot heap with one page left. -/
def lowTable : { t : Table // TableOk 0x400000 0x410000 t } :=
  ((bootKernelHeap.kamalloc bootTable 0xF000 0x1000).map (·.2)).getD bootTable

theorem zeroPages_ready (t : { t : Table // TableOk 0x400000 0x410000 t }) :
    MapReady bootKernelHeap 0x2000 0x1000 [0x1000, 0x2000] ⟨zeroPages, t⟩ := by
  have habs : ∀ T i, ¬ Present (zeroPages T i) := by simp [zeroPages, Present]
  refine ⟨zeroPages_tables 0x2000 t (by simp), by simp, by simp,
    fun i _ h => absurd h (habs 0x1000 i),
    ?_⟩
  rintro (h | ⟨T, -, i, -, h, -⟩)
  · simp at h
  · exact habs T i h

set_option maxRecDepth 100000 in
/-- One page, from a heap that has it. -/
theorem mmap_safe_iff_boot :
    ∃ r, mmap bootKernelHeap 0x2000 0x1000 bootMmu [] (fixedArgs 0x1000) = some r ∧
      r.ret = 0x8000000 ∧ MmapSafe bootKernelHeap 0x1000 bootMmu [] (fixedArgs 0x1000) r := by
  have hrun : ((mmap bootKernelHeap 0x2000 0x1000 bootMmu [] (fixedArgs 0x1000)).any
      fun r => r.ret = 0x8000000) = true := by
    decide +kernel
  have hgrant : ((bootKernelHeap.kamalloc bootTable 0x1000 0x1000).all fun ph => ph.1 ≠ 0)
      = true := by
    decide +kernel
  obtain ⟨r, hr, hret⟩ := (Option.any_eq_true _ _).mp hrun
  refine ⟨r, hr, of_decide_eq_true hret, (mmap_safe_iff (zeroPages_ready bootTable) hr).mpr ?_⟩
  refine Or.inr ⟨rfl, Or.inr fun phys heap hkam => ⟨fun _ => ?_, ?_⟩⟩
  · have hvirt : mmapVirt (fixedArgs 0x1000) phys = 0x8000000 := if_pos (by decide)
    rw [hvirt]
    refine RangeMapped.of_low fun off hal hlt => ?_
    obtain rfl : off = 0 := by
      have hlen : off < 0x1000 := hlt
      omega
    decide
  · rintro rfl
    have hkam : bootKernelHeap.kamalloc bootTable 0x1000 0x1000 = some (0, heap) := hkam
    simp [hkam] at hgrant

set_option maxRecDepth 100000 in
/-- Two pages, from a heap with one: the call succeeds, and the caller's pages
are the first two of physical memory. -/
theorem mmap_exposes_low_memory :
    ¬ ∀ (s : Mmu { t : Table // TableOk 0x400000 0x410000 t }) (ents : List MemMapEnt)
      (a : MmapArgs) (r : MmapResult { t : Table // TableOk 0x400000 0x410000 t }),
      MapReady bootKernelHeap 0x2000 0x1000 [0x1000, 0x2000] s →
      mmap bootKernelHeap 0x2000 0x1000 s ents a = some r →
      MmapSafe bootKernelHeap 0x1000 s ents a r := by
  intro hall
  have hrun : ((mmap bootKernelHeap 0x2000 0x1000 ⟨zeroPages, lowTable⟩ [] (fixedArgs 0x2000)).any
      fun r => r.ret = 0x8000000 ∧
        mmuMapGetTable r.mmu.mem 0x1000 0x8001000 = .ok (mmuFlagRead ||| mmuFlagWrite, 0x1000))
      = true := by
    decide +kernel
  obtain ⟨r, hr, hret⟩ := (Option.any_eq_true _ _).mp hrun
  have hnone : mmapBlock bootKernelHeap ⟨zeroPages, lowTable⟩ (fixedArgs 0x2000) = none := by
    decide +kernel
  have hzero := ((hall _ _ _ r (zeroPages_ready lowTable) hr).noBlock hnone).1
  rw [(of_decide_eq_true hret).1] at hzero
  cases hzero

end LambdaOs
