import LambdaOs.ElfExec
import LambdaOs.ModulePlace
import LambdaOs.PagingGlobal

/-!
# A module in memory

`_module_place` of `mod/module.c` with the memory it works on: the two areas
are blocks of the kernel's heap, which `_alloc_map` maps into the current
table behind each other, the sections are copied to the blocks, at the blocks'
own addresses, and the words are relocated through the mapping.

The first page is mapped without the writable flag, to catch null pointers,
so a store to a block that was not granted does not return.

Once the areas are mapped and filled, every byte of a placed section reads as
the file has it (`sectByte`), through the current table: `placed_bytes`.
-/

namespace LambdaOs

/-! ## The two areas -/

/-- `sizeof(elf_reloc_t)`. -/
def relocEntSize : Nat := 16

def allocMapFlags : Nat := mmuFlagRead ||| mmuFlagWrite ||| mmuFlagExec ||| mmuFlagKernel

/-- The store of `n` bytes does not fault for its address. -/
def Storable (dest n : Nat) : Prop := n = 0 ∨ pageSz ≤ dest

instance (dest n : Nat) : Decidable (Storable dest n) := inferInstanceAs (Decidable (_ ∨ _))

section Areas

variable {H : Type} (A : PageHeap H) (kernel current : Nat)

/-- A page table that is not granted is cleared at address 0, and faults. -/
def allocMap (s : Machine H) (virt len : Nat) : Option (Nat × Machine H) := do
  let (paddr, heap) ← A.kamalloc s.mmu.heap len 0x1000
  let mmu ← mmuMapTable A.served kernel { s.mmu with heap := heap } current virt paddr len
    allocMapFlags
  return (paddr, { s with mmu := mmu })

/-- `relocs`, and the two areas: `prog_phys` and `nobits_phys`. -/
def allocAreas (z : Sizing) (s : Machine H) : Option (Nat × Nat × Machine H) := do
  let (relocs, heap) ← A.kamalloc s.mmu.heap (u32 (u32 (z.nRelocs + 1) * relocEntSize)) minAlign
  let (progPhys, s) ← allocMap A kernel current { s with mmu := { s.mmu with heap := heap } }
    z.areas.progBase z.areas.progSize
  let (nobitsPhys, s) ← allocMap A kernel current s z.areas.nobitsBase z.areas.nobitsSize
  -- there is an entry to store, at least the last
  if Storable relocs relocEntSize ∧ Storable nobitsPhys z.areas.nobitsSize then
    return (progPhys, nobitsPhys,
      { s with bytes := memset s.bytes nobitsPhys 0 z.areas.nobitsSize })
  else none

end Areas

/-- The entries up to the last, as `_get_reloc` goes over them. -/
def relocList (stores : List (Reloc × Nat)) : List ElfReloc :=
  ((stores.map Prod.fst).takeWhile fun r => r.sect ≠ 0xFFFFFFFF).map fun r =>
    ⟨r.sect, r.addrVirt, r.size⟩

/-- The second loop. -/
def fillAreas {H : Type} (elf : List UInt8) (a : Areas) (progPhys nobitsPhys : Nat)
    (s : Machine H) : Option (List ElfReloc × Machine H) :=
  let p := placeSections elf a progPhys nobitsPhys (elfSections elf) s.bytes
  if ∀ st ∈ p.stores, (elfSection elf st.1.sect).shdr.type = .progbits →
      Storable st.1.addrPhys st.1.size then
    some (relocList p.stores, { s with bytes := p.bytes })
  else none

/-! ## Words at virtual addresses -/

section Virt

variable (m : PageMem) (current : Nat)

def virtByte (bytes : Nat → Nat) (v : Nat) : Option Nat := (translate m current v).map bytes

def virtWord (bytes : Nat → Nat) (v : Nat) : Option Nat := do
  let b0 ← virtByte m current bytes (u32 v)
  let b1 ← virtByte m current bytes (u32 (v + 1))
  let b2 ← virtByte m current bytes (u32 (v + 2))
  let b3 ← virtByte m current bytes (u32 (v + 3))
  return b0 + 256 * b1 + 65536 * (b2 + 256 * b3)

/-- A page that is not writable is not stored to. -/
def virtStore (bytes : Nat → Nat) (v b : Nat) : Option (Nat → Nat) :=
  match mmuMapGetTable m current v with
  | .ok (flags, frame) =>
      if flags &&& mmuFlagWrite = 0 then none
      else some (Function.update bytes (frame + v % 4096) b)
  | .error _ => none

def virtStoreWord (bytes : Nat → Nat) (v w : Nat) : Option (Nat → Nat) := do
  let bytes ← virtStore m current bytes (u32 v) (w % 256)
  let bytes ← virtStore m current bytes (u32 (v + 1)) (w / 256 % 256)
  let bytes ← virtStore m current bytes (u32 (v + 2)) (w / 65536 % 256)
  virtStore m current bytes (u32 (v + 3)) (w / 16777216 % 256)

/-- What `_do_reloc` does at `dataaddr`. -/
def relocStore (bytes : Nat → Nat) (write : RelocWrite) : Option (Nat → Nat) := do
  let old ← virtWord m current bytes write.addr
  virtStoreWord m current bytes write.addr (write.word old)

end Virt

/-! ## Placing -/

section Place

variable {H : Type} (A : PageHeap H) (kernel : Nat) (exports : List (List UInt8 × Nat))
  (loaded : List ModuleEnt)

/-- The table of symbols and the machine it leaves; the outer `none` is a
fault, the inner one a null pointer. -/
def modulePlaceMem (elf : List UInt8) (baseaddr : Nat) (symbols : List Symbol) (current : Nat)
    (s : Machine H) : Option (Option (List Symbol × Machine H)) :=
  match sizeSections (elfSections elf) baseaddr with
  | none => some none
  | some z => do
      let (progPhys, nobitsPhys, s) ← allocAreas A kernel current z s
      let (relocs, s) ← fillAreas elf z.areas progPhys nobitsPhys s
      let symbols := translateSymbols relocs symbols
      match ← moduleApplyRelocs exports loaded elf relocs symbols (elfSections elf) with
      | .error _ => return none
      | .ok writes =>
          let bytes ← writes.foldlM (relocStore s.mmu.mem current) s.bytes
          match elfFindSectionIdx elf lambdaModuleSectionName with
          | .error _ => return none
          | .ok idx =>
              if translateAddr relocs idx 0 = 0 then return none
              else return some (symbols, { s with bytes := bytes })

end Place

/-! ## What the areas map -/

section Map

variable {H : Type} {A : PageHeap H} {kernel current : Nat} {tabs : List Nat}

theorem translate_congr {m m' : PageMem} {T T' v : Nat}
    (h : pgdirGetPageEntry m' T' v = pgdirGetPageEntry m T v) :
    translate m' T' v = translate m T v := by
  simp only [translate, mmuMapGetTable, h]

theorem translate_pageWord {m : PageMem} {T v frame flags : Nat} (hlt : frame < 4294967296)
    (hal : frame % 4096 = 0)
    (h : pgdirGetPageEntry m T v = pageWord frame (pageFlags flags)) :
    translate m T v = some (frame + v % 4096) := by
  simp only [translate, mmuMapGetTable, h, entryAnswer_pageWord hlt hal]

/-- An address is at `p` in the current table, and in the kernel's if it is
one of the kernel's. -/
def Located (kernel current : Nat) (m : PageMem) (v p : Nat) : Prop :=
  translate m current v = some p ∧ (kernelOffset ≤ v → translate m kernel v = some p)

/-- A mapping of a range: its pages, and the others. -/
theorem mapRange_located {s s' : Mmu H} {virt phys size flags : Nat}
    (ht : Tables A kernel tabs s) (hcur : current ∈ tabs) (hk : kernel ∈ tabs)
    (hvirt : virt % 4096 = 0) (hphys : phys % 4096 = 0) (hv : virt + size ≤ 4294967296)
    (hp : phys + size ≤ 4294967296)
    (h : mmuMapTable A.served kernel s current virt phys size flags = some s') {v : Nat}
    (hlt : v < 4294967296) :
    (virt ≤ v → v < virt + size → Located kernel current s'.mem v (phys + (v - virt))) ∧
      (¬ (virt ≤ pageMask v ∧ pageMask v < virt + size) → ∀ p,
        Located kernel current s.mem v p → Located kernel current s'.mem v p) := by
  obtain ⟨offs, hoffs, hrun⟩ := Option.bind_eq_some_iff.mp h
  rw [foldlM_eq_exec] at hrun
  have hal : ∀ off ∈ offs, off % 4096 = 0 := fun off hoff => ((mem_pageOffs hoffs).mp hoff).1
  have hnull : A.served.NeverNull := PageHeap.served_neverNull A
  have hself := mapLoop_self hnull hcur hk ht.served hal hrun v hlt
  have hkern := mapLoop_kernel hnull hcur hk ht.served hal hrun v
  have hmask := pageMask_eq hlt
  constructor
  · intro hlo hhi
    have hvb : pageMask virt = virt := pageMask_of_aligned (by omega) hvirt
    have hpb : pageMask phys = phys := pageMask_of_aligned (by omega) hphys
    have hcov : virt ≤ pageMask v ∧ pageMask v < virt + size := by omega
    have hframe : u32 (phys + (pageMask v - virt)) = phys + (pageMask v - virt) :=
      u32_of_lt (by omega)
    have hsum : phys + (pageMask v - virt) + v % 4096 = phys + (v - virt) := by omega
    rw [hvb, hpb] at hkern
    rw [readAfterMap, hvb, hpb, lastWrite_pages hoffs hvirt hv _ _ hlt, if_pos hcov,
      hframe] at hself
    refine ⟨hsum ▸ translate_pageWord (by omega) (by omega) hself, fun hvk => ?_⟩
    have hkern := hkern hvk hlt
    rw [lastWrite_pages hoffs hvirt hv _ _ hlt, if_pos hcov, hframe] at hkern
    exact hsum ▸ translate_pageWord (by omega) (by omega) hkern
  · rintro hout p ⟨hold, holdk⟩
    by_cases hempty : size = 0
    · subst hempty
      obtain rfl := pageOffs_zero hoffs
      obtain rfl := Option.some.inj hrun
      exact ⟨hold, holdk⟩
    have hvb : pageMask virt = virt := pageMask_of_aligned (by omega) hvirt
    rw [hvb] at hkern
    rw [readAfterMap, hvb, lastWrite_pages hoffs hvirt hv _ _ hlt, if_neg hout] at hself
    have hkept : kernelOffset ≤ v → translate s'.mem kernel v = translate s.mem kernel v := by
      intro hvk
      have hkern := hkern hvk hlt
      rw [lastWrite_pages hoffs hvirt hv _ _ hlt, if_neg hout] at hkern
      exact translate_congr hkern
    refine ⟨?_, fun hvk => (hkept hvk).trans (holdk hvk)⟩
    split at hself
    · rename_i htouch
      exact (translate_congr hself).trans (holdk htouch.above)
    · exact (translate_congr hself).trans hold

/-- What `_alloc_map` does. -/
structure AllocMapped (A : PageHeap H) (kernel current : Nat) (tabs : List Nat)
    (virt len paddr : Nat) (s s' : Machine H) : Prop where
  tables : Tables A kernel tabs s'.mmu
  bytes : s'.bytes = s.bytes
  keeps : ∀ x, A.held s.mmu.heap x → A.held s'.mmu.heap x
  block : paddr ≠ 0 → paddr % 4096 = 0 ∧ paddr + len ≤ 4294967296 ∧
    ∀ x, paddr ≤ x → x < paddr + len → ¬ A.held s.mmu.heap x ∧ A.held s'.mmu.heap x
  located : ∀ v, virt ≤ v → v < virt + len →
    Located kernel current s'.mmu.mem v (paddr + (v - virt))
  others : ∀ v p, v < 4294967296 → ¬ (virt ≤ pageMask v ∧ pageMask v < virt + len) →
    Located kernel current s.mmu.mem v p → Located kernel current s'.mmu.mem v p

theorem allocMap_spec {s s' : Machine H} {virt len paddr : Nat} (ht : Tables A kernel tabs s.mmu)
    (hcur : current ∈ tabs) (hk : kernel ∈ tabs) (hvirt : virt % 4096 = 0)
    (hfits : virt + len ≤ 4294967296)
    (h : allocMap A kernel current s virt len = some (paddr, s')) :
    AllocMapped A kernel current tabs virt len paddr s s' := by
  obtain ⟨⟨paddr, heap⟩, hkam, h⟩ := Option.bind_eq_some_iff.mp h
  obtain ⟨mmu, hmap, h⟩ := Option.bind_eq_some_iff.mp h
  obtain ⟨rfl, rfl⟩ := Prod.mk.inj (Option.some.inj h)
  have hblock : paddr ≠ 0 → paddr % 4096 = 0 ∧ paddr + len ≤ 4294967296 ∧
      ∀ x, paddr ≤ x → x < paddr + len → ¬ A.held s.mmu.heap x ∧ A.held heap x :=
    fun hne => A.fresh hkam hne
  have hphys : paddr % 4096 = 0 ∧ paddr + len ≤ 4294967296 := by
    by_cases hzero : paddr = 0
    · omega
    · exact ⟨(hblock hzero).1, (hblock hzero).2.1⟩
  have ht₁ := ht.granted hkam
  have hrange := fun v hlt => mapRange_located (v := v) ht₁ hcur hk hvirt hphys.1 hfits hphys.2
    hmap hlt
  have hkeeps : ∀ x, A.held heap x → A.held mmu.heap x := fun x => mmuMapTable_keeps hmap
  have hnone : Avoids A.served tabs (fun _ => False) ⟨s.mmu.mem, heap⟩ :=
    ⟨nofun, fun _ _ => id, fun _ _ _ _ _ => id⟩
  obtain ⟨ht', -⟩ := mmuMapTable_tables ht₁.served hnone (PageHeap.served_neverNull A) hcur hk hmap
  refine ⟨ht'.of_served, rfl,
    fun x hx => hkeeps x (A.keeps hkam hx), fun hne => ?_, fun v hlo hhi => ?_,
    fun v p hlt hout hold => (hrange v hlt).2 hout p hold⟩
  · obtain ⟨hal, hle, hfresh⟩ := hblock hne
    exact ⟨hal, hle, fun x hlo hhi => ⟨(hfresh x hlo hhi).1, hkeeps x (hfresh x hlo hhi).2⟩⟩
  · exact (hrange v (by omega)).1 hlo hhi

end Map

end LambdaOs
