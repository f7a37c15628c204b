import LambdaOs.Elf
import LambdaOs.ForkData

/-!
# Loading an executable

`elf_read_phdr` of `proc/elf/elf_exec.c`. Every PT_LOAD segment gets a block of
its own, filled from the file and with zeros, and mapped at the segment's
address; an entry of the memory map says where.

Unless the size fills whole pages, the block has a page to spare and the
segment starts in it where it starts in its first page. `mmu_map_table` maps
as many pages as the size needs from there on: too few if the segment crosses
one page boundary more than its size makes it.
-/

namespace LambdaOs

/-- The page tables with their heap, and the bytes of physical memory outside
the page tables. Addresses of memory from the heap are physical ones, since the
table in use maps it to itself (`DirectHeap`, `GrantsDirect`). -/
structure Machine (H : Type) where
  mmu : Mmu H
  bytes : Nat → Nat

/-! ## The file -/

/-- `e_phoff` and `e_phnum` of the header at `elf`. -/
def ehdrPhoff (bytes : Nat → Nat) (elf : Nat) : Nat := wordAt bytes (elf + 28)
def ehdrPhnum (bytes : Nat → Nat) (elf : Nat) : Nat := halfAt bytes (elf + 44)

/-- What is read of an `Elf32_Phdr`. -/
structure Phdr where
  type : Nat
  offset : Nat
  vaddr : Nat
  filesz : Nat
  memsz : Nat
deriving Repr, DecidableEq

def ptLoad : Nat := 1
def ptDynamic : Nat := 2

/-- `sizeof(Elf32_Phdr)`. -/
def phdrSize : Nat := 32

def phdrAt (bytes : Nat → Nat) (a : Nat) : Phdr where
  type := wordAt bytes a
  offset := wordAt bytes (a + 4)
  vaddr := wordAt bytes (a + 8)
  filesz := wordAt bytes (a + 16)
  memsz := wordAt bytes (a + 20)

/-- The addresses of the program headers. -/
def phdrAddrs (bytes : Nat → Nat) (elf : Nat) : List Nat :=
  (List.range (ehdrPhnum bytes elf)).map fun i =>
    u32 (elf + ehdrPhoff bytes elf + phdrSize * i)

/-- The segments to load among the headers at `as`. -/
def segmentsAt (bytes : Nat → Nat) (as : List Nat) : List Phdr :=
  (as.map (phdrAt bytes)).filter fun p => p.type = ptLoad

def loadSegments (bytes : Nat → Nat) (elf : Nat) : List Phdr :=
  segmentsAt bytes (phdrAddrs bytes elf)

/-- The byte `i` of a segment, as the file at `elf` has it. -/
def Phdr.byte (bytes : Nat → Nat) (elf : Nat) (p : Phdr) (i : Nat) : Nat :=
  if i < p.filesz then bytes (elf + p.offset + i) else 0

/-! ## The loader -/

def memcpy (bytes : Nat → Nat) (dest src n : Nat) : Nat → Nat := fun x =>
  if dest ≤ x ∧ x < dest + n then bytes (src + (x - dest)) else bytes x

def memset (bytes : Nat → Nat) (dest value n : Nat) : Nat → Nat := fun x =>
  if dest ≤ x ∧ x < dest + n then value else bytes x

/-- An entry of the memory map, and the block of `size` bytes that `kmamalloc`
returned for it, which the code does not keep. -/
structure LoadedEnt where
  ent : MemMapEnt
  block : Nat
  size : Nat
deriving Repr, DecidableEq

/-- What is at `mmap_entries` and in `elf_data`, and the memory. -/
structure ElfLoad (H : Type) where
  mmap : List LoadedEnt
  dynamic : Nat
  machine : Machine H

/-- What `kmamalloc` is asked for. -/
def Phdr.request (p : Phdr) : Nat :=
  if p.memsz &&& 0xFFF ≠ 0 then u32 (p.memsz + 0x1000) else p.memsz

/-- Where the segment starts in the block. -/
def Phdr.start (p : Phdr) (block : Nat) : Nat :=
  if p.memsz &&& 0xFFF ≠ 0 then u32 (block + (p.vaddr &&& 0xFFF)) else block

def Phdr.copyFile (p : Phdr) (elf phys : Nat) (bytes : Nat → Nat) : Nat → Nat :=
  if p.filesz ≠ 0 then memcpy bytes phys (u32 (elf + p.offset)) p.filesz else bytes

def Phdr.clearRest (p : Phdr) (phys : Nat) (bytes : Nat → Nat) : Nat → Nat :=
  if p.filesz < p.memsz then memset bytes (u32 (phys + p.filesz)) 0 (p.memsz - p.filesz) else bytes

section Load

variable {H : Type} (A : PageHeap H) (kernel : Nat)

/-- A segment. The block is not checked; a null pointer for the entry is written
through. -/
def loadSegment (elf table : Nat) (s : Machine H) (p : Phdr) :
    Option (LoadedEnt × Machine H) := do
  let size := roundSize p.request 0x1000
  let (block, heap) ← A.kamalloc s.mmu.heap size 0x1000
  let phys := p.start block
  let bytes := p.clearRest phys (p.copyFile elf phys s.bytes)
  let (node, heap) ← A.kamalloc heap memMapEntSize minAlign
  if node = 0 then none
  else
    let mmu ← mmuMapTable A kernel { s.mmu with heap := heap } table p.vaddr phys p.memsz
      (mmuFlagRead ||| mmuFlagWrite ||| mmuFlagExec)
    return (⟨⟨p.vaddr, phys, p.memsz⟩, block, size⟩, ⟨mmu, bytes⟩)

/-- One round: the header at `a`. -/
def readPhdr (elf table : Nat) (s : ElfLoad H) (a : Nat) : Option (ElfLoad H) :=
  let p := phdrAt s.machine.bytes a
  if p.type = ptLoad then
    (loadSegment A kernel elf table s.machine p).map fun r =>
      { s with mmap := s.mmap ++ [r.1], machine := r.2 }
  else if p.type = ptDynamic then some { s with dynamic := p.vaddr }
  else some s

/-- Without a segment to load `*mmap_entries` is not written. -/
def elfReadPhdr (elf mmapEntries elfData table : Nat) (s : ElfLoad H) : Option (ElfLoad H) :=
  if mmapEntries = 0 ∨ elfData = 0 then some s
  else do
    let r ← (phdrAddrs s.machine.bytes elf).foldlM (readPhdr A kernel elf table)
      { s with mmap := [], dynamic := 0 }
    return if r.mmap = [] then { r with mmap := s.mmap } else r

end Load

section Spec

variable {H : Type} {A : PageHeap H} {kernel elf table size : Nat} {tabs : List Nat}

/-! ## What is asked of the file -/

/-- The addresses a segment is for. -/
def Phdr.memory (p : Phdr) : MemMapEnt := ⟨p.vaddr, 0, p.memsz⟩

/-- A segment of a file of `size` bytes. -/
structure Phdr.Fits (size : Nat) (p : Phdr) : Prop where
  pos : 0 < p.memsz
  filesz_le : p.filesz ≤ p.memsz
  low : p.memory.Low
  inFile : p.offset + p.filesz ≤ size

/-! ## One segment -/

/-- What loading a segment does: the entry, the pages, the block, the bytes. -/
structure SegmentLoaded (A : PageHeap H) (kernel : Nat) (tabs : List Nat) (elf table : Nat)
    (p : Phdr) (e : LoadedEnt) (s s' : Machine H) : Prop where
  tables : Tables A kernel tabs s'.mmu
  keeps : ∀ x, A.held s.mmu.heap x → A.held s'.mmu.heap x
  virt : e.ent.virtAddress = p.vaddr
  length : e.ent.length = p.memsz
  outside : ∀ v < 4294967296, ¬ p.memory.MapsPage v →
    mmuMapGetTable s'.mmu.mem table v = mmuMapGetTable s.mmu.mem table v
  inside : ∀ v < 4294967296, p.memory.MapsPage v → translate s'.mmu.mem table v =
    some (pageMask e.ent.physAddress + (pageMask v - pageMask p.vaddr) + v % 4096)
  fresh : ∀ x, e.block ≤ x → x < e.block + e.size →
    ¬ A.held s.mmu.heap x ∧ A.held s'.mmu.heap x
  place : e.ent.physAddress =
    if p.memsz % 4096 ≠ 0 then e.block + p.vaddr % 4096 else e.block
  aligned : e.block % 4096 = 0
  inBlock : e.block ≤ e.ent.physAddress ∧ e.ent.physAddress + p.memsz ≤ e.block + e.size
  low : e.block + e.size ≤ kernelOffset
  bytes : ∀ i < p.memsz, s'.bytes (e.ent.physAddress + i) = p.byte s.bytes elf i
  kept : ∀ x, ¬ (e.ent.physAddress ≤ x ∧ x < e.ent.physAddress + p.memsz) →
    s'.bytes x = s.bytes x

theorem loadSegment_eq_some {s s' : Machine H} {p : Phdr} {e : LoadedEnt} :
    loadSegment A kernel elf table s p = some (e, s') ↔
      ∃ block heap, A.kamalloc s.mmu.heap (roundSize p.request 0x1000) 0x1000 = some (block, heap) ∧
        ∃ node heap', A.kamalloc heap memMapEntSize minAlign = some (node, heap') ∧ node ≠ 0 ∧
          ∃ mmu, mmuMapTable A kernel { s.mmu with heap := heap' } table p.vaddr (p.start block)
              p.memsz (mmuFlagRead ||| mmuFlagWrite ||| mmuFlagExec) = some mmu ∧
            e = ⟨⟨p.vaddr, p.start block, p.memsz⟩, block, roundSize p.request 0x1000⟩ ∧
              s' = ⟨mmu, p.clearRest (p.start block) (p.copyFile elf (p.start block) s.bytes)⟩ := by
  unfold loadSegment
  simp only [Option.bind_eq_bind, Option.bind_eq_some_iff, Prod.exists]
  refine exists_congr fun block => exists_congr fun heap => and_congr_right fun _ => ?_
  refine exists_congr fun node => exists_congr fun heap' => and_congr_right fun _ => ?_
  split
  · rename_i hnode
    exact iff_of_false nofun fun h => h.1 hnode
  · rename_i hnode
    simp only [ne_eq, hnode, not_false_eq_true, true_and, Option.pure_def,
      Option.some.injEq, Option.bind_eq_some_iff, Prod.mk.injEq]
    refine exists_congr fun mmu => and_congr_right fun _ => and_congr eq_comm eq_comm

/-- The bytes written for a segment. -/
theorem Phdr.bytes_spec {p : Phdr} {phys : Nat} (bytes : Nat → Nat) (hfile : p.filesz ≤ p.memsz)
    (hphys : phys + p.memsz < 4294967296) (helf : elf + p.offset < 4294967296) (x : Nat) :
    p.clearRest phys (p.copyFile elf phys bytes) x =
      if phys ≤ x ∧ x < phys + p.memsz then p.byte bytes elf (x - phys) else bytes x := by
  unfold Phdr.clearRest Phdr.copyFile Phdr.byte
  rw [u32_of_lt helf, u32_of_lt (by omega)]
  by_cases hx : phys ≤ x ∧ x < phys + p.memsz
  · rw [if_pos hx]
    by_cases hin : x - phys < p.filesz
    · -- a byte of the file
      rw [if_pos hin, if_pos (by omega : p.filesz ≠ 0)]
      have hnot : ¬ (phys + p.filesz ≤ x ∧ x < phys + p.filesz + (p.memsz - p.filesz)) := by omega
      have hcopy : memcpy bytes phys (elf + p.offset) p.filesz x =
          bytes (elf + p.offset + (x - phys)) := if_pos (by omega)
      split
      · exact (if_neg hnot).trans hcopy
      · exact hcopy
    · rw [if_neg hin, if_pos (by omega : p.filesz < p.memsz)]
      exact if_pos (by omega)
  · rw [if_neg hx]
    have hcopy : (if p.filesz ≠ 0 then memcpy bytes phys (elf + p.offset) p.filesz else bytes) x =
        bytes x := by
      split
      · exact if_neg (by omega)
      · rfl
    split
    · exact (if_neg (by omega)).trans hcopy
    · exact hcopy

theorem loadSegment_spec {s s' : Machine H} {p : Phdr} {e : LoadedEnt} (hnull : A.NeverNull)
    (ht : Tables A kernel tabs s.mmu) (htab : table ∈ tabs)
    (hheap : ∀ x, kernelOffset ≤ x → A.held s.mmu.heap x) (hp : p.Fits size)
    (hsize : elf + size < 4294967296)
    (h : loadSegment A kernel elf table s p = some (e, s')) :
    SegmentLoaded A kernel tabs elf table p e s s' := by
  obtain ⟨block, heap, hkam, node, heap', hnode, -, mmu, hmap, rfl, rfl⟩ :=
    loadSegment_eq_some.mp h
  have hK : kernelOffset = 3221225472 := rfl
  have hpos := hp.pos
  have hfile := hp.filesz_le
  have hin := hp.inFile
  have hlow : p.vaddr + p.memsz ≤ kernelOffset := hp.low
  have hblock := hnull hkam
  -- the size of the block
  have hreq : p.request = if p.memsz % 4096 ≠ 0 then p.memsz + 0x1000 else p.memsz := by
    rw [Phdr.request, and_low, u32_of_lt (by omega)]
  have hreq' : p.memsz ≤ p.request ∧ p.request ≤ p.memsz + 4096 := by
    rw [hreq]
    split <;> omega
  obtain ⟨-, hge, hlt⟩ := roundSize_spec (show p.request + 4096 ≤ 4294967296 by omega)
  obtain ⟨hal, -, hbytes⟩ := A.fresh hkam hblock
  have hfits := A.block_low hheap hkam hblock (by omega)
  have hmod := Nat.mod_lt p.vaddr (show 4096 > 0 by decide)
  have hstart : p.start block =
      if p.memsz % 4096 ≠ 0 then block + p.vaddr % 4096 else block := by
    rw [Phdr.start, and_low, and_low]
    split
    · exact u32_of_lt (by omega)
    · rfl
  have hinBlock : block ≤ p.start block ∧
      p.start block + p.memsz ≤ block + roundSize p.request 0x1000 := by
    rw [hstart]
    split
    · rename_i hm
      rw [if_pos hm] at hreq
      omega
    · rename_i hm
      rw [if_neg hm] at hreq
      omega
  -- the pages
  have hmaskv := pageMask_eq (show p.vaddr < 4294967296 by omega)
  have hmaskp := pageMask_eq (show p.start block < 4294967296 by omega)
  have hr := mapRange_remaps hnull ((ht.granted hkam).granted hnode) htab (by omega) hmap
  have hkeeps : ∀ x, A.held heap x → A.held mmu.heap x := fun x hx =>
    hr.keeps x (A.keeps hnode hx)
  have hwritten := Phdr.bytes_spec s.bytes hfile
    (show p.start block + p.memsz < 4294967296 by omega)
    (show elf + p.offset < 4294967296 by omega)
  refine
    { tables := hr.tables
      keeps := fun x hx => hkeeps x (A.keeps hkam hx)
      virt := rfl
      length := rfl
      outside := fun v hv hnot => (hr.self v hv).trans (if_neg hnot)
      inside := fun v hv hmaps => ?_
      fresh := fun x hx hx' => ⟨(hbytes x hx hx').1, hkeeps x (hbytes x hx hx').2⟩
      place := hstart
      aligned := hal
      inBlock := hinBlock
      low := hfits
      bytes := fun i hi => ?_
      kept := fun x hx => (hwritten x).trans (if_neg hx) }
  · obtain ⟨hpage, hpage'⟩ := hmaps
    have hbound : pageMask p.vaddr ≤ p.vaddr := by omega
    rw [translate, hr.self v hv, if_pos ⟨hpage, hpage'⟩]
    simp only [Phdr.memory, Option.some.injEq] at hpage hpage' ⊢
    rw [u32_of_lt (by omega)]
  · refine (hwritten _).trans ?_
    dsimp only at hi ⊢
    rw [if_pos (by omega), Nat.add_sub_cancel_left]

/-! ## All segments -/

/-- The segment `p` of the file `file` is in the block of `e`, and mapped from
its first page on. -/
structure SegmentPlaced (A : PageHeap H) (elf table : Nat) (file : Nat → Nat) (s : Machine H)
    (p : Phdr) (e : LoadedEnt) : Prop where
  virt : e.ent.virtAddress = p.vaddr
  length : e.ent.length = p.memsz
  place : e.ent.physAddress =
    if p.memsz % 4096 ≠ 0 then e.block + p.vaddr % 4096 else e.block
  aligned : e.block % 4096 = 0
  inBlock : e.block ≤ e.ent.physAddress ∧ e.ent.physAddress + p.memsz ≤ e.block + e.size
  low : e.block + e.size ≤ kernelOffset
  held : ∀ x, e.block ≤ x → x < e.block + e.size → A.held s.mmu.heap x
  inside : ∀ v < 4294967296, p.memory.MapsPage v → translate s.mmu.mem table v =
    some (pageMask e.ent.physAddress + (pageMask v - pageMask p.vaddr) + v % 4096)
  bytes : ∀ i < p.memsz, s.bytes (e.ent.physAddress + i) = p.byte file elf i

theorem SegmentLoaded.placed {s s' : Machine H} {p : Phdr} {e : LoadedEnt}
    (h : SegmentLoaded A kernel tabs elf table p e s s') :
    SegmentPlaced A elf table s.bytes s' p e :=
  { virt := h.virt
    length := h.length
    place := h.place
    aligned := h.aligned
    inBlock := h.inBlock
    low := h.low
    held := fun x hx hx' => (h.fresh x hx hx').2
    inside := h.inside
    bytes := h.bytes }

/-- The bytes in use are not written. -/
def BytesKept (A : PageHeap H) (s s' : Machine H) : Prop :=
  ∀ x, A.held s.mmu.heap x → s'.bytes x = s.bytes x

theorem SegmentPlaced.later {s s' : Machine H} {p : Phdr} {e : LoadedEnt} {file : Nat → Nat}
    (h : SegmentPlaced A elf table file s p e)
    (hkeeps : ∀ x, A.held s.mmu.heap x → A.held s'.mmu.heap x) (hbytes : BytesKept A s s')
    (hsame : ∀ v < 4294967296, p.memory.MapsPage v →
      mmuMapGetTable s'.mmu.mem table v = mmuMapGetTable s.mmu.mem table v) :
    SegmentPlaced A elf table file s' p e :=
  { h with
    held := fun x hx hx' => hkeeps x (h.held x hx hx')
    inside := fun v hv hmaps => by
      rw [translate, hsame v hv hmaps]
      exact h.inside v hv hmaps
    bytes := fun i hi => by
      have hin := h.inBlock
      rw [hbytes _ (h.held _ (by omega) (by omega))]
      exact h.bytes i hi }

/-- Two memories with the same file. -/
def SameFile (elf size : Nat) (bytes bytes' : Nat → Nat) : Prop :=
  ∀ x, elf ≤ x → x < elf + size → bytes' x = bytes x

theorem SameFile.phdrAt {bytes bytes' : Nat → Nat} (h : SameFile elf size bytes bytes') {a : Nat}
    (hge : elf ≤ a) (hle : a + phdrSize ≤ elf + size) : phdrAt bytes' a = phdrAt bytes a := by
  rw [phdrSize] at hle
  simp only [LambdaOs.phdrAt, wordAt, halfAt]
  rw [Phdr.mk.injEq]
  refine ⟨?_, ?_, ?_, ?_, ?_⟩
  all_goals rw [h _ (by omega) (by omega), h _ (by omega) (by omega), h _ (by omega) (by omega),
    h _ (by omega) (by omega)]

theorem SameFile.byte {bytes bytes' : Nat → Nat} (h : SameFile elf size bytes bytes') {p : Phdr}
    (hp : p.Fits size) (i : Nat) : p.byte bytes' elf i = p.byte bytes elf i := by
  have hin := hp.inFile
  unfold Phdr.byte
  split
  · exact h _ (by omega) (by omega)
  · rfl

/-- The bytes written for an entry. -/
def LoadedEnt.Writes (e : LoadedEnt) (x : Nat) : Prop :=
  e.ent.physAddress ≤ x ∧ x < e.ent.physAddress + e.ent.length

/-- What loading the segments `ps` does, with `es` for their entries. -/
structure ImageRun (A : PageHeap H) (kernel : Nat) (tabs : List Nat) (elf table : Nat)
    (ps : List Phdr) (es : List LoadedEnt) (s s' : Machine H) : Prop where
  tables : Tables A kernel tabs s'.mmu
  keeps : ∀ x, A.held s.mmu.heap x → A.held s'.mmu.heap x
  fresh : ∀ e ∈ es, ∀ x, e.block ≤ x → x < e.block + e.size → ¬ A.held s.mmu.heap x
  kept : ∀ x, (∀ e ∈ es, ¬ e.Writes x) → s'.bytes x = s.bytes x
  outside : ∀ v < 4294967296, (∀ p ∈ ps, ¬ p.memory.MapsPage v) →
    mmuMapGetTable s'.mmu.mem table v = mmuMapGetTable s.mmu.mem table v
  placed : List.Forall₂ (SegmentPlaced A elf table s.bytes s') ps es

theorem ImageRun.nil {s : Machine H} (ht : Tables A kernel tabs s.mmu) :
    ImageRun A kernel tabs elf table [] [] s s :=
  ⟨ht, fun _ hx => hx, nofun, fun _ _ => rfl, fun _ _ _ => rfl, .nil⟩

theorem SegmentLoaded.bytesKept {s s' : Machine H} {p : Phdr} {e : LoadedEnt}
    (h : SegmentLoaded A kernel tabs elf table p e s s') : BytesKept A s s' := by
  intro x hx
  refine h.kept x fun hw => (h.fresh x ?_ ?_).1 hx
  · exact Nat.le_trans h.inBlock.1 hw.1
  · exact Nat.lt_of_lt_of_le hw.2 h.inBlock.2

theorem ImageRun.bytesKept {ps : List Phdr} {es : List LoadedEnt} {s s' : Machine H}
    (h : ImageRun A kernel tabs elf table ps es s s') : BytesKept A s s' := by
  intro x hx
  refine h.kept x fun e he hw => h.fresh e he x ?_ ?_ hx
  all_goals
    obtain ⟨i, hi, rfl⟩ := List.getElem_of_mem he
    have hp := h.placed.get (h.placed.length_eq ▸ hi) hi
    have hin := hp.inBlock
    rw [← hp.length] at hin
    simp only [List.get_eq_getElem] at hin
    obtain ⟨hge, hlt⟩ := hw
    omega

/-- The first segment stays while the others are loaded: its block is in use, and
no other segment uses its pages. -/
theorem SegmentLoaded.cons {p : Phdr} {e : LoadedEnt} {ps : List Phdr} {es : List LoadedEnt}
    {s s₁ s' : Machine H} (h : SegmentLoaded A kernel tabs elf table p e s s₁)
    (hrun : ImageRun A kernel tabs elf table ps es s₁ s')
    (hfile : SameFile elf size s.bytes s₁.bytes) (hps : ∀ q ∈ ps, q.Fits size)
    (hp : p.memory.Low) (hapart : ∀ q ∈ ps, ∀ v, ¬ (p.memory.OnPage v ∧ q.memory.OnPage v)) :
    ImageRun A kernel tabs elf table (p :: ps) (e :: es) s s' := by
  have hsame : ∀ v < 4294967296, p.memory.MapsPage v →
      mmuMapGetTable s'.mmu.mem table v = mmuMapGetTable s₁.mmu.mem table v := fun v hv hmaps =>
    hrun.outside v hv fun q hq hmaps' =>
      hapart q hq v ⟨hp.onPage hv hmaps, (hps q hq).low.onPage hv hmaps'⟩
  refine ⟨hrun.tables, fun x hx => hrun.keeps x (h.keeps x hx), ?_,
    ?_, ?_, .cons ?_ ?_⟩
  · intro d hd x hx hx'
    rcases List.mem_cons.mp hd with rfl | hd
    · exact (h.fresh x hx hx').1
    · exact fun hheld => hrun.fresh d hd x hx hx' (h.keeps x hheld)
  · intro x hx
    have hx₁ := hx e List.mem_cons_self
    rw [LoadedEnt.Writes, h.length] at hx₁
    exact (hrun.kept x fun d hd => hx d (List.mem_cons_of_mem _ hd)).trans (h.kept x hx₁)
  · intro v hv hnot
    exact (hrun.outside v hv fun q hq => hnot q (List.mem_cons_of_mem _ hq)).trans
      (h.outside v hv (hnot p List.mem_cons_self))
  · exact h.placed.later hrun.keeps hrun.bytesKept hsame
  · refine List.forall₂_iff_get.mpr ⟨hrun.placed.length_eq, ?_⟩
    intro i hi hi'
    have hq := hrun.placed.get hi hi'
    exact { hq with
      bytes := fun j hj => (hq.bytes j hj).trans (hfile.byte (hps _ (List.get_mem ps ⟨i, hi⟩)) j) }

/-- What is at `elf` and in memory when the program headers are read. -/
structure ElfMemory (A : PageHeap H) (kernel : Nat) (tabs : List Nat) (elf size : Nat)
    (s : Machine H) : Prop where
  tables : Tables A kernel tabs s.mmu
  heapLow : ∀ x, kernelOffset ≤ x → A.held s.mmu.heap x
  fileHeld : ∀ x, elf ≤ x → x < elf + size → A.held s.mmu.heap x
  fileLow : elf + size < 4294967296

theorem ElfMemory.loaded {s s' : Machine H} (hm : ElfMemory A kernel tabs elf size s) {p : Phdr}
    {e : LoadedEnt} (h : SegmentLoaded A kernel tabs elf table p e s s') :
    ElfMemory A kernel tabs elf size s' ∧ SameFile elf size s.bytes s'.bytes :=
  ⟨⟨h.tables, fun x hx => h.keeps x (hm.heapLow x hx),
    fun x hx hx' => h.keeps x (hm.fileHeld x hx hx'), hm.fileLow⟩,
    fun x hx hx' => h.bytesKept x (hm.fileHeld x hx hx')⟩

/-- The loop, by induction on the headers. -/
theorem readPhdrs_run (hnull : A.NeverNull) (htab : table ∈ tabs) {as : List Nat}
    {s r : ElfLoad H} (hm : ElfMemory A kernel tabs elf size s.machine)
    (has : ∀ a ∈ as, elf ≤ a ∧ a + phdrSize ≤ elf + size)
    (hfits : ∀ p ∈ segmentsAt s.machine.bytes as, p.Fits size)
    (hapart : NoSharedPage ((segmentsAt s.machine.bytes as).map Phdr.memory))
    (h : as.foldlM (readPhdr A kernel elf table) s = some r) :
    ∃ es, r.mmap = s.mmap ++ es ∧
      ImageRun A kernel tabs elf table (segmentsAt s.machine.bytes as) es s.machine
        r.machine := by
  induction as generalizing s with
  | nil =>
      obtain rfl := Option.some.inj h
      exact ⟨[], (List.append_nil _).symm, .nil hm.tables⟩
  | cons a as ih =>
      rw [List.foldlM_cons] at h
      obtain ⟨s₁, hstep, hrest⟩ := Option.bind_eq_some_iff.mp h
      have has' : ∀ b ∈ as, elf ≤ b ∧ b + phdrSize ≤ elf + size := fun b hb =>
        has b (List.mem_cons_of_mem _ hb)
      unfold readPhdr at hstep
      dsimp only at hstep
      by_cases hload : (phdrAt s.machine.bytes a).type = ptLoad
      · have hcons : segmentsAt s.machine.bytes (a :: as) =
            phdrAt s.machine.bytes a :: segmentsAt s.machine.bytes as := by
          rw [segmentsAt, List.map_cons, List.filter_cons_of_pos (by simpa using hload)]
          rfl
        rw [if_pos hload] at hstep
        rw [hcons] at hfits hapart ⊢
        obtain ⟨⟨e, m₁⟩, hseg, rfl⟩ := Option.map_eq_some_iff.mp hstep
        have hp := hfits _ List.mem_cons_self
        have hloaded := loadSegment_spec hnull hm.tables htab hm.heapLow hp hm.fileLow hseg
        obtain ⟨hm₁, hfile⟩ := hm.loaded hloaded
        -- the other headers are still there
        have hsegs : segmentsAt m₁.bytes as = segmentsAt s.machine.bytes as := by
          refine congrArg (List.filter _) (List.map_congr_left ?_)
          intro b hb
          exact hfile.phdrAt (has' b hb).1 (has' b hb).2
        obtain ⟨hfirst, hlater⟩ := List.pairwise_cons.mp hapart
        have hfits' : ∀ p ∈ segmentsAt s.machine.bytes as, p.Fits size := fun p hp =>
          hfits p (List.mem_cons_of_mem _ hp)
        obtain ⟨es, hmmap, hrun⟩ := ih hm₁ has' (hsegs ▸ hfits') (hsegs ▸ hlater) hrest
        rw [hsegs] at hrun
        refine ⟨e :: es, by simpa using hmmap, hloaded.cons hrun hfile hfits' hp.low ?_⟩
        exact fun q hq => hfirst _ (List.mem_map_of_mem hq)
      · have hcons : segmentsAt s.machine.bytes (a :: as) = segmentsAt s.machine.bytes as := by
          rw [segmentsAt, List.map_cons, List.filter_cons_of_neg (by simpa using hload)]
          rfl
        obtain ⟨hmachine, hmmap⟩ : s₁.machine = s.machine ∧ s₁.mmap = s.mmap := by
          rw [if_neg hload] at hstep
          split at hstep
          all_goals
            obtain rfl := Option.some.inj hstep
            exact ⟨rfl, rfl⟩
        rw [hcons] at hfits hapart ⊢
        rw [← hmachine] at hm hfits hapart ⊢
        rw [← hmmap]
        exact ih hm has' hfits hapart hrest

/-! ## The image -/

/-- An executable of `size` bytes at `elf`, and a table without a page of it. The
table in use maps the file and the heap to themselves. -/
structure ElfReady (A : PageHeap H) (kernel : Nat) (tabs : List Nat) (elf table size : Nat)
    (s : Machine H) : Prop extends ElfMemory A kernel tabs elf size s where
  tableIn : table ∈ tabs
  direct : ∃ current ∈ tabs, DirectHeap A current s.mmu ∧
    ∀ x, elf ≤ x → x < elf + size → access s.mmu.mem current x mmuFlagRead = some x
  phdrs : ehdrPhoff s.bytes elf + phdrSize * ehdrPhnum s.bytes elf ≤ size
  fits : ∀ p ∈ loadSegments s.bytes elf, p.Fits size
  apart : NoSharedPage ((loadSegments s.bytes elf).map Phdr.memory)
  unmapped : ∀ p ∈ loadSegments s.bytes elf, ∀ v < 4294967296, p.memory.OnPage v →
    mmuMapGetTable s.mmu.mem table v = .error (-EUNSPEC)

/-- The image that the file at `elf` describes. -/
structure ImageBuilt (A : PageHeap H) (elf table : Nat) (s r : ElfLoad H) : Prop where
  /-- An entry for each segment, in order. -/
  entries : r.mmap.map (fun e => (e.ent.virtAddress, e.ent.length)) =
    (loadSegments s.machine.bytes elf).map fun p => (p.vaddr, p.memsz)
  /-- The blocks were free. -/
  allocated : ∀ e ∈ r.mmap, ∀ x, e.block ≤ x → x < e.block + e.size →
    ¬ A.held s.machine.mmu.heap x ∧ A.held r.machine.mmu.heap x
  inBlocks : ∀ e ∈ r.mmap, ∀ x, e.Writes x → e.block ≤ x ∧ x < e.block + e.size
  written : ∀ x, (∀ e ∈ r.mmap, ¬ e.Writes x) → r.machine.bytes x = s.machine.bytes x
  bytes : ∀ p ∈ loadSegments s.machine.bytes elf, ∀ i < p.memsz, ∃ pa,
    translate r.machine.mmu.mem table (p.vaddr + i) = some pa ∧
      r.machine.bytes pa = p.byte s.machine.bytes elf i

theorem elfReadPhdr_run {s r : ElfLoad H} {mmapEntries elfData : Nat} (hnull : A.NeverNull)
    (hready : ElfReady A kernel tabs elf table size s.machine) (hentries : mmapEntries ≠ 0)
    (hdata : elfData ≠ 0) (h : elfReadPhdr A kernel elf mmapEntries elfData table s = some r) :
    ∃ es, (r.mmap = if es = [] then s.mmap else es) ∧
      ImageRun A kernel tabs elf table (loadSegments s.machine.bytes elf) es s.machine
        r.machine := by
  unfold elfReadPhdr at h
  rw [if_neg (not_or.mpr ⟨hentries, hdata⟩)] at h
  obtain ⟨r₁, hloop, hret⟩ := Option.bind_eq_some_iff.mp h
  have haddrs : ∀ a ∈ phdrAddrs s.machine.bytes elf, elf ≤ a ∧ a + phdrSize ≤ elf + size := by
    intro a ha
    obtain ⟨i, hi, rfl⟩ := List.mem_map.mp ha
    have hi := List.mem_range.mp hi
    have hphdrs := hready.phdrs
    have hlow := hready.fileLow
    rw [phdrSize] at hphdrs ⊢
    rw [u32_of_lt (by omega)]
    omega
  obtain ⟨es, hmmap, hrun⟩ := readPhdrs_run (s := ⟨[], 0, s.machine⟩) hnull hready.tableIn
    hready.toElfMemory haddrs hready.fits hready.apart hloop
  rw [List.nil_append] at hmmap
  refine ⟨es, ?_, ?_⟩
  · rw [hmmap] at hret
    obtain rfl := Option.some.inj hret
    split
    · rfl
    · exact hmmap
  · obtain rfl := Option.some.inj hret
    split
    · exact hrun
    · exact hrun

/-- Whole pages: the first byte is where the first page has it. -/
theorem SegmentPlaced.sameOffset {s : Machine H} {p : Phdr} {e : LoadedEnt} {file : Nat → Nat}
    (h : SegmentPlaced A elf table file s p e) (hpos : 0 < p.memsz) (hp : p.memory.WholePages) :
    e.ent.physAddress % 4096 = p.vaddr % 4096 := by
  have hwhole : p.vaddr % 4096 + p.memsz ≤ 4096 * ((p.memsz + 4095) / 4096) := hp hpos
  have hal := h.aligned
  rw [h.place]
  split
  · omega
  · omega

theorem SegmentPlaced.byte {s : Machine H} {p : Phdr} {e : LoadedEnt} {file : Nat → Nat}
    (h : SegmentPlaced A elf table file s p e) (hfits : p.Fits size) (hp : p.memory.WholePages)
    {i : Nat} (hi : i < p.memsz) :
    translate s.mmu.mem table (p.vaddr + i) = some (e.ent.physAddress + i) := by
  have hK : kernelOffset = 3221225472 := rfl
  have hlow : p.vaddr + p.memsz ≤ kernelOffset := hfits.low
  have hin := h.inBlock
  have hend := h.low
  have hoff := h.sameOffset hfits.pos hp
  have hlt : p.vaddr + i < 4294967296 := by omega
  have hmaps := hp.mapsPage hfits.low hlt ⟨i, hi, rfl⟩
  have hpage : pageMask p.vaddr ≤ pageMask (p.vaddr + i) := hmaps.1
  rw [h.inside _ hlt hmaps]
  rw [pageMask_eq (show p.vaddr < 4294967296 by omega), pageMask_eq hlt] at hpage ⊢
  rw [pageMask_eq (show e.ent.physAddress < 4294967296 by omega), Option.some.injEq]
  omega

/-- The last byte of a segment that is on more pages than its size fills is on a
page that no segment is mapped to. -/
theorem ImageRun.last_unmapped {s s' : Machine H} {es : List LoadedEnt}
    (hready : ElfReady A kernel tabs elf table size s)
    (h : ImageRun A kernel tabs elf table (loadSegments s.bytes elf) es s s') {p : Phdr}
    (hp : p ∈ loadSegments s.bytes elf) (hwhole : ¬ p.memory.WholePages) :
    translate s'.mmu.mem table (p.vaddr + (p.memsz - 1)) = none := by
  have hfits := hready.fits p hp
  have hpos := hfits.pos
  have hlow : p.vaddr + p.memsz ≤ kernelOffset := hfits.low
  have hK : kernelOffset = 3221225472 := rfl
  have hlt : p.vaddr + (p.memsz - 1) < 4294967296 := by omega
  have hon : p.memory.OnPage (p.vaddr + (p.memsz - 1)) :=
    ⟨p.memsz - 1, Nat.sub_lt hpos Nat.one_pos, rfl⟩
  have hcross : ¬ (p.vaddr % 4096 + p.memsz ≤ 4096 * ((p.memsz + 4095) / 4096)) :=
    fun hle => hwhole fun _ => hle
  have hout : ∀ q ∈ loadSegments s.bytes elf,
      ¬ q.memory.MapsPage (p.vaddr + (p.memsz - 1)) := by
    intro q hq hmaps
    have hqon := (hready.fits q hq).low.onPage hlt hmaps
    obtain ⟨i, hi, rfl⟩ := List.getElem_of_mem hp
    obtain ⟨j, hj, rfl⟩ := List.getElem_of_mem hq
    have hpairs := List.pairwise_iff_getElem.mp (List.pairwise_map.mp hready.apart)
    rcases Nat.lt_trichotomy i j with hij | rfl | hij
    · exact hpairs i j hi hj hij _ ⟨hon, hqon⟩
    · have hvirt : (loadSegments s.bytes elf)[i].vaddr < 4294967296 := by omega
      simp only [MemMapEnt.MapsPage, Phdr.memory, pageMask_eq hlt, pageMask_eq hvirt] at hmaps
      omega
    · exact hpairs j i hj hi hij _ ⟨hqon, hon⟩
  rw [translate, h.outside _ hlt hout, hready.unmapped p hp _ hlt hon]

/-- `elf_read_phdr` builds the image that the file describes exactly when no segment
is on more pages than its size fills (and there is a segment, or no list before). -/
theorem elf_read_phdr_builds_iff {s r : ElfLoad H} {mmapEntries elfData : Nat}
    (hnull : A.NeverNull) (hready : ElfReady A kernel tabs elf table size s.machine)
    (hentries : mmapEntries ≠ 0) (hdata : elfData ≠ 0)
    (h : elfReadPhdr A kernel elf mmapEntries elfData table s = some r) :
    ImageBuilt A elf table s r ↔
      (loadSegments s.machine.bytes elf = [] → s.mmap = []) ∧
        ∀ p ∈ loadSegments s.machine.bytes elf,
          p.vaddr % 4096 + p.memsz ≤ 4096 * ((p.memsz + 4095) / 4096) := by
  obtain ⟨es, hmmap, hrun⟩ := elfReadPhdr_run hnull hready hentries hdata h
  have hlen := hrun.placed.length_eq
  constructor
  · intro hbuilt
    refine ⟨?_, ?_⟩
    · intro hnil
      have hes : es = [] := List.eq_nil_of_length_eq_zero (by rw [← hlen, hnil]; rfl)
      have hent := hbuilt.entries
      rw [hnil, hmmap, if_pos hes] at hent
      exact List.map_eq_nil_iff.mp hent
    · intro p hp
      have hpos := (hready.fits p hp).pos
      obtain ⟨pa, hpa, -⟩ := hbuilt.bytes p hp _ (Nat.sub_lt hpos Nat.one_pos)
      by_contra hcross
      rw [hrun.last_unmapped hready hp fun hwhole => hcross (hwhole hpos)] at hpa
      cases hpa
  · rintro ⟨hempty, hwhole⟩
    have hes : r.mmap = es := by
      rw [hmmap]
      split
      · rename_i hnil
        rw [hnil] at hlen
        rw [hnil, hempty (List.eq_nil_of_length_eq_zero hlen)]
      · rfl
    have hplaced : ∀ e ∈ es, ∃ p, SegmentPlaced A elf table s.machine.bytes r.machine p e := by
      intro e he
      obtain ⟨i, hi, rfl⟩ := List.getElem_of_mem he
      exact ⟨_, hrun.placed.get (hlen ▸ hi) hi⟩
    rw [← hes] at hplaced
    refine ⟨?_, ?_, ?_, ?_, ?_⟩
    · rw [hes]
      refine List.ext_getElem (by simpa using hlen.symm) ?_
      intro i hi hi'
      rw [List.length_map] at hi hi'
      have hp := hrun.placed.get hi' hi
      simp only [List.getElem_map, Prod.mk.injEq]
      exact ⟨hp.virt, hp.length⟩
    · intro e he x hx hx'
      obtain ⟨p, hp⟩ := hplaced e he
      exact ⟨hrun.fresh e (hes ▸ he) x hx hx', hp.held x hx hx'⟩
    · intro e he x hx
      obtain ⟨p, hp⟩ := hplaced e he
      have hin := hp.inBlock
      rw [← hp.length] at hin
      obtain ⟨hge, hlt⟩ := hx
      omega
    · intro x hx
      exact hrun.kept x (hes ▸ hx)
    · intro p hp i hi
      obtain ⟨k, hk, rfl⟩ := List.getElem_of_mem hp
      have hp' := hrun.placed.get hk (hlen ▸ hk)
      exact ⟨_, hp'.byte (hready.fits _ hp) (fun _ => hwhole _ hp) hi, hp'.bytes i hi⟩

end Spec

/-! ## On the boot heap -/

def le4 (n : Nat) : List Nat := [n % 256, n / 256 % 256, n / 65536 % 256, n / 16777216 % 256]

/-- A file with one segment: eight bytes at `vaddr`, four of them in the file. -/
def exeFile (vaddr : Nat) : List Nat :=
  List.replicate 28 0 ++ le4 52 ++ List.replicate 12 0 ++ [1, 0] ++ List.replicate 6 0 ++
    (le4 ptLoad ++ le4 84 ++ le4 vaddr ++ le4 0 ++ le4 4 ++ le4 8 ++ le4 0 ++ le4 0) ++ [1, 2, 3, 4]

/-- The heap and the page of the file. -/
def directOps : List MmuOp :=
  [.map 0x400000 0x400000 0x10000 cloneFlags, .map 0x100000 0x100000 0x1000 cloneFlags]

/-- A table at `0x1000` that maps them to themselves. -/
def directMmu : Mmu { t : Table // TableOk 0x400000 0x410000 t } :=
  (exec (mmuStep bootPages 0x2000 0x1000) bootMmu directOps).getD bootMmu

set_option maxRecDepth 100000 in
theorem directMmu_spec : Tables bootPages 0x2000 [0x1000, 0x2000] directMmu ∧
    ∀ v < kernelOffset, mmuMapGetTable directMmu.mem 0x1000 v =
      lastWrite (MmuOp.Covers v) (MmuOp.answer v) directOps (.error (-EUNSPEC)) := by
  have hsome : (exec (mmuStep bootPages 0x2000 0x1000) bootMmu directOps).isSome = true := by
    decide +kernel
  obtain ⟨s', hrun⟩ := Option.isSome_iff_exists.mp hsome
  have heq : directMmu = s' := by rw [directMmu, hrun, Option.getD_some]
  have hvalid : ∀ op ∈ directOps, op.Valid := by
    simp [directOps, MmuOp.Valid, MmuOp.virt, MmuOp.size, kernelOffset]
  have hboot : Tables bootPages 0x2000 [0x1000, 0x2000] bootMmu :=
    bootMmu_tables 0x2000 (by simp)
  obtain ⟨ht, hget⟩ := mmuRun_get (PageHeap.served_neverNull _) hboot (by simp) hvalid hrun
  rw [heq]
  refine ⟨ht, fun v hv => ?_⟩
  rw [hget v hv, bootMmu_empty]

attribute [irreducible] directMmu

theorem directMmu_access {x flag : Nat}
    (hx : 0x400000 ≤ x ∧ x < 0x410000 ∨ 0x100000 ≤ x ∧ x < 0x101000)
    (hflag : cloneFlags &&& flag ≠ 0) : access directMmu.mem 0x1000 x flag = some x := by
  have hK : kernelOffset = 3221225472 := rfl
  have hmask := pageMask_eq (show x < 4294967296 by omega)
  have hmasks : pageMask 0x400000 = 0x400000 ∧ pageMask 0x100000 = 0x100000 := by decide
  refine access_self (by omega) ?_ hflag
  rw [directMmu_spec.2 x (by omega)]
  simp only [directOps, lastWrite_cons, lastWrite_nil, MmuOp.Covers, MmuOp.virt, MmuOp.size,
    MmuOp.answer, hmasks]
  rcases hx with hx | hx
  · rw [if_neg (by omega), if_pos (by omega), u32_of_lt (by omega)]
    exact congrArg (fun p => Except.ok (cloneFlags, p)) (by omega)
  · rw [if_pos (by omega), u32_of_lt (by omega)]
    exact congrArg (fun p => Except.ok (cloneFlags, p)) (by omega)

theorem directMmu_high {v : Nat} (hlo : 0x410000 ≤ v) (hhi : v < kernelOffset) :
    mmuMapGetTable directMmu.mem 0x1000 v = .error (-EUNSPEC) := by
  have hcov : ∀ virt phys size flags, (MmuOp.map virt phys size flags).Covers v ↔
      virt ≤ pageMask v ∧ pageMask v < virt + size := fun _ _ _ _ => Iff.rfl
  have hK : kernelOffset = 3221225472 := rfl
  have hmask := pageMask_eq (show v < 4294967296 by omega)
  rw [directMmu_spec.2 v hhi, directOps, lastWrite_cons, lastWrite_cons, lastWrite_nil,
    if_neg ((hcov ..).not.mpr (by omega)), if_neg ((hcov ..).not.mpr (by omega))]

/-- The file at `0x100000`, in memory that is not zero elsewhere. -/
def exeMachine (vaddr : Nat) : Machine { t : Table // TableOk 0x400000 0x410000 t } :=
  ⟨directMmu, fun x => if 0x100000 ≤ x then (exeFile vaddr).getD (x - 0x100000) 255 else 255⟩

def exeLoad (vaddr : Nat) : ElfLoad { t : Table // TableOk 0x400000 0x410000 t } :=
  ⟨[], 0, exeMachine vaddr⟩

theorem exeMachine_ready {vaddr : Nat} (hhigh : 0x8000000 ≤ vaddr)
    (hlow : vaddr + 8 ≤ kernelOffset)
    (hsegs : loadSegments (exeMachine vaddr).bytes 0x100000 = [⟨ptLoad, 84, vaddr, 4, 8⟩])
    (hphdrs : ehdrPhoff (exeMachine vaddr).bytes 0x100000 +
      phdrSize * ehdrPhnum (exeMachine vaddr).bytes 0x100000 ≤ 88) :
    ElfReady bootPages 0x2000 [0x1000, 0x2000] 0x100000 0x1000 88 (exeLoad vaddr).machine := by
  have hheld : ∀ x, x < 0x400000 ∨ 0x410000 ≤ x → bootPages.held directMmu.heap x := fun x hx =>
    ByteHeld.outside directMmu.heap.2 hx
  have hdirect : DirectHeap bootPages 0x1000 directMmu := by
    intro x hx
    refine directMmu_access (.inl ?_) (by decide)
    by_contra hout
    exact hx (hheld x (by omega))
  refine
    { tables := directMmu_spec.1
      heapLow := fun x hx => hheld x (.inr ?_)
      fileHeld := fun x hx hx' => hheld x (.inl (by omega))
      fileLow := by decide
      tableIn := by simp
      direct := ⟨0x1000, by simp, hdirect,
        fun x hx hx' => directMmu_access (.inr (by omega)) (by decide)⟩
      phdrs := hphdrs
      fits := hsegs ▸ ?_
      apart := hsegs ▸ List.pairwise_singleton _ _
      unmapped := hsegs ▸ ?_ }
  · simp only [kernelOffset] at hx
    omega
  · rw [List.forall_mem_singleton]
    exact ⟨Nat.zero_lt_succ _, Nat.le_of_ble_eq_true rfl, hlow, Nat.le_of_ble_eq_true rfl⟩
  · rw [List.forall_mem_singleton]
    rintro v hv ⟨i, hi, hpage⟩
    have hK : kernelOffset = 3221225472 := rfl
    simp only [Phdr.memory] at hi hpage
    exact directMmu_high (by omega) (by omega)

set_option maxRecDepth 100000 in
theorem elf_read_phdr_builds_iff_boot :
    ∃ r, elfReadPhdr bootPages 0x2000 0x100000 1 1 0x1000 (exeLoad 0x8048004) = some r ∧
      ImageBuilt bootPages 0x100000 0x1000 (exeLoad 0x8048004) r := by
  have hsome : (elfReadPhdr bootPages 0x2000 0x100000 1 1 0x1000
      (exeLoad 0x8048004)).isSome = true := by decide +kernel
  obtain ⟨r, hr⟩ := Option.isSome_iff_exists.mp hsome
  have hsegs : loadSegments (exeMachine 0x8048004).bytes 0x100000 =
      [⟨ptLoad, 84, 0x8048004, 4, 8⟩] := by decide +kernel
  have hready := exeMachine_ready (by decide) (by decide) hsegs (by decide +kernel)
  refine ⟨r, hr, (elf_read_phdr_builds_iff (PageHeap.served_neverNull _) hready (by decide)
    (by decide) hr).mpr ⟨fun _ => rfl, ?_⟩⟩
  rw [exeLoad, hsegs, List.forall_mem_singleton]
  decide

set_option maxRecDepth 100000 in
/-- The second half of the segment is on a page of its own, which is not mapped. -/
theorem elf_segment_not_mapped :
    ElfReady bootPages 0x2000 [0x1000, 0x2000] 0x100000 0x1000 88
        (exeLoad 0x8048FFC).machine ∧
      ∃ r, elfReadPhdr bootPages 0x2000 0x100000 1 1 0x1000 (exeLoad 0x8048FFC) = some r ∧
        translate r.machine.mmu.mem 0x1000 0x8049000 = none ∧
          ¬ ImageBuilt bootPages 0x100000 0x1000 (exeLoad 0x8048FFC) r := by
  have hsegs : loadSegments (exeMachine 0x8048FFC).bytes 0x100000 =
      [⟨ptLoad, 84, 0x8048FFC, 4, 8⟩] := by decide +kernel
  refine ⟨exeMachine_ready (by decide) (by decide) hsegs (by decide +kernel), ?_⟩
  have hnone : ((elfReadPhdr bootPages 0x2000 0x100000 1 1 0x1000 (exeLoad 0x8048FFC)).any
      fun r => translate r.machine.mmu.mem 0x1000 0x8049000 = none) = true := by decide +kernel
  obtain ⟨r, hr, hlast⟩ := (Option.any_eq_true _ _).mp hnone
  have hlast := of_decide_eq_true hlast
  refine ⟨r, hr, hlast, ?_⟩
  intro hbuilt
  have hmem : (⟨ptLoad, 84, 0x8048FFC, 4, 8⟩ : Phdr) ∈
      loadSegments (exeLoad 0x8048FFC).machine.bytes 0x100000 := by
    rw [exeLoad, hsegs]
    exact List.mem_singleton_self _
  obtain ⟨pa, hpa, -⟩ := hbuilt.bytes _ hmem 4 (by decide)
  rw [hlast] at hpa
  cases hpa

end LambdaOs
