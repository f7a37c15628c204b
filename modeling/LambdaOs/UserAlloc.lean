import LambdaOs.AllocGrow

/-!
# The heap of a program

`user/lib/src/stdlib/alloc.c`, a second allocator after the kernel's: the same
table of entries over one region, here one that `mmap` returned. `size_t` has
64 bits in the user library and addresses have 32, so an entry takes 16 bytes.

It differs from the kernel's where that one panics. An entry that finds no slot
is dropped, and a table that cannot grow stays as it is. `CallOk` is what a call
needs to stay clear of that, and of the other ways in which the table loses track
of its blocks. In every run whose calls all meet it the heap is sound
(`user_heap_sound_of_guarded`).
-/

namespace LambdaOs

namespace UserHeap

/-! ## The table -/

def pageSz : Nat := 4096

/-- `PAGE_SZ / sizeof(alcent_t)` -/
def allocBlock : Nat := pageSz / 16

/-- `PAGE_SZ / sizeof(void *)` -/
def allocBlocks : Nat := pageSz / 4

def initialSz : Nat := pageSz * 8

def minAlign : Nat := 8

/-- The three arguments are what `_mmap_alloc` returns: for the array of blocks,
its first block and the region. -/
def libAllocInit (allocs block region : Nat) : Option Table :=
  if allocs = 0 ∨ block = 0 ∨ region = 0 then none
  else
    let t : Table := [List.replicate allocBlock default]
    some (t.upd (0, 0) fun e => { e with addr := region, size := initialSz, valid := true })

/-- With no slot left the entry is dropped. No caller looks at the `-1`. -/
def addAlloc (t : Table) (al : Alcent) : Table :=
  match t.scan.find? fun pe => !pe.2.valid with
  | some (p, _) => t.upd p fun _ => al
  | none => t

def rmAlloc (t : Table) (p : Nat × Nat) : Table :=
  let addr := (t.get p).addr
  -- kept in a `uintptr_t`
  let size := u32 (t.get p).size
  match t.scan.find? fun pe => mergeTest addr size pe.2 with
  | some (q, _) =>
      let t := t.upd q fun e =>
        { e with
          size := u64 (e.size + size)
          addr := if e.addr > addr then addr else e.addr }
      t.upd p fun e => { e with valid := false }
  | none => t.upd p fun e => { e with used := false }

/-- One round of `_find_hole`, on the best index and its size so far. -/
def findHoleStep (sz align : Nat) (best : Nat × Nat) (pe : (Nat × Nat) × Alcent) :
    Nat × Nat :=
  if pe.2.valid && !pe.2.used then
    if pe.2.size ≥ u64 (sz + holeOff pe.2.addr align) ∧ pe.2.size < best.2 then
      (packIdx pe.1, u32 pe.2.size)
    else best
  else best

def findHole (t : Table) (sz align : Nat) : Nat :=
  (t.scan.foldl (findHoleStep sz align) (noHole, 0xFFFFFFFF)).1

def emptySlots (t : Table) (block : Nat) : Nat :=
  allocBlock - (t.getD block []).countP (·.valid)

/-- The entries that a new block starts with, whatever its memory holds. -/
def newBlock (mem : BlockMem) (addr : Nat) : List Alcent := (List.range allocBlock).map (mem addr)

/-- With no room for a block, or no slot of `_allocs` for it, the table stays as
it is. `_alloc` does not look at the `-1`. -/
def allocNewBlock (mem : BlockMem) (t : Table) : Table :=
  let idx := findHole t pageSz minAlign
  if idx = noHole then t
  else if allocBlocks ≤ t.length then t
  else
    let p := unpackIdx idx
    let e := t.get p
    if e.size = pageSz then (t.upd p fun e => { e with used := true }) ++ [newBlock mem e.addr]
    else
      let t := t.upd p fun e => { e with size := e.size - pageSz, addr := u32 (e.addr + pageSz) }
      addAlloc t ⟨true, true, e.addr, pageSz⟩ ++ [newBlock mem e.addr]

/-- Take `sz` bytes aligned to `align` out of the hole at `p`. -/
def carve (t : Table) (p : Nat × Nat) (sz align : Nat) : Nat × Table :=
  let e := t.get p
  if e.size = sz then (e.addr, t.upd p fun e => { e with used := true })
  else if e.addr % align ≠ 0 then
    let correction := align - e.addr % align
    let ae : Alcent := ⟨true, true, u32 (e.addr + correction), sz⟩
    let t :=
      if e.size > u64 (sz + correction) then
        addAlloc t ⟨true, false, u32 (e.addr + u64 (sz + correction)),
          e.size - u64 (sz + correction)⟩
      else t
    let t := t.upd p fun e => { e with size := correction }
    (ae.addr, addAlloc t ae)
  else
    let t := t.upd p fun e => { e with size := e.size - sz, addr := u32 (e.addr + sz) }
    (e.addr, addAlloc t ⟨true, true, e.addr, sz⟩)

/-- The returned address (`0` for `NULL`) and the new table. -/
def alloc (mem : BlockMem) (t : Table) (sz align : Nat) : Nat × Table :=
  if align = 0 ∨ sz = 0 then (0, t)
  else if align &&& (align - 1) ≠ 0 then (0, t)
  else if findHole t sz align = noHole then (0, t)
  else
    let t := if emptySlots t (findHole t sz align >>> 16) = 4 then allocNewBlock mem t else t
    if findHole t sz align = noHole then (0, t)
    else carve t (unpackIdx (findHole t sz align)) sz align

def malloc (mem : BlockMem) (t : Table) (size : Nat) : Nat × Table := alloc mem t size minAlign

def findAddr (t : Table) (addr : Nat) : Option (Nat × Nat) :=
  (t.scan.find? fun pe => pe.2.valid && pe.2.addr == addr).map (·.1)

def free (t : Table) (ptr : Nat) : Table :=
  match findAddr t ptr with
  | some p => rmAlloc t p
  | none => t

/-- `none` is the fault of a copy to `NULL`: nothing checks what `malloc`
answered. -/
def realloc (mem : BlockMem) (t : Table) (ptr size : Nat) : Option (Nat × Table) :=
  if ptr = 0 then
    if size = 0 then some (0, t) else some (malloc mem t size)
  else
    match findAddr t ptr with
    | none => some (0, t)
    | some p =>
        if size = 0 then some (0, free t ptr)
        else
          let r := malloc mem t size
          if r.1 = 0 ∧ min (r.2.get p).size size ≠ 0 then none else some (r.1, free r.2 ptr)

/-! ## Runs -/

/-- The live blocks are the pointers that were returned, with the sizes that were
asked for. -/
structure HeapState where
  table : Table
  live : List (Nat × Nat)

/-- A call, with what the memory of a new block of entries would hold. -/
inductive HeapCall where
  | malloc (mem : BlockMem) (size : Nat)
  | free (ptr : Nat)
  | realloc (mem : BlockMem) (ptr size : Nat)

/-- A returned block becomes live; `NULL` does not. -/
def grant (r size : Nat) (live : List (Nat × Nat)) : List (Nat × Nat) :=
  if r = 0 then live else (r, size) :: live

def release (ptr : Nat) (live : List (Nat × Nat)) : List (Nat × Nat) :=
  live.filter (·.1 ≠ ptr)

/-- One call. `free` is only given live pointers, `realloc` those and `NULL`. -/
def heapStep (s : HeapState) : HeapCall → Option HeapState
  | .malloc mem size =>
      let r := malloc mem s.table size
      some ⟨r.2, grant r.1 size s.live⟩
  | .free ptr =>
      if ptr ∈ s.live.map Prod.fst then some ⟨free s.table ptr, release ptr s.live⟩ else none
  | .realloc mem ptr size =>
      if ptr = 0 ∨ ptr ∈ s.live.map Prod.fst then
        (realloc mem s.table ptr size).map fun r => ⟨r.2, grant r.1 size (release ptr s.live)⟩
      else none

/-- What the heap is for: each live block is recorded by one used entry and lies
in the region, live pointers are distinct, and the valid entries are disjoint. -/
structure HeapSound (region : Nat) (s : HeapState) : Prop where
  recorded : ∀ x ∈ s.live, ∃ p, s.table.ent p = some ⟨true, true, x.1, x.2⟩ ∧
    ∀ q e, s.table.ent q = some e → e.valid = true → e.used = true → e.addr = x.1 → q = p
  distinct : (s.live.map Prod.fst).Nodup
  apart : ∀ p q e f, p ≠ q → s.table.ent p = some e → s.table.ent q = some f →
    e.valid = true → f.valid = true → Apart e f
  inside : ∀ x ∈ s.live, region ≤ x.1 ∧ x.1 + x.2 ≤ region + initialSz

/-! ## Side conditions -/

/-- What taking `sz` bytes from the hole `e` adds to the table. -/
def slotsFor (e : Alcent) (sz : Nat) : Nat :=
  if e.size = sz then 0
  else if e.addr % minAlign ≠ 0 ∧ sz + (minAlign - e.addr % minAlign) < e.size then 2
  else 1

/-- The block of memory that a new block of entries would be placed in. -/
def newBlockAddr (t : Table) : Nat := (t.get (unpackIdx (findHole t pageSz minAlign))).addr

/-- A `malloc` that finds a hole: the size and the bytes skipped do not wrap; a
new block of entries reads as invalid ones; and when none is added there are
slots for what is split off. -/
def MallocOk (mem : BlockMem) (t : Table) (size : Nat) : Prop :=
  size ≠ 0 → findHole t size minAlign ≠ noHole →
    size + minAlign ≤ 18446744073709551616 ∧
    (emptySlots t (findHole t size minAlign >>> 16) = 4 → findHole t pageSz minAlign ≠ noHole →
      t.length < allocBlocks → ∀ e ∈ newBlock mem (newBlockAddr t), e.valid = false) ∧
    (emptySlots t (findHole t size minAlign >>> 16) ≠ 4 →
      slotsFor (t.get (unpackIdx (findHole t size minAlign))) size ≤ invalidSlots t)

/-- A `free` of the used entry `u` at `ptr`: the free entry that `_rm_alloc` takes
for its neighbour is one. -/
def FreeOk (t : Table) (ptr : Nat) : Prop :=
  ∀ p u, t.ent p = some u → u.valid = true → u.used = true → u.addr = ptr →
    ∀ q e, t.scan.find? (fun pe => mergeTest u.addr u.size pe.2) = some (q, e) →
      u32 (e.addr + u.size) = u.addr → e.addr + e.size = u.addr ∨ e.addr = u.addr + u.size

/-- The side conditions of one call. `realloc` is a `malloc` and a `free` in the
table that it leaves. -/
def CallOk (s : HeapState) : HeapCall → Prop
  | .malloc mem size => MallocOk mem s.table size
  | .free ptr => FreeOk s.table ptr
  | .realloc mem ptr size =>
      MallocOk mem s.table size ∧ (ptr ≠ 0 → FreeOk (malloc mem s.table size).2 ptr)

theorem freeOk_iff {t : Table} {ptr : Nat} :
    FreeOk t ptr ↔ ∀ pu ∈ t.scan, pu.2.valid = true → pu.2.used = true → pu.2.addr = ptr →
      ∀ qe ∈ t.scan.find? fun pe => mergeTest pu.2.addr pu.2.size pe.2,
        u32 (qe.2.addr + pu.2.size) = pu.2.addr →
        qe.2.addr + qe.2.size = pu.2.addr ∨ qe.2.addr = pu.2.addr + pu.2.size :=
  ⟨fun h pu hpu huv huu hua qe hqe =>
      h pu.1 pu.2 (Table.mem_scan.mp hpu) huv huu hua qe.1 qe.2 (Option.mem_def.mp hqe),
    fun h p u hu huv huu hua q e hfind =>
      h (p, u) (Table.mem_scan.mpr hu) huv huu hua (q, e) (Option.mem_def.mpr hfind)⟩

instance (t : Table) (ptr : Nat) : Decidable (FreeOk t ptr) := decidable_of_iff _ freeOk_iff.symm

instance (mem : BlockMem) (t : Table) (size : Nat) : Decidable (MallocOk mem t size) :=
  inferInstanceAs (Decidable (_ → _ → _ ∧ (_ → _ → _ → ∀ e ∈ _, _) ∧ (_ → _)))

instance (s : HeapState) : DecidablePred (CallOk s)
  | .malloc mem size => inferInstanceAs (Decidable (MallocOk mem s.table size))
  | .free ptr => inferInstanceAs (Decidable (FreeOk s.table ptr))
  | .realloc mem ptr size => inferInstanceAs (Decidable (MallocOk mem s.table size ∧
      (ptr ≠ 0 → FreeOk (malloc mem s.table size).2 ptr)))

/-! ## The table under a call -/

/-- The blocks of entries have their size. -/
def SlotsOk (t : Table) : Prop := ∀ blk ∈ t, blk.length = allocBlock

section Calls

variable {lo hi : Nat} {t t' : Table} {mem : BlockMem} {sz align : Nat}

theorem addAlloc_eq {al : Alcent} (h : LambdaOs.addAlloc t al = .ok t') : addAlloc t al = t' := by
  unfold LambdaOs.addAlloc at h
  unfold addAlloc
  cases hfind : t.scan.find? fun pe => !pe.2.valid with
  | none =>
      rw [hfind] at h
      cases h
  | some pe =>
      rw [hfind] at h
      exact Except.ok.inj h

theorem SlotsOk.addAlloc (h : SlotsOk t) (al : Alcent) : SlotsOk (addAlloc t al) := by
  unfold UserHeap.addAlloc
  split
  · exact Table.slots_upd h _ _
  · exact h

theorem SlotsOk.append (h : SlotsOk t) (mem : BlockMem) (addr : Nat) :
    SlotsOk (t ++ [newBlock mem addr]) := by
  intro blk hblk
  rcases List.mem_append.mp hblk with hblk | hblk
  · exact h blk hblk
  · rw [List.mem_singleton.mp hblk, newBlock, List.length_map, List.length_range]

theorem SlotsOk.carve (h : SlotsOk t) (p : Nat × Nat) (sz align : Nat) :
    SlotsOk (carve t p sz align).2 := by
  unfold UserHeap.carve
  simp only
  split
  · exact Table.slots_upd h _ _
  · split
    · refine SlotsOk.addAlloc (Table.slots_upd ?_ _ _) _
      split
      · exact h.addAlloc _
      · exact h
    · exact SlotsOk.addAlloc (Table.slots_upd h _ _) _

theorem SlotsOk.rmAlloc (h : SlotsOk t) (p : Nat × Nat) : SlotsOk (rmAlloc t p) := by
  unfold UserHeap.rmAlloc
  simp only
  split
  · exact Table.slots_upd (Table.slots_upd h _ _) _ _
  · exact Table.slots_upd h _ _

/-- A hole that `_find_hole` returns is a free entry it accepted. -/
theorem findHole_spec (hs : SlotsOk t) (h : findHole t sz align ≠ noHole) :
    ∃ e, t.ent (unpackIdx (findHole t sz align)) = some e ∧ e.valid = true ∧ e.used = false ∧
      u64 (sz + holeOff e.addr align) ≤ e.size := by
  have hstep : ∀ best (pe : (Nat × Nat) × Alcent), findHoleStep sz align best pe = best ∨
      (findHoleStep sz align best pe).1 = packIdx pe.1 ∧ pe.2.valid = true ∧ pe.2.used = false ∧
        u64 (sz + holeOff pe.2.addr align) ≤ pe.2.size := fun best pe => by
    unfold findHoleStep
    split
    · rename_i hfree
      split
      · rename_i hfit
        simp only [Bool.and_eq_true, Bool.not_eq_true'] at hfree
        exact Or.inr ⟨rfl, hfree.1, hfree.2, hfit.1⟩
      · exact Or.inl rfl
    · exact Or.inl rfl
  rcases @foldl_best (findHoleStep sz align) (fun _ e => e.valid = true ∧ e.used = false ∧
    u64 (sz + holeOff e.addr align) ≤ e.size) hstep t.scan (noHole, 0xFFFFFFFF) with
    hnone | ⟨⟨p, e⟩, hpe, heq, hfree⟩
  · exact absurd hnone h
  · have he := Table.mem_scan.mp hpe
    refine ⟨e, ?_⟩
    have hlt : p.2 < LambdaOs.allocBlock := by
      obtain ⟨blk, hblk, hent⟩ := Option.bind_eq_some_iff.mp he
      have hlen := (List.getElem?_eq_some_iff.mp hent).1
      rw [hs blk (List.mem_of_getElem? hblk)] at hlen
      exact Nat.lt_trans hlen (by decide)
    rw [findHole, heq, unpackIdx_packIdx hlt]
    exact ⟨he, hfree⟩

/-- A hole that is about to grow the table is in a block with slots. -/
theorem four_slots (hs : SlotsOk t) (hfound : findHole t sz align ≠ noHole)
    (hfour : emptySlots t (findHole t sz align >>> 16) = 4) : 4 ≤ invalidSlots t := by
  obtain ⟨e, he, -⟩ := findHole_spec hs hfound
  obtain ⟨blk, hblk, -⟩ := Option.bind_eq_some_iff.mp he
  have hlt : findHole t sz align >>> 16 < t.length := (List.getElem?_eq_some_iff.mp hblk).1
  have hslots := block_slots_le hlt
  rw [hs _ (List.getElem_mem hlt)] at hslots
  unfold emptySlots at hfour
  rw [List.getD_eq_getElem _ _ hlt] at hfour
  exact hfour ▸ hslots

/-- Where nothing wraps and there are slots, both allocators take the same from a
hole. -/
theorem carve_eq {p : Nat × Nat} {e : Alcent} (he : t.ent p = some e) (hal : 0 < align)
    (hwrap : sz + holeOff e.addr align < 4294967296) {r : Nat}
    (hc : LambdaOs.carve t p sz align = .ok (r, t')) : carve t p sz align = (r, t') := by
  have hu : ∀ n, n < 4294967296 → u64 n = n := fun n hn => Nat.mod_eq_of_lt (by omega)
  unfold carve
  simp only [Table.get_eq he]
  cases carve_eq_ok he hc with
  | whole hsize => rw [if_pos hsize]
  | front hsize haligned hblock =>
      rw [if_neg hsize, if_neg (not_not.mpr haligned), addAlloc_eq hblock]
  | middle hsize hskip htail hrest hblock =>
      obtain ⟨-, hoff⟩ := (holeOff_eq hal).resolve_left fun h0 => hskip h0.1
      rw [hoff] at hwrap
      rw [u32_of_lt hwrap] at htail hrest
      rw [if_neg hsize, if_pos hskip, hu _ hwrap, if_pos htail, addAlloc_eq hrest,
        addAlloc_eq hblock]
  | back hsize hskip hend hblock =>
      obtain ⟨-, hoff⟩ := (holeOff_eq hal).resolve_left fun h0 => hskip h0.1
      rw [hoff] at hwrap
      rw [u32_of_lt hwrap] at hend
      rw [if_neg hsize, if_pos hskip, hu _ hwrap, if_neg (Nat.not_lt_of_le hend),
        addAlloc_eq hblock]

theorem slotsFor_eq (e : Alcent) (hwrap : sz + holeOff e.addr minAlign < 4294967296) :
    LambdaOs.slotsFor e sz minAlign = slotsFor e sz := by
  unfold LambdaOs.slotsFor slotsFor
  rcases @holeOff_eq e.addr minAlign (by decide) with ⟨h0, -⟩ | ⟨-, h1⟩
  · simp [h0]
  · rw [h1] at hwrap
    rw [u32_of_lt hwrap]

/-- A hole in the region, found for a size that does not wrap with the bytes
skipped, holds both. -/
theorem findHole_fits (hs : SlotsOk t) (h : BlocksOk lo hi t) (hhi : hi < 4294967296)
    (hfit : sz + minAlign ≤ 18446744073709551616) (hfound : findHole t sz minAlign ≠ noHole) :
    ∃ e, Hole t sz minAlign (unpackIdx (findHole t sz minAlign)) e ∧
      sz + holeOff e.addr minAlign ≤ e.size ∧ sz + holeOff e.addr minAlign < 4294967296 := by
  obtain ⟨e, he, hv, hu, hle⟩ := findHole_spec hs hfound
  have hin := h.inside _ e he hv
  have hoff := @holeOff_lt e.addr minAlign (by decide)
  rw [u64, Nat.mod_eq_of_lt (by omega)] at hle
  have hwrap : sz + holeOff e.addr minAlign < 4294967296 := by omega
  exact ⟨e, ⟨he, hv, hu, by rwa [u32_of_lt hwrap]⟩, hle, hwrap⟩

/-- `_alloc_new_block`, for a block that reads as invalid entries. -/
theorem allocNewBlock_spec (hs : SlotsOk t) (h : BlocksOk lo hi t) (hhi : hi < 4294967296)
    (hslots : 2 ≤ invalidSlots t)
    (hmem : findHole t pageSz minAlign ≠ noHole → t.length < allocBlocks →
      ∀ e ∈ newBlock mem (newBlockAddr t), e.valid = false) :
    SlotsOk (allocNewBlock mem t) ∧ BlocksOk lo hi (allocNewBlock mem t) ∧
      Takes t (allocNewBlock mem t) ∧ 2 ≤ invalidSlots (allocNewBlock mem t) := by
  have hpage : 0 < pageSz := by decide
  unfold allocNewBlock
  simp only
  split
  · exact ⟨hs, h, Takes.refl t, hslots⟩
  · rename_i hfound
    split
    · exact ⟨hs, h, Takes.refl t, hslots⟩
    · rename_i hroom
      obtain ⟨e, ⟨he, hv, hu, -⟩, hle, -⟩ := findHole_fits hs h hhi (by decide) hfound
      have hin := h.inside _ e he hv
      have hmem := hmem hfound (Nat.lt_of_not_le hroom)
      rw [newBlockAddr, Table.get_eq he] at hmem
      rw [Table.get_eq he]
      generalize unpackIdx (findHole t pageSz minAlign) = p at he
      generalize pageSz = asz at hpage hle
      have hmany : ∀ t₁ : Table, 2 ≤ invalidSlots (t₁ ++ [newBlock mem e.addr]) := fun t₁ => by
        have htwo : 2 ≤ (newBlock mem e.addr).length := by
          rw [newBlock, List.length_map, List.length_range]
          decide
        rw [invalidSlots_append hmem]
        omega
      split
      · rename_i hexact
        have hone := h.shrink (f := fun e => { e with used := true }) he hv (by simp [Within])
          (by simp only; omega)
        obtain ⟨hok, htk⟩ := hone.append_block hmem
        exact ⟨SlotsOk.append (Table.slots_upd hs _ _) mem e.addr, hok,
          (Takes.upd he hv hu (by simp [Within])).trans htk, hmany _⟩
      · rename_i hne
        have hu32 : u32 (e.addr + asz) = e.addr + asz := u32_of_lt (by omega)
        have hkeep := invalidSlots_upd
          (f := fun e => { e with size := e.size - asz, addr := u32 (e.addr + asz) }) he hv hv
        rcases addAlloc_cases (t.upd p fun e =>
            { e with size := e.size - asz, addr := u32 (e.addr + asz) })
          ⟨true, true, e.addr, asz⟩ rfl with ⟨hnone, -⟩ | ⟨t₁, hadd, -⟩
        · omega
        · obtain ⟨hok₁, htk₁⟩ := split_hole h he hv hu
            (by simp only [Within, hu32]; omega) (by simp only; omega)
            (by simp only [Within]; omega) hpage (by simp only [Apart, hu32]; omega) hadd
          have hslots₁ : SlotsOk t₁ :=
            addAlloc_eq hadd ▸ SlotsOk.addAlloc (Table.slots_upd hs _ _) _
          obtain ⟨hok₂, htk₂⟩ := hok₁.append_block hmem
          rw [addAlloc_eq hadd]
          exact ⟨hslots₁.append mem e.addr, hok₂, htk₁.trans htk₂, hmany t₁⟩

/-- **One `malloc`.** Under its side conditions it keeps the invariant, and
returns `NULL` or a block taken from a hole. -/
theorem malloc_spec (hs : SlotsOk t) (h : BlocksOk lo hi t) (hhi : hi < 4294967296)
    (hok : MallocOk mem t sz) :
    SlotsOk (malloc mem t sz).2 ∧ BlocksOk lo hi (malloc mem t sz).2 ∧
      Takes t (malloc mem t sz).2 ∧
      ((malloc mem t sz).1 = 0 ∨
        Granted t (malloc mem t sz).2 sz minAlign (malloc mem t sz).1) := by
  have hnull : SlotsOk t ∧ BlocksOk lo hi t ∧ Takes t t ∧
      ((0 : Nat) = 0 ∨ Granted t t sz minAlign 0) :=
    ⟨hs, h, Takes.refl t, Or.inl rfl⟩
  unfold malloc alloc
  split
  · exact hnull
  · rename_i hargs
    have hsz : sz ≠ 0 := fun h0 => hargs (Or.inr h0)
    rw [if_neg (show ¬ minAlign &&& (minAlign - 1) ≠ 0 by decide)]
    split
    · exact hnull
    · rename_i hfound
      obtain ⟨hfit, hmem, hfew⟩ := hok hsz hfound
      -- the table, grown or not, has the slots
      obtain ⟨t₁, ht₁⟩ : ∃ t₁, t₁ = if emptySlots t (findHole t sz minAlign >>> 16) = 4 then
        allocNewBlock mem t else t := ⟨_, rfl⟩
      have hgrown : SlotsOk t₁ ∧ BlocksOk lo hi t₁ ∧ Takes t t₁ ∧
          (2 ≤ invalidSlots t₁ ∨ t₁ = t ∧
            slotsFor (t.get (unpackIdx (findHole t sz minAlign))) sz ≤ invalidSlots t) := by
        split at ht₁
        · rename_i hfour
          have hfree := four_slots hs hfound hfour
          obtain ⟨hs₁, hok₁, htk₁, htwo⟩ := allocNewBlock_spec hs h hhi (by omega) (hmem hfour)
          rw [ht₁]
          exact ⟨hs₁, hok₁, htk₁, Or.inl htwo⟩
        · rename_i hfour
          rw [ht₁]
          exact ⟨hs, h, Takes.refl t, Or.inr ⟨rfl, hfew hfour⟩⟩
      simp only [← ht₁]
      obtain ⟨hs₁, hok₁, htk₁, hslots⟩ := hgrown
      split
      · exact ⟨hs₁, hok₁, htk₁, Or.inl rfl⟩
      · rename_i hfound₁
        obtain ⟨e, hhole, -, hwrap⟩ := findHole_fits hs₁ hok₁ hhi hfit hfound₁
        have henough : LambdaOs.slotsFor e sz minAlign ≤ invalidSlots t₁ := by
          rcases hslots with htwo | ⟨rfl, hfew⟩
          · exact Nat.le_trans (slotsFor_le e sz minAlign) htwo
          · rwa [slotsFor_eq e hwrap, ← Table.get_eq hhole.1]
        rcases @carve_slots t₁ sz minAlign _ _ hhole.1 hhole.2.1 with ⟨hlt, -⟩ | ⟨-, r, t', hc⟩
        · omega
        · obtain ⟨hok₂, htk₂, hgr⟩ := carve_blocks hok₁ (Nat.le_of_lt hhi) hhole
            (Nat.pos_of_ne_zero hsz) (by decide) hwrap hc
          have heq := carve_eq hhole.1 (by decide) hwrap hc
          have hs₂ : SlotsOk t' := by
            have := hs₁.carve (unpackIdx (findHole t₁ sz minAlign)) sz minAlign
            rwa [heq] at this
          rw [heq]
          exact ⟨hs₂, hok₂, htk₁.trans htk₂, Or.inr (hgr.of_takes htk₁)⟩

/-- On a live block of the region both allocators merge alike. -/
theorem rmAlloc_eq (h : BlocksOk lo hi t) (hhi : hi < 4294967296) {p : Nat × Nat} {u : Alcent}
    (hu : t.ent p = some u) (huv : u.valid = true) (huu : u.used = true) :
    rmAlloc t p = LambdaOs.rmAlloc t p := by
  have huin := h.inside p u hu huv
  have hsize : u32 u.size = u.size := u32_of_lt (by omega)
  unfold rmAlloc LambdaOs.rmAlloc
  simp only [Table.get_eq hu, hsize]
  cases hmerge : t.scan.find? fun pe => mergeTest u.addr u.size pe.2 with
  | none => rfl
  | some qe =>
    obtain ⟨q, e⟩ := qe
    have he := Table.mem_scan.mp (List.mem_of_find?_eq_some hmerge)
    have hm := List.find?_some hmerge
    simp only [mergeTest, Bool.and_eq_true, Bool.not_eq_true'] at hm
    obtain ⟨hev, -, heu⟩ := hm
    have hpq := Table.used_ne_free hu huu he heu
    have hein := h.inside q e he hev
    have hap := h.apart p q u e hpq hu he huv hev
    have hsum : u64 (e.size + u.size) = u32 (e.size + u.size) := by
      simp only [Apart] at hap
      rw [u64, u32_of_lt (by omega), Nat.mod_eq_of_lt (by omega)]
    have hmerged : (t.upd q fun e =>
        { e with
          size := u64 (e.size + u.size)
          addr := if e.addr > u.addr then u.addr else e.addr }) = t.upd q fun e =>
        { e with
          size := u32 (e.size + u.size)
          addr := if e.addr > u.addr then u.addr else e.addr } :=
      Table.upd_congr he (by simp only [hsum])
    exact congrArg (fun t : Table => t.upd p fun e => { e with valid := false }) hmerged

/-- A live block is found by its address. -/
theorem findAddr_eq (h : BlocksOk lo hi t) {p : Nat × Nat} {u : Alcent} (hu : t.ent p = some u)
    (huv : u.valid = true) (huu : u.used = true) : findAddr t u.addr = some p := by
  unfold findAddr
  cases hf : t.scan.find? fun pe => pe.2.valid && pe.2.addr == u.addr with
  | none =>
    have hnot := List.find?_eq_none.mp hf (p, u) (Table.mem_scan.mpr hu)
    simp [huv] at hnot
  | some pe => rw [Option.map_some, ← find_live h hu huv huu hf]

/-- **One `free` of a live block.** -/
theorem free_spec (hs : SlotsOk t) (h : BlocksOk lo hi t) (hhi : hi < 4294967296)
    {p : Nat × Nat} {u : Alcent} (hu : t.ent p = some u) (huv : u.valid = true)
    (huu : u.used = true) (hok : FreeOk t u.addr) :
    SlotsOk (free t u.addr) ∧ BlocksOk lo hi (free t u.addr) ∧
      ∀ q g, t.ent q = some g → g.valid = true → g.used = true → q ≠ p →
        (free t u.addr).ent q = some g := by
  have hfree : free t u.addr = rmAlloc t p := by
    unfold free
    rw [findAddr_eq h hu huv huu]
  rw [hfree]
  refine ⟨hs.rmAlloc p, ?_⟩
  rw [rmAlloc_eq h hhi hu huv huu]
  exact rmAlloc_spec h hhi hu huv huu (hok p u hu huv huu rfl)

end Calls

/-! ## The invariant of the runs -/

structure HeapInv (lo hi : Nat) (s : HeapState) : Prop where
  slots : SlotsOk s.table
  blocks : BlocksOk lo hi s.table
  recorded : ∀ x ∈ s.live, ∃ p, s.table.ent p = some ⟨true, true, x.1, x.2⟩
  distinct : (s.live.map Prod.fst).Nodup

section Runs

variable {lo hi : Nat} {s s' : HeapState}

/-- Two used entries with the same address are one. -/
theorem used_unique {t : Table} (h : BlocksOk lo hi t) {p q : Nat × Nat} {u e : Alcent}
    (hu : t.ent p = some u) (huv : u.valid = true) (huu : u.used = true)
    (he : t.ent q = some e) (hev : e.valid = true) (heu : e.used = true)
    (haddr : e.addr = u.addr) : q = p := by
  by_contra hne
  have hap := h.apart q p e u hne he hu hev huv
  have hupos := h.used_pos hu huv huu
  have hepos := h.used_pos he hev heu
  simp only [Apart] at hap
  omega

theorem HeapInv.sound {region : Nat} (h : HeapInv region (region + initialSz) s) :
    HeapSound region s := by
  refine ⟨?_, h.distinct, h.blocks.apart, ?_⟩
  · intro x hx
    obtain ⟨p, hp⟩ := h.recorded x hx
    exact ⟨p, hp, fun q e he hev heu haddr =>
      used_unique h.blocks hp rfl rfl he hev heu haddr⟩
  · intro x hx
    obtain ⟨p, hp⟩ := h.recorded x hx
    exact h.blocks.inside p _ hp rfl

theorem HeapInv.malloc (h : HeapInv lo hi s) (hhi : hi < 4294967296) {mem : BlockMem} {size : Nat}
    (hok : MallocOk mem s.table size) :
    HeapInv lo hi ⟨(malloc mem s.table size).2, grant (malloc mem s.table size).1 size s.live⟩ := by
  obtain ⟨hslots, hblocks, htakes, hret⟩ := malloc_spec h.slots h.blocks hhi hok
  generalize UserHeap.malloc mem s.table size = r at *
  have hold : ∀ x ∈ s.live, ∃ p, r.2.ent p = some ⟨true, true, x.1, x.2⟩ := fun x hx => by
    obtain ⟨p, hp⟩ := h.recorded x hx
    exact ⟨p, htakes.keeps p _ hp rfl rfl⟩
  unfold grant
  split
  · exact ⟨hslots, hblocks, hold, h.distinct⟩
  · rename_i hr
    have hgr := hret.resolve_left hr
    refine ⟨hslots, hblocks, List.forall_mem_cons.mpr ⟨hgr.entry, hold⟩, ?_⟩
    rw [List.map_cons, List.nodup_cons]
    refine ⟨?_, h.distinct⟩
    intro hmem
    -- the block is in a hole, and a live one is not
    obtain ⟨x, hx, hxr⟩ := List.mem_map.mp hmem
    obtain ⟨p, hp⟩ := h.recorded x hx
    obtain ⟨q, e, he, hev, heu, hw⟩ := hgr.hole
    have hpq := Table.used_ne_free hp rfl he heu
    have hap := (h.blocks.apart p q _ e hpq hp he rfl hev).symm.of_within hw
    have hpos := h.blocks.used_pos hp rfl rfl
    obtain ⟨p', hp'⟩ := hgr.entry
    have hpos' := hblocks.used_pos hp' rfl rfl
    simp only [Apart] at hap hpos hpos'
    simp only at hxr
    omega

theorem HeapInv.free (h : HeapInv lo hi s) (hhi : hi < 4294967296) {ptr : Nat}
    (hptr : ptr ∈ s.live.map Prod.fst) (hok : FreeOk s.table ptr) :
    HeapInv lo hi ⟨free s.table ptr, release ptr s.live⟩ := by
  obtain ⟨x, hx, rfl⟩ := List.mem_map.mp hptr
  obtain ⟨p, hp⟩ := h.recorded x hx
  obtain ⟨hslots, hblocks, hkeep⟩ := free_spec h.slots h.blocks hhi hp rfl rfl hok
  refine ⟨hslots, hblocks, ?_, ?_⟩
  · intro y hy
    obtain ⟨hy, hne⟩ := List.mem_filter.mp hy
    obtain ⟨q, hq⟩ := h.recorded y hy
    refine ⟨q, hkeep q _ hq rfl rfl ?_⟩
    rintro rfl
    rw [hp] at hq
    have haddr := congrArg Alcent.addr (Option.some.inj hq)
    exact of_decide_eq_true hne haddr.symm
  · exact h.distinct.sublist (List.filter_sublist.map _)

theorem malloc_zero (mem : BlockMem) (t : Table) : UserHeap.malloc mem t 0 = (0, t) := by
  unfold UserHeap.malloc alloc
  exact if_pos (Or.inr rfl)

theorem release_of_not_mem {ptr : Nat} {live : List (Nat × Nat)}
    (h : ptr ∉ live.map Prod.fst) : release ptr live = live :=
  List.filter_eq_self.mpr fun x hx => decide_eq_true fun he =>
    h (List.mem_map.mpr ⟨x, hx, he⟩)

/-- A new block stays live when another one is released. -/
theorem release_grant {ptr r size : Nat} {live : List (Nat × Nat)}
    (hdistinct : ((grant r size live).map Prod.fst).Nodup) (hptr : ptr ∈ live.map Prod.fst) :
    ptr ∈ (grant r size live).map Prod.fst ∧
      release ptr (grant r size live) = grant r size (release ptr live) := by
  unfold grant at *
  by_cases hr : r = 0
  · simp only [if_pos hr]
    exact ⟨hptr, trivial⟩
  · simp only [if_neg hr] at hdistinct ⊢
    rw [List.map_cons, List.nodup_cons] at hdistinct
    have hne : r ≠ ptr := fun he => hdistinct.1 (he ▸ hptr)
    exact ⟨List.mem_cons_of_mem _ hptr, List.filter_cons_of_pos (decide_eq_true hne)⟩

/-- `NULL` is not live in a region that does not start there. -/
theorem HeapInv.null_not_live (h : HeapInv lo hi s) (hlo : 0 < lo) :
    0 ∉ s.live.map Prod.fst := by
  intro hmem
  obtain ⟨x, hx, hzero⟩ := List.mem_map.mp hmem
  obtain ⟨p, hp⟩ := h.recorded x hx
  have hin := h.blocks.inside p _ hp rfl
  simp only [hzero] at hin
  omega

theorem HeapInv.realloc (h : HeapInv lo hi s) (hhi : hi < 4294967296) (hlo : 0 < lo)
    {mem : BlockMem} {ptr size : Nat} (hptr : ptr = 0 ∨ ptr ∈ s.live.map Prod.fst)
    (hok : CallOk s (.realloc mem ptr size)) {r : Nat × Table}
    (hcall : realloc mem s.table ptr size = some r) :
    HeapInv lo hi ⟨r.2, grant r.1 size (release ptr s.live)⟩ := by
  unfold UserHeap.realloc at hcall
  have hmalloc := h.malloc hhi hok.1
  split at hcall
  · -- of `NULL`: a `malloc`, or nothing
    rename_i hnull
    rw [hnull, release_of_not_mem (h.null_not_live hlo)]
    split at hcall
    · obtain rfl := Option.some.inj hcall
      exact h
    · obtain rfl := Option.some.inj hcall
      exact hmalloc
  · rename_i hne
    have hlive := hptr.resolve_left hne
    obtain ⟨x, hx, hxp⟩ := List.mem_map.mp hlive
    obtain ⟨p, hp⟩ := h.recorded x hx
    have hfind : findAddr s.table ptr = some p := hxp ▸ findAddr_eq h.blocks hp rfl rfl
    simp only [hfind] at hcall
    split at hcall
    · rename_i hzero
      obtain rfl := Option.some.inj hcall
      have hfree := hok.2 hne
      rw [hzero, malloc_zero] at hfree
      exact h.free hhi hlive hfree
    · split at hcall
      · cases hcall
      · obtain rfl := Option.some.inj hcall
        have hok' := hok.2 hne
        generalize UserHeap.malloc mem s.table size = m at hok' hmalloc ⊢
        obtain ⟨hmem, hcomm⟩ := release_grant hmalloc.distinct hlive
        have hfree := hmalloc.free hhi hmem hok'
        rwa [hcomm] at hfree

theorem heapStep_inv (hhi : hi < 4294967296) (hlo : 0 < lo) (c : HeapCall) (h : HeapInv lo hi s)
    (hok : CallOk s c) (hstep : heapStep s c = some s') : HeapInv lo hi s' := by
  cases c with
  | malloc mem size =>
      obtain rfl := Option.some.inj hstep
      exact h.malloc hhi hok
  | free ptr =>
      simp only [heapStep] at hstep
      split at hstep
      · rename_i hptr
        obtain rfl := Option.some.inj hstep
        exact h.free hhi hptr hok
      · cases hstep
  | realloc mem ptr size =>
      simp only [heapStep] at hstep
      split at hstep
      · rename_i hptr
        obtain ⟨r, hcall, rfl⟩ := Option.map_eq_some_iff.mp hstep
        exact h.realloc hhi hlo hptr hok hcall
      · cases hstep

/-- `__lib_alloc_init` leaves one hole. -/
theorem libAllocInit_inv {allocs block region : Nat} {t : Table}
    (hinit : libAllocInit allocs block region = some t) :
    0 < region ∧ HeapInv region (region + initialSz) ⟨t, []⟩ := by
  unfold libAllocInit at hinit
  split at hinit
  · cases hinit
  · rename_i hnull
    simp only [not_or] at hnull
    obtain rfl := Option.some.inj hinit
    have hslots : SlotsOk [List.replicate allocBlock default] := fun blk hblk => by
      rw [List.mem_singleton.mp hblk, List.length_replicate]
    have he : Table.ent [List.replicate allocBlock default] (0, 0) = some default := rfl
    exact ⟨Nat.pos_of_ne_zero hnull.2.2, Table.slots_upd hslots _ _, BlocksOk.single he rfl, nofun,
      List.nodup_nil⟩

end Runs

/-- **The heap of a program keeps its blocks apart** in every state of every run
whose calls meet their side conditions. -/
theorem user_heap_sound_of_guarded {allocs block region : Nat}
    (hfit : region + initialSz < 4294967296) {t : Table}
    (hinit : libAllocInit allocs block region = some t) {calls : List HeapCall}
    (hok : Guarded heapStep CallOk ⟨t, []⟩ calls) {s : HeapState}
    (hrun : exec heapStep ⟨t, []⟩ calls = some s) : HeapSound region s := by
  obtain ⟨hlo, hinv⟩ := libAllocInit_inv hinit
  exact (exec_guarded_inv (fun _ c _ hs hc hstep => heapStep_inv hfit hlo c hs hc hstep) hinv hok
    hrun).sound

/-- A region at 128 MiB. -/
def bootTable : Table := (libAllocInit 0x7FFE000 0x7FFF000 0x8000000).getD []

theorem libAllocInit_boot : libAllocInit 0x7FFE000 0x7FFF000 0x8000000 = some bootTable := rfl

/-- One block, allocated, enlarged and freed: a run that meets its side
conditions. -/
def blockCalls : List HeapCall :=
  [.malloc zeroMem 8, .realloc zeroMem 0x8000000 24, .free 0x8000008]

set_option maxRecDepth 100000 in
theorem user_heap_sound_of_guarded_boot :
    ∃ s, exec heapStep ⟨bootTable, []⟩ blockCalls = some s ∧ HeapSound 0x8000000 s := by
  have hok : Guarded heapStep CallOk ⟨bootTable, []⟩ blockCalls := by
    decide +kernel
  have hends : ((exec heapStep ⟨bootTable, []⟩ blockCalls).isSome) = true := by
    decide +kernel
  obtain ⟨s, hrun⟩ := Option.isSome_iff_exists.mp hends
  exact ⟨s, hrun, user_heap_sound_of_guarded (by decide) libAllocInit_boot hok hrun⟩

/-- The calls that break the heap: the free entry of 8 bytes at `0x8000000` is
taken for the neighbour below the block of 16 bytes at `0x8000010`. -/
def overlapCalls : List HeapCall :=
  [.malloc zeroMem 8, .malloc zeroMem 8, .malloc zeroMem 16, .malloc zeroMem 8,
    .free 0x8000000, .free 0x8000010]

set_option maxRecDepth 100000 in
/-- After `overlapCalls` the free entry `[0x8000000, 0x8000018)` covers the live
block `[0x8000008, 0x8000010)`. -/
theorem user_heap_overlap_after_two_frees :
    ¬ ∀ allocs block region : Nat, region + initialSz < 4294967296 →
      ∀ t, libAllocInit allocs block region = some t →
        ∀ calls s, exec heapStep ⟨t, []⟩ calls = some s → HeapSound region s := by
  intro hall
  have hends : ((exec heapStep ⟨bootTable, []⟩ overlapCalls).any fun s =>
      s.table.ent (0, 1) = some ⟨true, false, 0x8000000, 24⟩
        ∧ s.table.ent (0, 2) = some ⟨true, true, 0x8000008, 8⟩) = true := by
    decide +kernel
  obtain ⟨s, hrun, hents⟩ := (Option.any_eq_true _ _).mp hends
  obtain ⟨hfree, hlive⟩ := of_decide_eq_true hents
  have hap := (hall _ _ _ (by decide) _ libAllocInit_boot _ _ hrun).apart _ _ _ _ (by decide)
    hfree hlive rfl rfl
  simp [Apart] at hap

end UserHeap

end LambdaOs
