import LambdaOs.FirstLeast
import LambdaOs.UserAlloc

/-!
# Best fit

`_find_hole` of the kernel (`mm/alloc.c`) and of the user library
(`stdlib/alloc.c`), over the array of pointers to blocks of entries as it is:
any of the pointers may be `NULL`. A table without gaps is one such array
(`Allocs.ofTable`), and the search over it the one of the allocators' models.

Both versions scan the entries by block and by index in it, and keep the one of
least size so far. What they return is the first of the smallest holes in which
an aligned block has room (`find_hole_best_fit`).
-/

namespace LambdaOs

/-- `allocs`: the entries of a block, or `NULL`. -/
abbrev Allocs := Nat → Option (Nat → Alcent)

namespace Allocs

/-- The loops over the blocks and over the entries of each. -/
def search (a : Allocs) (blocks slots : Nat)
    (step : Nat × Nat → (Nat × Nat) × Alcent → Nat × Nat) (best : Nat × Nat) : Nat × Nat :=
  (List.range blocks).foldl (fun best j =>
    match a j with
    | none => best
    | some block =>
        (List.range slots).foldl (fun best i => step best ((j, i), block i)) best) best

/-- A valid entry that is not in use. -/
structure Free (a : Allocs) (blocks slots : Nat) (p : Nat × Nat) (e : Alcent) : Prop where
  block : p.1 < blocks
  slot : p.2 < slots
  entry : (a p.1).map (· p.2) = some e
  valid : e.valid = true
  unused : e.used = false

/-- The blocks of a table, one after another. -/
def ofTable (t : Table) : Allocs := fun j => t[j]?.map fun blk i => blk.getD i default

end Allocs

namespace KernelAllocs

def findHole (allocs : Allocs) (sz align : Nat) : Nat :=
  (allocs.search allocBlocks allocBlock (findHoleStep sz align) (noHole, 0xFFFFFFFF)).1

end KernelAllocs

namespace UserAllocs

/-- Bytes to skip at `addr`, with the mask of an `align` that is a power of two. -/
def holeOff (addr align : Nat) : Nat :=
  let alignmask := align - 1
  let off := align - (addr &&& alignmask)
  if off = align then 0 else off

/-- One round, on the best index and its size so far, of 32 bits. -/
def findHoleStep (sz align : Nat) (best : Nat × Nat) (pe : (Nat × Nat) × Alcent) :
    Nat × Nat :=
  if pe.2.valid && !pe.2.used then
    if pe.2.size ≥ u64 (sz + holeOff pe.2.addr align) ∧ pe.2.size < best.2 then
      (packIdx pe.1, u32 pe.2.size)
    else best
  else best

def findHole (allocs : Allocs) (sz align : Nat) : Nat :=
  (allocs.search UserHeap.allocBlocks UserHeap.allocBlock (findHoleStep sz align)
    (noHole, 0xFFFFFFFF)).1

end UserAllocs

/-- `idx` is "nothing found" when there is no candidate. Otherwise it is the
packed position of one, and no other candidate is smaller, or as small and before
it in the order of the scan. -/
structure BestFit (candidate : Nat × Nat → Alcent → Prop) (idx : Nat) : Prop where
  none : idx = noHole ↔ ∀ p e, ¬ candidate p e
  best : idx ≠ noHole → ∃ p e, candidate p e ∧ idx = packIdx p ∧ unpackIdx idx = p ∧
    ∀ q f, candidate q f → toLex (e.size, toLex p) ≤ toLex (f.size, toLex q)

/-! ## The scan -/

namespace Allocs

variable {a : Allocs} {blocks slots : Nat}

/-- The entries with their positions, in the order of the loops. -/
def scan (a : Allocs) (blocks slots : Nat) : List ((Nat × Nat) × Alcent) :=
  (List.range blocks).flatMap fun j =>
    (a j).elim [] fun block => (List.range slots).map fun i => ((j, i), block i)

theorem search_eq (step : Nat × Nat → (Nat × Nat) × Alcent → Nat × Nat) (best : Nat × Nat) :
    a.search blocks slots step best = (a.scan blocks slots).foldl step best := by
  rw [search, scan, List.foldl_flatMap]
  congr
  funext best j
  cases a j with
  | none => rfl
  | some block => exact List.foldl_map.symm

theorem mem_scan {p : Nat × Nat} {e : Alcent} :
    (p, e) ∈ a.scan blocks slots ↔
      p.1 < blocks ∧ p.2 < slots ∧ (a p.1).map (· p.2) = some e := by
  obtain ⟨j, i⟩ := p
  simp only [scan, List.mem_flatMap, List.mem_range]
  constructor
  · rintro ⟨j', hj, hmem⟩
    cases hblock : a j' with
    | none => simp [hblock] at hmem
    | some block =>
        simp only [hblock, Option.elim_some, List.mem_map, List.mem_range, Prod.mk.injEq] at hmem
        obtain ⟨i', hi, ⟨rfl, rfl⟩, rfl⟩ := hmem
        exact ⟨hj, hi, by rw [hblock, Option.map_some]⟩
  · rintro ⟨hj, hi, hent⟩
    obtain ⟨block, hblock, rfl⟩ := Option.map_eq_some_iff.mp hent
    refine ⟨j, hj, ?_⟩
    rw [hblock, Option.elim_some]
    exact List.mem_map.mpr ⟨i, List.mem_range.mpr hi, rfl⟩

/-- The scan goes up through the positions. -/
theorem scan_sorted :
    (a.scan blocks slots).Pairwise fun x y => toLex x.1 < toLex y.1 := by
  refine List.pairwise_flatMap.mpr ⟨fun j _ => ?_, List.pairwise_lt_range.imp ?_⟩
  · cases a j with
    | none => exact List.Pairwise.nil
    | some block =>
        refine List.pairwise_map.mpr (List.pairwise_lt_range.imp fun hi => ?_)
        exact Prod.Lex.toLex_lt_toLex.mpr (.inr ⟨rfl, hi⟩)
  · intro j j' hj x hx y hy
    have hblock : ∀ {k} {z : (Nat × Nat) × Alcent}, z ∈ (a k).elim []
        (fun block => (List.range slots).map fun i => ((k, i), block i)) → z.1.1 = k := by
      intro k z hz
      cases hk : a k with
      | none => simp [hk] at hz
      | some block =>
          rw [hk, Option.elim_some] at hz
          obtain ⟨i, -, rfl⟩ := List.mem_map.mp hz
          rfl
    exact Prod.Lex.toLex_lt_toLex.mpr (.inl (by rwa [hblock hx, hblock hy]))

end Allocs

/-! ## What is accepted -/

/-- The entry is free, and has room for the bytes skipped and the block. -/
def Accepts (sz align : Nat) (pe : (Nat × Nat) × Alcent) : Prop :=
  pe.2.valid = true ∧ pe.2.used = false ∧ sz + holeOff pe.2.addr align ≤ pe.2.size

instance (sz align : Nat) : DecidablePred (Accepts sz align) :=
  fun _ => inferInstanceAs (Decidable (_ ∧ _))

section Search

variable {a : Allocs} {blocks slots sz align : Nat}

/-- A hole in which an aligned block has room. -/
def Allocs.Candidate (a : Allocs) (blocks slots sz align : Nat) (p : Nat × Nat) (e : Alcent) :
    Prop :=
  a.Free blocks slots p e ∧ CanHold e sz align

theorem Allocs.candidate_iff (hal : 0 < align) {p : Nat × Nat} {e : Alcent} :
    a.Candidate blocks slots sz align p e ↔
      (p, e) ∈ (a.scan blocks slots).filter fun pe => Accepts sz align pe := by
  rw [List.mem_filter, mem_scan, decide_eq_true_iff, Candidate, canHold_iff hal]
  constructor
  · rintro ⟨⟨hblock, hslot, hent, hv, hu⟩, hfit⟩
    exact ⟨⟨hblock, hslot, hent⟩, hv, hu, hfit⟩
  · rintro ⟨⟨hblock, hslot, hent⟩, hv, hu, hfit⟩
    exact ⟨⟨hblock, hslot, hent, hv, hu⟩, hfit⟩

/-- A scan that keeps the smallest accepted entry is a best fit. -/
theorem Allocs.search_bestFit {step : Nat × Nat → (Nat × Nat) × Alcent → Nat × Nat}
    (hblocks : blocks ≤ 1024) (hslots : slots ≤ allocBlock) (hal : 0 < align)
    (hsize : ∀ p e, a.Free blocks slots p e → e.size < 0xFFFFFFFF)
    (hstep : ∀ pe ∈ a.scan blocks slots, ∀ best, step best pe =
      if Accepts sz align pe ∧ pe.2.size < best.2 then (packIdx pe.1, pe.2.size) else best) :
    BestFit (a.Candidate blocks slots sz align)
      (a.search blocks slots step (noHole, 0xFFFFFFFF)).1 := by
  have htop : ∀ pe ∈ a.scan blocks slots, Accepts sz align pe → pe.2.size < 0xFFFFFFFF := by
    rintro ⟨p, e⟩ hpe ⟨hv, hu, -⟩
    obtain ⟨hblock, hslot, hent⟩ := mem_scan.mp hpe
    exact hsize p e ⟨hblock, hslot, hent, hv, hu⟩
  rw [search_eq, foldl_eq_argmin hstep htop]
  cases hmin : ((a.scan blocks slots).filter fun pe => Accepts sz align pe).argmin
      fun pe => pe.2.size with
  | none =>
      refine ⟨iff_of_true rfl fun p e h => ?_, fun h => absurd rfl h⟩
      have hmem := (candidate_iff hal).mp h
      rw [List.argmin_eq_none.mp hmin] at hmem
      cases hmem
  | some pe =>
      obtain ⟨p, e⟩ := pe
      have hcand : a.Candidate blocks slots sz align p e :=
        (candidate_iff hal).mpr (List.argmin_mem hmin)
      have hslot : p.2 < allocBlock := Nat.lt_of_lt_of_le hcand.1.slot hslots
      have hfound : packIdx p ≠ noHole := by
        have hblock : p.1 < 1024 := Nat.lt_of_lt_of_le hcand.1.block hblocks
        rw [packIdx_eq hslot]
        simp only [allocBlock, noHole] at *
        omega
      refine ⟨iff_of_false hfound fun h => h p e hcand,
        fun _ => ⟨p, e, hcand, rfl, unpackIdx_packIdx hslot, fun q f hq => ?_⟩⟩
      exact toLex_le_of_mem_argmin (scan_sorted.filter _) hmin ((candidate_iff hal).mp hq)

end Search

/-! ## The kernel's version -/

theorem findHoleStep_eq {sz align : Nat} (hal : 0 < align) (hfit : sz + align ≤ 4294967296)
    (best : Nat × Nat) (pe : (Nat × Nat) × Alcent) :
    findHoleStep sz align best pe =
      if Accepts sz align pe ∧ pe.2.size < best.2 then (packIdx pe.1, pe.2.size) else best := by
  have hoff := @holeOff_lt pe.2.addr align hal
  unfold findHoleStep Accepts
  rw [u32_of_lt (by omega)]
  by_cases hfree : pe.2.valid = true ∧ pe.2.used = false
  · simp [hfree]
  · rw [if_neg (by simpa using hfree), if_neg fun h => hfree ⟨h.1.1, h.1.2.1⟩]

theorem KernelAllocs.findHole_bestFit {a : Allocs} {sz align : Nat} (hal : 0 < align)
    (hfit : sz + align ≤ 4294967296)
    (hsize : ∀ p e, a.Free allocBlocks allocBlock p e → e.size < 0xFFFFFFFF) :
    BestFit (a.Candidate allocBlocks allocBlock sz align) (findHole a sz align) :=
  a.search_bestFit (by decide) (Nat.le_refl _) hal hsize fun pe _ best =>
    findHoleStep_eq hal hfit best pe

/-! ## The user library's version -/

namespace UserAllocs

theorem holeOff_eq (addr k : Nat) : holeOff addr (2 ^ k) = LambdaOs.holeOff addr (2 ^ k) := by
  simp only [holeOff, LambdaOs.holeOff, Nat.and_two_pow_sub_one_eq_mod]

theorem findHoleStep_eq {sz k : Nat} (hfit : sz + 2 ^ k ≤ 4294967296) {pe : (Nat × Nat) × Alcent}
    (hsize : pe.2.valid = true → pe.2.used = false → pe.2.size < 0xFFFFFFFF) (best : Nat × Nat) :
    findHoleStep sz (2 ^ k) best pe =
      if Accepts sz (2 ^ k) pe ∧ pe.2.size < best.2 then (packIdx pe.1, pe.2.size) else best := by
  have hoff := @holeOff_lt pe.2.addr (2 ^ k) (Nat.two_pow_pos k)
  unfold findHoleStep Accepts
  rw [holeOff_eq, u64, Nat.mod_eq_of_lt (by omega)]
  by_cases hfree : pe.2.valid = true ∧ pe.2.used = false
  · have hlt := hsize hfree.1 hfree.2
    rw [u32_of_lt (by omega)]
    simp [hfree]
  · rw [if_neg (by simpa using hfree), if_neg fun h => hfree ⟨h.1.1, h.1.2.1⟩]

theorem findHole_bestFit {a : Allocs} {sz k : Nat} (hfit : sz + 2 ^ k ≤ 4294967296)
    (hsize : ∀ p e, a.Free UserHeap.allocBlocks UserHeap.allocBlock p e → e.size < 0xFFFFFFFF) :
    BestFit (a.Candidate UserHeap.allocBlocks UserHeap.allocBlock sz (2 ^ k))
      (findHole a sz (2 ^ k)) := by
  refine a.search_bestFit (by decide) (by decide) (Nat.two_pow_pos k) hsize ?_
  rintro ⟨p, e⟩ hpe
  obtain ⟨hblock, hslot, hent⟩ := Allocs.mem_scan.mp hpe
  exact findHoleStep_eq hfit fun hv hu => hsize p e ⟨hblock, hslot, hent, hv, hu⟩

end UserAllocs

/-! ## Both -/

/-- For every table, also one with missing blocks. -/
theorem find_hole_best_fit {sz align : Nat} (hal : 0 < align) (hfit : sz + align ≤ 4294967296)
    (a : Allocs) :
    ((∀ p e, a.Free allocBlocks allocBlock p e → e.size < 0xFFFFFFFF) →
      BestFit (a.Candidate allocBlocks allocBlock sz align) (KernelAllocs.findHole a sz align)) ∧
    ((∃ k, align = 2 ^ k) →
      (∀ p e, a.Free UserHeap.allocBlocks UserHeap.allocBlock p e → e.size < 0xFFFFFFFF) →
      BestFit (a.Candidate UserHeap.allocBlocks UserHeap.allocBlock sz align)
        (UserAllocs.findHole a sz align)) := by
  refine ⟨KernelAllocs.findHole_bestFit hal hfit, ?_⟩
  rintro ⟨k, rfl⟩
  exact UserAllocs.findHole_bestFit hfit

/-- Two holes, one in the first block and a smaller one in the third. -/
def gapAllocs : Allocs := fun j =>
  if j = 0 then some fun i => if i = 0 then ⟨true, false, 0x1004, 64⟩ else default
  else if j = 2 then some fun i => if i = 3 then ⟨true, false, 0x2000, 48⟩ else default
  else none

theorem gapAllocs_size {blocks slots : Nat} {p : Nat × Nat} {e : Alcent}
    (h : gapAllocs.Free blocks slots p e) : e.size < 0xFFFFFFFF := by
  obtain ⟨block, hblock, rfl⟩ := Option.map_eq_some_iff.mp h.entry
  unfold gapAllocs at hblock
  split at hblock
  · obtain rfl := Option.some.inj hblock
    dsimp only
    split <;> decide
  · split at hblock
    · obtain rfl := Option.some.inj hblock
      dsimp only
      split <;> decide
    · cases hblock

theorem find_hole_best_fit_gap :
    BestFit (gapAllocs.Candidate allocBlocks allocBlock 32 16)
        (KernelAllocs.findHole gapAllocs 32 16) ∧
      BestFit (gapAllocs.Candidate UserHeap.allocBlocks UserHeap.allocBlock 32 16)
        (UserAllocs.findHole gapAllocs 32 16) :=
  ⟨(find_hole_best_fit (by decide) (by decide) gapAllocs).1 fun _ _ h => gapAllocs_size h,
    (find_hole_best_fit (by decide) (by decide) gapAllocs).2 ⟨4, rfl⟩
      fun _ _ h => gapAllocs_size h⟩

example : KernelAllocs.findHole gapAllocs 32 16 = packIdx (2, 3) := by decide +kernel

/-! ## Tables without gaps -/

section Table

variable {t : Table} {blocks slots sz align : Nat}

theorem Allocs.scan_ofTable (hblocks : t.length ≤ blocks)
    (hslots : ∀ blk ∈ t, blk.length = slots) : (ofTable t).scan blocks slots = t.scan := by
  have hzip : t.zipIdx = (List.range t.length).map fun j => (t.getD j [], j) := by
    refine List.ext_getElem (by simp) fun j hj _ => ?_
    rw [List.length_zipIdx] at hj
    simp [hj]
  obtain ⟨rest, rfl⟩ := Nat.exists_eq_add_of_le hblocks
  have hrest : ((List.range rest).map (t.length + ·)).flatMap (fun j =>
      (ofTable t j).elim [] fun block => (List.range slots).map fun i => ((j, i), block i)) =
      [] := by
    simp [ofTable]
  rw [scan, Table.scan, List.range_add, List.flatMap_append, hrest, List.append_nil, hzip,
    List.flatMap_map]
  refine List.flatMap_congr fun j hj => ?_
  have hlt := List.mem_range.mp hj
  have hlen := hslots _ (List.getElem_mem hlt)
  rw [ofTable, List.getElem?_eq_getElem hlt, Option.map_some, Option.elim_some,
    List.getD_eq_getElem _ _ hlt]
  refine List.ext_getElem (by simp [hlen]) fun i hi _ => ?_
  rw [List.length_map, List.length_range, ← hlen] at hi
  simp [hi]

theorem KernelAllocs.findHole_ofTable (h : t.Shape) :
    findHole (.ofTable t) sz align = LambdaOs.findHole t sz align := by
  rw [findHole, Allocs.search_eq, Allocs.scan_ofTable h.blocks h.slots, LambdaOs.findHole]

theorem UserAllocs.findHole_ofTable (hs : UserHeap.SlotsOk t)
    (hblocks : t.length ≤ UserHeap.allocBlocks) (k : Nat) :
    findHole (.ofTable t) sz (2 ^ k) = UserHeap.findHole t sz (2 ^ k) := by
  have hstep : findHoleStep sz (2 ^ k) = UserHeap.findHoleStep sz (2 ^ k) := by
    funext best pe
    rw [findHoleStep, holeOff_eq, UserHeap.findHoleStep]
  rw [findHole, Allocs.search_eq, Allocs.scan_ofTable hblocks hs, hstep, UserHeap.findHole]

theorem Allocs.free_ofTable (hblocks : t.length ≤ blocks)
    (hslots : ∀ blk ∈ t, blk.length = slots) {p : Nat × Nat} {e : Alcent} :
    (ofTable t).Free blocks slots p e ↔ t.ent p = some e ∧ e.valid = true ∧ e.used = false := by
  rw [← Table.mem_scan, ← scan_ofTable hblocks hslots, mem_scan]
  constructor
  · rintro ⟨hblock, hslot, hent, hv, hu⟩
    exact ⟨⟨hblock, hslot, hent⟩, hv, hu⟩
  · rintro ⟨⟨hblock, hslot, hent⟩, hv, hu⟩
    exact ⟨hblock, hslot, hent, hv, hu⟩

/-- The hole that `kamalloc` takes its block from, in a well-formed table. -/
theorem TableWf.findHole_bestFit (h : TableWf t) (hal : 0 < align)
    (hfit : sz + align ≤ 4294967296) :
    BestFit (fun p e => (t.ent p = some e ∧ e.valid = true ∧ e.used = false) ∧
      CanHold e sz align) (findHole t sz align) := by
  have hfree := @Allocs.free_ofTable t allocBlocks allocBlock h.shape.blocks h.shape.slots
  have hbest := KernelAllocs.findHole_bestFit (a := .ofTable t) hal hfit fun p e hpe => by
    obtain ⟨he, hv, -⟩ := hfree.mp hpe
    exact (h.entry p e he hv).2.1
  have hsame : (Allocs.ofTable t).Candidate allocBlocks allocBlock sz align = fun p e =>
      (t.ent p = some e ∧ e.valid = true ∧ e.used = false) ∧ CanHold e sz align := by
    funext p e
    exact propext (and_congr_left fun _ => hfree)
  rwa [KernelAllocs.findHole_ofTable h.shape, hsame] at hbest

end Table

end LambdaOs
