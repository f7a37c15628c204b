import LambdaOs.AllocInv

/-!
# Whole runs of the kernel heap

A run is a list of calls after `init_alloc`, with the set of live pointers:
those a call returned and no `kfree` took back. The page tables `init_alloc`
asks for through `mmu_map` are `kamalloc` calls like any other, so they are
the first calls of a run.

In every run whose calls all meet their side conditions the heap is sound.
The conditions are not vacuous: four small blocks and two frees, without
them, leave a free entry over a live block.
-/

namespace LambdaOs

structure HeapState where
  table : Table
  live : List Nat

inductive HeapOp where
  | kamalloc (mem : BlockMem) (sz align : Nat)
  | kmalloc (mem : BlockMem) (sz : Nat)
  | kmamalloc (mem : BlockMem) (sz align : Nat)
  | kfree (ptr : Nat)

/-- A returned block becomes live; `NULL` does not. -/
def HeapState.grant : Except AllocPanic (Nat × Table) → List Nat → Option HeapState
  | .ok (r, t), live => some ⟨t, if r = 0 then live else r :: live⟩
  | .error _, _ => none

/-- One call. `kfree` is only given live pointers. -/
def heapStep (s : HeapState) : HeapOp → Option HeapState
  | .kamalloc mem sz align => HeapState.grant (kamalloc mem s.table sz align) s.live
  | .kmalloc mem sz => HeapState.grant (kmalloc mem s.table sz) s.live
  | .kmamalloc mem sz align => HeapState.grant (kmamalloc mem s.table sz align) s.live
  | .kfree ptr =>
      if ptr ∈ s.live then
        match kfree s.table ptr with
        | .ok t => some ⟨t, s.live.filter (· ≠ ptr)⟩
        | .error _ => none
      else none

/-- The side conditions of one call. -/
def HeapOp.Ok (s : HeapState) : HeapOp → Prop
  | .kamalloc mem sz align => KamallocOk mem s.table sz align
  | .kmalloc mem sz => KamallocOk mem s.table sz minAlign
  | .kmamalloc mem sz align => KamallocOk mem s.table (roundSize sz align) align
  | .kfree ptr => KfreeOk s.table ptr

/-- What the heap is for: the valid entries are pairwise disjoint blocks of
`[base, base + size)`, and each live pointer is the address of a used one. -/
structure HeapSound (base size : Nat) (s : HeapState) : Prop where
  apart : ∀ p q e f, p ≠ q → s.table.ent p = some e → s.table.ent q = some f →
    e.valid = true → f.valid = true → Apart e f
  inside : ∀ p e, s.table.ent p = some e → e.valid = true →
    base ≤ e.addr ∧ e.addr + e.size ≤ base + size
  live : ∀ ptr ∈ s.live, ∃ p e, s.table.ent p = some e ∧ e.valid = true
    ∧ e.used = true ∧ e.addr = ptr

/-- The invariant of the runs. -/
structure HeapInv (lo hi : Nat) (s : HeapState) : Prop where
  table : TableOk lo hi s.table
  live : ∀ ptr ∈ s.live, ∃ p e, s.table.ent p = some e ∧ e.valid = true
    ∧ e.used = true ∧ e.addr = ptr

theorem HeapInv.sound {base size : Nat} {s : HeapState}
    (h : HeapInv base (base + size) s) : HeapSound base size s :=
  ⟨h.table.apart, h.table.inside, h.live⟩

section Step

variable {lo hi : Nat} {s s' : HeapState}

/-- The three allocation calls are one: `kamalloc` with other arguments. -/
theorem HeapInv.grant (h : HeapInv lo hi s) (hhi : hi < 4294967296) {mem : BlockMem}
    {sz align : Nat} (hok : KamallocOk mem s.table sz align)
    (hg : HeapState.grant (kamalloc mem s.table sz align) s.live = some s') :
    HeapInv lo hi s' := by
  cases hk : kamalloc mem s.table sz align with
  | error err =>
    rw [hk] at hg
    cases hg
  | ok rt =>
    obtain ⟨r, t⟩ := rt
    rw [hk] at hg
    obtain rfl := Option.some.inj hg
    obtain ⟨htab, htakes, hret⟩ := kamalloc_spec h.table hhi
      (fun hsz hal hfound => ⟨fun hfour => ((hok hsz hal hfound).1 hfour).2,
        (hok hsz hal hfound).2⟩) hk
    refine ⟨htab, ?_⟩
    intro ptr hptr
    -- a live pointer is an old one, whose entry is kept, or the one returned
    have hold : ptr ∈ s.live →
        ∃ p e, t.ent p = some e ∧ e.valid = true ∧ e.used = true ∧ e.addr = ptr := by
      intro hptr
      obtain ⟨p, e, he, hv, hu, ha⟩ := h.live ptr hptr
      exact ⟨p, e, htakes.keeps p e he hv hu, hv, hu, ha⟩
    by_cases hr : r = 0
    · exact hold (by simpa [hr] using hptr)
    · simp only [hr, if_false, List.mem_cons] at hptr
      rcases hptr with rfl | hptr
      · rcases hret with hzero | hgr
        · exact absurd hzero hr
        · obtain ⟨p, he⟩ := hgr.entry
          exact ⟨p, _, he, rfl, rfl, rfl⟩
      · exact hold hptr

theorem heapStep_inv (hhi : hi < 4294967296) (op : HeapOp) (h : HeapInv lo hi s)
    (hok : op.Ok s) (hstep : heapStep s op = some s') : HeapInv lo hi s' := by
  cases op with
  | kamalloc mem sz align => exact h.grant hhi hok hstep
  | kmalloc mem sz => exact h.grant hhi hok hstep
  | kmamalloc mem sz align =>
    by_cases hal : align = 0
    · simp [heapStep, kmamalloc, hal, HeapState.grant] at hstep
    · simp only [heapStep, kmamalloc, hal, if_false] at hstep
      exact h.grant hhi hok hstep
  | kfree ptr =>
    simp only [heapStep] at hstep
    split at hstep
    · rename_i hlive
      split at hstep
      · rename_i t hf
        obtain rfl := Option.some.inj hstep
        obtain ⟨htab, hkeep⟩ := kfree_spec h.table hhi (h.live ptr hlive) hok hf
        refine ⟨htab, ?_⟩
        intro other hother
        obtain ⟨hmem, hne⟩ := List.mem_filter.mp hother
        obtain ⟨p, e, he, hv, hu, ha⟩ := h.live other hmem
        exact ⟨p, e, hkeep p e he hv hu (by simpa [ha] using hne), hv, hu, ha⟩
      · cases hstep
    · cases hstep

end Step

/-- `init_alloc` leaves one hole. -/
theorem initAlloc_inv {base size : Nat} {t : Table} (hinit : initAlloc base size = .ok t) :
    HeapInv base (base + size) ⟨t, []⟩ := by
  obtain ⟨p, e, he, -, rfl⟩ := addAlloc_eq_ok hinit
  have hshape : blankTable.Shape := by
    refine ⟨by decide, ?_⟩
    intro blk hblk
    rw [List.mem_singleton.mp hblk, List.length_replicate]
  exact ⟨(BlocksOk.single he rfl).tableOk (hshape.upd p _), by simp⟩

/-- **The kernel heap keeps its blocks apart** in every state of every run
whose calls meet their side conditions. -/
theorem heap_sound_of_guarded {base size : Nat} (hfit : base + size < 4294967296) {t : Table}
    (hinit : initAlloc base size = .ok t) {ops : List HeapOp}
    (hok : Guarded heapStep (fun s op => op.Ok s) ⟨t, []⟩ ops) {s : HeapState}
    (hrun : exec heapStep ⟨t, []⟩ ops = some s) : HeapSound base size s :=
  (exec_guarded_inv (fun _ op _ hs hop hstep => heapStep_inv hfit op hs hop hstep)
    (initAlloc_inv hinit) hok hrun).sound

/-- A boot heap of 64 KiB at 4 MiB. -/
def bootHeap : Table := (initAlloc 0x400000 0x10000).toOption.getD []

/-- Memory of zero bytes reads as invalid entries. -/
def zeroMem : BlockMem := fun _ _ => default

set_option maxRecDepth 100000 in
/-- One block, allocated and freed: a run that meets its side conditions. -/
theorem heap_sound_of_guarded_boot :
    ∃ s, exec heapStep ⟨bootHeap, []⟩ [.kmalloc zeroMem 4, .kfree 0x400000] = some s
      ∧ HeapSound 0x400000 0x10000 s := by
  have hinit : initAlloc 0x400000 0x10000 = .ok bootHeap := by decide +kernel
  have halloc : HeapOp.Ok ⟨bootHeap, []⟩ (.kmalloc zeroMem 4) := by
    refine fun _ _ _ => ⟨fun hfour => absurd hfour (by decide +kernel), ?_⟩
    intro p e he
    exact (by decide +kernel : ∀ pe ∈ bootHeap.scan, pe.2.valid = true → pe.2.used = false →
      4 + holeOff pe.2.addr minAlign < 4294967296 ∧
      (emptySlots bootHeap (findHole bootHeap 4 minAlign >>> 16) = 4 →
        4 + holeOff (u32 (pe.2.addr + allocBlockSize)) minAlign < 4294967296))
      (p, e) (Table.mem_scan.mpr he)
  have hfree : ((heapStep ⟨bootHeap, []⟩ (.kmalloc zeroMem 4)).all fun s =>
      ∀ u ∈ s.table.scan, u.2.valid = true → u.2.used = true → u.2.addr = 0x400000 →
        ∀ e ∈ s.table.scan, e.2.valid = true → e.2.used = false →
          u32 (e.2.addr + u.2.size) = u.2.addr →
          e.2.addr + e.2.size = u.2.addr ∨ e.2.addr = u.2.addr + u.2.size) = true := by
    decide +kernel
  have hok : Guarded heapStep (fun s op => op.Ok s) ⟨bootHeap, []⟩
      [.kmalloc zeroMem 4, .kfree 0x400000] := by
    refine ⟨halloc, fun s hs => ⟨?_, fun _ _ => trivial⟩⟩
    rw [hs, Option.all_some, decide_eq_true_iff] at hfree
    intro p u hu huv huu hua q e he
    exact hfree (p, u) (Table.mem_scan.mpr hu) huv huu hua (q, e) (Table.mem_scan.mpr he)
  have hends : ((exec heapStep ⟨bootHeap, []⟩
      [.kmalloc zeroMem 4, .kfree 0x400000]).isSome) = true := by
    decide +kernel
  obtain ⟨s, hrun⟩ := Option.isSome_iff_exists.mp hends
  exact ⟨s, hrun, heap_sound_of_guarded (by decide) hinit hok hrun⟩

/-- The calls that break the heap: the free entry of 4 bytes at `0x401000` is
taken for the neighbour below the block of 8 bytes at `0x401008`. -/
def overlapOps : List HeapOp :=
  [.kamalloc zeroMem 0x1000 0x1000, .kmalloc zeroMem 4, .kmalloc zeroMem 4, .kmalloc zeroMem 8,
    .kmalloc zeroMem 4, .kfree 0x401000, .kfree 0x401008]

set_option maxRecDepth 100000 in
/-- Without the side conditions the heap is not sound: after `overlapOps` the
free entry `[0x401000, 0x40100C)` covers the live block `[0x401004, 0x401008)`. -/
theorem heap_overlap_after_two_frees :
    ¬ ∀ (base size : Nat), base + size < 4294967296 → ∀ t, initAlloc base size = .ok t →
      ∀ ops s, exec heapStep ⟨t, []⟩ ops = some s → HeapSound base size s := by
  intro hall
  have hinit : initAlloc 0x400000 0x10000 = .ok bootHeap := by decide +kernel
  have hends : ((exec heapStep ⟨bootHeap, []⟩ overlapOps).any fun s =>
      s.table.ent (0, 2) = some ⟨true, false, 0x401000, 12⟩
        ∧ s.table.ent (0, 3) = some ⟨true, true, 0x401004, 4⟩) = true := by
    decide +kernel
  obtain ⟨s, hrun, hents⟩ := (Option.any_eq_true _ _).mp hends
  obtain ⟨hfree, hlive⟩ := of_decide_eq_true hents
  have hap := (hall _ _ (by decide) _ hinit _ _ hrun).apart _ _ _ _ (by decide) hfree hlive rfl rfl
  simp [Apart] at hap

end LambdaOs
