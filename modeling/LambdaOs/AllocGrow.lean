import Mathlib.Algebra.Order.BigOperators.Group.List
import Mathlib.Algebra.Order.Group.Nat
import LambdaOs.AllocLimit

/-!
# Growing the allocation table

A bookkeeping block is added when the block of entries in which the first hole
was found has exactly four slots left. It is not cleared, `get_free_block` is not
asked whether it found one, and nothing is added while slots run out elsewhere.

For the next call from any reachable state `GrowthOk` says when none of this goes
wrong (`heap_growth_safe_iff`).
-/

namespace LambdaOs

/-- The call adds a bookkeeping block. -/
def GrowsTable (t : Table) (sz align : Nat) : Prop :=
  sz ≠ 0 ∧ align ≠ 0 ∧ findHole t sz align ≠ noHole ∧
    emptySlots t (findHole t sz align >>> 16) = 4

/-- Some free entry is large enough for a bookkeeping block. -/
def BlockFits (t : Table) : Prop :=
  ∃ p e, t.ent p = some e ∧ e.valid = true ∧ e.used = false ∧ allocBlockSize ≤ e.size

/-- What is expected of a call: the slots of a block that it adds are invalid when
the table is searched again, it does not store past `allocs`, and it does not run
out of slots while a block could be added. -/
structure GrowthSafe (mem : BlockMem) (t : Table) (sz align : Nat) : Prop where
  cleared : GrowsTable t sz align → ∀ t₁, growTable mem t (findHole t sz align) = .ok t₁ →
    ∀ p e, t.length ≤ p.1 → t₁.ent p = some e → e.valid = false
  inside : kamalloc mem t sz align ≠ .error .allocsOverrun
  slots : BlockFits t → t.length < allocBlocks → kamalloc mem t sz align ≠ .error .listFull

/-- The block that is added has a slot of `allocs`, and its memory reads as
invalid entries; a call that adds none has the slots it needs, unless no block
could be added. -/
structure GrowthOk (mem : BlockMem) (t : Table) (sz align : Nat) : Prop where
  room : GrowsTable t sz align → findHole t allocBlockSize 1 ≠ noHole → t.length < allocBlocks
  cleared : GrowsTable t sz align → findHole t allocBlockSize 1 ≠ noHole →
    ReadsInvalid mem (newBlockAddr t)
  slots : sz ≠ 0 → align ≠ 0 → findHole t sz align ≠ noHole → ¬ GrowsTable t sz align →
    BlockFits t → t.length < allocBlocks →
    slotsFor (t.get (unpackIdx (findHole t sz align))) sz align ≤ invalidSlots t

section Grow

variable {t t' t₁ : Table} {mem : BlockMem} {sz align : Nat}

/-- The slots of one block that hold no valid entry. -/
theorem block_slots_le {b : Nat} (hb : b < t.length) :
    t[b].length - t[b].countP (·.valid) ≤ invalidSlots t := by
  have hcount : ∀ blk : List Alcent,
      (blk.map fun e => if e.valid then 0 else 1).sum + blk.countP (·.valid) = blk.length := by
    intro blk
    induction blk with
    | nil => rfl
    | cons e blk ih =>
      cases hv : e.valid <;> simp [hv] <;> omega
  have hone : (t[b].map fun e => if e.valid then 0 else 1).sum ≤ invalidSlots t :=
    List.le_sum_of_mem (List.mem_map.mpr ⟨t[b], List.getElem_mem hb, rfl⟩)
  have hblk := hcount t[b]
  omega

/-- The free slots of one block. -/
theorem emptySlots_le (hs : t.Shape) {b : Nat} (hb : b < t.length) :
    emptySlots t b ≤ invalidSlots t := by
  have hslots := block_slots_le hb
  rw [hs.slots t[b] (List.getElem_mem hb)] at hslots
  unfold emptySlots
  rwa [List.getD_eq_getElem _ _ hb]

/-- A block that is about to grow the table has slots. -/
theorem GrowsTable.slots (hs : t.Shape) (h : GrowsTable t sz align) : 4 ≤ invalidSlots t := by
  obtain ⟨-, -, hfound, hfour⟩ := h
  obtain ⟨e, he, -⟩ := findHole_spec hs hfound
  obtain ⟨blk, hblk, -⟩ := Option.bind_eq_some_iff.mp he
  have hlt : findHole t sz align >>> 16 < t.length := (List.getElem?_eq_some_iff.mp hblk).1
  exact hfour ▸ emptySlots_le hs hlt

/-- What `_alloc_new_block` does when there is a slot for its entry. -/
theorem allocNewBlock_cases (hs : t.Shape) (hslots : 0 < invalidSlots t) :
    (findHole t allocBlockSize 1 = noHole ∧ allocNewBlock mem t = .error .noBlockHole) ∨
      (findHole t allocBlockSize 1 ≠ noHole ∧
        ((t.length < allocBlocks ∧ ∃ t₁, allocNewBlock mem t = .ok t₁) ∨
          (allocBlocks ≤ t.length ∧ allocNewBlock mem t = .error .allocsOverrun))) := by
  by_cases hfound : findHole t allocBlockSize 1 = noHole
  · refine Or.inl ⟨hfound, ?_⟩
    simp only [allocNewBlock]
    rw [if_pos hfound]
  · refine Or.inr ⟨hfound, ?_⟩
    obtain ⟨e, he, hv, -⟩ := findHole_spec hs hfound
    simp only [allocNewBlock]
    rw [if_neg hfound, Table.get_eq he]
    -- either way a table of the same length gets the block
    have hblock : ∀ t₁ : Table, t₁.length = t.length →
        (t.length < allocBlocks ∧ ∃ t₂, addBlock mem t₁ e.addr = .ok t₂) ∨
          (allocBlocks ≤ t.length ∧ addBlock mem t₁ e.addr = .error .allocsOverrun) := by
      intro t₁ hlen
      unfold addBlock
      rw [hlen]
      by_cases hroom : t.length < allocBlocks
      · exact Or.inl ⟨hroom, _, if_pos hroom⟩
      · exact Or.inr ⟨Nat.le_of_not_lt hroom, if_neg hroom⟩
    split
    · exact hblock _ (Table.length_upd ..)
    · rcases addAlloc_cases (t.upd (unpackIdx (findHole t allocBlockSize 1)) fun e =>
          { e with size := e.size - allocBlockSize, addr := u32 (e.addr + allocBlockSize) })
        ⟨true, true, e.addr, allocBlockSize⟩ rfl with ⟨hnone, -⟩ | ⟨t₁, hadd, -⟩
      · rw [invalidSlots_upd he hv hv] at hnone
        exact absurd hnone (Nat.pos_iff_ne_zero.mp hslots)
      · rw [hadd]
        exact hblock t₁ (by rw [addAlloc_length hadd, Table.length_upd])

/-- The entries of a table that has grown, behind the old ones. -/
theorem allocNewBlock_new (hs : t.Shape) (hnew : allocNewBlock mem t = .ok t₁) :
    (∀ p e, t.length ≤ p.1 → t₁.ent p = some e → e.valid = false) ↔
      ReadsInvalid mem (newBlockAddr t) := by
  obtain ⟨e, ⟨he, -⟩, hgrown⟩ := allocNewBlock_eq_ok hs hnew
  obtain ⟨t₂, hlen, rfl⟩ :
      ∃ t₂ : Table, t₂.length = t.length ∧ t₁ = t₂ ++ [newBlock mem e.addr] := by
    cases hgrown with
    | whole hsize hroom => exact ⟨_, Table.length_upd .., rfl⟩
    | front hsize hblock hroom =>
      exact ⟨_, by rw [addAlloc_length hblock, Table.length_upd], rfl⟩
  rw [newBlockAddr, Table.get_eq he]
  constructor
  · intro hall i hi
    refine hall (t₂.length, i) _ (Nat.le_of_eq hlen.symm) (Option.bind_eq_some_iff.mpr
      ⟨newBlock mem e.addr, List.getElem?_concat_length, ?_⟩)
    simp [newBlock, hi]
  · intro hmem p g hp hg
    obtain ⟨-, hg⟩ := Table.ent_append_right (hlen ▸ hp) hg
    exact hmem.newBlock g (List.mem_of_getElem? hg)

/-- A cleared block has more slots than a call needs. -/
theorem allocNewBlock_slots (hs : t.Shape) (hmem : ReadsInvalid mem (newBlockAddr t))
    (hnew : allocNewBlock mem t = .ok t₁) : 2 ≤ invalidSlots t₁ := by
  obtain ⟨e, ⟨he, -⟩, hgrown⟩ := allocNewBlock_eq_ok hs hnew
  rw [newBlockAddr, Table.get_eq he] at hmem
  have hblk := hmem.newBlock
  have htwo : 2 ≤ (newBlock mem e.addr).length := by
    rw [newBlock, List.length_map, List.length_range]
    decide
  cases hgrown with
  | whole hsize hroom =>
    rw [invalidSlots_append hblk]
    omega
  | front hsize hblock hroom =>
    rw [invalidSlots_append hblk]
    omega

theorem slotsFor_le (e : Alcent) (sz align : Nat) : slotsFor e sz align ≤ 2 := by
  unfold slotsFor
  split
  · exact Nat.zero_le _
  · split <;> omega

/-- A call that finds a hole. -/
theorem kamalloc_eq (hsz : sz ≠ 0) (hal : align ≠ 0) (hfound : findHole t sz align ≠ noHole) :
    kamalloc mem t sz align = (growTable mem t (findHole t sz align)).bind fun t₁ =>
      if findHole t₁ sz align = noHole then .ok (0, t₁)
      else carve t₁ (unpackIdx (findHole t₁ sz align)) sz align := by
  unfold kamalloc
  rw [if_neg (not_or.mpr ⟨hal, hsz⟩), if_neg hfound]
  rfl

/-- A call that does not grow the table. -/
theorem growthSafe_iff_of_same (hs : t.Shape) (hsz : sz ≠ 0) (hal : align ≠ 0)
    (hfound : findHole t sz align ≠ noHole) (hsame : ¬ GrowsTable t sz align) :
    GrowthSafe mem t sz align ↔ GrowthOk mem t sz align := by
  obtain ⟨e, he, hv, -⟩ := findHole_spec hs hfound
  have hcall : kamalloc mem t sz align = carve t (unpackIdx (findHole t sz align)) sz align := by
    rw [kamalloc_eq hsz hal hfound]
    unfold growTable
    rw [if_neg fun hfour => hsame ⟨hsz, hal, hfound, hfour⟩]
    exact if_neg hfound
  rcases @carve_slots t sz align _ e he hv with ⟨hfew, hc⟩ | ⟨henough, r, t', hc⟩
  · rw [hc] at hcall
    constructor
    · intro h
      exact ⟨fun hgrow => absurd hgrow hsame, fun hgrow => absurd hgrow hsame,
        fun _ _ _ _ hfits hroom => absurd hcall (h.slots hfits hroom)⟩
    · intro h
      refine ⟨fun hgrow => absurd hgrow hsame, ?_, ?_⟩
      · intro hover
        rw [hcall] at hover
        cases hover
      · intro hfits hroom _
        have hslots := h.slots hsz hal hfound hsame hfits hroom
        rw [Table.get_eq he] at hslots
        omega
  · rw [hc] at hcall
    constructor
    · intro _
      refine ⟨fun hgrow => absurd hgrow hsame, fun hgrow => absurd hgrow hsame,
        fun _ _ _ _ _ _ => ?_⟩
      rw [Table.get_eq he]
      exact henough
    · intro _
      refine ⟨fun hgrow => absurd hgrow hsame, ?_, ?_⟩
      · intro hover
        rw [hcall] at hover
        cases hover
      · intro _ _ hfull
        rw [hcall] at hfull
        cases hfull

/-- A call that grows it. -/
theorem growthSafe_iff_of_growsTable (hs : t.Shape) (hgrow : GrowsTable t sz align) :
    GrowthSafe mem t sz align ↔ GrowthOk mem t sz align := by
  obtain ⟨hsz, hal, hfound, hfour⟩ := id hgrow
  have hnew : growTable mem t (findHole t sz align) = allocNewBlock mem t := if_pos hfour
  have hcall := @kamalloc_eq t mem sz align hsz hal hfound
  rw [hnew] at hcall
  have hpos : 0 < invalidSlots t := Nat.lt_of_lt_of_le (by decide) (hgrow.slots hs)
  rcases @allocNewBlock_cases t mem hs hpos with
    ⟨hnone, herr⟩ | ⟨hhole, ⟨hroom, t₁, hok⟩ | ⟨hfull, herr⟩⟩
  · -- no block can be added: the call panics for want of memory
    rw [herr] at hcall
    constructor
    · intro _
      exact ⟨fun _ hhole => absurd hnone hhole, fun _ hhole => absurd hnone hhole,
        fun _ _ _ hsame => absurd hgrow hsame⟩
    · intro _
      refine ⟨?_, ?_, ?_⟩
      · intro _ t₁ hok
        rw [hnew, herr] at hok
        cases hok
      · intro hover
        rw [hcall] at hover
        cases hover
      · intro _ _ hfull
        rw [hcall] at hfull
        cases hfull
  · have hcleared := allocNewBlock_new hs hok
    constructor
    · intro h
      exact ⟨fun _ _ => hroom, fun _ _ => hcleared.mp (h.cleared hgrow t₁ (hnew.trans hok)),
        fun _ _ _ hsame => absurd hgrow hsame⟩
    · intro h
      have hmem := h.cleared hgrow hhole
      have hslots := allocNewBlock_slots hs hmem hok
      have hends : ∃ r t', kamalloc mem t sz align = .ok (r, t') := by
        rw [hcall, hok]
        simp only [Except.bind]
        split
        · exact ⟨0, t₁, rfl⟩
        · rename_i hfound₁
          obtain ⟨e, he, hv, -⟩ := findHole_spec (growTable_shape hs (hnew.trans hok)) hfound₁
          rcases @carve_slots t₁ sz align _ e he hv with ⟨hfew, -⟩ | ⟨-, hc⟩
          · have htwo := slotsFor_le e sz align
            omega
          · exact hc
      obtain ⟨r, t', hret⟩ := hends
      refine ⟨?_, ?_, ?_⟩
      · intro _ t₂ ht₂
        obtain rfl := Except.ok.inj ((hnew.trans hok).symm.trans ht₂)
        exact hcleared.mpr hmem
      · intro hover
        rw [hret] at hover
        cases hover
      · intro _ _ hfull
        rw [hret] at hfull
        cases hfull
  · rw [herr] at hcall
    exact ⟨fun h => absurd hcall h.inside,
      fun h => absurd (h.room hgrow hhole) (Nat.not_lt_of_le hfull)⟩

theorem growthSafe_iff (hs : t.Shape) :
    GrowthSafe mem t sz align ↔ GrowthOk mem t sz align := by
  by_cases hgrow : GrowsTable t sz align
  · exact growthSafe_iff_of_growsTable hs hgrow
  · by_cases hargs : sz ≠ 0 ∧ align ≠ 0 ∧ findHole t sz align ≠ noHole
    · exact growthSafe_iff_of_same hs hargs.1 hargs.2.1 hargs.2.2 hgrow
    · have hcall : kamalloc mem t sz align = .ok (0, t) := by
        unfold kamalloc
        split
        · rfl
        · rename_i hne
          rw [not_or] at hne
          exact if_pos (not_not.mp fun hfound => hargs ⟨hne.2, hne.1, hfound⟩)
      constructor
      · intro _
        exact ⟨fun h => absurd h hgrow, fun h => absurd h hgrow,
          fun hsz hal hfound => absurd ⟨hsz, hal, hfound⟩ hargs⟩
      · intro _
        refine ⟨fun h => absurd h hgrow, ?_, ?_⟩
        · intro hover
          rw [hcall] at hover
          cases hover
        · intro _ _ hfull
          rw [hcall] at hfull
          cases hfull

/-! ## Reachable tables -/

theorem kamalloc_shape (hs : t.Shape) {r : Nat} (hc : kamalloc mem t sz align = .ok (r, t')) :
    t'.Shape := by
  rcases kamalloc_eq_ok hs hc with
    ⟨-, rfl⟩ | ⟨-, -, -, t₁, hgrow, ⟨-, rfl⟩ | ⟨e, hhole, hcarve⟩⟩
  · exact hs
  · exact growTable_shape hs hgrow
  · exact carve_shape (growTable_shape hs hgrow) hhole.1 hcarve

theorem heapCall_shape (hs : t.Shape) :
    ∀ {op : HeapOp}, heapCall t op = some t' → t'.Shape
  | .kamalloc mem sz align, hstep => by
      obtain ⟨⟨r, t₁⟩, hk, rfl⟩ := Option.map_eq_some_iff.mp hstep
      exact kamalloc_shape hs (toOption_eq_some.mp hk)
  | .kmalloc mem sz, hstep => by
      obtain ⟨⟨r, t₁⟩, hk, rfl⟩ := Option.map_eq_some_iff.mp hstep
      exact kamalloc_shape hs (toOption_eq_some.mp hk)
  | .kmamalloc mem sz align, hstep => by
      obtain ⟨⟨r, t₁⟩, hk, rfl⟩ := Option.map_eq_some_iff.mp hstep
      have hk := toOption_eq_some.mp hk
      unfold kmamalloc at hk
      split at hk
      · cases hk
      · exact kamalloc_shape hs hk
  | .kfree ptr, hstep => kfree_shape hs (toOption_eq_some.mp hstep)

end Grow

/-- **Growing the table is safe**, in whatever state the heap has come to, exactly
when the block that is added has a slot of `allocs` and memory that reads as
invalid entries, and a call that adds none finds the slots it needs. -/
theorem heap_growth_safe_iff {base size : Nat} {t : Table} (hinit : initAlloc base size = .ok t)
    {ops : List HeapOp} {s : Table} (hrun : exec heapCall t ops = some s) (mem : BlockMem)
    (sz align : Nat) : GrowthSafe mem s sz align ↔ GrowthOk mem s sz align :=
  growthSafe_iff (exec_inv (fun _ _ _ h hstep => heapCall_shape h hstep)
    (initAlloc_inv hinit).table.shape hrun)

/-! ## A block that is not cleared -/

/-- The boot heap after `k` calls of `kmalloc(4)`. -/
def filledHeap (k : Nat) : Table :=
  [⟨true, false, 0x400000 + 4 * k, 0x10000 - 4 * k⟩ ::
    ((List.range k).map (fun i => ⟨true, true, 0x400000 + 4 * i, 4⟩) ++
      List.replicate (1023 - k) default)]

section Filled

/-- The scan of a table of one block. -/
theorem Table.scan_singleton (blk : List Alcent) :
    Table.scan [blk] = blk.zipIdx.map fun ei => ((0, ei.2), ei.1) := by
  simp [Table.scan]

/-- The only hole is the first entry. -/
theorem findHole_first {e : Alcent} {rest : List Alcent} {sz align : Nat} (hv : e.valid = true)
    (hu : e.used = false) (hfit : u32 (sz + holeOff e.addr align) ≤ e.size)
    (hsize : e.size < 0xFFFFFFFF) (hrest : ∀ g ∈ rest, (g.valid && !g.used) = false) :
    findHole [e :: rest] sz align = 0 := by
  have hskip : ∀ (l : List (Alcent × Nat)) (best : Nat × Nat),
      (∀ gi ∈ l, (gi.1.valid && !gi.1.used) = false) →
      (l.map fun gi => (((0, gi.2), gi.1) : (Nat × Nat) × Alcent)).foldl
        (findHoleStep sz align) best = best := by
    intro l
    induction l with
    | nil => exact fun _ _ => rfl
    | cons gi l ih =>
      intro best hl
      obtain ⟨hfirst, hl⟩ := List.forall_mem_cons.mp hl
      rw [List.map_cons, List.foldl_cons, findHoleStep, if_neg (by simp [hfirst])]
      exact ih best hl
  unfold findHole
  rw [Table.scan_singleton, List.zipIdx_cons, List.map_cons, List.foldl_cons, hskip]
  · rw [findHoleStep, if_pos (by simp [hv, hu]), if_pos ⟨hfit, hsize⟩]
    simp [packIdx]
  · intro gi hgi
    exact hrest gi.1 (List.fst_mem_of_mem_zipIdx hgi)

/-- `add_alloc` takes the first slot. -/
theorem addAlloc_first {used : List Alcent} {e al : Alcent} {rest : List Alcent}
    (hused : ∀ g ∈ used, g.valid = true) (he : e.valid = false) :
    addAlloc [used ++ e :: rest] al = .ok [used ++ al :: rest] := by
  have hfind : (Table.scan [used ++ e :: rest]).find? (fun pe => !pe.2.valid) =
      some ((0, used.length), e) := by
    rw [Table.scan_singleton, List.zipIdx_append, List.map_append, List.find?_append,
      List.find?_eq_none.mpr, Option.none_or, List.zipIdx_cons, List.map_cons,
      List.find?_cons_of_pos (by simp [he])]
    · simp
    · intro pe hpe
      obtain ⟨gi, hgi, rfl⟩ := List.mem_map.mp hpe
      simp [hused gi.1 (List.fst_mem_of_mem_zipIdx hgi)]
  unfold addAlloc
  rw [hfind]
  have hupd : Table.upd [used ++ e :: rest] (0, used.length) (fun _ => al) =
      [used ++ al :: rest] := by
    simp [Table.upd, List.modify_eq_take_cons_drop]
  rw [← hupd]

theorem filledHeap_shape {k : Nat} (hk : k ≤ 1023) : (filledHeap k).Shape := by
  refine ⟨by simp [filledHeap, allocBlocks], ?_⟩
  intro blk hblk
  rw [List.mem_singleton.mp hblk]
  simp [allocBlock]
  omega

theorem emptySlots_filledHeap {k : Nat} (hk : k ≤ 1023) :
    emptySlots (filledHeap k) 0 = 1023 - k := by
  have hcount : ((List.range k).map fun i => (⟨true, true, 0x400000 + 4 * i, 4⟩ : Alcent)).countP
      (·.valid) = k := by
    rw [List.countP_eq_length.mpr fun e he => by obtain ⟨i, -, rfl⟩ := List.mem_map.mp he; rfl,
      List.length_map, List.length_range]
  have hfree : (List.replicate (1023 - k) (default : Alcent)).countP (·.valid) = 0 :=
    List.countP_eq_zero.mpr fun e he => by rw [List.eq_of_mem_replicate he]; simp [default]
  change allocBlock - List.countP _ (_ :: (_ ++ _)) = _
  rw [List.countP_cons, List.countP_append, hcount, hfree, allocBlock]
  simp only [if_true]
  omega

theorem findHole_filledHeap {k sz align : Nat}
    (hfit : u32 (sz + holeOff (0x400000 + 4 * k) align) ≤ 0x10000 - 4 * k) :
    findHole (filledHeap k) sz align = 0 := by
  refine findHole_first rfl rfl hfit (by simp only; omega) ?_
  intro g hg
  rcases List.mem_append.mp hg with hg | hg
  · obtain ⟨i, -, rfl⟩ := List.mem_map.mp hg
    rfl
  · rw [List.eq_of_mem_replicate hg]
    rfl

theorem holeOff_filledHeap (k : Nat) : holeOff (0x400000 + 4 * k) 4 = 0 := by
  have haligned : (0x400000 + 4 * k) % 4 = 0 := by omega
  simp [holeOff, haligned]

theorem kmalloc_filledHeap (mem : BlockMem) {k : Nat} (hk : k < 1019) :
    kmalloc mem (filledHeap k) 4 = .ok (0x400000 + 4 * k, filledHeap (k + 1)) := by
  have hfound : findHole (filledHeap k) 4 4 = 0 := findHole_filledHeap (by
    rw [holeOff_filledHeap, u32_of_lt (by decide)]
    omega)
  have hempty : emptySlots (filledHeap k) 0 = 1023 - k := emptySlots_filledHeap (by omega)
  have hcall : kmalloc mem (filledHeap k) 4 = carve (filledHeap k) (0, 0) 4 4 := by
    unfold kmalloc minAlign
    rw [kamalloc_eq (by decide) (by decide) (by rw [hfound]; decide), hfound]
    unfold growTable
    rw [if_neg (by rw [show 0 >>> 16 = 0 from rfl, hempty]; omega)]
    simp only [Except.bind, hfound]
    rfl
  rw [hcall]
  unfold carve
  have hget : (filledHeap k).get (0, 0) = ⟨true, false, 0x400000 + 4 * k, 0x10000 - 4 * k⟩ := rfl
  rw [hget]
  simp only
  rw [if_neg (by omega), if_neg (by omega)]
  have hslots : List.replicate (1023 - k) (default : Alcent) =
      default :: List.replicate (1022 - k) default := by
    rw [show 1023 - k = 1022 - k + 1 by omega, List.replicate_succ]
  have hupd : (filledHeap k).upd (0, 0) (fun e =>
      { e with size := e.size - 4, addr := u32 (e.addr + 4) }) =
      [(⟨true, false, 0x400000 + 4 * (k + 1), 0x10000 - 4 * (k + 1)⟩ ::
        (List.range k).map (fun i => ⟨true, true, 0x400000 + 4 * i, 4⟩)) ++
        default :: List.replicate (1022 - k) default] := by
    simp only [filledHeap, Table.upd, List.modify_zero_cons, hslots, List.cons_append]
    rw [u32_of_lt (by omega), show 0x10000 - 4 * k - 4 = 0x10000 - 4 * (k + 1) by omega,
      show 0x400000 + 4 * k + 4 = 0x400000 + 4 * (k + 1) by omega]
  rw [hupd, addAlloc_first]
  · have hrange : (List.range (k + 1)).map (fun i => (⟨true, true, 0x400000 + 4 * i, 4⟩ : Alcent)) =
        (List.range k).map (fun i => ⟨true, true, 0x400000 + 4 * i, 4⟩) ++
          [⟨true, true, 0x400000 + 4 * k, 4⟩] := by
      rw [List.range_succ, List.map_append]
      rfl
    simp only [filledHeap, hrange, show 1023 - (k + 1) = 1022 - k by omega, List.append_assoc,
      List.cons_append, List.nil_append]
    rfl
  · intro g hg
    rcases List.mem_cons.mp hg with rfl | hg
    · rfl
    · obtain ⟨i, -, rfl⟩ := List.mem_map.mp hg
      rfl
  · rfl

/-- A thousand small blocks, and four slots are left. -/
theorem exec_filledHeap (mem : BlockMem) {n k : Nat} (hk : k + n ≤ 1019) :
    exec heapCall (filledHeap k) (List.replicate n (.kmalloc mem 4)) =
      some (filledHeap (k + n)) := by
  induction n generalizing k with
  | zero => rfl
  | succ n ih =>
      rw [List.replicate_succ, exec_cons_eq_some]
      refine ⟨filledHeap (k + 1), ?_, ?_⟩
      · change (kmalloc mem (filledHeap k) 4).toOption.map (·.2) = _
        rw [kmalloc_filledHeap mem (by omega)]
        rfl
      · rw [ih (by omega)]
        congr 2
        omega

end Filled

/-- Memory that reads as used entries. -/
def staleMem : BlockMem := fun addr _ => ⟨true, true, addr, 1⟩

theorem growsTable_filledHeap : GrowsTable (filledHeap 1019) 4 4 := by
  have hfound : findHole (filledHeap 1019) 4 4 = 0 := findHole_filledHeap (by decide)
  refine ⟨by decide, by decide, ?_, ?_⟩
  · rw [hfound]
    decide
  · rw [hfound]
    exact emptySlots_filledHeap (by decide)

/-- The boot heap grows over memory that is clear. -/
theorem heap_growth_safe_iff_boot : GrowthSafe zeroMem (filledHeap 1019) 4 4 := by
  have hinit : initAlloc 0x400000 0x10000 = .ok (filledHeap 0) := by decide +kernel
  have hrun : exec heapCall (filledHeap 0) (List.replicate 1019 (.kmalloc zeroMem 4)) =
      some (filledHeap 1019) := exec_filledHeap zeroMem (by decide)
  refine (heap_growth_safe_iff hinit hrun zeroMem 4 4).mpr
    ⟨fun _ _ => by decide, fun _ _ => zeroMem_invalid _, ?_⟩
  intro _ _ _ hsame
  exact absurd growsTable_filledHeap hsame

/-- And over memory that is not: every slot of the new block is taken for a used
entry. -/
theorem heap_growth_not_cleared :
    ¬ ∀ (base size : Nat) (t : Table), initAlloc base size = .ok t → ∀ ops s,
      exec heapCall t ops = some s → ∀ mem sz align, GrowthSafe mem s sz align := by
  intro hall
  have hinit : initAlloc 0x400000 0x10000 = .ok (filledHeap 0) := by decide +kernel
  have hfits : findHole (filledHeap 1019) allocBlockSize 1 = 0 := findHole_filledHeap (by decide)
  have hrun : exec heapCall (filledHeap 0) (List.replicate 1019 (.kmalloc staleMem 4)) =
      some (filledHeap 1019) := exec_filledHeap staleMem (by decide)
  have hsafe := hall _ _ _ hinit _ _ hrun staleMem 4 4
  have hok := (growthSafe_iff (filledHeap_shape (by decide))).mp hsafe
  have hmem := hok.cleared growsTable_filledHeap (by rw [hfits]; decide) 0 (by decide)
  cases hmem

end LambdaOs
