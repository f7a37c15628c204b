import LambdaOs.PagingClone

/-!
# Are kernel mappings global?

`pgdir_map_page` means any page at or above `KERNEL_OFFSET` to be global: the
store goes to the kernel's page table, and the directory word of the table
mapped through is replaced by the kernel's. A clone, though, has its own copy
of every page table the kernel had at the time, so a later mapping reaches
only the tables that share the kernel's page table for that slot.

In the runs whose kernel mappings all find this sharing, or the translation
already in place (`KernelMapShared`), the tables agree in every state. The
page-fault handler is no part of the runs: it fills a missing directory word,
and a cloned one is not missing.
-/

namespace LambdaOs

section Global

variable {H : Type} {A : PageHeap H} {kernel : Nat} {tabs : List Nat}

/-- Every table answers as the kernel's does, at and above `KERNEL_OFFSET`. -/
def Agree (kernel : Nat) (tabs : List Nat) (m : PageMem) : Prop :=
  ∀ U ∈ tabs, ∀ v, kernelOffset ≤ v → v < 4294967296 →
    mmuMapGetTable m U v = mmuMapGetTable m kernel v

/-- The page at `p` is about to be mapped through `T` with `word`: every other
table shares the kernel's page table there, or already answers so. -/
def PageShared (kernel : Nat) (tabs : List Nat) (m : PageMem) (T p word : Nat) : Prop :=
  kernelOffset ≤ p → ∀ U ∈ tabs, U ≠ T → U ≠ kernel →
    SameTable m U kernel (pdindex p) ∨ mmuMapGetTable m U p = entryAnswer word

/-- The same for every page of a range. -/
def KernelMapShared (kernel : Nat) (tabs : List Nat) (m : PageMem)
    (T virt phys size flags : Nat) : Prop :=
  ∀ off, off % 4096 = 0 → off < size →
    PageShared kernel tabs m T (u32 (pageMask virt + off))
      (pageWord (u32 (pageMask phys + off)) (pageFlags flags))

/-! ## One page -/

theorem mapDir_kernel {T p : Nat} (hp : kernelOffset ≤ p) : mapDir kernel T p = kernel := by
  unfold mapDir
  by_cases hT : T = kernel
  · rw [if_neg fun h => h.2 hT, hT]
  · rw [if_pos ⟨hp, hT⟩]

/-- Sharing with the kernel survives any mapping. -/
theorem MapStep.sameTable {T p word : Nat} {m m' : PageMem}
    (h : MapStep tabs (mapDir kernel T p) T (pdindex p) (ptindex p) word m m')
    (hk : kernel ∈ tabs) {U i : Nat} (hU : U ∈ tabs) (hUT : U ≠ T) (hi : i < pgdirEntries)
    (hks : kernelSlot ≤ i) (hsame : SameTable m U kernel i) : SameTable m' U kernel i := by
  obtain ⟨hUp, hkp, heq⟩ := hsame
  refine ⟨(h.present U hU i hi).mpr (Or.inl hUp), (h.present kernel hk i hi).mpr (Or.inl hkp), ?_⟩
  rw [h.page U hU i hi hUp (fun hcon => absurd hcon hUT), h.page kernel hk i hi hkp ?_, heq]
  rintro rfl rfl
  exact (mapDir_kernel (kernelSlot_le_pdindex.mp hks)).symm

/-- Tables that share a page table read the same words. -/
theorem SameTable.read {m : PageMem} {U W i : Nat} (h : SameTable m U W i) (j : Nat) :
    slotEntry m U i j = slotEntry m W i j := by
  rw [slotEntry_of_present h.1, slotEntry_of_present h.2.1, h.2.2]

/-- What a table other than `T` reads for a page other than the one mapped. -/
theorem MapStep.keeps {T p word : Nat} {m m' : PageMem}
    (h : MapStep tabs (mapDir kernel T p) T (pdindex p) (ptindex p) word m m')
    {U v : Nat} (hU : U ∈ tabs) (hUT : U ≠ T) (hv : v < 4294967296) (hne : v / 4096 ≠ p / 4096) :
    pgdirGetPageEntry m' U v = pgdirGetPageEntry m U v := by
  rw [pgdirGetPageEntry_eq, pgdirGetPageEntry_eq]
  by_cases hsee : pdindex v = pdindex p ∧ Sees m (mapDir kernel T p) T (pdindex p) U
  · obtain ⟨hpd, hsee⟩ := hsee
    have hpt : ptindex v ≠ ptindex p := fun hpt => hne (index_eq_iff.mp ⟨hpd, hpt⟩)
    rw [hpd, h.seen U hU hsee, if_neg hpt]
    rcases hsee with hcon | rfl | hsame
    · exact absurd hcon hUT
    · rfl
    · exact (hsame.read _).symm
  · exact h.other U hU _ (pdindex_lt hv) (fun hpd hs => hsee ⟨hpd, hs⟩) _

/-- **One mapping keeps the tables in agreement** when every other table
shares the kernel's page table or already answers as it will. -/
theorem MapStep.agree {T p word : Nat} {m m' : PageMem}
    (h : MapStep tabs (mapDir kernel T p) T (pdindex p) (ptindex p) word m m')
    (hk : kernel ∈ tabs) (hshared : PageShared kernel tabs m T p word)
    (hag : Agree kernel tabs m) : Agree kernel tabs m' := by
  intro U hU v hvk hv
  have hold := hag U hU v hvk hv
  simp only [mmuMapGetTable, pgdirGetPageEntry_eq] at hold ⊢
  by_cases hpd : pdindex v = pdindex p
  · -- the slot of the mapping: the directory is the kernel's
    have hpk : kernelOffset ≤ p := by
      rw [← kernelSlot_le_pdindex, ← hpd, kernelSlot_le_pdindex]
      exact hvk
    rw [mapDir_kernel hpk] at h
    rw [hpd] at hold ⊢
    rw [h.seen kernel hk (Or.inr (Or.inl rfl))]
    by_cases hsee : Sees m kernel T (pdindex p) U
    · rw [h.seen U hU hsee]
    · rw [h.other U hU _ (hpd ▸ pdindex_lt hv) fun _ => hsee]
      by_cases hpt : ptindex v = ptindex p
      · rw [if_pos hpt, hpt]
        rcases hshared hpk U hU (fun hcon => hsee (Or.inl hcon))
          (fun hcon => hsee (Or.inr (Or.inl hcon))) with hsame | hans
        · exact absurd (Or.inr (Or.inr hsame)) hsee
        · exact hans
      · rw [if_neg hpt]
        exact hold
  · rw [h.other U hU _ (pdindex_lt hv) fun hcon => absurd hcon hpd,
      h.other kernel hk _ (pdindex_lt hv) fun hcon => absurd hcon hpd]
    exact hold

/-- A mapping does not disturb what the later pages of a range need. -/
theorem MapStep.pageShared {T p word q word' : Nat} {m m' : PageMem}
    (h : MapStep tabs (mapDir kernel T p) T (pdindex p) (ptindex p) word m m')
    (hk : kernel ∈ tabs) (hq : q < 4294967296) (hne : q / 4096 ≠ p / 4096)
    (hshared : PageShared kernel tabs m T q word') : PageShared kernel tabs m' T q word' := by
  intro hqk U hU hUT hUk
  rcases hshared hqk U hU hUT hUk with hsame | hans
  · exact Or.inl (h.sameTable hk hU hUT (pdindex_lt hq) (kernelSlot_le_pdindex.mpr hqk) hsame)
  · refine Or.inr ?_
    rw [mmuMapGetTable, h.keeps hU hUT hq hne]
    exact hans

/-! ## Ranges -/

/-- The pages of a range are different: it is shorter than the address
space. -/
theorem pageOffs_pairwise {virt size : Nat} {offs : List Nat} (h : pageOffs size = some offs) :
    offs.Pairwise fun o o' =>
      u32 (pageMask virt + o') / 4096 ≠ u32 (pageMask virt + o) / 4096 := by
  have hle := pageOffs_le h
  unfold pageOffs at h
  rw [if_pos hle] at h
  obtain rfl := Option.some.inj h
  rw [List.pairwise_map]
  refine List.Pairwise.imp_of_mem ?_ List.pairwise_lt_range
  intro k k' hk hk' hlt
  have hk := List.mem_range.mp hk
  have hk' := List.mem_range.mp hk'
  have hal := pageMask_aligned virt
  simp only [u32]
  omega

theorem mapLoop_agree {T phys virt flags : Nat} (hnull : A.NeverNull) (hT : T ∈ tabs)
    (hk : kernel ∈ tabs) {offs : List Nat} {s s' : Mmu H} (ht : Tables A kernel tabs s)
    (hag : Agree kernel tabs s.mem)
    (hshared : ∀ off ∈ offs, off % 4096 = 0 ∧
      PageShared kernel tabs s.mem T (u32 (pageMask virt + off))
        (pageWord (u32 (pageMask phys + off)) flags))
    (hpair : offs.Pairwise fun o o' =>
      u32 (pageMask virt + o') / 4096 ≠ u32 (pageMask virt + o) / 4096)
    (hrun : exec (fun s off => pgdirMapPage A kernel s T (u32 (pageMask phys + off))
      (u32 (pageMask virt + off)) flags) s offs = some s') :
    Agree kernel tabs s'.mem := by
  induction offs generalizing s with
  | nil =>
      obtain rfl := Option.some.inj hrun
      exact hag
  | cons off offs ih =>
      obtain ⟨s₁, hstep, hrest⟩ := exec_cons_eq_some.mp hrun
      obtain ⟨hlater, hpair⟩ := List.pairwise_cons.mp hpair
      obtain ⟨hoff, hsh⟩ := hshared off (List.mem_cons_self ..)
      obtain ⟨ht₁, hmap⟩ := pgdirMapPage_spec ht hnull hT (fun _ => hk) hstep
      rw [pageMask_page_off virt off hoff, pageMask_page_off phys off hoff] at hmap
      refine ih ht₁ (hmap.agree hk hsh hag) ?_ hpair hrest
      intro o ho
      obtain ⟨ho', hsh'⟩ := hshared o (List.mem_cons_of_mem _ ho)
      exact ⟨ho', hmap.pageShared hk (u32_lt _) (hlater o ho) hsh'⟩

theorem mmuMapTable_agree {s s' : Mmu H} {T virt phys size flags : Nat} (hnull : A.NeverNull)
    (hT : T ∈ tabs) (hk : kernel ∈ tabs) (ht : Tables A kernel tabs s)
    (hag : Agree kernel tabs s.mem)
    (hshared : KernelMapShared kernel tabs s.mem T virt phys size flags)
    (h : mmuMapTable A kernel s T virt phys size flags = some s') : Agree kernel tabs s'.mem := by
  obtain ⟨offs, hoffs, hrun⟩ := Option.bind_eq_some_iff.mp h
  rw [foldlM_eq_exec] at hrun
  refine mapLoop_agree hnull hT hk ht hag ?_ (pageOffs_pairwise hoffs) hrun
  intro off hoff
  obtain ⟨hal, hlt⟩ := (mem_pageOffs hoffs).mp hoff
  exact ⟨hal, hshared off hal hlt⟩

/-! ## What the table itself reads

After a range is mapped through `T`, a covered page reads the word stored for
it; the rest of a kernel slot that was touched reads what the kernel's table
has there. -/

theorem MapStep.self {T p word : Nat} {m m' : PageMem}
    (h : MapStep tabs (mapDir kernel T p) T (pdindex p) (ptindex p) word m m') (hT : T ∈ tabs)
    {v : Nat} (hv : v < 4294967296) :
    pgdirGetPageEntry m' T v =
      if v / 4096 = p / 4096 then word
      else if kernelOffset ≤ p ∧ pdindex p = pdindex v then pgdirGetPageEntry m kernel v
      else pgdirGetPageEntry m T v := by
  simp only [pgdirGetPageEntry_eq]
  by_cases hpd : pdindex v = pdindex p
  · rw [hpd, h.seen T hT (Or.inl rfl)]
    by_cases hpt : ptindex v = ptindex p
    · rw [if_pos hpt, if_pos (index_eq_iff.mp ⟨hpd, hpt⟩)]
    · rw [if_neg hpt, if_neg fun heq => hpt (index_eq_iff.mpr heq).2]
      by_cases hk : kernelOffset ≤ p
      · rw [if_pos ⟨hk, rfl⟩, mapDir_kernel hk]
      · rw [if_neg fun hc => hk hc.1, mapDir, if_neg fun hc => hk hc.1]
  · rw [h.other T hT _ (pdindex_lt hv) fun hc => absurd hc hpd,
      if_neg fun heq => hpd (index_eq_iff.mpr heq).1, if_neg fun hc => hpd hc.2.symm]

/-- The kernel's table, at and above `KERNEL_OFFSET`. -/
theorem MapStep.kernel_read {T p word : Nat} {m m' : PageMem}
    (h : MapStep tabs (mapDir kernel T p) T (pdindex p) (ptindex p) word m m')
    (hk : kernel ∈ tabs) {v : Nat} (hvk : kernelOffset ≤ v) (hv : v < 4294967296) :
    pgdirGetPageEntry m' kernel v =
      if v / 4096 = p / 4096 then word else pgdirGetPageEntry m kernel v := by
  simp only [pgdirGetPageEntry_eq]
  by_cases hpd : pdindex v = pdindex p
  · have hpk : kernelOffset ≤ p := by
      rw [← kernelSlot_le_pdindex, ← hpd, kernelSlot_le_pdindex]
      exact hvk
    rw [mapDir_kernel hpk] at h
    rw [hpd, h.seen kernel hk (Or.inr (Or.inl rfl))]
    exact if_congr ⟨fun hpt => index_eq_iff.mp ⟨hpd, hpt⟩, fun heq => (index_eq_iff.mpr heq).2⟩
      rfl rfl
  · rw [h.other kernel hk _ (pdindex_lt hv) fun hc => absurd hc hpd,
      if_neg fun heq => hpd (index_eq_iff.mpr heq).1]

/-- Some page of the range lies in the kernel slot of `v`. -/
def TouchesSlot (virt : Nat) (offs : List Nat) (v : Nat) : Prop :=
  ∃ off ∈ offs, kernelOffset ≤ u32 (virt + off) ∧ pdindex (u32 (virt + off)) = pdindex v

instance (virt : Nat) (offs : List Nat) (v : Nat) : Decidable (TouchesSlot virt offs v) :=
  inferInstanceAs (Decidable (∃ off ∈ offs, _ ∧ _))

theorem TouchesSlot.above {virt : Nat} {offs : List Nat} {v : Nat}
    (h : TouchesSlot virt offs v) : kernelOffset ≤ v := by
  obtain ⟨off, -, hk, hpd⟩ := h
  rw [← kernelSlot_le_pdindex, ← hpd, kernelSlot_le_pdindex]
  exact hk

theorem touchesSlot_cons {virt off v : Nat} {offs : List Nat} :
    TouchesSlot virt (off :: offs) v ↔
      (kernelOffset ≤ u32 (virt + off) ∧ pdindex (u32 (virt + off)) = pdindex v) ∨
        TouchesSlot virt offs v := by
  simp [TouchesSlot]

/-- The word table `T` reads for `v` after the pages of a range are mapped
through it. -/
def readAfterMap (m : PageMem) (kernel T virt : Nat) (word : Nat → Nat) (offs : List Nat)
    (v : Nat) : Nat :=
  lastWrite (fun off => v / 4096 = u32 (virt + off) / 4096) word offs
    (if TouchesSlot virt offs v then pgdirGetPageEntry m kernel v
      else pgdirGetPageEntry m T v)

/-- One page of the range, then the rest. -/
theorem readAfterMap_cons {T virt off : Nat} {word : Nat → Nat} {offs : List Nat} {m m₁ : PageMem}
    {v : Nat}
    (hself : pgdirGetPageEntry m₁ T v =
      if v / 4096 = u32 (virt + off) / 4096 then word off
      else if kernelOffset ≤ u32 (virt + off) ∧ pdindex (u32 (virt + off)) = pdindex v then
        pgdirGetPageEntry m kernel v
      else pgdirGetPageEntry m T v)
    (hkernel : kernelOffset ≤ v → pgdirGetPageEntry m₁ kernel v =
      if v / 4096 = u32 (virt + off) / 4096 then word off else pgdirGetPageEntry m kernel v) :
    readAfterMap m₁ kernel T virt word offs v =
      readAfterMap m kernel T virt word (off :: offs) v := by
  simp only [readAfterMap, lastWrite_cons]
  congr 1
  -- what the cell holds before the rest of the range is stored
  by_cases hrest : TouchesSlot virt offs v
  · rw [if_pos hrest, hkernel hrest.above, if_pos (touchesSlot_cons.mpr (Or.inr hrest))]
  · rw [if_neg hrest, hself]
    refine if_congr Iff.rfl rfl (if_congr ?_ rfl rfl)
    rw [touchesSlot_cons]
    exact ⟨Or.inl, fun h => h.resolve_right hrest⟩

theorem mapLoop_self {T phys virt flags : Nat} (hnull : A.NeverNull) (hT : T ∈ tabs)
    (hk : kernel ∈ tabs) {offs : List Nat} {s s' : Mmu H} (ht : Tables A kernel tabs s)
    (hal : ∀ off ∈ offs, off % 4096 = 0)
    (hrun : exec (fun s off => pgdirMapPage A kernel s T (u32 (pageMask phys + off))
      (u32 (pageMask virt + off)) flags) s offs = some s') :
    ∀ v < 4294967296, pgdirGetPageEntry s'.mem T v =
      readAfterMap s.mem kernel T (pageMask virt)
        (fun off => pageWord (u32 (pageMask phys + off)) flags) offs v := by
  induction offs generalizing s with
  | nil =>
      obtain rfl := Option.some.inj hrun
      exact fun _ _ => rfl
  | cons off offs ih =>
      obtain ⟨s₁, hstep, hrest⟩ := exec_cons_eq_some.mp hrun
      have hoff := hal off (List.mem_cons_self ..)
      obtain ⟨ht₁, hmap⟩ := pgdirMapPage_spec ht hnull hT (fun _ => hk) hstep
      rw [pageMask_page_off virt off hoff, pageMask_page_off phys off hoff] at hmap
      intro v hv
      rw [ih ht₁ (fun o ho => hal o (List.mem_cons_of_mem _ ho)) hrest v hv]
      exact readAfterMap_cons (hmap.self hT hv) fun hvk => hmap.kernel_read hk hvk hv

/-- And the kernel's: the words of the range, wherever it is mapped through. -/
theorem mapLoop_kernel {T phys virt flags : Nat} (hnull : A.NeverNull) (hT : T ∈ tabs)
    (hk : kernel ∈ tabs) {offs : List Nat} {s s' : Mmu H} (ht : Tables A kernel tabs s)
    (hal : ∀ off ∈ offs, off % 4096 = 0)
    (hrun : exec (fun s off => pgdirMapPage A kernel s T (u32 (pageMask phys + off))
      (u32 (pageMask virt + off)) flags) s offs = some s') :
    ∀ v, kernelOffset ≤ v → v < 4294967296 → pgdirGetPageEntry s'.mem kernel v =
      lastWrite (fun off => v / 4096 = u32 (pageMask virt + off) / 4096)
        (fun off => pageWord (u32 (pageMask phys + off)) flags) offs
        (pgdirGetPageEntry s.mem kernel v) := by
  induction offs generalizing s with
  | nil =>
      obtain rfl := Option.some.inj hrun
      exact fun _ _ _ => rfl
  | cons off offs ih =>
      obtain ⟨s₁, hstep, hrest⟩ := exec_cons_eq_some.mp hrun
      have hoff := hal off (List.mem_cons_self ..)
      obtain ⟨ht₁, hmap⟩ := pgdirMapPage_spec ht hnull hT (fun _ => hk) hstep
      rw [pageMask_page_off virt off hoff, pageMask_page_off phys off hoff] at hmap
      intro v hvk hv
      rw [ih ht₁ (fun o ho => hal o (List.mem_cons_of_mem _ ho)) hrest v hvk hv,
        hmap.kernel_read hk hvk hv, lastWrite_cons]

end Global

/-! ## Runs -/

/-- The tables in use, and their memory. -/
structure TableSet (H : Type) where
  tabs : List Nat
  mmu : Mmu H

inductive TableOp where
  | clone (current src : Nat)
  | map (table virt phys size flags : Nat)

section Runs

variable {H : Type} (A : PageHeap H) (kernel : Nat)

/-- Calls are made on tables of the set, with one of them current. -/
def tableStep (s : TableSet H) : TableOp → Option (TableSet H)
  | .clone current src =>
      if current ∈ s.tabs ∧ src ∈ s.tabs then
        (mmuCloneTable A kernel current s.mmu src).map fun nm => ⟨nm.1 :: s.tabs, nm.2⟩
      else none
  | .map table virt phys size flags =>
      if table ∈ s.tabs then
        (mmuMapTable A kernel s.mmu table virt phys size flags).map fun m => ⟨s.tabs, m⟩
      else none

/-- The side conditions of one call. A clone maps its block into the current
table, and must not give the source a new page table by that. -/
def TableOp.Ok (s : TableSet H) : TableOp → Prop
  | .clone current src => CloneAddsNone A kernel current s.mmu src ∧
      ∀ new heap, A.kamalloc s.mmu.heap (cloneSize s.mmu.mem src) pageSz = some (new, heap) →
        KernelMapShared kernel s.tabs s.mmu.mem current new new (cloneSize s.mmu.mem src)
          cloneFlags
  | .map table virt phys size flags =>
      KernelMapShared kernel s.tabs s.mmu.mem table virt phys size flags

structure GlobalInv (s : TableSet H) : Prop where
  kernel_mem : kernel ∈ s.tabs
  tables : Tables A kernel s.tabs s.mmu
  agree : Agree kernel s.tabs s.mmu.mem

variable {A kernel}

theorem tableStep_inv (hnull : A.NeverNull) {s s' : TableSet H} {op : TableOp}
    (h : GlobalInv A kernel s) (hok : op.Ok A kernel s)
    (hstep : tableStep A kernel s op = some s') : GlobalInv A kernel s' := by
  obtain ⟨hk, ht, hag⟩ := h
  have hav : Avoids A s.tabs (fun _ => False) s.mmu :=
    ⟨fun _ h => h.elim, fun _ _ h => h, fun _ _ _ _ _ h => h⟩
  cases op with
  | map table virt phys size flags =>
    simp only [tableStep] at hstep
    split at hstep
    · rename_i hT
      obtain ⟨m, hm, rfl⟩ := Option.map_eq_some_iff.mp hstep
      exact ⟨hk, (mmuMapTable_tables ht hav hnull hT hk hm).1,
        mmuMapTable_agree hnull hT hk ht hag hok hm⟩
    · cases hstep
  | clone current src =>
    simp only [tableStep] at hstep
    split at hstep
    · rename_i hmem
      obtain ⟨⟨new, m⟩, hm, rfl⟩ := Option.map_eq_some_iff.mp hstep
      obtain ⟨s₁, hcl⟩ := mmuCloneTable_spec hnull ht hmem.2 hmem.1 hk hok.1 hm
      obtain ⟨heap, hkam, hmap⟩ := hcl.mapped
      have hag₁ : Agree kernel s.tabs s₁.mem :=
        mmuMapTable_agree hnull hmem.1 hk (ht.granted hkam) hag (hok.2 new heap hkam) hmap
      -- the old tables read as before the copy, and the clone as its source
      have hold : ∀ U ∈ s.tabs, ∀ v < 4294967296,
          mmuMapGetTable m.mem U v = mmuMapGetTable s₁.mem U v := by
        intro U hU v hv
        rw [mmuMapGetTable, pgdirGetPageEntry_eq, hcl.reads U hU _ (pdindex_lt hv)]
        rfl
      refine ⟨List.mem_cons_of_mem _ hk, hcl.tables, ?_⟩
      intro U hU v hvk hv
      rw [hold kernel hk v hv]
      rcases List.mem_cons.mp hU with rfl | hU
      · rw [mmuMapGetTable, pgdirGetPageEntry_eq, hcl.equal _ (pdindex_lt hv),
          hcl.reads src hmem.2 _ (pdindex_lt hv)]
        exact hag₁ src hmem.2 v hvk hv
      · rw [hold U hU v hv]
        exact hag₁ U hU v hvk hv
    · cases hstep

/-- **Kernel mappings are global** in every state of every run from the
kernel's table whose calls meet their side conditions. -/
theorem kernel_mappings_global_of_shared (hnull : A.NeverNull) {s₀ : Mmu H}
    (ht : Tables A kernel [kernel] s₀) {ops : List TableOp}
    (hok : Guarded (tableStep A kernel) (fun s op => op.Ok A kernel s) ⟨[kernel], s₀⟩ ops)
    {s : TableSet H} (hrun : exec (tableStep A kernel) ⟨[kernel], s₀⟩ ops = some s) :
    ∀ U ∈ s.tabs, ∀ v, kernelOffset ≤ v → v < 4294967296 →
      mmuMapGetTable s.mmu.mem U v = mmuMapGetTable s.mmu.mem kernel v := by
  have hinit : GlobalInv A kernel (⟨[kernel], s₀⟩ : TableSet H) := by
    refine ⟨List.mem_singleton.mpr rfl, ht, ?_⟩
    intro U hU v _ _
    rw [List.mem_singleton.mp hU]
  exact (exec_guarded_inv (fun _ _ _ hs hop hstep => tableStep_inv hnull hs hop hstep)
    hinit hok hrun).agree

end Runs

/-! ## On the boot heap -/

/-- The kernel's table at `0x2000`, alone. -/
def bootSet : TableSet { t : Table // TableOk 0x400000 0x410000 t } := ⟨[0x2000], bootMmu⟩

/-- The heap and one kernel page are mapped, the table is cloned (to
`0x402000`), and the table `last` maps the kernel page at `virt`. -/
def cloneThenMap (last virt : Nat) : List TableOp :=
  [.map 0x2000 0x400000 0x400000 0x1000 cloneFlags,
    .map 0x2000 0xC0000000 0x100000 0x1000 cloneFlags,
    .clone 0x2000 0x2000, .map last virt 0x101000 0x1000 cloneFlags]

theorem kernelMapShared_of_two {kernel T virt phys size flags : Nat} {tabs : List Nat}
    {m : PageMem} (h : ∀ U ∈ tabs, U = T ∨ U = kernel) :
    KernelMapShared kernel tabs m T virt phys size flags := by
  intro off _ _ _ U hU hUT hUk
  exact ((h U hU).elim hUT hUk).elim

set_option maxRecDepth 100000 in
/-- With only the kernel's table and the clone, a page mapped through the
clone in a slot that neither has is seen by both. -/
theorem kernel_mappings_global_of_shared_boot :
    ∃ s, exec (tableStep bootPages 0x2000) bootSet (cloneThenMap 0x402000 0xD0000000) = some s ∧
      s.tabs = [0x402000, 0x2000] ∧ ∀ U ∈ s.tabs, ∀ v, kernelOffset ≤ v → v < 4294967296 →
        mmuMapGetTable s.mmu.mem U v = mmuMapGetTable s.mmu.mem 0x2000 v := by
  -- the states the calls are made in
  have htwo : ((exec (tableStep bootPages 0x2000) bootSet
      ((cloneThenMap 0x402000 0xD0000000).take 2)).all fun s => s.tabs = [0x2000] ∧
      ((bootPages.kamalloc s.mmu.heap (cloneSize s.mmu.mem 0x2000) pageSz).all fun nh =>
        (mmuMapTable bootPages 0x2000 { s.mmu with heap := nh.2 } 0x2000 nh.1 nh.1
          (cloneSize s.mmu.mem 0x2000) cloneFlags).all fun s₁ =>
            (List.range pgdirEntries).all fun i =>
              Present (s₁.mem 0x2000 i) → Present (s.mmu.mem 0x2000 i)) = true) = true := by
    decide +kernel
  have hthree : ((exec (tableStep bootPages 0x2000) bootSet
      ((cloneThenMap 0x402000 0xD0000000).take 3)).all fun s => s.tabs = [0x402000, 0x2000])
      = true := by
    decide +kernel
  have hends : ((exec (tableStep bootPages 0x2000) bootSet
      (cloneThenMap 0x402000 0xD0000000)).any fun s => s.tabs = [0x402000, 0x2000]) = true := by
    decide +kernel
  have hok : Guarded (tableStep bootPages 0x2000) (fun s op => op.Ok bootPages 0x2000 s) bootSet
      (cloneThenMap 0x402000 0xD0000000) := by
    refine ⟨kernelMapShared_of_two (by simp [bootSet]), fun s₁ h₁ => ⟨?_, fun s₂ h₂ => ?_⟩⟩
    · have htabs : s₁.tabs = bootSet.tabs := by
        simp only [tableStep] at h₁
        split at h₁
        · obtain ⟨m, -, rfl⟩ := Option.map_eq_some_iff.mp h₁
          rfl
        · cases h₁
      exact kernelMapShared_of_two (by simp [htabs, bootSet])
    have hrun₂ : exec (tableStep bootPages 0x2000) bootSet
        ((cloneThenMap 0x402000 0xD0000000).take 2) = some s₂ :=
      exec_cons_eq_some.mpr ⟨s₁, h₁, exec_cons_eq_some.mpr ⟨s₂, h₂, rfl⟩⟩
    rw [hrun₂, Option.all_some, decide_eq_true_iff] at htwo
    obtain ⟨htabs, hall⟩ := htwo
    refine ⟨⟨?_, fun new heap _ => kernelMapShared_of_two (by simp [htabs])⟩,
      fun s₃ h₃ => ⟨?_, fun _ _ => trivial⟩⟩
    · intro new heap s' hkam hmap i hi
      rw [hkam, Option.all_some, hmap, Option.all_some, List.all_eq_true] at hall
      exact of_decide_eq_true (hall i (List.mem_range.mpr hi))
    · have hrun₃ : exec (tableStep bootPages 0x2000) bootSet
          ((cloneThenMap 0x402000 0xD0000000).take 3) = some s₃ :=
        exec_cons_eq_some.mpr ⟨s₁, h₁, exec_cons_eq_some.mpr ⟨s₂, h₂,
          exec_cons_eq_some.mpr ⟨s₃, h₃, rfl⟩⟩⟩
      rw [hrun₃, Option.all_some, decide_eq_true_iff] at hthree
      exact kernelMapShared_of_two (by simp [hthree])
  obtain ⟨s, hrun, hs⟩ := (Option.any_eq_true _ _).mp hends
  exact ⟨s, hrun, of_decide_eq_true hs, kernel_mappings_global_of_shared
    (PageHeap.served_neverNull _) (bootMmu_tables 0x2000 (by simp)) hok hrun⟩

set_option maxRecDepth 100000 in
/-- A kernel page mapped after a clone, in a slot the clone copied, is not
seen by the clone. -/
theorem clone_misses_kernel_mapping :
    ¬ ∀ ops : List TableOp, ∀ table virt phys size flags,
      (∀ off, off % 4096 = 0 → off < size → kernelOffset ≤ u32 (pageMask virt + off)) →
      ∀ s, exec (tableStep bootPages 0x2000) bootSet (ops ++ [.map table virt phys size flags])
          = some s →
        ∀ U ∈ s.tabs, ∀ v, kernelOffset ≤ v → v < 4294967296 →
          mmuMapGetTable s.mmu.mem U v = mmuMapGetTable s.mmu.mem 0x2000 v := by
  intro hall
  have hends : ((exec (tableStep bootPages 0x2000) bootSet (cloneThenMap 0x2000 0xC0001000)).any
      fun s => 0x402000 ∈ s.tabs ∧
        mmuMapGetTable s.mmu.mem 0x402000 0xC0001000 = .error (-EUNSPEC) ∧
        mmuMapGetTable s.mmu.mem 0x2000 0xC0001000 = .ok (cloneFlags, 0x101000)) = true := by
    decide +kernel
  obtain ⟨s, hrun, hs⟩ := (Option.any_eq_true _ _).mp hends
  obtain ⟨hmem, hclone, hkernel⟩ := of_decide_eq_true hs
  have hkern : ∀ off, off % 4096 = 0 → off < 0x1000 →
      kernelOffset ≤ u32 (pageMask 0xC0001000 + off) := by
    intro off hal hlt
    obtain rfl : off = 0 := by omega
    decide
  have hsame := hall ((cloneThenMap 0x2000 0xC0001000).take 3) _ _ _ _ _ hkern s hrun 0x402000
    hmem 0xC0001000 (by decide) (by decide)
  rw [hclone, hkernel] at hsame
  cases hsame

end LambdaOs
