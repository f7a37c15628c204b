import LambdaOs.ForkData

/-!
# What a fork copies

The clone, the two stacks, the entries and the post-fork writes, put
together. All blocks come from memory that was not in use, so each step
leaves alone what the steps before it made (`ForkFrame`).

`fork_copies_entries_iff`: an entry that starts inside a page may end on a
page more than its length fills. That page is not mapped for it, and the
child goes on sharing it with the parent (`fork_shares_second_page`).
-/

namespace LambdaOs

section Spec

variable {H : Type} {A : PageHeap H} {kernel : Nat} {strict : Bool} {tabs : List Nat}

/-! ## A new block in a table -/

/-- The page of `v` is mapped writable to a frame taken from the heap since
`h`. -/
def FreshAnswer (A : PageHeap H) (tabs : List Nat) (h : H) (s' : Mmu H) (T v : Nat) : Prop :=
  ∃ flags frame, mmuMapGetTable s'.mem T v = .ok (flags, frame) ∧ flags &&& mmuFlagWrite ≠ 0 ∧
    frame < kernelOffset ∧ DataPage A tabs s' frame ∧
    ∀ x, frame ≤ x → x < frame + 4096 → ¬ A.held h x ∧ A.held s'.heap x

theorem FreshAnswer.kept {h : H} {s s' : Mmu H} {T v : Nat} (hf : FreshAnswer A tabs h s T v)
    (hgrown : Grown A tabs s s')
    (hsame : mmuMapGetTable s'.mem T v = mmuMapGetTable s.mem T v) :
    FreshAnswer A tabs h s' T v := by
  obtain ⟨flags, frame, hget, hflags, hlow, hdata, hbytes⟩ := hf
  exact ⟨flags, frame, hsame.trans hget, hflags, hlow, hgrown.dataPage hdata, fun x hx hx' =>
    ⟨(hbytes x hx hx').1, hgrown.keeps x (hbytes x hx hx').2⟩⟩

theorem FreshAnswer.before {h h₁ : H} {s' : Mmu H} {T v : Nat}
    (hf : FreshAnswer A tabs h₁ s' T v) (hkeeps : ∀ x, A.held h x → A.held h₁ x) :
    FreshAnswer A tabs h s' T v := by
  obtain ⟨flags, frame, hget, hflags, hlow, hdata, hbytes⟩ := hf
  exact ⟨flags, frame, hget, hflags, hlow, hdata, fun x hx hx' =>
    ⟨fun hheld => (hbytes x hx hx').1 (hkeeps x hheld), (hbytes x hx hx').2⟩⟩

theorem FreshAnswer.translate {h : H} {s' : Mmu H} {T v x : Nat}
    (hf : FreshAnswer A tabs h s' T v) (hx : translate s'.mem T v = some x) :
    ¬ A.held h x ∧ DataByte A tabs s' x := by
  obtain ⟨flags, frame, hget, -, -, hdata, hbytes⟩ := hf
  have hal := frame_aligned hget
  have hmod := Nat.mod_lt v (show 4096 > 0 by decide)
  rw [LambdaOs.translate, hget] at hx
  obtain rfl := Option.some.inj hx
  obtain ⟨hnew, hheld⟩ := hbytes (frame + v % 4096) (Nat.le_add_right ..) (by omega)
  exact ⟨hnew, hheld, by rw [pageBase_add hal hmod]; exact hdata.2⟩

theorem FreshAnswer.allows {h : H} {s' : Mmu H} {T v : Nat} (hf : FreshAnswer A tabs h s' T v) :
    Allows s'.mem T v mmuFlagWrite := by
  obtain ⟨flags, frame, hget, hflags, -⟩ := hf
  exact ⟨flags, frame, hget, hflags⟩

/-- Whole pages from the heap, mapped in a table. -/
structure MapsFresh (A : PageHeap H) (kernel : Nat) (tabs : List Nat) (T virt size : Nat)
    (s s' : Mmu H) : Prop where
  tables : Tables A kernel tabs s'
  only : OnlyTables A tabs s s'
  others : ∀ U ∈ tabs, U ≠ T → ∀ v < 4294967296,
    mmuMapGetTable s'.mem U v = mmuMapGetTable s.mem U v
  outside : ∀ v < 4294967296, ¬ (virt ≤ pageMask v ∧ pageMask v < virt + size) →
    mmuMapGetTable s'.mem T v = mmuMapGetTable s.mem T v
  inside : ∀ v < 4294967296, virt ≤ pageMask v → pageMask v < virt + size →
    FreshAnswer A tabs s.heap s' T v

theorem mapsFresh {s s' : Mmu H} {T virt r sz size flags : Nat} {heap : H} (hnull : A.NeverNull)
    (ht : Tables A kernel tabs s) (hT : T ∈ tabs)
    (hheap : ∀ x, kernelOffset ≤ x → A.held s.heap x) (hal : virt % 4096 = 0)
    (hlow : virt + size ≤ kernelOffset) (hsz : sz % 4096 = 0) (hsize : 0 < size) (hle : size ≤ sz)
    (hkam : A.kamalloc s.heap sz 0x1000 = some (r, heap)) (hflags : flags &&& mmuFlagWrite ≠ 0)
    (hmap : mmuMapTable A kernel { s with heap := heap } T virt r size flags = some s') :
    MapsFresh A kernel tabs T virt size s s' := by
  have hK : kernelOffset = 3221225472 := rfl
  have hr := hnull hkam
  have hblock := A.block_low hheap hkam hr (by omega)
  obtain ⟨hral, -, hbytes⟩ := A.fresh hkam hr
  have hvirt : pageMask virt = virt := pageMask_of_aligned (by omega) hal
  have hrmask : pageMask r = r := pageMask_of_aligned (by omega) hral
  have hre := mapRange_remaps hnull (ht.granted hkam) hT (by omega) hmap
  have honly := mapRange_grown (ht.granted hkam) hnull hT (by omega) hmap
  rw [hvirt, hrmask] at hre
  refine ⟨hre.tables, honly.granted hkam, hre.others, ?_, ?_⟩
  · intro v hv hout
    rw [hre.self v hv, if_neg hout]
  · intro v hv hge hlt
    have hpal := pageMask_aligned v
    have hframe : u32 (r + (pageMask v - virt)) = r + (pageMask v - virt) :=
      u32_of_lt (by omega)
    have hans := hre.self v hv
    dsimp only at hans
    rw [if_pos ⟨hge, hlt⟩, hframe] at hans
    have hin : ∀ x, r + (pageMask v - virt) ≤ x → x < r + (pageMask v - virt) + 4096 →
        ¬ A.held s.heap x ∧ A.held heap x := fun x hx hx' => hbytes x (by omega) (by omega)
    refine ⟨_, _, hans, ?_, by omega, honly.toGrown.newPage ht
      (hin _ (Nat.le_refl _) (Nat.lt_add_of_pos_right (by decide))) (Nat.le_refl _)
      (Nat.lt_add_of_pos_right (by decide)), fun x hx hx' =>
        ⟨(hin x hx hx').1, honly.keeps x (hin x hx hx').2⟩⟩
    rw [Nat.and_or_distrib_right, Nat.and_or_distrib_right]
    intro hzero
    have := (Nat.or_eq_zero_iff.mp (Nat.or_eq_zero_iff.mp hzero).1).2
    rw [Nat.and_assoc, Nat.and_self] at this
    exact hflags this

/-- Pages of a slot that is present need no page table. -/
theorem mapRange_present {s s' : Mmu H} {T virt phys size flags : Nat} (hnull : A.NeverNull)
    (ht : Tables A kernel tabs s) (hT : T ∈ tabs) (hlow : pageMask virt + size ≤ kernelOffset)
    (hthere : ∀ off < size, Present (s.mem T (pdindex (pageMask virt + off))))
    (h : mmuMapTable A kernel s T virt phys size flags = some s') :
    ∀ U ∈ tabs, ∀ i < pgdirEntries, Present (s'.mem U i) → Present (s.mem U i) := by
  obtain ⟨offs, hoffs, hrun⟩ := Option.bind_eq_some_iff.mp h
  have hpages : ∀ off ∈ offs, pageMask (u32 (pageMask virt + off)) = pageMask virt + off ∧
      pageMask virt + off < kernelOffset ∧
      Present (s.mem T (pdindex (pageMask virt + off))) := by
    intro off hoff
    obtain ⟨hal, hlt⟩ := (mem_pageOffs hoffs).mp hoff
    have hK : kernelOffset = 3221225472 := rfl
    have hvirt := pageMask_aligned virt
    rw [u32_of_lt (by omega), pageMask_of_aligned (by omega) (by omega)]
    exact ⟨rfl, by omega, hthere off hlt⟩
  clear h hoffs hthere
  induction offs generalizing s with
  | nil =>
    obtain rfl := Option.some.inj hrun
    exact fun _ _ _ _ hp => hp
  | cons off offs ih =>
    rw [List.foldlM_cons] at hrun
    obtain ⟨s₁, hstep, hrest⟩ := Option.bind_eq_some_iff.mp hrun
    obtain ⟨hpage, hoff, hslot⟩ := hpages off List.mem_cons_self
    have hk : kernelOffset ≤ pageMask (u32 (pageMask virt + off)) → kernel ∈ tabs := fun hk =>
      absurd (hpage ▸ hk) (Nat.not_le.mpr hoff)
    have hdir : mapDir kernel T (pageMask (u32 (pageMask virt + off))) = T :=
      if_neg fun hcon => Nat.not_le.mpr hoff (hpage ▸ hcon.1)
    obtain ⟨ht₁, hstep⟩ := pgdirMapPage_spec ht hnull hT hk hstep
    rw [hdir, hpage] at hstep
    have hsame : ∀ U ∈ tabs, ∀ i < pgdirEntries, Present (s₁.mem U i) ↔ Present (s.mem U i) := by
      intro U hU i hi
      rw [hstep.present U hU i hi]
      refine or_iff_left_of_imp ?_
      rintro ⟨rfl, rfl | rfl⟩
      · exact hslot
      · exact hslot
    intro U hU i hi hp
    refine (hsame U hU i hi).mp (ih ht₁ hrest (fun off' h => ?_) U hU i hi hp)
    obtain ⟨hpage', hoff', hslot'⟩ := hpages off' (List.mem_cons_of_mem off h)
    exact ⟨hpage', hoff', (hsame T hT _ (pdindex_lt (Nat.lt_trans hoff' (by decide)))).mpr hslot'⟩

/-! ## The clone -/

/-- The addresses that a fork reads or writes for the user: the entries, the
parent's stack, and the arguments of the system call. -/
def ForkAddr (t : ForkThread) (ents : List MemMapEnt) (v : Nat) : Prop :=
  (∃ e ∈ ents, ∃ k < e.length, v = e.virtAddress + k) ∨
    (t.stackUserBegin - t.stackUserSize ≤ v ∧ v < t.stackUserBegin) ∨ ∃ j < 4, v = t.ebx + j

/-- The byte at `v` is the user's: what it is mapped to is in use, and neither
in a page table nor in the kernel's half of the addresses. -/
structure UserByte (A : PageHeap H) (tabs : List Nat) (parent : Nat) (s : Mmu H) (v : Nat) :
    Prop where
  low : v < kernelOffset
  byte : ∀ pa, translate s.mem parent v = some pa → pa < kernelOffset ∧ DataByte A tabs s pa

/-- What `fork` finds: the parent's table is one of the set, the heap lies
below the kernel, and what is free in it can be written at its own address. -/
structure ForkReady (A : PageHeap H) (kernel : Nat) (tabs : List Nat) (V : Nat → Prop)
    (parent : Nat) (s : Mmu H) : Prop where
  tables : Tables A kernel tabs s
  parentIn : parent ∈ tabs
  kernelIn : kernel ∈ tabs
  heapLow : ∀ x, kernelOffset ≤ x → A.held s.heap x
  direct : DirectHeap A parent s
  user : ∀ v, V v → UserByte A tabs parent s v

theorem access_present {m : PageMem} {T v flag x : Nat} (h : access m T v flag = some x) :
    Present (m T (pdindex v)) := by
  obtain ⟨⟨flags, frame, hget, -⟩, -⟩ := access_eq_some_iff.mp h
  by_cases hp : Present (m T (pdindex v))
  · exact hp
  · rw [mmuMapGetTable, pgdirGetPageEntry, if_neg hp] at hget
    revert hget
    simp [entryAnswer, Present]

theorem MapsData.of_bytes {V : Nat → Prop} {s : Mmu H} {T : Nat}
    (h : ∀ v, V v → ∀ pa, translate s.mem T v = some pa →
      pa < kernelOffset ∧ DataByte A tabs s pa) :
    MapsData A tabs V s T := by
  intro v hv flags frame hget
  have hal := frame_aligned hget
  have hmod := Nat.mod_lt v (show 4096 > 0 by decide)
  obtain ⟨hlow, hdata⟩ := h v hv (frame + v % 4096) (by rw [translate, hget])
  have hpage := hdata.page
  rw [pageBase_add hal hmod] at hpage
  exact ⟨Nat.lt_of_le_of_lt (Nat.le_add_right ..) hlow, hpage⟩

/-- The parent's memory as it was, and a child that reads the same. -/
structure ForkCloned (A : PageHeap H) (kernel : Nat) (tabs : List Nat) (V : Nat → Prop)
    (parent child : Nat) (s s₁ : Mmu H) : Prop where
  childNew : child ∉ tabs
  state : ForkState A kernel (child :: tabs) V parent child s₁
  keeps : ∀ x, A.held s.heap x → A.held s₁.heap x
  data : ∀ x, DataByte A tabs s x →
    DataByte A (child :: tabs) s₁ x ∧ s₁.mem.byte x = s.mem.byte x
  reads : ∀ v < 4294967296, translate s₁.mem parent v = translate s.mem parent v
  allows : ∀ v < 4294967296, Allows s.mem parent v mmuFlagWrite →
    Allows s₁.mem parent v mmuFlagWrite
  equal : ∀ v < 4294967296, mmuMapGetTable s₁.mem child v = mmuMapGetTable s₁.mem parent v

section Clone

variable {V : Nat → Prop} {parent child : Nat} {s s₁ s' : Mmu H}

theorem ForkReady.free (hready : ForkReady A kernel tabs V parent s) {sz r : Nat} {heap : H}
    (hnull : A.NeverNull) (hsz : 0 < sz) (hkam : A.kamalloc s.heap sz 0x1000 = some (r, heap)) :
    r % 4096 = 0 ∧ r + sz ≤ kernelOffset ∧ ∀ x, r ≤ x → x < r + sz →
      ¬ A.held s.heap x ∧ access s.mem parent x mmuFlagWrite = some x := by
  have hr := hnull hkam
  obtain ⟨hal, -, hbytes⟩ := A.fresh hkam hr
  exact ⟨hal, A.block_low hready.heapLow hkam hr hsz, fun x hx hx' =>
    ⟨(hbytes x hx hx').1, hready.direct x (hbytes x hx hx').1⟩⟩

theorem cloneSize_pages (m : PageMem) (src : Nat) :
    cloneSize m src % 4096 = 0 ∧ 0 < cloneSize m src := by
  simp only [cloneSize]
  omega

/-- The block is mapped where it was mapped before. -/
theorem ForkReady.cloneAddsNone (hready : ForkReady A kernel tabs V parent s)
    (hnull : A.NeverNull) : CloneAddsNone A kernel parent s parent := by
  intro new heap s₁ hkam hmap i hi hp
  obtain ⟨hmod, hpos⟩ := cloneSize_pages s.mem parent
  obtain ⟨hal, hlow, hfree⟩ := hready.free hnull hpos hkam
  have hmask : pageMask new = new := pageMask_of_aligned (Nat.lt_of_le_of_lt
    (Nat.le_trans (Nat.le_add_right ..) hlow) (by decide)) hal
  refine mapRange_present hnull (hready.tables.granted hkam) hready.parentIn (by rwa [hmask])
    (fun off hoff => ?_) hmap parent hready.parentIn i hi hp
  rw [hmask]
  exact access_present (hfree (new + off) (Nat.le_add_right ..) (by omega)).2

/-- Mapping the block changes nothing that the parent reads. -/
theorem ForkReady.mapBlock (hready : ForkReady A kernel tabs V parent s) (hnull : A.NeverNull)
    {new : Nat} {heap : H}
    (hkam : A.kamalloc s.heap (cloneSize s.mem parent) 0x1000 = some (new, heap))
    (hmap : mmuMapTable A kernel { s with heap := heap } parent new new (cloneSize s.mem parent)
      cloneFlags = some s₁) :
    OnlyTables A tabs s s₁ ∧
      (∀ v < 4294967296, translate s₁.mem parent v = translate s.mem parent v) ∧
      ∀ v < 4294967296, Allows s.mem parent v mmuFlagWrite →
        Allows s₁.mem parent v mmuFlagWrite := by
  obtain ⟨hmod, hpos⟩ := cloneSize_pages s.mem parent
  obtain ⟨hal, hlow, hfree⟩ := hready.free hnull hpos hkam
  have hK : kernelOffset = 3221225472 := rfl
  generalize cloneSize s.mem parent = size at *
  have hmask : pageMask new = new := pageMask_of_aligned (by omega) hal
  have htg := hready.tables.granted hkam
  have hre := mapRange_remaps hnull htg hready.parentIn (by rwa [hmask]) hmap
  have hself : ∀ v < 4294967296, new ≤ pageMask v ∧ pageMask v < new + size →
      mmuMapGetTable s₁.mem parent v = .ok (mmuFlagRead ||| (cloneFlags &&& mmuFlagWrite) |||
        (cloneFlags &&& mmuFlagKernel), pageMask v) := by
    rintro v hv ⟨hge, hlt⟩
    have hans := hre.self v hv
    dsimp only at hans
    rw [hmask, if_pos ⟨hge, hlt⟩, Nat.add_sub_cancel' hge, u32_of_lt (by omega)] at hans
    exact hans
  have hout : ∀ v < 4294967296, ¬ (new ≤ pageMask v ∧ pageMask v < new + size) →
      mmuMapGetTable s₁.mem parent v = mmuMapGetTable s.mem parent v := by
    intro v hv hout
    have hans := hre.self v hv
    dsimp only at hans
    rwa [hmask, if_neg hout] at hans
  refine ⟨(mapRange_grown htg hnull hready.parentIn (by rwa [hmask]) hmap).granted hkam,
    fun v hv => ?_, fun v hv hallows => ?_⟩
  · by_cases hin : new ≤ pageMask v ∧ pageMask v < new + size
    · have hpage := pageMask_eq hv
      have hpal := pageMask_aligned v
      obtain ⟨-, htr⟩ := access_eq_some_iff.mp (hfree v (by omega) (by omega)).2
      rw [htr, translate, hself v hv hin]
      simp only [Option.some.injEq]
      omega
    · rw [translate, translate, hout v hv hin]
  · by_cases hin : new ≤ pageMask v ∧ pageMask v < new + size
    · exact ⟨_, _, hself v hv hin, by decide⟩
    · obtain ⟨flags, frame, hget, hflag⟩ := hallows
      exact ⟨flags, frame, (hout v hv hin).trans hget, hflag⟩

theorem mmuCloneTable_fork (hnull : A.NeverNull) (hready : ForkReady A kernel tabs V parent s)
    (h : mmuCloneTable A kernel parent s parent = some (child, s')) :
    ForkCloned A kernel tabs V parent child s s' := by
  obtain ⟨s₁, hcl⟩ := mmuCloneTable_spec hnull hready.tables hready.parentIn hready.parentIn
    hready.kernelIn (hready.cloneAddsNone hnull) h
  obtain ⟨heap, hkam, hmap⟩ := hcl.mapped
  obtain ⟨honly, htr, hallows⟩ := hready.mapBlock hnull hkam hmap
  obtain ⟨hmod, hpos⟩ := cloneSize_pages s.mem parent
  obtain ⟨hal, -, hfree⟩ := hready.free hnull hpos hkam
  have hread : ∀ v < 4294967296,
      mmuMapGetTable s'.mem parent v = mmuMapGetTable s₁.mem parent v := by
    intro v hv
    rw [mmuMapGetTable, mmuMapGetTable, pgdirGetPageEntry_eq, pgdirGetPageEntry_eq,
      hcl.reads parent hready.parentIn _ (pdindex_lt hv)]
  have hequal : ∀ v < 4294967296,
      mmuMapGetTable s'.mem child v = mmuMapGetTable s'.mem parent v := by
    intro v hv
    rw [mmuMapGetTable, mmuMapGetTable, pgdirGetPageEntry_eq, pgdirGetPageEntry_eq,
      hcl.equal _ (pdindex_lt hv)]
  have hkeeps : ∀ x, A.held s.heap x → A.held s'.heap x := by
    rw [hcl.heap]
    exact honly.keeps
  have hreads : ∀ v < 4294967296, translate s'.mem parent v = translate s.mem parent v := by
    intro v hv
    rw [translate, hread v hv, ← translate, htr v hv]
  -- a page with a byte in use is none of the block's
  have hdata : ∀ x, DataByte A tabs s x →
      DataByte A (child :: tabs) s' x ∧ s'.mem.byte x = s.mem.byte x := by
    intro x hx
    have hout : ¬ (child ≤ pageBase x ∧ pageBase x < child + cloneSize s.mem parent) := by
      rintro ⟨hge, hlt⟩
      have hle := pageBase_le x
      have hbase : pageBase x % 4096 = 0 := by
        unfold pageBase
        omega
      have hx' := lt_pageBase x
      exact (hfree x (by omega) (by omega)).1 hx.1
    have hx₁ := honly.toGrown.dataByte hx
    refine ⟨⟨hkeeps x hx.1, ?_⟩, ?_⟩
    · rintro (hin | ⟨U, hU, i, hi, hp, hpage⟩)
      · rcases List.mem_cons.mp hin with heq | hin
        · exact hout (heq ▸ ⟨Nat.le_refl _, Nat.lt_add_of_pos_right hpos⟩)
        · exact hx₁.2 (.inl hin)
      · rcases List.mem_cons.mp hU with rfl | hU
        · exact hout (hpage ▸ hcl.slots i hi hp)
        · rw [hcl.dirs U hU] at hp hpage
          exact hx₁.2 (.inr ⟨U, hU, i, hi, hp, hpage⟩)
    · rw [PageMem.byte_congr (hcl.frame _ hout)]
      exact honly.byte hx
  have hlow : ∀ v, V v → v < 4294967296 := fun v hv =>
    Nat.lt_trans (hready.user v hv).low (by decide)
  have hbytes : ∀ v, V v → ∀ pa, translate s'.mem parent v = some pa →
      pa < kernelOffset ∧ DataByte A (child :: tabs) s' pa := by
    intro v hv pa hpa
    rw [hreads v (hlow v hv)] at hpa
    exact ((hready.user v hv).byte pa hpa).imp_right fun hx => (hdata pa hx).1
  refine ⟨hcl.fresh, ⟨hcl.tables, fun x hx => hkeeps x (hready.heapLow x hx),
    fun v hv => (hready.user v hv).low, .of_bytes hbytes, .of_bytes fun v hv pa hpa => ?_⟩, hkeeps,
    hdata, hreads, fun v hv h => ?_, hequal⟩
  · rw [translate, hequal v (hlow v hv), ← translate] at hpa
    exact hbytes v hv pa hpa
  · obtain ⟨flags, frame, hget, hflag⟩ := hallows v hv h
    exact ⟨flags, frame, (hread v hv).trans hget, hflag⟩

end Clone

/-! ## The stacks -/

/-- A thread's stack as `arch_proc_create_stack` makes it, within the largest
configurable size. -/
structure ForkThread.Ok (t : ForkThread) : Prop where
  size_pos : 0 < t.stackSize
  size_le : t.stackSize ≤ 0x100000
  same : t.stackUserSize = t.stackSize
  begin_ge : t.stackUserSize ≤ t.stackUserBegin
  begin_le : t.stackUserBegin ≤ kernelOffset
  aligned : (t.stackUserBegin - t.stackUserSize) % 4096 = 0

section Stacks

variable {V : Nat → Prop} {parent child : Nat} {s s₁ s' : Mmu H}

theorem MapsFresh.state {virt size : Nat} (h : MapsFresh A kernel tabs child virt size s s')
    (hst : ForkState A kernel tabs V parent child s) (hparent : parent ∈ tabs)
    (hne : parent ≠ child) : ForkState A kernel tabs V parent child s' := by
  have hlt : ∀ v, V v → v < 4294967296 := fun v hv => Nat.lt_trans (hst.low v hv) (by decide)
  refine ⟨h.tables, fun x hx => h.only.keeps x (hst.heapLow x hx), hst.low,
    hst.parentData.kept h.only.toGrown fun v hv => h.others parent hparent hne v (hlt v hv), ?_⟩
  intro v hv flags frame hget
  by_cases hcov : virt ≤ pageMask v ∧ pageMask v < virt + size
  · obtain ⟨flags', frame', hget', -, hlow, hdata, -⟩ := h.inside v (hlt v hv) hcov.1 hcov.2
    obtain ⟨-, rfl⟩ := Prod.mk.inj (Except.ok.inj (hget.symm.trans hget'))
    exact ⟨hlow, hdata⟩
  · rw [h.outside v (hlt v hv) hcov] at hget
    exact (hst.childData v hv flags frame hget).imp_right h.only.dataPage

/-- From `s` on, the child's table has stacks of its own: where its answers
changed they are new frames, and its user stack is one of them. -/
structure ForkStacks (A : PageHeap H) (kernel : Nat) (tabs : List Nat) (V : Nat → Prop)
    (parent child : Nat) (t : ForkThread) (kernStack : Nat) (s s' : Mmu H) : Prop where
  state : ForkState A kernel tabs V parent child s'
  frame : ForkFrame A tabs child s s'
  kept : DataKept A tabs s s'
  answers : ∀ v < 4294967296, mmuMapGetTable s'.mem child v = mmuMapGetTable s.mem child v ∨
    FreshAnswer A tabs s.heap s' child v
  user : ∀ k < t.stackSize, FreshAnswer A tabs s.heap s' child (userStackVirt + k)
  kern : procKernStackSize ≤ kernStack ∧ kernStack ≤ kernelOffset
  kernNew : ∀ x, kernStack - procKernStackSize ≤ x → x < kernStack →
    ¬ A.held s.heap x ∧ DataByte A tabs s' x

theorem procCreateStacks_spec {t : ForkThread} (ht : t.Ok) {kernStack : Nat}
    (hnull : A.NeverNull) (hst : ForkState A kernel tabs V parent child s)
    (hparent : parent ∈ tabs) (hchild : child ∈ tabs) (hne : parent ≠ child)
    (hu : procCreateStack A kernel child t s = some s₁)
    (hk : procCreateKernelStack A kernel child s₁ = some (kernStack, s')) :
    ForkStacks A kernel tabs V parent child t kernStack s s' := by
  have hK : kernelOffset = 3221225472 := rfl
  obtain ⟨⟨stack, heap⟩, hkam, hmap⟩ := Option.bind_eq_some_iff.mp hu
  have hle := ht.size_le
  obtain ⟨hround, hge, -⟩ := roundSize_spec (show t.stackSize + 4096 ≤ 4294967296 by omega)
  have hfu := mapsFresh hnull hst.tables hchild hst.heapLow (by decide)
    (show userStackVirt + t.stackSize ≤ kernelOffset by simp only [userStackVirt]; omega)
    hround ht.size_pos hge hkam (by split <;> decide) hmap
  have hst₁ := hfu.state hst hparent hne
  obtain ⟨⟨kstack, heap'⟩, hkam', hrest⟩ := Option.bind_eq_some_iff.mp hk
  obtain ⟨s₂, hmap', hret⟩ := Option.bind_eq_some_iff.mp hrest
  obtain ⟨rfl, rfl⟩ := Prod.mk.inj (Option.some.inj hret)
  have hsz : roundSize procKernStackSize 4096 = 4096 := by decide
  rw [hsz] at hkam'
  have hr := hnull hkam'
  have hblock := A.block_low hst₁.heapLow hkam' hr (by decide)
  obtain ⟨hkal, -, hkbytes⟩ := A.fresh hkam' hr
  have hkmask : pageMask kstack = kstack := pageMask_of_aligned (by omega) hkal
  have hfk := mapsFresh hnull hst₁.tables hchild hst₁.heapLow hkal hblock (by decide)
    (by decide) (Nat.le_refl _) hkam' (by decide) hmap'
  have hgrown := (mapRange_grown (hst₁.tables.granted hkam') hnull hchild
    (by rw [hkmask]; exact hblock) hmap').toGrown
  -- a frame new to the first mapping stays so, a frame new to the second is new to both
  have hfresh : ∀ v < 4294967296, FreshAnswer A tabs s.heap s₁ child v →
      FreshAnswer A tabs s.heap s₂ child v := by
    intro v hv hold
    by_cases hcov : kstack ≤ pageMask v ∧ pageMask v < kstack + 4096
    · exact (hfk.inside v hv hcov.1 hcov.2).before hfu.only.keeps
    · exact hold.kept hfk.only.toGrown (hfk.outside v hv hcov)
  have hend : u32 (kstack + procKernStackSize) = kstack + procKernStackSize :=
    u32_of_lt (by simp only [procKernStackSize]; omega)
  rw [hend]
  refine ⟨hfk.state hst₁ hparent hne, ⟨hfu.only.toGrown.trans hfk.only.toGrown,
    fun U hU hUc v hv => (hfk.others U hU hUc v hv).trans (hfu.others U hU hUc v hv)⟩,
    fun x hx => (hfk.only.byte (hfu.only.toGrown.dataByte hx)).trans (hfu.only.byte hx), ?_, ?_,
    ⟨Nat.le_add_left .., hblock⟩, ?_⟩
  · intro v hv
    by_cases hcov : userStackVirt ≤ pageMask v ∧ pageMask v < userStackVirt + t.stackSize
    · exact .inr (hfresh v hv (hfu.inside v hv hcov.1 hcov.2))
    · by_cases hcov' : kstack ≤ pageMask v ∧ pageMask v < kstack + 4096
      · exact .inr ((hfk.inside v hv hcov'.1 hcov'.2).before hfu.only.keeps)
      · exact .inl ((hfk.outside v hv hcov').trans (hfu.outside v hv hcov))
  · intro k hk'
    have hv : userStackVirt + k < 4294967296 := by simp only [userStackVirt]; omega
    have hmask := pageMask_eq hv
    simp only [userStackVirt] at hmask hv ⊢
    exact hfresh _ hv (hfu.inside _ hv (by simp only [userStackVirt]; omega)
      (by simp only [userStackVirt]; omega))
  · intro x hx hx'
    simp only [procKernStackSize] at hx hx'
    have hin := hkbytes x (by omega) (by omega)
    exact ⟨fun hheld => hin.1 (hfu.only.keeps x hheld), hgrown.keeps x hin.2,
      (hgrown.newPage hst₁.tables hin (pageBase_le x) (lt_pageBase x)).2⟩

theorem procCopyStack_spec {t : ForkThread} (ht : t.Ok) {kernStack : Nat} (hnull : A.NeverNull)
    (hparent : parent ∈ tabs) (hchild : child ∈ tabs)
    (hV : ∀ v, t.stackUserBegin - t.stackUserSize ≤ v → v < t.stackUserBegin → V v)
    (hst : ForkStacks A kernel tabs V parent child t kernStack s s₁)
    (h : procCopyStack A kernel strict child parent t s₁ = some s') :
    ForkStacks A kernel tabs V parent child t kernStack s s' := by
  have hK : kernelOffset = 3221225472 := rfl
  have hU : userStackVirt = 2130706432 := rfl
  obtain ⟨⟨ret, s₂⟩, hcopy, hret⟩ := Option.bind_eq_some_iff.mp h
  obtain rfl := Option.some.inj hret
  rw [mmuCopyData] at hcopy
  split at hcopy
  · obtain ⟨-, rfl⟩ := Prod.mk.inj (Option.some.inj hcopy)
    exact hst
  · obtain ⟨-, hsize, hsame, hge, hle, hal⟩ := ht
    have hsrc : u32 (t.stackUserBegin + 4294967296 - t.stackUserSize) =
        t.stackUserBegin - t.stackUserSize := by
      simp only [u32]
      omega
    rw [hsrc] at hcopy
    have hlt : ∀ v, V v → v < 4294967296 := fun v hv =>
      Nat.lt_trans (hst.state.low v hv) (by decide)
    have hto : TouchesData A tabs s₁ child userStackVirt t.stackUserSize := by
      intro k hk flags frame hget
      obtain ⟨flags', frame', hget', -, hlow, hdata, -⟩ := hst.user k (by omega)
      rw [u32_of_lt (by omega)] at hget
      obtain ⟨-, rfl⟩ := Prod.mk.inj (Except.ok.inj (hget.symm.trans hget'))
      exact ⟨hlow, hdata⟩
    have hfrom : TouchesData A tabs s₁ parent (t.stackUserBegin - t.stackUserSize)
        t.stackUserSize :=
      hst.state.parentData.touches (fun k hk => hV _ (by omega) (by omega)) (by omega)
    obtain ⟨n, hn, -, ps, hcopied⟩ := copyLoop_spec hnull hparent hchild hparent hst.state.tables
      hto hfrom hcopy
    have hun := hcopied.moved.unmoved
    have hgrown := hcopied.moved.grown
    refine ⟨⟨hun.tables, fun x hx => hun.keeps x (hst.state.heapLow x hx), hst.state.low,
      hst.state.parentData.kept hgrown fun v hv => hun.same parent hparent v (hlt v hv),
      hst.state.childData.kept hgrown fun v hv => hun.same child hchild v (hlt v hv)⟩,
      ⟨hst.frame.grown.trans hgrown, fun U hU hUc v hv =>
        (hun.same U hU v hv).trans (hst.frame.others U hU hUc v hv)⟩, fun x hx => ?_,
      fun v hv => ?_, fun k hk => ?_, hst.kern, fun x hx hx' =>
        (hst.kernNew x hx hx').imp_right hgrown.dataByte⟩
    · -- the child's stack was not in use
      have hx₁ := hst.frame.grown.dataByte hx
      rw [hcopied.moved.bytes x (hgrown.dataByte hx₁).2, origin_of_notMem, hst.kept x hx]
      have heq : userStackVirt % 4096 = (t.stackUserBegin - t.stackUserSize) % 4096 := by omega
      rw [hcopied.pairs heq]
      simp only [copyPairs, List.forall_mem_map, List.mem_range'_1]
      intro k hk hkx
      have hread := (hcopied.can heq k hk.1 hk.2).pair.1
      rw [u32_of_lt (by omega), hkx] at hread
      exact ((hst.user k (by omega)).translate hread).1 hx.1
    · rcases hst.answers v hv with hold | hnew
      · exact .inl ((hun.same child hchild v hv).trans hold)
      · exact .inr (hnew.kept hgrown (hun.same child hchild v hv))
    · exact (hst.user k hk).kept hgrown (hun.same child hchild _ (by omega))

/-- The writes behind the copies: the registers go to the kernel stack, and the
arguments of the call read `0` in the child if they can be written. -/
theorem archPostforkSetup_spec {t : ForkThread} {kernStack : Nat} (hnull : A.NeverNull)
    (ht : Tables A kernel tabs s) (hparent : parent ∈ tabs) (hchild : child ∈ tabs)
    (hebx : t.ebx + 4 ≤ kernelOffset) (hargs : TouchesData A tabs s child t.ebx 4)
    (hkern : procKernStackSize ≤ kernStack ∧ kernStack ≤ kernelOffset)
    (hstack : ∀ x, kernStack - procKernStackSize ≤ x → x < kernStack →
      DataByte A tabs s x ∧ access s.mem parent x mmuFlagWrite = some x)
    (h : archPostforkSetup A kernel child parent t kernStack s = some s') :
    Unmoved A kernel tabs s s' ∧ ∀ x, DataByte A tabs s x →
      ¬ (kernStack - procKernStackSize ≤ x ∧ x < kernStack) →
        ((∀ j < 4, translate s.mem child (t.ebx + j) ≠ some x) → s'.mem.byte x = s.mem.byte x) ∧
        ((∀ j < 4, Allows s.mem child (t.ebx + j) mmuFlagWrite) →
          ∀ j < 4, translate s.mem child (t.ebx + j) = some x → s'.mem.byte x = 0) := by
  have hK : kernelOffset = 3221225472 := rfl
  have hS : procKernStackSize = 4096 := rfl
  have hR : forkRegsSize = 52 := rfl
  obtain ⟨m, hstore, hrest⟩ := Option.bind_eq_some_iff.mp h
  obtain ⟨⟨ret, s₂⟩, hwrite, hret⟩ := Option.bind_eq_some_iff.mp hrest
  obtain rfl := Option.some.inj hret
  have hregs : u32 (kernStack + 4294967296 - forkRegsSize) = kernStack - forkRegsSize := by
    simp only [u32]
    omega
  rw [hregs] at hstore
  have hlen : ((List.range forkRegsSize).map t.regs).length = 52 := by simp [hR]
  obtain ⟨m', hstore', htables, hbytes⟩ := @storeVirt_spec tabs s.mem parent
    (kernStack - forkRegsSize) ((List.range forkRegsSize).map t.regs)
    (fun j => kernStack - forkRegsSize + j) hparent
    (fun j hj => by
      rw [hlen] at hj
      rw [u32_of_lt (by omega)]
      exact (hstack _ (by omega) (by omega)).2)
    (fun j hj => by
      rw [hlen] at hj
      exact (hstack _ (by omega) (by omega)).1.2)
  obtain rfl : m' = m := Option.some.inj (hstore'.symm.trans hstore)
  have hun₁ : Unmoved A kernel tabs s { s with mem := m' } :=
    ⟨ht.congr htables, fun _ hx => hx, fun U hU v hv => mmuMapGetTable_congr htables hU hv⟩
  have hgrown₁ : Grown A tabs s { s with mem := m' } :=
    Grown.of_same fun p => (TablePage.congr htables).symm
  obtain ⟨hun₂, hgrown₂, hzero⟩ := writeLoop_spec hnull hparent hchild hun₁.tables
    (hargs.kept hun₁ hgrown₁ hchild) hwrite
  refine ⟨hun₁.trans hun₂, fun x hx hout => ?_⟩
  have hargv : ∀ j < 4, u32 (t.ebx + j) = t.ebx + j := fun j hj => u32_of_lt (by omega)
  have hsame : ∀ j < 4, translate m' child (u32 (t.ebx + j)) =
      translate s.mem child (t.ebx + j) := fun j hj => by
    rw [hargv j hj]
    exact hun₁.translate hchild (by omega)
  have hkept : m'.byte x = s.mem.byte x := by
    rcases hbytes x with ⟨hkept, -⟩ | ⟨j, hj, hplace, -⟩
    · exact hkept
    · rw [hlen] at hj
      exact absurd ⟨by omega, by omega⟩ hout
  rcases hzero x (hgrown₂.dataByte (hgrown₁.dataByte hx)).2 with ⟨k, -, hk, hplace, hval⟩ |
    ⟨hval, hnot⟩
  · have hk' : k < 4 := hk
    rw [hsame k hk'] at hplace
    refine ⟨fun hno => absurd hplace (hno k hk'), fun _ _ _ _ => ?_⟩
    rw [hval]
    obtain rfl | rfl | rfl | rfl : k = 0 ∨ k = 1 ∨ k = 2 ∨ k = 3 := by omega
    all_goals rfl
  · refine ⟨fun _ => hval.trans hkept, fun hall j hj hplace => absurd hplace ?_⟩
    rw [← hsame j hj]
    refine hnot (fun k hk => ?_) j (Nat.zero_le _) hj
    have hk' : k < 4 := hk
    rw [hargv k hk']
    exact (allows_congr _ (hun₁.same child hchild _ (by omega))).mpr (hall k hk')

end Stacks

/-! ## The whole fork -/

section Whole

variable {V : Nat → Prop} {parent child : Nat}

/-- The fork just before the entries are copied: the child has a table and
stacks of its own, the parent reads as before, and the child maps the user's
addresses to memory in use. -/
structure ForkPrepared (A : PageHeap H) (kernel : Nat) (tabs : List Nat) (V : Nat → Prop)
    (parent child : Nat) (kernStack : Nat) (s s' : Mmu H) : Prop where
  childNew : child ∉ tabs
  state : ForkState A kernel (child :: tabs) V parent child s'
  data : ∀ x, DataByte A tabs s x →
    DataByte A (child :: tabs) s' x ∧ s'.mem.byte x = s.mem.byte x
  reads : ∀ v < 4294967296, translate s'.mem parent v = translate s.mem parent v
  childData : ∀ v, V v → ∀ x, translate s'.mem child v = some x → DataByte A (child :: tabs) s' x
  allows : ∀ v < 4294967296, Allows s.mem parent v mmuFlagWrite →
    Allows s'.mem child v mmuFlagWrite
  kern : procKernStackSize ≤ kernStack ∧ kernStack ≤ kernelOffset
  kernStack : ∀ x, kernStack - procKernStackSize ≤ x → x < kernStack →
    DataByte A (child :: tabs) s' x ∧ access s'.mem parent x mmuFlagWrite = some x

/-- A successful fork prepares the child, copies the entries, and sets the
child up to return. -/
theorem forkCloneMemory_run {s : Mmu H} {t : ForkThread} {ents : List MemMapEnt}
    {r : ForkMem H} (hnull : A.NeverNull) (hready : ForkReady A kernel tabs V parent s)
    (ht : t.Ok)
    (hV : ∀ v, t.stackUserBegin - t.stackUserSize ≤ v → v < t.stackUserBegin → V v)
    (h : forkCloneMemory A kernel strict parent t ents s = some r) (hret : r.ret = 0) :
    ∃ kernStack s₁ s₂, ForkPrepared A kernel tabs V parent r.child kernStack s s₁ ∧
      procCopyData A kernel strict r.child parent ents s₁ = some (0, r.ents, s₂) ∧
      archPostforkSetup A kernel r.child parent t kernStack s₂ = some r.mmu := by
  obtain ⟨⟨child, s₁⟩, hclone, hrest⟩ := Option.bind_eq_some_iff.mp h
  obtain ⟨s₂, hustack, hrest⟩ := Option.bind_eq_some_iff.mp hrest
  obtain ⟨⟨kernStack, s₃⟩, hkstack, hrest⟩ := Option.bind_eq_some_iff.mp hrest
  obtain ⟨s₄, hcstack, hrest⟩ := Option.bind_eq_some_iff.mp hrest
  obtain ⟨⟨ret, cents, s₅⟩, hcopy, hrest⟩ := Option.bind_eq_some_iff.mp hrest
  simp only at hrest
  split at hrest
  · obtain rfl := Option.some.inj hrest
    exact absurd hret (show (-EUNSPEC : Int) ≠ 0 by decide)
  · rename_i hzero
    obtain rfl : ret = 0 := not_not.mp hzero
    obtain ⟨s₆, hpost, hret'⟩ := Option.bind_eq_some_iff.mp hrest
    obtain rfl := Option.some.inj hret'
    refine ⟨kernStack, s₄, s₅, ?_, hcopy, hpost⟩
    have hcl := mmuCloneTable_fork hnull hready hclone
    have hchild : child ∈ child :: tabs := List.mem_cons_self
    have hparent : parent ∈ child :: tabs := List.mem_cons_of_mem _ hready.parentIn
    have hne : parent ≠ child := fun heq => hcl.childNew (heq ▸ hready.parentIn)
    have hstk := procCopyStack_spec ht hnull hparent hchild hV
      (procCreateStacks_spec ht hnull hcl.state hparent hchild hne hustack hkstack) hcstack
    have hdata : ∀ x, DataByte A tabs s x →
        DataByte A (child :: tabs) s₄ x ∧ s₄.mem.byte x = s.mem.byte x := fun x hx =>
      ⟨hstk.frame.grown.dataByte (hcl.data x hx).1,
        (hstk.kept x (hcl.data x hx).1).trans (hcl.data x hx).2⟩
    have hreads : ∀ v < 4294967296, translate s₄.mem parent v = translate s.mem parent v :=
      fun v hv => (hstk.frame.translate hparent hne hv).trans (hcl.reads v hv)
    refine ⟨hcl.childNew, hstk.state, hdata, hreads, fun v hv x hx => ?_, fun v hv hallows => ?_,
      hstk.kern, fun x hx hx' => ?_⟩
    · have hlt : v < 4294967296 := Nat.lt_trans (hready.user v hv).low (by decide)
      rcases hstk.answers v hlt with hsame | hfresh
      · rw [translate, hsame, hcl.equal v hlt, ← translate, hcl.reads v hlt] at hx
        exact (hdata x ((hready.user v hv).byte x hx).2).1
      · exact (hfresh.translate hx).2
    · rcases hstk.answers v hv with hsame | hfresh
      · obtain ⟨flags, frame, hget, hflag⟩ := hcl.allows v hv hallows
        exact ⟨flags, frame, (hsame.trans (hcl.equal v hv)).trans hget, hflag⟩
      · exact hfresh.allows
    · -- the parent's table maps the child's kernel stack too
      obtain ⟨hnew, hbyte⟩ := hstk.kernNew x hx hx'
      obtain ⟨hallows, htr⟩ := access_eq_some_iff.mp
        (hready.direct x fun hheld => hnew (hcl.keeps x hheld))
      have hlt : x < 4294967296 :=
        Nat.lt_of_lt_of_le hx' (Nat.le_trans hstk.kern.2 (by decide))
      obtain ⟨flags, frame, hget, hflag⟩ := hcl.allows x hlt hallows
      refine ⟨hbyte, access_eq_some_iff.mpr ⟨⟨flags, frame, ?_, hflag⟩, (hreads x hlt).trans htr⟩⟩
      rw [hstk.frame.others parent hparent hne x hlt, hget]

/-- An entry after the fork: each of its bytes reads in the child as it read
in the parent, from the block taken for the entry. -/
def ForkCopied (parent : Nat) (s : Mmu H) (r : ForkMem H) (e : MemMapEnt) (c : CopiedEnt) :
    Prop :=
  ∀ k < e.length, ∃ pa ca, translate s.mem parent (e.virtAddress + k) = some pa ∧
    translate r.mmu.mem r.child (e.virtAddress + k) = some ca ∧
    r.mmu.mem.byte ca = s.mem.byte pa ∧ c.InBlock e ca ∧ ca ≠ pa

/-- The entry has the byte at `v`. -/
def MemMapEnt.Has (e : MemMapEnt) (v : Nat) : Prop :=
  e.virtAddress ≤ v ∧ v < e.virtAddress + e.length

/-- Entries that share a page share a byte. -/
def SharedOverlap (ents : List MemMapEnt) : Prop :=
  ents.Pairwise fun e e' => (∃ v, e.OnPage v ∧ e'.OnPage v) → ∃ v, e.Has v ∧ e'.Has v

/-- No byte is in two entries. -/
def NoSharedByte (ents : List MemMapEnt) : Prop :=
  ents.Pairwise fun e e' => ∀ v, ¬ (e.Has v ∧ e'.Has v)

/-- Where an argument of the system call is on a page of an entry but not in
it, no other entry has a byte at that place of a page. -/
def ArgsClear (t : ForkThread) (ents : List MemMapEnt) : Prop :=
  ∀ j < 4, ∀ e ∈ ents, e.OnPage (t.ebx + j) → ¬ e.Has (t.ebx + j) →
    ∀ e' ∈ ents, e' ≠ e → ∀ k < e'.length, (e'.virtAddress + k) % 4096 ≠ (t.ebx + j) % 4096

/-- The arguments that are in an entry are `0`. -/
def ArgsZero (parent : Nat) (s : Mmu H) (t : ForkThread) (ents : List MemMapEnt) : Prop :=
  ∀ j < 4, ∀ e ∈ ents, e.Has (t.ebx + j) → ∀ pa, translate s.mem parent (t.ebx + j) = some pa →
    s.mem.byte pa = 0

section Run

variable {s s₁ s₂ : Mmu H} {t : ForkThread} {ents : List MemMapEnt} {r : ForkMem H}
  {kernStack : Nat}

/-- What the loop over the entries and the writes behind it do, for entries
below the kernel: `h` is the heap when the first block is taken. -/
structure ForkRun (A : PageHeap H) (kernel : Nat) (tabs : List Nat) (t : ForkThread)
    (ents : List MemMapEnt) (r : ForkMem H) (s₁ : Mmu H) (h : H) (s₂ : Mmu H) : Prop where
  keeps : ∀ x, A.held s₁.heap x → A.held h x
  out : ∀ v < 4294967296, (∀ e ∈ ents, ¬ e.MapsPage v) →
    mmuMapGetTable s₂.mem r.child v = mmuMapGetTable s₁.mem r.child v
  fresh : ∀ i (hi : i < ents.length) (hi' : i < r.ents.length) x,
    r.ents[i].InBlock ents[i] x → ¬ A.held h x
  apart : CopiesApart ents r.ents
  unmoved : Unmoved A kernel (r.child :: tabs) s₂ r.mmu
  written : ∀ x, DataByte A (r.child :: tabs) s₂ x → ¬ A.held s₁.heap x →
    ((∀ j < 4, translate s₂.mem r.child (t.ebx + j) ≠ some x) →
      r.mmu.mem.byte x = s₂.mem.byte x) ∧
    ((∀ j < 4, Allows s₂.mem r.child (t.ebx + j) mmuFlagWrite) →
      ∀ j < 4, translate s₂.mem r.child (t.ebx + j) = some x → r.mmu.mem.byte x = 0)

theorem ForkPrepared.run (hnull : A.NeverNull) (hparent : parent ∈ tabs)
    (hp : ForkPrepared A kernel tabs V parent r.child kernStack s s₁)
    (hlow : ∀ e ∈ ents, e.Low) (hV : EntsIn V ents) (hargs : ∀ j < 4, V (t.ebx + j))
    (hcopy : procCopyData A kernel strict r.child parent ents s₁ = some (0, r.ents, s₂))
    (hpost : archPostforkSetup A kernel r.child parent t kernStack s₂ = some r.mmu) :
    ∃ h, ForkRun A kernel tabs t ents r s₁ h s₂ ∧
      ForkState A kernel (r.child :: tabs) V parent r.child ⟨s₁.mem, h⟩ ∧
      Grown A (r.child :: tabs) s₁ ⟨s₁.mem, h⟩ ∧
      copyEntries A kernel strict r.child parent ents ⟨s₁.mem, h⟩ = some (0, r.ents, s₂) := by
  have hchild : r.child ∈ r.child :: tabs := List.mem_cons_self
  have hparent' : parent ∈ r.child :: tabs := List.mem_cons_of_mem _ hparent
  have hne : parent ≠ r.child := fun heq => hp.childNew (heq ▸ hparent)
  obtain ⟨⟨mem, h⟩, hst, hgrown, rfl, hrun⟩ := procCopyData_run hp.state hcopy
  obtain ⟨hst₂, hfr, hout, hfresh, hapart⟩ :=
    copyEntries_low hnull hst hparent' hchild hne hlow hV hrun
  have hebx : t.ebx + 4 ≤ kernelOffset := hst.low _ (hargs 3 (by decide))
  obtain ⟨hun, hwritten⟩ := archPostforkSetup_spec hnull hst₂.tables hparent' hchild hebx
    (hst₂.childData.touches hargs hebx) hp.kern (fun x hx hx' => by
      obtain ⟨hbyte, haccess⟩ := hp.kernStack x hx hx'
      refine ⟨hfr.grown.dataByte (hgrown.dataByte hbyte), ?_⟩
      have hlt : x < 4294967296 := Nat.lt_of_lt_of_le hx' (Nat.le_trans hp.kern.2 (by decide))
      rw [access, hfr.others parent hparent' hne x hlt]
      exact haccess) hpost
  refine ⟨h, ⟨hgrown.keeps, hout, fun i hi hi' => hfresh.get hi hi', hapart, hun,
    fun x hx hnew => hwritten x hx fun hin => hnew (hp.kernStack x hin.1 hin.2).1.1⟩,
    hst, hgrown, hrun⟩

/-- The bytes of the entries when they fit: those of the parent, but `0` where
the arguments of the system call are. -/
theorem ForkPrepared.bytes (hnull : A.NeverNull) (hparent : parent ∈ tabs)
    (hp : ForkPrepared A kernel tabs V parent r.child kernStack s s₁)
    (huser : ∀ v, V v → UserByte A tabs parent s v)
    (hents : ∀ e ∈ ents, e.Fits) (hshare : NoSharedPage ents) (hV : EntsIn V ents)
    (hargs : ∀ j < 4, V (t.ebx + j))
    (hallow : ∀ j < 4, Allows s.mem parent (t.ebx + j) mmuFlagWrite)
    (hclear : ArgsClear t ents)
    (hcopy : procCopyData A kernel strict r.child parent ents s₁ = some (0, r.ents, s₂))
    (hpost : archPostforkSetup A kernel r.child parent t kernStack s₂ = some r.mmu) :
    ents.length = r.ents.length ∧
      ∀ i (hi : i < ents.length) (hi' : i < r.ents.length), ∀ k < ents[i].length, ∃ pa ca,
        translate s.mem parent (ents[i].virtAddress + k) = some pa ∧
        translate r.mmu.mem r.child (ents[i].virtAddress + k) = some ca ∧
        r.ents[i].InBlock ents[i] ca ∧ ca ≠ pa ∧
        r.mmu.mem.byte ca = if t.ebx ≤ ents[i].virtAddress + k ∧
          ents[i].virtAddress + k < t.ebx + 4 then 0 else s.mem.byte pa := by
  have hchild : r.child ∈ r.child :: tabs := List.mem_cons_self
  have hparent' : parent ∈ r.child :: tabs := List.mem_cons_of_mem _ hparent
  have hne : parent ≠ r.child := fun heq => hp.childNew (heq ▸ hparent)
  obtain ⟨h, hr, hst, hgrown, hrun⟩ := hp.run hnull hparent (fun e he => (hents e he).low) hV hargs
    hcopy hpost
  have hV32 : ∀ v, V v → v < 4294967296 := fun v hv => Nat.lt_trans (huser v hv).low (by decide)
  have hsrc : ∀ e ∈ ents, SourceHeld A (r.child :: tabs) parent ⟨s₁.mem, h⟩ e := by
    intro e he k hk pa hpa
    have hv := hV e he k hk
    rw [hp.reads _ (hV32 _ hv)] at hpa
    exact hgrown.dataByte (hp.data pa ((huser _ hv).byte pa hpa).2).1
  obtain ⟨-, hall⟩ := copyEntries_fits hnull hst hparent' hchild hne hents hV hsrc hshare hrun
  -- the arguments can be written in the child
  have hallow' : ∀ j < 4, Allows s₂.mem r.child (t.ebx + j) mmuFlagWrite := by
    intro j hj
    have hv := hV32 _ (hargs j hj)
    by_cases hmap : ∃ e ∈ ents, e.MapsPage (t.ebx + j)
    · obtain ⟨e, he, hmaps⟩ := hmap
      obtain ⟨i, hi, rfl⟩ := List.getElem_of_mem he
      exact (access_eq_some_iff.mp
        ((hall.get hi (hall.length_eq ▸ hi)).placed _ hv hmaps)).1
    · obtain ⟨flags, frame, hget, hflag⟩ := hp.allows _ hv (hallow j hj)
      exact ⟨flags, frame, (hr.out _ hv fun e he hm => hmap ⟨e, he, hm⟩).trans hget, hflag⟩
  refine ⟨hall.length_eq, fun i hi hi' k hk => ?_⟩
  have hmem := List.getElem_mem hi
  have hfit := hents _ hmem
  have hcopied := hall.get hi hi'
  simp only [List.get_eq_getElem] at hcopied
  have hb := hV _ hmem k hk
  have hlt := hV32 _ hb
  obtain ⟨pa, ca, hpa, hca, hbyte, hin, hdata⟩ := hcopied.bytes k hk
  have hnew := hr.fresh i hi hi' ca hin
  dsimp only at hpa hbyte
  rw [hp.reads _ hlt] at hpa
  obtain ⟨hpadata, hpabyte⟩ := hp.data pa ((huser _ hb).byte pa hpa).2
  have hwritten := hr.written ca hdata fun hheld => hnew (hr.keeps ca hheld)
  refine ⟨pa, ca, hpa, (hr.unmoved.translate hchild hlt).trans hca, hin,
    fun heq => hnew (heq ▸ hr.keeps pa hpadata.1), ?_⟩
  split
  · rename_i harg
    obtain ⟨j, hj⟩ := Nat.exists_eq_add_of_le harg.1
    refine hwritten.2 hallow' j (by omega) ?_
    rw [← hj]
    exact hca
  · rename_i harg
    rw [hwritten.1 ?_, hbyte, hpabyte]
    -- no argument is stored to the byte
    intro j hj hread
    have ha := hV32 _ (hargs j hj)
    have hne : t.ebx + j ≠ ents[i].virtAddress + k := fun heq => harg (by omega)
    by_cases hmap : ∃ e ∈ ents, e.MapsPage (t.ebx + j)
    · obtain ⟨e, he, hmaps⟩ := hmap
      obtain ⟨i', hj', rfl⟩ := List.getElem_of_mem he
      have hother := hall.get hj' (hall.length_eq ▸ hj')
      simp only [List.get_eq_getElem] at hother
      by_cases hii : i' = i
      · -- the page is the entry's own
        subst hii
        have hown := hfit.pages.mapsPage hfit.low hlt ⟨k, hk, rfl⟩
        have h₁ := (access_eq_some_iff.mp (hcopied.placed _ hlt hown)).2
        have h₂ := (access_eq_some_iff.mp (hcopied.placed _ ha hmaps)).2
        rw [hca] at h₁
        rw [hread] at h₂
        have heq := Option.some.inj (h₁.symm.trans h₂)
        have hle₁ := Nat.le_trans hown.1 Nat.and_le_left
        have hle₂ := Nat.le_trans hmaps.1 Nat.and_le_left
        omega
      · by_cases hhas : ents[i'].Has (t.ebx + j)
        · -- another entry has the argument, in a block of its own
          obtain ⟨k', hk'⟩ := Nat.exists_eq_add_of_le hhas.1
          have hlt' := hhas.2
          obtain ⟨-, ca', -, hca', -, hin', -⟩ := hother.bytes k' (by omega)
          rw [← hk', hread] at hca'
          obtain rfl := Option.some.inj hca'
          exact hr.apart.get hj' (hall.length_eq ▸ hj') hi hi' hii hin' hin
        · have hon := (hents _ he).low.onPage ha hmaps
          have hdiff : ents[i] ≠ ents[i'] := by
            intro heq
            rcases Nat.lt_or_gt_of_ne hii with hlt | hlt
            · exact List.pairwise_iff_getElem.mp hshare i' i hj' hi hlt _
                ⟨heq ▸ ⟨k, hk, rfl⟩, ⟨k, hk, rfl⟩⟩
            · exact List.pairwise_iff_getElem.mp hshare i i' hi hj' hlt _
                ⟨⟨k, hk, rfl⟩, heq ▸ ⟨k, hk, rfl⟩⟩
          exact hclear j hj _ he hon hhas _ hmem hdiff k hk
            ((translate_offset hca).symm.trans (translate_offset hread))
    · -- the page was the child's before the entries were copied
      rw [translate, hr.out _ ha fun e he hm => hmap ⟨e, he, hm⟩, ← translate] at hread
      exact hnew (hr.keeps ca (hp.childData _ (hargs j hj) ca hread).1)

/-- Two entries have their copies in blocks that are apart, so they have no
common byte. -/
theorem ForkRun.noSharedByte {h : H} (hr : ForkRun A kernel tabs t ents r s₁ h s₂)
    (hall : List.Forall₂ (ForkCopied parent s r) ents r.ents) : NoSharedByte ents := by
  refine List.pairwise_iff_getElem.mpr fun i j hi hj hij v hv => ?_
  have hlen := hall.length_eq
  obtain ⟨⟨hge, hlt⟩, hge', hlt'⟩ := hv
  obtain ⟨k, rfl⟩ := Nat.exists_eq_add_of_le hge
  obtain ⟨l, hl⟩ := Nat.exists_eq_add_of_le hge'
  obtain ⟨-, ca, -, hca, -, hin, -⟩ := hall.get hi (hlen ▸ hi) k (by
    simp only [List.get_eq_getElem]
    omega)
  obtain ⟨-, ca', -, hca', -, hin', -⟩ := hall.get hj (hlen ▸ hj) l (by
    simp only [List.get_eq_getElem]
    omega)
  simp only [List.get_eq_getElem] at hca hca' hin hin'
  rw [← hl, hca] at hca'
  obtain rfl := Option.some.inj hca'
  exact hr.apart.get hi (hlen ▸ hi) hj (hlen ▸ hj) (Nat.ne_of_lt hij) hin hin'

/-- The last byte of an entry that does not fill its pages is on a page that
is not mapped for it: the child finds it in memory that was in use. -/
theorem ForkRun.wholePages {h : H} (hr : ForkRun A kernel tabs t ents r s₁ h s₂)
    (hp : ForkPrepared A kernel tabs V parent r.child kernStack s s₁)
    (hlow : ∀ e ∈ ents, e.Low) (hshare : NoSharedPage ents) (hV : EntsIn V ents)
    (hall : List.Forall₂ (ForkCopied parent s r) ents r.ents) : ∀ e ∈ ents, e.WholePages := by
  intro e he hpos
  by_contra hcon
  obtain ⟨i, hi, rfl⟩ := List.getElem_of_mem he
  have hlast : ents[i].length - 1 < ents[i].length := by omega
  have hlt := (hlow _ he).lt (Nat.le_of_lt hlast)
  -- no entry maps that page: not this one, and no other uses it
  have hunmapped : ∀ e' ∈ ents,
      ¬ e'.MapsPage (ents[i].virtAddress + (ents[i].length - 1)) := by
    intro e' he' hmaps
    have hon := (hlow e' he').onPage hlt hmaps
    obtain ⟨j, hj, rfl⟩ := List.getElem_of_mem he'
    rcases Nat.lt_trichotomy i j with hij | rfl | hij
    · exact List.pairwise_iff_getElem.mp hshare i j hi hj hij _ ⟨⟨_, hlast, rfl⟩, hon⟩
    · have hvirt : ents[i].virtAddress < 4294967296 := (hlow _ he).lt (Nat.zero_le _)
      simp only [MemMapEnt.MapsPage, pageMask_eq hlt, pageMask_eq hvirt] at hmaps
      omega
    · exact List.pairwise_iff_getElem.mp hshare j i hj hi hij _ ⟨hon, ⟨_, hlast, rfl⟩⟩
  have hi' : i < r.ents.length := hall.length_eq ▸ hi
  obtain ⟨pa, ca, -, hca, -, hin, -⟩ := hall.get hi hi' _ hlast
  simp only [List.get_eq_getElem] at hca hin
  rw [hr.unmoved.translate List.mem_cons_self hlt, translate, hr.out _ hlt hunmapped,
    ← translate] at hca
  exact hr.fresh i hi hi' ca hin (hr.keeps ca (hp.childData _ (hV _ he _ hlast) ca hca).1)

end Run

/-- **What a fork copies.** For a parent whose entries have the same place in
their virtual and physical pages, a successful fork gives the child its own
equal copy of every entry exactly when no two entries share a byte, no entry is
on more pages than its length fills, and the arguments of the system call that
lie in an entry are `0` already. (Entries that share a page without sharing a
byte, and arguments beside an entry at the place of another's byte, are left
out: there it depends on where the blocks are.) -/
theorem fork_copies_entries_iff {s : Mmu H} {t : ForkThread} {ents : List MemMapEnt}
    {r : ForkMem H} (hnull : A.NeverNull)
    (hready : ForkReady A kernel tabs (ForkAddr t ents) parent s) (ht : t.Ok)
    (hlow : ∀ e ∈ ents, e.Low)
    (hoffset : ∀ e ∈ ents, e.virtAddress % 4096 = e.physAddress % 4096)
    (hshare : SharedOverlap ents)
    (hargs : ∀ j < 4, Allows s.mem parent (t.ebx + j) mmuFlagWrite) (hclear : ArgsClear t ents)
    (h : forkCloneMemory A kernel strict parent t ents s = some r) (hret : r.ret = 0) :
    List.Forall₂ (ForkCopied parent s r) ents r.ents ↔
      NoSharedByte ents ∧ (∀ e ∈ ents, e.WholePages) ∧ ArgsZero parent s t ents := by
  have hstack : ∀ v, t.stackUserBegin - t.stackUserSize ≤ v → v < t.stackUserBegin →
      ForkAddr t ents v := fun v hge hlt => .inr (.inl ⟨hge, hlt⟩)
  have hV : EntsIn (ForkAddr t ents) ents := fun e he k hk => .inl ⟨e, he, k, hk, rfl⟩
  have hV' : ∀ j < 4, ForkAddr t ents (t.ebx + j) := fun j hj => .inr (.inr ⟨j, hj, rfl⟩)
  have hpages : NoSharedByte ents → NoSharedPage ents := fun hbyte =>
    (hshare.and hbyte).imp fun hboth v hv =>
      let ⟨w, hw⟩ := hboth.1 ⟨v, hv⟩
      hboth.2 w hw
  obtain ⟨kernStack, s₁, s₂, hp, hcopy, hpost⟩ :=
    forkCloneMemory_run hnull hready ht hstack h hret
  constructor
  · intro hall
    obtain ⟨_, hr, -⟩ := hp.run hnull hready.parentIn hlow hV hV' hcopy hpost
    have hbyte := hr.noSharedByte hall
    have hwhole := hr.wholePages hp hlow (hpages hbyte) hV hall
    refine ⟨hbyte, hwhole, fun j hj e he hhas pa hpa => ?_⟩
    obtain ⟨hlen, hbytes⟩ := hp.bytes hnull hready.parentIn hready.user
      (fun e he => ⟨hlow e he, hoffset e he, hwhole e he⟩) (hpages hbyte) hV hV' hargs hclear
      hcopy hpost
    obtain ⟨i, hi, rfl⟩ := List.getElem_of_mem he
    obtain ⟨k, hk⟩ := Nat.exists_eq_add_of_le hhas.1
    have hlt := hhas.2
    obtain ⟨pa', ca, hpa', hca, -, -, hzero⟩ := hbytes i hi (hlen ▸ hi) k (by omega)
    obtain ⟨pa'', ca', hpa'', hca', heq, -⟩ := hall.get hi (hlen ▸ hi) k (by
      simp only [List.get_eq_getElem]
      omega)
    simp only [List.get_eq_getElem] at hpa'' hca'
    obtain rfl := Option.some.inj (hca.symm.trans hca')
    rw [hk, hpa''] at hpa
    obtain rfl := Option.some.inj hpa
    rw [← heq, hzero, if_pos ⟨by omega, by omega⟩]
  · rintro ⟨hbyte, hwhole, hzero⟩
    obtain ⟨hlen, hbytes⟩ := hp.bytes hnull hready.parentIn hready.user
      (fun e he => ⟨hlow e he, hoffset e he, hwhole e he⟩) (hpages hbyte) hV hV' hargs hclear
      hcopy hpost
    refine List.forall₂_iff_get.mpr ⟨hlen, fun i hi hi' k hk => ?_⟩
    have hk' : k < ents[i].length := hk
    obtain ⟨pa, ca, hpa, hca, hin, hne, hval⟩ := hbytes i hi hi' k hk
    refine ⟨pa, ca, hpa, hca, ?_, hin, hne⟩
    rw [hval]
    split
    · rename_i harg
      obtain ⟨j, hj⟩ := Nat.exists_eq_add_of_le harg.1
      refine (hzero j (by omega) _ (List.getElem_mem hi) ⟨by omega, by omega⟩ pa ?_).symm
      rw [← hj]
      exact hpa
    · rfl

end Whole

end Spec

/-! ## On the boot heap -/

/-- Empty tables, and data in the pages below the heap. -/
def filledBoot : Mmu { t : Table // TableOk 0x400000 0x410000 t } :=
  { bootMmu with mem := fun page i =>
      if 0x300000 ≤ page then page + 0x01020304 * (i + 1) else bootMmu.mem page i }

/-- The parent's mappings: the heap at its own address, two pages of data, and
the stack. -/
def parentOps : List MmuOp :=
  [.map 0x400000 0x400000 0x10000 cloneFlags,
    .map 0x8000000 0x300000 0x2000 (mmuFlagRead ||| mmuFlagWrite),
    .map 0x7F000000 0x310000 0x1000 (mmuFlagRead ||| mmuFlagWrite)]

/-- A parent with its table at `0x1000`, beside the kernel's at `0x2000`. -/
def parentMmu : Mmu { t : Table // TableOk 0x400000 0x410000 t } :=
  (exec (mmuStep bootPages 0x2000 0x1000) filledBoot parentOps).getD filledBoot

/-- A small stack, with the arguments of the call on it. -/
def parentThread : ForkThread := ⟨0x10, 0x7F000010, 0x10, true, fun i => i, 0x7F000004⟩

theorem parentThread_ok : parentThread.Ok := by
  constructor <;> simp [parentThread, kernelOffset]

theorem filledBoot_same : ∀ p, TablePage [0x1000, 0x2000] bootMmu.mem p →
    filledBoot.mem p = bootMmu.mem p := by
  have habs : ∀ T i, ¬ Present (bootMmu.mem T i) := by simp [bootMmu, zeroPages, Present]
  rintro p (hp | ⟨T, -, i, -, hpres, -⟩)
  · funext i
    refine if_neg ?_
    simp only [List.mem_cons, List.not_mem_nil, or_false] at hp
    omega
  · exact absurd hpres (habs T i)

/-- Mappings change page tables only. -/
theorem mmuRun_grown {H : Type} {A : PageHeap H} {kernel T : Nat} {tabs : List Nat}
    {s s' : Mmu H} {ops : List MmuOp} (hnull : A.NeverNull) (ht : Tables A kernel tabs s)
    (hT : T ∈ tabs) (hops : ∀ op ∈ ops, op.Valid ∧ ∃ virt phys size flags,
      op = .map virt phys size flags)
    (hrun : exec (mmuStep A kernel T) s ops = some s') : OnlyTables A tabs s s' := by
  induction ops generalizing s with
  | nil =>
    obtain rfl := Option.some.inj hrun
    exact ⟨Grown.refl s, fun _ _ => rfl⟩
  | cons op ops ih =>
    obtain ⟨s₁, hstep, hrest⟩ := exec_cons_eq_some.mp hrun
    obtain ⟨hvalid, virt, phys, size, flags, rfl⟩ := hops op List.mem_cons_self
    have ht₁ := (mmuStep_get hnull ht hT hvalid hstep).1
    obtain ⟨hal, -, hlow⟩ := hvalid
    have hmask : pageMask virt = virt := pageMask_of_aligned
      (Nat.lt_of_le_of_lt (Nat.le_trans (Nat.le_add_right ..) hlow) (by decide)) hal
    exact (mapRange_grown ht hnull hT (by rw [hmask]; exact hlow) hstep).trans
      (ih ht₁ (fun o ho => hops o (List.mem_cons_of_mem _ ho)) hrest)

set_option maxRecDepth 100000 in
theorem parentMmu_spec : Tables bootPages 0x2000 [0x1000, 0x2000] parentMmu ∧
    OnlyTables bootPages [0x1000, 0x2000] filledBoot parentMmu ∧
    ∀ v < kernelOffset, mmuMapGetTable parentMmu.mem 0x1000 v =
      lastWrite (MmuOp.Covers v) (MmuOp.answer v) parentOps (.error (-EUNSPEC)) := by
  have hsome : (exec (mmuStep bootPages 0x2000 0x1000) filledBoot parentOps).isSome = true := by
    decide +kernel
  obtain ⟨s', hrun⟩ := Option.isSome_iff_exists.mp hsome
  have heq : parentMmu = s' := by rw [parentMmu, hrun, Option.getD_some]
  have hnull : bootPages.NeverNull := PageHeap.served_neverNull _
  have hboot : Tables bootPages 0x2000 [0x1000, 0x2000] filledBoot :=
    (bootMmu_tables 0x2000 (by simp)).congr filledBoot_same
  have hvalid : ∀ op ∈ parentOps, op.Valid := by
    simp [parentOps, MmuOp.Valid, MmuOp.virt, MmuOp.size, kernelOffset]
  obtain ⟨ht, hget⟩ := mmuRun_get hnull hboot (by simp) hvalid hrun
  have honly := mmuRun_grown hnull hboot (by simp)
    (fun op hop => ⟨hvalid op hop, by
      simp only [parentOps, List.mem_cons, List.not_mem_nil, or_false] at hop
      rcases hop with rfl | rfl | rfl <;> exact ⟨_, _, _, _, rfl⟩⟩) hrun
  rw [heq]
  refine ⟨ht, honly, fun v hv => ?_⟩
  rw [hget v hv, mmuMapGetTable_congr filledBoot_same (by simp) (Nat.lt_trans hv (by decide)),
    bootMmu_empty]

/-- The pages below the heap hold data. -/
theorem parentMmu_data {x : Nat} (hlo : 0x300000 ≤ x) (hhi : x < 0x400000) :
    DataByte bootPages [0x1000, 0x2000] parentMmu x := by
  have hheld : bootPages.held filledBoot.heap x := ByteHeld.outside filledBoot.heap.2 (.inl hhi)
  refine parentMmu_spec.2.1.toGrown.dataByte ⟨hheld, ?_⟩
  have habs : ∀ T i, ¬ Present (bootMmu.mem T i) := by simp [bootMmu, zeroPages, Present]
  rw [TablePage.congr filledBoot_same]
  rintro (hp | ⟨T, -, i, -, hpres, -⟩)
  · simp only [List.mem_cons, List.not_mem_nil, or_false, pageBase] at hp
    omega
  · exact habs T i hpres

theorem parentMmu_user {v : Nat} (h : 0x8000000 ≤ v ∧ v < 0x8002000 ∨
    0x7F000000 ≤ v ∧ v < 0x7F001000) :
    UserByte bootPages [0x1000, 0x2000] 0x1000 parentMmu v ∧
      Allows parentMmu.mem 0x1000 v mmuFlagWrite := by
  have hK : kernelOffset = 3221225472 := rfl
  have hmask := pageMask_eq (show v < 4294967296 by omega)
  have hmasks : pageMask 0x300000 = 0x300000 ∧ pageMask 0x310000 = 0x310000 := by decide
  obtain ⟨frame, hget, hlo, hhi⟩ : ∃ frame, mmuMapGetTable parentMmu.mem 0x1000 v =
      .ok (mmuFlagRead ||| mmuFlagWrite, frame) ∧ 0x300000 ≤ frame ∧ frame < 0x3F0000 := by
    rw [parentMmu_spec.2.2 v (by omega)]
    simp only [parentOps, lastWrite_cons, lastWrite_nil, MmuOp.Covers, MmuOp.virt, MmuOp.size,
      MmuOp.answer, hmasks]
    rcases h with h | h
    · rw [if_neg (by omega), if_pos (by omega)]
      exact ⟨_, rfl, by rw [u32_of_lt (by omega)]; omega, by rw [u32_of_lt (by omega)]; omega⟩
    · rw [if_pos (by omega)]
      exact ⟨_, rfl, by rw [u32_of_lt (by omega)]; omega, by rw [u32_of_lt (by omega)]; omega⟩
  refine ⟨⟨by omega, fun pa hpa => ?_⟩, _, _, hget, by decide⟩
  rw [translate, hget] at hpa
  obtain rfl := Option.some.inj hpa
  exact ⟨by omega, parentMmu_data (by omega) (by omega)⟩

/-- The heap is mapped to itself. -/
theorem parentMmu_direct {x : Nat} (hlo : 0x400000 ≤ x) (hhi : x < 0x410000) :
    access parentMmu.mem 0x1000 x mmuFlagWrite = some x := by
  have hK : kernelOffset = 3221225472 := rfl
  have hmask := pageMask_eq (show x < 4294967296 by omega)
  have hmasks : pageMask 0x400000 = 0x400000 := by decide
  have hget : mmuMapGetTable parentMmu.mem 0x1000 x = .ok (cloneFlags, pageMask x) := by
    have hcov : ∀ virt phys size flags, (MmuOp.map virt phys size flags).Covers x ↔
        virt ≤ pageMask x ∧ pageMask x < virt + size := fun _ _ _ _ => Iff.rfl
    rw [parentMmu_spec.2.2 x (by omega), parentOps, lastWrite_cons, lastWrite_cons, lastWrite_cons,
      lastWrite_nil, if_neg ((hcov ..).not.mpr (by omega)), if_neg ((hcov ..).not.mpr (by omega)),
      if_pos ((hcov ..).mpr (by omega)), MmuOp.answer, hmasks, u32_of_lt (by omega)]
    exact congrArg (fun p => Except.ok (cloneFlags, p)) (by omega)
  exact access_self (by omega) hget (by decide)

theorem parentMmu_ready {V : Nat → Prop}
    (hV : ∀ v, V v → 0x8000000 ≤ v ∧ v < 0x8002000 ∨ 0x7F000000 ≤ v ∧ v < 0x7F001000) :
    ForkReady bootPages 0x2000 [0x1000, 0x2000] V 0x1000 parentMmu := by
  refine ⟨parentMmu_spec.1, by simp, by simp, fun x hx => ByteHeld.outside parentMmu.heap.2 ?_,
    fun x hx => ?_, fun v hv => (parentMmu_user (hV v hv)).1⟩
  · simp only [kernelOffset] at hx
    omega
  · by_cases hin : 0x400000 ≤ x ∧ x < 0x410000
    · exact parentMmu_direct hin.1 hin.2
    · exact absurd (ByteHeld.outside parentMmu.heap.2 (by omega)) hx

/-- Two entries, on pages of their own. -/
def apartEnts : List MemMapEnt := [⟨0x8000010, 0x300010, 0x20⟩, ⟨0x8001024, 0x301024, 0x10⟩]

theorem parentThread_args : ∀ j < 4, Allows parentMmu.mem 0x1000 (parentThread.ebx + j)
    mmuFlagWrite := by
  intro j hj
  refine (parentMmu_user (.inr ?_)).2
  simp only [parentThread]
  omega

set_option maxRecDepth 100000 in
theorem fork_copies_entries_iff_boot :
    ∃ r, forkCloneMemory bootPages 0x2000 true 0x1000 parentThread apartEnts parentMmu
        = some r ∧ r.ret = 0 ∧
      List.Forall₂ (ForkCopied 0x1000 parentMmu r) apartEnts r.ents := by
  have hsome : ((forkCloneMemory bootPages 0x2000 true 0x1000 parentThread apartEnts
      parentMmu).any fun r => r.ret = 0) = true := by
    decide +kernel
  obtain ⟨r, hfork, hret⟩ := (Option.any_eq_true _ _).mp hsome
  have hret := of_decide_eq_true hret
  have hpages : ∀ e ∈ apartEnts, 0x8000000 ≤ e.virtAddress ∧
      e.virtAddress + e.length ≤ 0x8002000 := by
    simp [apartEnts]
  have harg : ∀ j < 4, ∀ e ∈ apartEnts, ¬ e.OnPage (parentThread.ebx + j) := by
    rintro j hj e he ⟨k, hk, hpage⟩
    have := hpages e he
    simp only [parentThread] at hpage
    omega
  refine ⟨r, hfork, hret, (fork_copies_entries_iff (PageHeap.served_neverNull _)
    (parentMmu_ready ?_) parentThread_ok ?_ ?_ ?_ parentThread_args ?_ hfork hret).mpr
      ⟨?_, ?_, ?_⟩⟩
  · rintro v (⟨e, he, k, hk, rfl⟩ | ⟨hge, hlt⟩ | ⟨j, hj, rfl⟩)
    · have := hpages e he
      exact .inl ⟨by omega, by omega⟩
    · simp only [parentThread] at hge hlt
      exact .inr ⟨by omega, by omega⟩
    · simp only [parentThread]
      exact .inr ⟨by omega, by omega⟩
  · simp [apartEnts, MemMapEnt.Low, kernelOffset]
  · simp [apartEnts]
  · simp only [SharedOverlap, apartEnts, List.pairwise_cons, List.mem_singleton, forall_eq]
    refine ⟨?_, by simp⟩
    rintro ⟨v, ⟨k, hk, hpage⟩, l, hl, hpage'⟩
    dsimp only at hk hpage hl hpage'
    omega
  · exact fun j hj e he hon => absurd hon (harg j hj e he)
  · simp only [NoSharedByte, apartEnts, List.pairwise_cons, List.mem_singleton, forall_eq]
    refine ⟨?_, by simp⟩
    rintro v ⟨⟨-, hlt⟩, hge, -⟩
    dsimp only at hlt hge
    omega
  · simp [apartEnts, MemMapEnt.WholePages]
  · intro j hj e he hhas
    exact absurd ⟨parentThread.ebx + j - e.virtAddress, by have := hhas.1; have := hhas.2; omega,
      by rw [Nat.add_sub_cancel' hhas.1]⟩ (harg j hj e he)

/-- Less than a page, but on two. -/
def crossingEnt : MemMapEnt := ⟨0x8000FF8, 0x300FF8, 0x10⟩

set_option maxRecDepth 100000 in
/-- Only the first page of the entry gets a new frame: for the rest the child
keeps the parent's. -/
theorem fork_shares_second_page :
    ¬ ∀ (ents : List MemMapEnt) (r : ForkMem { t : Table // TableOk 0x400000 0x410000 t }),
      forkCloneMemory bootPages 0x2000 true 0x1000 parentThread ents parentMmu = some r →
      r.ret = 0 → List.Forall₂ (ForkCopied 0x1000 parentMmu r) ents r.ents := by
  intro hall
  have hsome : ((forkCloneMemory bootPages 0x2000 true 0x1000 parentThread [crossingEnt]
      parentMmu).any fun r => r.ret = 0 ∧ translate r.mmu.mem r.child 0x8001000 =
        translate parentMmu.mem 0x1000 0x8001000) = true := by
    decide +kernel
  obtain ⟨r, hfork, hr⟩ := (Option.any_eq_true _ _).mp hsome
  obtain ⟨hret, hsame⟩ := of_decide_eq_true hr
  have hents := hall _ r hfork hret
  obtain ⟨c, cs, hcopied, -, -⟩ := List.forall₂_cons_left_iff.mp hents
  obtain ⟨pa, ca, hpa, hca, -, -, hne⟩ := hcopied 8 (by decide)
  exact hne (Option.some.inj (hca.symm.trans (hsame.trans hpa)))

end LambdaOs
