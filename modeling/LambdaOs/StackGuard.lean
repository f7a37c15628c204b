import LambdaOs.ThreadStack

/-!
# The guards of a user stack

With `CONFIG_PROC_STACK_GUARD`, `arch_proc_create_stack` calls `map_page` for
the page of `stack_user.begin` and for the page in front of the stack, with
frame 0 and no flags. `map_page` acts on the table in `cr3`, not on the table
of the process, and whatever it maps is present. So the guards of the current
process can be read, and those of any other process are put into a table that
is not its own: `stack_guarded_iff` says what has to be so already for the
guards to do no harm.

The stack and its guards are taken to be user addresses (`UserSlot`), unless
the process is the current one.
-/

namespace LambdaOs

/-! ## What is asked of the guards -/

/-- The lowest address of a stack. -/
def UserStack.base (stack : UserStack) : Nat := wordOf ((stack.begin : Int) - stack.size)

/-- The page just above a stack: the one behind the page of its last byte. -/
def UserStack.pageAbove (stack : UserStack) : Nat :=
  u32 (pageMask (wordOf ((stack.begin : Int) - 1)) + 0x1000)

/-- The page just below. -/
def UserStack.pageBelow (stack : UserStack) : Nat :=
  wordOf ((pageMask stack.base : Int) - 0x1000)

/-- The stack can be used, the pages next to it are not present, and the
other tables are as they were. `T` is the table of the process. -/
structure StackGuarded (tabs : List Nat) (T : Nat) (stack : UserStack) (m m' : PageMem) :
    Prop where
  present : ∀ v < 4294967296, stack.OnPage v → Present (pgdirGetPageEntry m' T v)
  above : ¬ Present (pgdirGetPageEntry m' T stack.pageAbove)
  below : ¬ Present (pgdirGetPageEntry m' T stack.pageBelow)
  others : ∀ U ∈ tabs, U ≠ T → ∀ v < 4294967296, mmuMapGetTable m' U v = mmuMapGetTable m U v

/-- What a guard answers for its page: frame 0, for the kernel to read. -/
def guardAnswer : Except Int (Nat × Nat) := .ok (mmuFlagRead ||| mmuFlagKernel, 0)

/-- Another table is current and answers already as for guards where they are
put, the pages next to the stack are free, and the last page of the stack is
one of those mapped, if it is not there already. -/
structure GuardsHarmless (T current virt size : Nat) (m : PageMem) : Prop where
  other : current ≠ T
  atBegin : mmuMapGetTable m current (virt + size) = guardAnswer
  atBelow : mmuMapGetTable m current (virt - 0x1000) = guardAnswer
  freeAbove : ¬ Present (pgdirGetPageEntry m T (pageMask (virt + size - 1) + 0x1000))
  freeBelow : ¬ Present (pgdirGetPageEntry m T (pageMask virt - 0x1000))
  last : pageMask (virt + size - 1) < pageMask virt + size ∨
    Present (pgdirGetPageEntry m T (virt + size - 1))

/-- The stack and a page on either side are user addresses. -/
def UserSlot (virt size : Nat) : Prop := 0x1000 ≤ virt ∧ virt + size + 0x1000 ≤ kernelOffset

/-- So they are, with a largest size that can be configured, as long as the
slot does not reach below the second page. -/
theorem StackConfig.userSlot {c : StackConfig} (hmax : c.procUserStackSizeMax ≤ 1048576)
    {tpos size : Nat} (hpos : tpos * c.slotSize + 0x1000 ≤ 0x7F000000)
    (hsize : size ≤ c.procUserStackSizeMax) : UserSlot (c.slot tpos) size := by
  unfold UserSlot slot wordOf kernelOffset
  rw [← Int.natCast_mul]
  generalize tpos * c.slotSize = n at hpos ⊢
  omega

/-! ## A guard -/

section Guards

variable {H : Type} {A : PageHeap H} {kernel current : Nat} {tabs : List Nat} {s s' : Mmu H}

theorem guardWord : pageWord (pageMask 0) 0 = 1 := rfl

theorem entryAnswer_guardWord : entryAnswer 1 = guardAnswer := rfl

theorem pgdirGetPageEntry_of_page {m : PageMem} {U v w : Nat} (h : v / 4096 = w / 4096) :
    pgdirGetPageEntry m U v = pgdirGetPageEntry m U w := by
  obtain ⟨hpd, hpt⟩ := index_eq_iff.mpr h
  rw [pgdirGetPageEntry_eq, pgdirGetPageEntry_eq, hpd, hpt]

theorem mapPage_mask (s : Mmu H) (phys virt flags : Nat) :
    mapPage A kernel current s phys virt flags =
      mapPage A kernel current s phys (pageMask virt) flags := by
  simp only [mapPage, pgdirMapPage, pageMask_pageMask]

/-- Wherever it is, a guard is present in the current table. -/
theorem mapPage_guard (ht : Tables A kernel tabs s) (hk : kernel ∈ tabs) (hcur : current ∈ tabs)
    {virt : Nat} (h : mapPage A kernel current s 0 virt 0 = some s') :
    Tables A kernel tabs s' ∧ ∀ v < 4294967296, v / 4096 = pageMask virt / 4096 →
      Present (pgdirGetPageEntry s'.mem current v) := by
  obtain ⟨ht', hmap⟩ := pgdirMapPage_spec ht.served (PageHeap.served_neverNull A) hcur
    (fun _ => hk) h
  refine ⟨ht'.of_served, fun v hv hpage => ?_⟩
  rw [hmap.self hcur hv, if_pos hpage, guardWord]
  decide

/-- Below the kernel it is put into the current table only. -/
theorem mapPage_user (ht : Tables A kernel tabs s) (hcur : current ∈ tabs) {virt : Nat}
    (hv : virt < kernelOffset) (h : mapPage A kernel current s 0 virt 0 = some s') :
    Tables A kernel tabs s' ∧ UserWrite tabs current (virt / 4096) 1 s.mem s'.mem := by
  have hmask : pageMask virt = virt - virt % 4096 :=
    pageMask_eq (Nat.lt_trans hv (by decide))
  rw [mapPage_mask] at h
  obtain ⟨ht', hwrite, -⟩ := pgdirMapPage_user ht.served (PageHeap.served_neverNull A) hcur
    (Nat.lt_of_le_of_lt (hmask ▸ Nat.sub_le _ _) hv) (pageMask_aligned virt) h
  have hpage : pageMask virt / 4096 = virt / 4096 := by omega
  rw [hpage] at hwrite
  exact ⟨ht'.of_served, hwrite⟩

/-! ## A stack with its guards -/

variable {T virt size phys flags : Nat}

/-- The page of an address is one of those mapped for a stack. -/
def StackCovers (virt size v : Nat) : Prop :=
  pageMask virt ≤ pageMask v ∧ pageMask v < pageMask virt + size

instance (virt size v : Nat) : Decidable (StackCovers virt size v) :=
  inferInstanceAs (Decidable (_ ∧ _))

theorem present_pageWord (phys flags : Nat) : Present (pageWord phys flags) := by
  simp [Present, pageWord, pageFlagPresent]

/-- What mapping the pages of a stack does. -/
structure StackMapped (tabs : List Nat) (T virt size : Nat) (m m' : PageMem) : Prop where
  covered : ∀ v < 4294967296, StackCovers virt size v → Present (pgdirGetPageEntry m' T v)
  outside : ∀ v < 4294967296, ¬ StackCovers virt size v →
    pgdirGetPageEntry m' T v = pgdirGetPageEntry m T v
  others : ∀ U ∈ tabs, U ≠ T → ∀ v < 4294967296,
    pgdirGetPageEntry m' U v = pgdirGetPageEntry m U v

theorem UserSlot.mapped (huser : UserSlot virt size) (ht : Tables A kernel tabs s) (hT : T ∈ tabs)
    (h : mmuMapTable A.served kernel s T virt phys size flags = some s') :
    Tables A kernel tabs s' ∧ StackMapped tabs T virt size s.mem s'.mem := by
  obtain ⟨hlo, hhi⟩ := huser
  unfold kernelOffset at hhi
  have hmask : pageMask virt = virt - virt % 4096 := pageMask_eq (by omega)
  have hlow : (MmuOp.map virt phys size flags).Low := by
    intro off hoff hlt
    change u32 (pageMask virt + off) < kernelOffset
    change off < size at hlt
    rw [u32_of_lt (by omega), kernelOffset]
    omega
  obtain ⟨ht', offs, hoffs, hrange⟩ :=
    mmuStep_low (PageHeap.served_neverNull A) ht.served hT hlow h
  have hself : ∀ v < 4294967296, pgdirGetPageEntry s'.mem T v =
      if StackCovers virt size v then
        pageWord (u32 (pageMask phys + (pageMask v - pageMask virt))) (pageFlags flags)
      else pgdirGetPageEntry s.mem T v := by
    intro v hv
    have hpages : pageOffs size = some offs := hoffs
    exact (hrange.self v hv).trans
      (lastWrite_pages hpages (pageMask_aligned virt) (by omega) _ _ hv)
  refine ⟨ht'.of_served, ?_, ?_, hrange.others⟩
  · intro v hv hcov
    rw [hself v hv, if_pos hcov]
    exact present_pageWord _ _
  · intro v hv hcov
    rw [hself v hv, if_neg hcov]

/-- The guards of a stack below the kernel are put into the current table. -/
theorem UserSlot.guarded {c : StackConfig} (hguard : c.procStackGuard = true)
    (huser : UserSlot virt size) (ht : Tables A kernel tabs s) (hcur : current ∈ tabs)
    (h : mapGuards A kernel current c s (.ofSlot virt size) = some s') :
    Tables A kernel tabs s' ∧ (∀ v < 4294967296, pgdirGetPageEntry s'.mem current v =
      if v / 4096 = (virt - 0x1000) / 4096 ∨ v / 4096 = (virt + size) / 4096 then 1
      else pgdirGetPageEntry s.mem current v) ∧
    ∀ U ∈ tabs, U ≠ current → ∀ v < 4294967296,
      pgdirGetPageEntry s'.mem U v = pgdirGetPageEntry s.mem U v := by
  obtain ⟨hlo, hhi⟩ := huser
  rw [mapGuards, hguard, if_pos rfl] at h
  obtain ⟨s₁, h₁, h₂⟩ := Option.bind_eq_some_iff.mp h
  unfold kernelOffset at hhi
  have hbegin : (UserStack.ofSlot virt size).begin = virt + size := u32_of_lt (by omega)
  have hbelow : wordOf (((UserStack.ofSlot virt size).begin : Int) - size - 0x1000) =
      virt - 0x1000 := by
    rw [hbegin]
    unfold wordOf
    omega
  rw [hbegin] at h₁
  change mapPage A kernel current s₁ 0
    (wordOf (((UserStack.ofSlot virt size).begin : Int) - size - 0x1000)) 0 = some s' at h₂
  rw [hbelow] at h₂
  obtain ⟨ht₁, hw₁⟩ := mapPage_user ht hcur (by unfold kernelOffset; omega) h₁
  obtain ⟨ht₂, hw₂⟩ := mapPage_user ht₁ hcur (by unfold kernelOffset; omega) h₂
  refine ⟨ht₂, ?_, ?_⟩
  · intro v hv
    rw [hw₂.self v hv, hw₁.self v hv]
    by_cases hb : v / 4096 = (virt - 0x1000) / 4096
    · rw [if_pos hb, if_pos (Or.inl hb)]
    · rw [if_neg hb]
      exact if_congr (or_iff_right hb).symm rfl rfl
  · intro U hU hne v hv
    rw [hw₂.others U hU hne v hv, hw₁.others U hU hne v hv]

/-! ## The addresses of a stack -/

theorem UserStack.base_ofSlot (hvirt : virt < 4294967296) (size : Nat) :
    (UserStack.ofSlot virt size).base = virt := by
  unfold base ofSlot wordOf u32
  dsimp only
  omega

/-- The lower guard is put just below the stack. -/
theorem UserStack.pageBelow_ofSlot (hvirt : virt < 4294967296) (size : Nat) :
    (UserStack.ofSlot virt size).pageBelow =
      pageMask (wordOf (((UserStack.ofSlot virt size).begin : Int) - size - 0x1000)) := by
  rw [pageBelow, base_ofSlot hvirt, pageMask_eq hvirt, pageMask_eq]
  · unfold ofSlot wordOf u32
    dsimp only
    omega
  · unfold wordOf
    omega

theorem UserSlot.range (huser : UserSlot virt size) :
    (UserStack.ofSlot virt size).range = Set.Ico virt (virt + size) := by
  obtain ⟨-, hhi⟩ := huser
  unfold kernelOffset at hhi
  rw [UserStack.range, UserStack.ofSlot, u32_of_lt (by omega), Nat.add_sub_cancel]

theorem UserSlot.pageBelow (huser : UserSlot virt size) :
    (UserStack.ofSlot virt size).pageBelow = pageMask virt - 0x1000 := by
  obtain ⟨hlo, hhi⟩ := huser
  unfold kernelOffset at hhi
  have hmask : pageMask virt = virt - virt % 4096 := pageMask_eq (by omega)
  rw [UserStack.pageBelow, UserStack.base_ofSlot (by omega), hmask]
  unfold wordOf
  omega

theorem UserSlot.pageAbove (huser : UserSlot virt size) :
    (UserStack.ofSlot virt size).pageAbove = pageMask (virt + size - 1) + 0x1000 := by
  obtain ⟨hlo, hhi⟩ := huser
  unfold kernelOffset at hhi
  have hlast : wordOf (((UserStack.ofSlot virt size).begin : Int) - 1) = virt + size - 1 := by
    unfold UserStack.ofSlot wordOf u32
    dsimp only
    omega
  have hmask : pageMask (virt + size - 1) = virt + size - 1 - (virt + size - 1) % 4096 :=
    pageMask_eq (by omega)
  rw [UserStack.pageAbove, hlast, u32_of_lt (by omega)]

/-- A page of the stack is mapped, or it is the last one. -/
theorem UserSlot.onPage (huser : UserSlot virt size) {v : Nat} (hv : v < 4294967296)
    (hpage : (UserStack.ofSlot virt size).OnPage v) (hcov : ¬ StackCovers virt size v) :
    v / 4096 = (virt + size - 1) / 4096 ∧ ¬ StackCovers virt size (virt + size - 1) := by
  obtain ⟨x, hx, hxv⟩ := hpage
  rw [huser.range] at hx
  obtain ⟨hlo, hhi⟩ := huser
  obtain ⟨hvx, hxs⟩ := hx
  unfold kernelOffset at hhi
  have hm₁ : pageMask virt = virt - virt % 4096 := pageMask_eq (by omega)
  have hm₂ : pageMask v = v - v % 4096 := pageMask_eq hv
  have hm₃ : pageMask (virt + size - 1) = virt + size - 1 - (virt + size - 1) % 4096 :=
    pageMask_eq (by omega)
  unfold StackCovers at hcov ⊢
  rw [hm₁, hm₂] at hcov
  rw [hm₁, hm₃]
  omega

/-! ## When the guards are right -/

/-- The pages next to the stack are not among those mapped for it. -/
theorem UserSlot.not_covers (huser : UserSlot virt size) (hsize : 1 ≤ size) :
    ¬ StackCovers virt size (pageMask virt - 0x1000) ∧
      ¬ StackCovers virt size (pageMask (virt + size - 1) + 0x1000) := by
  obtain ⟨hlo, hhi⟩ := huser
  unfold kernelOffset at hhi
  have hm₁ : pageMask virt = virt - virt % 4096 := pageMask_eq (by omega)
  have hm₂ : pageMask (virt + size - 1) = virt + size - 1 - (virt + size - 1) % 4096 :=
    pageMask_eq (by omega)
  unfold StackCovers
  rw [pageMask_eq (n := pageMask virt - 0x1000) (by omega),
    pageMask_eq (n := pageMask (virt + size - 1) + 0x1000) (by omega), hm₁, hm₂]
  omega

/-- Another table is current. -/
theorem UserSlot.guarded_iff {c : StackConfig} (hguard : c.procStackGuard = true)
    (huser : UserSlot virt size) (hsize : 1 ≤ size) (hne : current ≠ T)
    (ht : Tables A kernel tabs s) (hT : T ∈ tabs) (hcur : current ∈ tabs) {s₁ : Mmu H}
    (hmap : mmuMapTable A.served kernel s T virt phys size flags = some s₁)
    (hset : mapGuards A kernel current c s₁ (.ofSlot virt size) = some s') :
    StackGuarded tabs T (.ofSlot virt size) s.mem s'.mem ↔
      GuardsHarmless T current virt size s.mem := by
  obtain ⟨ht₁, hm⟩ := huser.mapped ht hT hmap
  obtain ⟨-, hself, hothers⟩ := huser.guarded hguard ht₁ hcur hset
  obtain ⟨hbelow, habove⟩ := huser.not_covers hsize
  have hub := huser.pageBelow
  have hua := huser.pageAbove
  have hlt : virt + size < 4294967296 := by
    obtain ⟨-, hhi⟩ := huser
    unfold kernelOffset at hhi
    omega
  have hle₁ := pageMask_le virt
  have hle₂ : pageMask (virt + size - 1) ≤ virt + size - 1 := Nat.and_le_left
  have hle₃ : 0x1000 ≤ virt ∧ virt + size + 0x1000 ≤ 0xC0000000 := huser
  -- the table of the process reads what mapping the stack has left
  have hT' : ∀ v < 4294967296, pgdirGetPageEntry s'.mem T v = pgdirGetPageEntry s₁.mem T v :=
    fun v hv => hothers T hT hne.symm v hv
  -- the guards in the current one
  have hat : ∀ v < 4294967296, v / 4096 = (virt - 0x1000) / 4096 ∨ v / 4096 = (virt + size) / 4096 →
      mmuMapGetTable s'.mem current v = guardAnswer := by
    intro v hv hpage
    rw [mmuMapGetTable, hself v hv, if_pos hpage, entryAnswer_guardWord]
  constructor
  · rintro ⟨hpres, hnabove, hnbelow, hframe⟩
    refine ⟨hne, ?_, ?_, ?_, ?_, ?_⟩
    · rw [← hframe current hcur hne _ hlt]
      exact hat _ hlt (.inr rfl)
    · rw [← hframe current hcur hne _ (by omega)]
      exact hat _ (by omega) (.inl rfl)
    · rw [hua, hT' _ (by omega), hm.outside _ (by omega) habove] at hnabove
      exact hnabove
    · rw [hub, hT' _ (by omega), hm.outside _ (by omega) hbelow] at hnbelow
      exact hnbelow
    · by_cases hcov : StackCovers virt size (virt + size - 1)
      · exact .inl hcov.2
      · refine .inr ?_
        have hlast := hpres (virt + size - 1) (by omega) ⟨virt + size - 1, ?_, rfl⟩
        · rw [hT' _ (by omega), hm.outside _ (by omega) hcov] at hlast
          exact hlast
        · rw [huser.range]
          exact ⟨by omega, by omega⟩
  · rintro ⟨-, hbegin, hfront, hfreeA, hfreeB, hlast⟩
    refine ⟨?_, ?_, ?_, ?_⟩
    · intro v hv hpage
      rw [hT' v hv]
      by_cases hcov : StackCovers virt size v
      · exact hm.covered v hv hcov
      · obtain ⟨hsame, hncov⟩ := huser.onPage hv hpage hcov
        rw [hm.outside v hv hcov, pgdirGetPageEntry_of_page hsame]
        refine hlast.resolve_left fun hl => hncov ⟨?_, hl⟩
        rw [pageMask_eq (by omega), pageMask_eq (n := virt + size - 1) (by omega)]
        omega
    · rw [hua, hT' _ (by omega), hm.outside _ (by omega) habove]
      exact hfreeA
    · rw [hub, hT' _ (by omega), hm.outside _ (by omega) hbelow]
      exact hfreeB
    · intro U hU hUT v hv
      by_cases hUc : U = current
      · subst hUc
        by_cases hpage : v / 4096 = (virt - 0x1000) / 4096 ∨ v / 4096 = (virt + size) / 4096
        · rw [hat v hv hpage, mmuMapGetTable]
          rcases hpage with hpage | hpage
          · rw [pgdirGetPageEntry_of_page hpage]
            exact hfront.symm
          · rw [pgdirGetPageEntry_of_page hpage]
            exact hbegin.symm
        · rw [mmuMapGetTable, hself v hv, if_neg hpage, hm.others U hU hUT v hv, mmuMapGetTable]
      · rw [mmuMapGetTable, hothers U hU hUc v hv, hm.others U hU hUT v hv, mmuMapGetTable]

/-- The process is the current one: the page below its stack is present. -/
theorem current_not_guarded {c : StackConfig} (hguard : c.procStackGuard = true)
    (hvirt : virt < 4294967296) (ht : Tables A kernel tabs s) (hk : kernel ∈ tabs)
    (hcur : current ∈ tabs) (hset : mapGuards A kernel current c s (.ofSlot virt size) = some s') :
    Present (pgdirGetPageEntry s'.mem current (UserStack.ofSlot virt size).pageBelow) := by
  rw [mapGuards, hguard, if_pos rfl] at hset
  obtain ⟨s₁, h₁, h₂⟩ := Option.bind_eq_some_iff.mp hset
  obtain ⟨ht₁, -⟩ := mapPage_guard ht hk hcur h₁
  rw [UserStack.pageBelow_ofSlot hvirt]
  exact (mapPage_guard ht₁ hk hcur h₂).2 _ (Nat.lt_of_le_of_lt (pageMask_le _) (by decide)) rfl

end Guards

section Create

variable {H : Type} {A : PageHeap H} {kernel current : Nat} {tabs : List Nat}
  {c : StackConfig} {s s' : StackState H} {thread process size fuel : Nat} {tpos : Int}

/-- **The guards of a stack are right** exactly when another table is current
and they change nothing in it, the pages next to the stack were free, and the
last page of the stack is mapped. -/
theorem stack_guarded_iff (hguard : c.procStackGuard = true) (ht : Tables A kernel tabs s.mmu)
    (hk : kernel ∈ tabs) (hcur : current ∈ tabs)
    (hproc : (s.tasks.kthreads thread).process = process) (hT : s.table process ∈ tabs)
    (hsz : (s.tasks.kthreads thread).stackSize = size) (hsize : 1 ≤ size)
    (hpos : llistGetPosition fuel s.tasks.threadItems (s.tasks.kprocs process).threads thread =
      some tpos)
    (huser : current = s.table process ∨ UserSlot (c.slot tpos) size)
    (hcall : archProcCreateStack A kernel current c fuel s thread = some s') :
    StackGuarded tabs (s.table process) (s'.user thread) s.mmu.mem s'.mmu.mem ↔
      GuardsHarmless (s.table process) current (c.slot tpos) size s.mmu.mem := by
  obtain ⟨tpos', hpos', phys, heap, mmu, hs⟩ := archProcCreateStack_created hcall
  rw [hproc] at hpos' hs
  obtain rfl := Option.some.inj (hpos.symm.trans hpos')
  have hmap := hs.mapped
  have hset := hs.guarded
  have ht₀ := ht.granted hs.granted
  rw [hsz] at hmap hset
  rw [hs.user, Function.update_self, hsz]
  by_cases heq : current = s.table process
  · have ht₁ := mmuMapTable_keeps_tables ht₀ hT hk hmap
    have hlt : c.slot tpos < 4294967296 := by
      unfold StackConfig.slot wordOf
      omega
    have hpres := current_not_guarded hguard hlt ht₁ hk hcur hset
    rw [heq] at hpres
    exact ⟨fun h => absurd hpres h.below, fun h => absurd heq h.other⟩
  · have huser := huser.resolve_left heq
    exact huser.guarded_iff (s := ⟨s.mmu.mem, heap⟩) hguard hsize heq ht₀ hT hcur hmap hset

end Create

/-! ## On the boot heap -/

def guardedSlots : StackConfig := ⟨0x2000, true⟩

/-- The process at `1`, with its table at `0x1000` and the thread at `2`, which
asks for a stack of one and a half pages. -/
def guardTasks : Tasks :=
  { Tasks.boot 1 0 with
    kprocs := Function.update (fun _ => zeroProcess) 1
      { zeroProcess with
        pid := 1, mmuTable := 0x1000, domain := procDomainUserspace, threads := ⟨2, 0⟩ }
    kthreads := fun _ => { zeroThread with process := 1, stackSize := 0x1800 }
    threadItems := fun _ => ⟨2, 2, 2⟩ }

def guardState (mmu : Mmu { t : Table // TableOk 0x400000 0x410000 t }) :
    StackState { t : Table // TableOk 0x400000 0x410000 t } :=
  ⟨guardTasks, fun _ => ⟨0, 0, 0⟩, mmu⟩

theorem guardUserSlot : UserSlot (guardedSlots.slot 0) 0x1800 :=
  @StackConfig.userSlot guardedSlots (by decide) 0 0x1800 (by decide) (by decide)

theorem bootMmu_absent (T v : Nat) : ¬ Present (pgdirGetPageEntry bootMmu.mem T v) := by
  simp [pgdirGetPageEntry, bootMmu, zeroPages, Present]

theorem guardTables : Tables bootPages 0x2000 [0x1000, 0x2000] bootMmu :=
  bootMmu_tables 0x2000 (by simp)

set_option maxRecDepth 100000 in
/-- The kernel's table is current and has the guards already. -/
theorem stack_guarded_kernel :
    ∃ mmu s', archProcCreateStack bootPages 0x2000 0x2000 guardedSlots 1 (guardState mmu) 2 =
        some s' ∧
      StackGuarded [0x1000, 0x2000] 0x1000 (s'.user 2) mmu.mem s'.mmu.mem := by
  have hsome : ((mapGuards bootPages 0x2000 0x2000 guardedSlots bootMmu
      (.ofSlot (guardedSlots.slot 0) 0x1800)).bind fun mmu =>
        archProcCreateStack bootPages 0x2000 0x2000 guardedSlots 1 (guardState mmu) 2).isSome
      = true := by
    decide +kernel
  obtain ⟨s', hs'⟩ := Option.isSome_iff_exists.mp hsome
  obtain ⟨mmu, hmmu, hcall⟩ := Option.bind_eq_some_iff.mp hs'
  obtain ⟨ht, hself, hothers⟩ := guardUserSlot.guarded rfl guardTables (by simp) hmmu
  have hfree : ∀ v < 4294967296, ¬ Present (pgdirGetPageEntry mmu.mem 0x1000 v) := by
    intro v hv
    rw [hothers 0x1000 (by simp) (by decide) v hv]
    exact bootMmu_absent _ v
  have hguards : ∀ v < 4294967296, v / 4096 = (guardedSlots.slot 0 - 0x1000) / 4096 ∨
      v / 4096 = (guardedSlots.slot 0 + 0x1800) / 4096 →
      mmuMapGetTable mmu.mem 0x2000 v = guardAnswer := by
    intro v hv hpage
    rw [mmuMapGetTable, hself v hv, if_pos hpage, entryAnswer_guardWord]
  have hharmless : GuardsHarmless 0x1000 0x2000 (guardedSlots.slot 0) 0x1800 mmu.mem :=
    ⟨by decide, hguards _ (by decide) (.inr rfl), hguards _ (by decide) (.inl rfl),
      hfree _ (by decide), hfree _ (by decide), .inl (by decide)⟩
  have hproc : ((guardState mmu).tasks.kthreads 2).process = 1 := rfl
  have hsz : ((guardState mmu).tasks.kthreads 2).stackSize = 0x1800 := rfl
  have hT : (guardState mmu).table 1 ∈ [0x1000, 0x2000] := List.mem_cons_self
  exact ⟨mmu, s', hcall, (stack_guarded_iff rfl ht (by simp) (by simp) hproc hT hsz (by decide)
    rfl (.inr guardUserSlot) hcall).mpr hharmless⟩

set_option maxRecDepth 100000 in
/-- On empty tables: of the current process the page below the stack is
present, and for another one the current table is changed. -/
theorem stack_guards_wrong :
    (∃ s', archProcCreateStack bootPages 0x2000 0x1000 guardedSlots 1 (guardState bootMmu) 2 =
        some s' ∧
      ¬ StackGuarded [0x1000, 0x2000] 0x1000 (s'.user 2) bootMmu.mem s'.mmu.mem) ∧
    ∃ s', archProcCreateStack bootPages 0x2000 0x2000 guardedSlots 1 (guardState bootMmu) 2 =
        some s' ∧
      ¬ StackGuarded [0x1000, 0x2000] 0x1000 (s'.user 2) bootMmu.mem s'.mmu.mem := by
  have hbelow : ((archProcCreateStack bootPages 0x2000 0x1000 guardedSlots 1 (guardState bootMmu)
      2).any fun s' => Present (pgdirGetPageEntry s'.mmu.mem 0x1000 (s'.user 2).pageBelow))
      = true := by
    decide +kernel
  have hother : ((archProcCreateStack bootPages 0x2000 0x2000 guardedSlots 1 (guardState bootMmu)
      2).any fun s' => mmuMapGetTable s'.mmu.mem 0x2000 0x7F001000 = guardAnswer) = true := by
    decide +kernel
  obtain ⟨s₁, h₁, hs₁⟩ := (Option.any_eq_true _ _).mp hbelow
  obtain ⟨s₂, h₂, hs₂⟩ := (Option.any_eq_true _ _).mp hother
  refine ⟨⟨s₁, h₁, fun h => h.below (of_decide_eq_true hs₁)⟩, s₂, h₂, fun h => ?_⟩
  have hkept := h.others 0x2000 (by simp) (by decide) 0x7F001000 (by decide)
  rw [of_decide_eq_true hs₂, bootMmu_empty] at hkept
  cases hkept

end LambdaOs
