import Mathlib.Order.CompletePartialOrder
import Mathlib.Order.Interval.Set.Disjoint
import LambdaOs.PagingGlobal
import LambdaOs.TaskCalls

/-!
# The user stacks of a process

`arch_proc_create_stack` of `arch/x86/src/proc/tasking.c`. The stack of a
thread is a block of the kernel's heap, mapped into the table of its process.
Where depends on the position of the thread in the ring of the process: each
position has a slot of `CONFIG_PROC_USER_STACK_SIZE_MAX` bytes, the first one
at `0x7F000000` and the others below it.

A ring only grows at its end as long as no thread is removed, so a thread
keeps its slot, and a stack of at most the slot's size never reaches the next
one: `user_stacks_disjoint`.
-/

namespace LambdaOs

/-! ## Creating a stack -/

/-- `CONFIG_PROC_USER_STACK_SIZE_MAX` and `CONFIG_PROC_STACK_GUARD`. -/
structure StackConfig where
  procUserStackSizeMax : Nat
  procStackGuard : Bool
deriving Repr, DecidableEq

/-- `arch.stack_user` of a thread, and `arch.ebp`. -/
structure UserStack where
  size : Nat
  begin : Nat
  ebp : Nat
deriving Repr, DecidableEq

/-- The threads, their user stacks, and the page tables. -/
structure StackState (H : Type) where
  tasks : Tasks
  user : Nat → UserStack
  mmu : Mmu H

/-- The table of a process. -/
def StackState.table {H : Type} (s : StackState H) (proc : Nat) : Nat :=
  (s.tasks.kprocs proc).mmuTable

/-- What the positions are apart. -/
def StackConfig.slotSize (c : StackConfig) : Nat :=
  if c.procStackGuard then c.procUserStackSizeMax + 0x2000 else c.procUserStackSizeMax

/-- `virt_stack_begin`, for the thread at position `tpos`. -/
def StackConfig.slot (c : StackConfig) (tpos : Int) : Nat :=
  wordOf (0x7F000000 - tpos * c.slotSize)

def procDomainUserspace : Nat := 2

def stackFlags (domain : Nat) : Nat :=
  if domain ≠ procDomainUserspace then mmuFlagRead ||| mmuFlagWrite ||| mmuFlagKernel
  else mmuFlagRead ||| mmuFlagWrite

section Create

variable {H : Type} (A : PageHeap H) (kernel current : Nat)

/-- A page table that is not granted is cleared at address 0, and faults.
`current` is the table in `cr3`. -/
def mapPage (s : Mmu H) (physaddr virtualaddr flags : Nat) : Option (Mmu H) :=
  pgdirMapPage A.served kernel s current physaddr virtualaddr flags

/-- The guards of a stack, if there are to be any. -/
def mapGuards (c : StackConfig) (s : Mmu H) (stack : UserStack) : Option (Mmu H) :=
  if c.procStackGuard then do
    let s ← mapPage A kernel current s 0 stack.begin 0
    mapPage A kernel current s 0 (wordOf ((stack.begin : Int) - stack.size - 0x1000)) 0
  else some s

/-- The stack of `size` bytes from `virt` on. -/
def UserStack.ofSlot (virt size : Nat) : UserStack :=
  ⟨size, u32 (virt + size), u32 (virt + size)⟩

/-- It always returns `0`; `none` is a panic or a fault. -/
def archProcCreateStack (c : StackConfig) (fuel : Nat) (s : StackState H) (thread : Nat) :
    Option (StackState H) :=
  let process := (s.tasks.kthreads thread).process
  if process = 0 then none
  else do
    let size := (s.tasks.kthreads thread).stackSize
    let tpos ← llistGetPosition fuel s.tasks.threadItems (s.tasks.kprocs process).threads thread
    let virt := c.slot tpos
    let (phys, heap) ← A.kamalloc s.mmu.heap (roundSize size 4096) 4096
    let mmu ← mmuMapTable A.served kernel { s.mmu with heap := heap } (s.table process) virt phys
      size (stackFlags (s.tasks.kprocs process).domain)
    let stack := UserStack.ofSlot virt size
    let mmu ← mapGuards A kernel current c mmu stack
    return { s with user := Function.update s.user thread stack, mmu := mmu }

end Create

section Spec

variable {H : Type} {A : PageHeap H} {kernel current : Nat} {c : StackConfig} {fuel : Nat}

/-- What a call that returns has done, for a thread of `process` at `tpos`. -/
structure StackCreated (A : PageHeap H) (kernel current : Nat) (c : StackConfig) (process : Nat)
    (tpos : Int) (thread : Nat) (s s' : StackState H) (phys : Nat) (heap : H) (mmu : Mmu H) :
    Prop where
  granted : A.kamalloc s.mmu.heap (roundSize (s.tasks.kthreads thread).stackSize 4096) 4096 =
    some (phys, heap)
  mapped : mmuMapTable A.served kernel ⟨s.mmu.mem, heap⟩ (s.table process) (c.slot tpos) phys
    (s.tasks.kthreads thread).stackSize (stackFlags (s.tasks.kprocs process).domain) = some mmu
  guarded : mapGuards A kernel current c mmu
    (.ofSlot (c.slot tpos) (s.tasks.kthreads thread).stackSize) = some s'.mmu
  tasks : s'.tasks = s.tasks
  user : s'.user = Function.update s.user thread
    (.ofSlot (c.slot tpos) (s.tasks.kthreads thread).stackSize)

theorem archProcCreateStack_created {s s' : StackState H} {thread : Nat}
    (h : archProcCreateStack A kernel current c fuel s thread = some s') :
    ∃ tpos, llistGetPosition fuel s.tasks.threadItems
        (s.tasks.kprocs (s.tasks.kthreads thread).process).threads thread = some tpos ∧
      ∃ phys heap mmu, StackCreated A kernel current c (s.tasks.kthreads thread).process tpos
        thread s s' phys heap mmu := by
  unfold archProcCreateStack at h
  dsimp only at h
  split at h
  · cases h
  · obtain ⟨tpos, hpos, h⟩ := Option.bind_eq_some_iff.mp h
    obtain ⟨⟨phys, heap⟩, hkam, h⟩ := Option.bind_eq_some_iff.mp h
    obtain ⟨mmu, hmap, h⟩ := Option.bind_eq_some_iff.mp h
    obtain ⟨mmu', hguard, h⟩ := Option.bind_eq_some_iff.mp h
    obtain rfl := Option.some.inj h
    exact ⟨tpos, hpos, phys, heap, mmu, hkam, hmap, hguard, rfl, rfl⟩

end Spec

/-! ## Slots -/

/-- The addresses of a stack. -/
def UserStack.range (stack : UserStack) : Set Nat := Set.Ico (stack.begin - stack.size) stack.begin

/-- The page of an address has a byte of the stack. -/
def UserStack.OnPage (stack : UserStack) (v : Nat) : Prop := ∃ x ∈ stack.range, x / 4096 = v / 4096

section Slots

variable {c : StackConfig}

/-- The slot at position `i` does not reach below address 0. -/
def StackConfig.SlotFits (c : StackConfig) (i : Nat) : Prop :=
  i * c.procUserStackSizeMax ≤ 0x7F000000

theorem StackConfig.SlotFits.slot {i : Nat} (h : c.SlotFits i) (hguard : c.procStackGuard = false) :
    c.slot i = 0x7F000000 - i * c.procUserStackSizeMax := by
  unfold SlotFits at h
  rw [StackConfig.slot, slotSize, hguard, if_neg Bool.false_ne_true, ← Int.natCast_mul]
  generalize i * c.procUserStackSizeMax = n at h ⊢
  unfold wordOf
  omega

/-- Slots are at least their size apart. -/
theorem StackConfig.SlotFits.lt {i j : Nat} (hij : i < j) (hj : c.SlotFits j) :
    c.SlotFits i ∧ c.procUserStackSizeMax ≤ 0x7F000000 ∧
      0x7F000000 - j * c.procUserStackSizeMax + c.procUserStackSizeMax ≤
        0x7F000000 - i * c.procUserStackSizeMax := by
  unfold SlotFits at hj ⊢
  have hmul := Nat.mul_le_mul_right c.procUserStackSizeMax (Nat.succ_le_of_lt hij)
  rw [Nat.succ_mul] at hmul
  omega

end Slots

/-! ## Mapping a stack -/

section Map

variable {H : Type} {A : PageHeap H} {kernel T : Nat} {tabs : List Nat}
  {s s' : Mmu H} {virt phys size flags : Nat}

theorem mmuMapTable_keeps_tables (ht : Tables A kernel tabs s) (hT : T ∈ tabs) (hk : kernel ∈ tabs)
    (h : mmuMapTable A.served kernel s T virt phys size flags = some s') :
    Tables A kernel tabs s' := by
  have hnone : Avoids A.served tabs (fun _ => False) s :=
    ⟨nofun, fun _ _ => id, fun _ _ _ _ _ => id⟩
  exact (mmuMapTable_tables ht.served hnone (PageHeap.served_neverNull A) hT hk h).1.of_served

/-- The pages outside a range read as before, unless they and some of the
range are the kernel's. -/
theorem mmuMapTable_frame (ht : Tables A kernel tabs s) (hT : T ∈ tabs) (hk : kernel ∈ tabs)
    (hvirt : virt % 4096 = 0) (hfits : virt + size ≤ 4294967296)
    (h : mmuMapTable A.served kernel s T virt phys size flags = some s') {v : Nat}
    (hv : v < 4294967296) (hout : ¬ (virt ≤ pageMask v ∧ pageMask v < virt + size))
    (hlow : v < kernelOffset ∨ virt + size ≤ kernelOffset) :
    mmuMapGetTable s'.mem T v = mmuMapGetTable s.mem T v := by
  obtain ⟨offs, hoffs, hrun⟩ := Option.bind_eq_some_iff.mp h
  rw [foldlM_eq_exec] at hrun
  have hal : ∀ off ∈ offs, off % 4096 = 0 := fun off hoff => ((mem_pageOffs hoffs).mp hoff).1
  have hself := mapLoop_self (PageHeap.served_neverNull A) hT hk ht.served hal hrun v hv
  rw [mmuMapGetTable, hself, readAfterMap]
  by_cases hempty : size = 0
  · subst hempty
    obtain rfl := pageOffs_zero hoffs
    rfl
  have hbase : pageMask virt = virt := pageMask_of_aligned (by omega) hvirt
  have huntouched : ¬ TouchesSlot virt offs v := by
    rintro htouch
    have hvk := htouch.above
    obtain ⟨off, hoff, hko, -⟩ := htouch
    have hlt := ((mem_pageOffs hoffs).mp hoff).2
    rw [u32_of_lt (by omega)] at hko
    omega
  rw [hbase, lastWrite_pages hoffs hvirt hfits _ _ hv, if_neg hout, if_neg huntouched]
  rfl

end Map

/-! ## Runs -/

section Runs

variable {H : Type} (A : PageHeap H) (kernel : Nat) (c : StackConfig) (proc : Nat)

/-- The table is one of a set of tables that live side by side. -/
def TablesHold (T : Nat) (mmu : Mmu H) : Prop :=
  ∃ tabs, T ∈ tabs ∧ kernel ∈ tabs ∧ Tables A kernel tabs mmu

/-- Whatever else happens: the ring of the process stays as it is, and so do
the stacks its threads have been given. -/
structure Elsewhere (ts made : List Nat) (s s' : StackState H) : Prop where
  ring : ∀ t ∈ ts, s'.tasks.threadItems t = s.tasks.threadItems t
  head : (s'.tasks.kprocs proc).threads.list = (s.tasks.kprocs proc).threads.list
  joined : ∀ t ∈ ts, (s'.tasks.kthreads t).process = (s.tasks.kthreads t).process
  kept : ∀ t ∈ made, s'.user t = s.user t
  tables : TablesHold A kernel (s'.table proc) s'.mmu

/-- The runs in which no thread leaves the ring of a process: `ts` are the
threads that have been added, `made` those that have been given a stack. -/
inductive StackRun : List Nat → List Nat → StackState H → Prop
  | start {s : StackState H} :
      LlistRep s.tasks.threadItems (s.tasks.kprocs proc).threads [] →
      TablesHold A kernel (s.table proc) s.mmu → StackRun [] [] s
  | add {ts made : List Nat} {s : StackState H} {thread : Nat} {tasks : Tasks} :
      StackRun ts made s → thread ≠ 0 → thread ∉ ts →
      s.tasks.procAddThread proc thread = some tasks →
      StackRun (ts ++ [thread]) made { s with tasks := tasks }
  | stack {ts made : List Nat} {s s' : StackState H} {thread fuel current : Nat} :
      StackRun ts made s → thread ∈ ts →
      (s.tasks.kthreads thread).stackSize ≤ c.procUserStackSizeMax → ts.length ≤ fuel →
      archProcCreateStack A kernel current c fuel s thread = some s' →
      StackRun ts (thread :: made) s'
  | elsewhere {ts made : List Nat} {s s' : StackState H} :
      StackRun ts made s → Elsewhere A kernel proc ts made s s' → StackRun ts made s'

/-- Every thread is in the ring, and its stack in the slot of its position. -/
structure StackInv (ts made : List Nat) (s : StackState H) : Prop where
  ring : LlistRep s.tasks.threadItems (s.tasks.kprocs proc).threads ts
  joined : ∀ t ∈ ts, (s.tasks.kthreads t).process = proc
  tables : TablesHold A kernel (s.table proc) s.mmu
  member : ∀ t ∈ made, t ∈ ts
  placed : ∀ t ∈ made, ∃ size ≤ c.procUserStackSizeMax,
    s.user t = .ofSlot (c.slot (ts.idxOf t)) size

variable {A kernel c proc} {ts made : List Nat} {s s' : StackState H}

theorem StackInv.start (hring : LlistRep s.tasks.threadItems (s.tasks.kprocs proc).threads [])
    (htables : TablesHold A kernel (s.table proc) s.mmu) : StackInv A kernel c proc [] [] s :=
  ⟨hring, nofun, htables, nofun, nofun⟩

theorem StackInv.add (h : StackInv A kernel c proc ts made s) {thread : Nat} {tasks : Tasks}
    (h0 : thread ≠ 0) (hnew : thread ∉ ts)
    (hcall : s.tasks.procAddThread proc thread = some tasks) :
    StackInv A kernel c proc (ts ++ [thread]) made { s with tasks := tasks } := by
  obtain ⟨r₁, htid, r, happ, rfl⟩ := Tasks.procAddThread_eq_some.mp hcall
  obtain ⟨n, hn⟩ := Tasks.threadTid_frame htid
  rw [hn] at happ ⊢
  have hstep := llistAppend_step (h.ring.setData thread thread) h0 hnew happ
  refine ⟨?_, ?_, ?_, ?_, ?_⟩
  · refine hstep.rep.of_list_eq _ ?_
    exact congrArg (fun k => k.threads.list) (Tasks.modProc_self _ proc (Process.withThreads r.2))
  · intro t ht
    change (Function.update s.tasks.kthreads thread _ t).process = proc
    rcases List.mem_append.mp ht with ht | ht
    · rw [Function.update_of_ne (ne_of_mem_of_not_mem ht hnew)]
      exact h.joined t ht
    · obtain rfl := List.mem_singleton.mp ht
      rw [Function.update_self]
      rfl
  · change TablesHold A kernel (Function.update s.tasks.kprocs proc
      (Process.withThreads r.2 (s.tasks.kprocs proc)) proc).mmuTable s.mmu
    rw [Function.update_self]
    exact h.tables
  · exact fun t ht => List.mem_append_left _ (h.member t ht)
  · intro t ht
    rw [List.idxOf_append_of_mem (h.member t ht)]
    exact h.placed t ht

theorem StackInv.elsewhere (h : StackInv A kernel c proc ts made s)
    (he : Elsewhere A kernel proc ts made s s') : StackInv A kernel c proc ts made s' := by
  refine ⟨(h.ring.frame he.ring).of_list_eq _ he.head, ?_, he.tables, h.member, ?_⟩
  · intro t ht
    rw [he.joined t ht]
    exact h.joined t ht
  · intro t ht
    rw [he.kept t ht]
    exact h.placed t ht

/-- A thread in the ring is found at its position. -/
theorem StackInv.created (h : StackInv A kernel c proc ts made s) {thread fuel current : Nat}
    (hmem : thread ∈ ts) (hfuel : ts.length ≤ fuel)
    (hcall : archProcCreateStack A kernel current c fuel s thread = some s') :
    ∃ phys heap mmu, StackCreated A kernel current c proc (ts.idxOf thread) thread s s' phys heap
      mmu := by
  obtain ⟨tpos, hpos, hcreated⟩ := archProcCreateStack_created hcall
  rw [h.joined thread hmem] at hpos hcreated
  rw [llistGetPosition_eq thread h.ring (List.ne_nil_of_mem hmem) hfuel, seqPosition,
    if_pos hmem] at hpos
  rw [Option.some.inj hpos]
  exact hcreated

theorem StackInv.stack (h : StackInv A kernel c proc ts made s) (hguard : c.procStackGuard = false)
    {thread fuel current : Nat} (hmem : thread ∈ ts)
    (hsize : (s.tasks.kthreads thread).stackSize ≤ c.procUserStackSizeMax)
    (hfuel : ts.length ≤ fuel)
    (hcall : archProcCreateStack A kernel current c fuel s thread = some s') :
    StackInv A kernel c proc ts (thread :: made) s' := by
  obtain ⟨phys, heap, mmu, hs⟩ := h.created hmem hfuel hcall
  obtain ⟨tabs, hT, hk, ht⟩ := h.tables
  have hmmu : mmu = s'.mmu := by
    have hg := hs.guarded
    rw [mapGuards, hguard, if_neg Bool.false_ne_true] at hg
    exact Option.some.inj hg
  refine ⟨?_, ?_, ?_, ?_, ?_⟩
  · rw [hs.tasks]
    exact h.ring
  · rw [hs.tasks]
    exact h.joined
  · rw [StackState.table, hs.tasks, ← hmmu]
    exact ⟨tabs, hT, hk, mmuMapTable_keeps_tables (ht.granted hs.granted) hT hk hs.mapped⟩
  · exact List.forall_mem_cons.mpr ⟨hmem, h.member⟩
  · intro t hmade
    rw [hs.user]
    by_cases heq : t = thread
    · subst heq
      rw [Function.update_self]
      exact ⟨_, hsize, rfl⟩
    · rw [Function.update_of_ne heq]
      exact h.placed t ((List.mem_cons.mp hmade).resolve_left heq)

theorem StackRun.inv (hguard : c.procStackGuard = false)
    (hrun : StackRun A kernel c proc ts made s) : StackInv A kernel c proc ts made s := by
  induction hrun with
  | start hring htables => exact .start hring htables
  | add _ h0 hnew hcall ih => exact ih.add h0 hnew hcall
  | stack _ hmem hsize hfuel hcall ih => exact ih.stack hguard hmem hsize hfuel hcall
  | elsewhere _ he ih => exact ih.elsewhere he

/-! ## No two stacks overlap -/

/-- A stack in its slot, when there is a slot below it. -/
theorem StackInv.range_eq (h : StackInv A kernel c proc ts made s)
    (hguard : c.procStackGuard = false) (hmax : c.procUserStackSizeMax ≤ 0x7F000000) {t : Nat}
    (ht : t ∈ made) (hfits : c.SlotFits (ts.idxOf t)) :
    ∃ size ≤ c.procUserStackSizeMax, (s.user t).range =
      Set.Ico (0x7F000000 - ts.idxOf t * c.procUserStackSizeMax)
        (0x7F000000 - ts.idxOf t * c.procUserStackSizeMax + size) := by
  obtain ⟨size, hsize, hplaced⟩ := h.placed t ht
  refine ⟨size, hsize, ?_⟩
  rw [hplaced, UserStack.range, UserStack.ofSlot, hfits.slot hguard, u32_of_lt (by omega),
    Nat.add_sub_cancel]

theorem StackInv.disjoint_of_lt (h : StackInv A kernel c proc ts made s)
    (hguard : c.procStackGuard = false) {t u : Nat} (ht : t ∈ made) (hu : u ∈ made)
    (hlt : ts.idxOf t < ts.idxOf u) (hfits : c.SlotFits (ts.idxOf u)) :
    Disjoint (s.user t).range (s.user u).range := by
  obtain ⟨hfits', hmax, hapart⟩ := hfits.lt hlt
  obtain ⟨size, -, ht⟩ := h.range_eq hguard hmax ht hfits'
  obtain ⟨size', hsize', hu⟩ := h.range_eq hguard hmax hu hfits
  rw [ht, hu]
  refine Set.disjoint_left.mpr fun x hx hx' => ?_
  exact Nat.lt_irrefl _ (Nat.lt_of_lt_of_le hx'.2
    (Nat.le_trans (Nat.add_le_add_left hsize' _) (Nat.le_trans hapart hx.1)))

/-- Another stack is mapped: the pages of this one read as before. -/
theorem StackInv.frame (h : StackInv A kernel c proc ts made s)
    (hguard : c.procStackGuard = false) (halign : c.procUserStackSizeMax % 4096 = 0)
    {thread fuel current : Nat} (hmem : thread ∈ ts)
    (hsize : (s.tasks.kthreads thread).stackSize ≤ c.procUserStackSizeMax)
    (hfuel : ts.length ≤ fuel) (hfits : c.SlotFits (ts.idxOf thread))
    (hcall : archProcCreateStack A kernel current c fuel s thread = some s')
    {u : Nat} (hu : u ∈ made) (hne : u ≠ thread) (hfitsU : c.SlotFits (ts.idxOf u)) {v : Nat}
    (hv : v < 4294967296) (hpage : (s.user u).OnPage v) :
    mmuMapGetTable s'.mmu.mem (s.table proc) v = mmuMapGetTable s.mmu.mem (s.table proc) v := by
  obtain ⟨phys, heap, mmu, hs⟩ := h.created hmem hfuel hcall
  obtain ⟨tabs, hT, hk, ht⟩ := h.tables
  have hmmu := hs.guarded
  rw [mapGuards, hguard, if_neg Bool.false_ne_true] at hmmu
  rw [← Option.some.inj hmmu]
  have hidx : ts.idxOf thread ≠ ts.idxOf u :=
    fun heq => hne ((List.idxOf_inj hmem).mp heq).symm
  -- both slots start at a page
  have hslots : ∀ i, i * c.procUserStackSizeMax % 4096 = 0 := fun i => by
    rw [Nat.mul_mod, halign, Nat.mul_zero, Nat.zero_mod]
  have hmapped := hs.mapped
  rw [hfits.slot hguard] at hmapped
  have hT₁ := hslots (ts.idxOf thread)
  have hU₁ := hslots (ts.idxOf u)
  have hmask := pageMask_eq hv
  obtain ⟨x, hx, hxv⟩ := hpage
  rcases Nat.lt_or_gt_of_ne hidx with hlt | hlt
  · obtain ⟨-, hmax, hapart⟩ := hfitsU.lt hlt
    obtain ⟨size, hsizeU, hrange⟩ := h.range_eq hguard hmax hu hfitsU
    rw [hrange] at hx
    obtain ⟨hlo, hhi⟩ := hx
    unfold StackConfig.SlotFits at hfits hfitsU
    refine mmuMapTable_frame (ht.granted hs.granted) hT hk (by omega) (by omega) hmapped hv
      (by omega) (.inl ?_)
    unfold kernelOffset
    omega
  · obtain ⟨-, hmax, hapart⟩ := hfits.lt hlt
    obtain ⟨size, hsizeU, hrange⟩ := h.range_eq hguard hmax hu hfitsU
    rw [hrange] at hx
    obtain ⟨hlo, hhi⟩ := hx
    unfold StackConfig.SlotFits at hfits hfitsU
    refine mmuMapTable_frame (ht.granted hs.granted) hT hk (by omega) (by omega) hmapped hv
      (by omega) (.inr ?_)
    unfold kernelOffset
    omega

/-- **The user stacks of a process never overlap**, and creating one changes
the translation of no page of another. -/
theorem user_stacks_disjoint (hguard : c.procStackGuard = false)
    (halign : c.procUserStackSizeMax % 4096 = 0)
    (hrun : StackRun A kernel c proc ts made s) (hlow : ∀ t ∈ made, c.SlotFits (ts.idxOf t)) :
    (∀ t ∈ made, ∀ u ∈ made, t ≠ u → Disjoint (s.user t).range (s.user u).range) ∧
    ∀ thread ∈ ts, (s.tasks.kthreads thread).stackSize ≤ c.procUserStackSizeMax →
      c.SlotFits (ts.idxOf thread) → ∀ fuel, ts.length ≤ fuel → ∀ current s',
        archProcCreateStack A kernel current c fuel s thread = some s' →
        ∀ u ∈ made, u ≠ thread → ∀ v < 4294967296, (s.user u).OnPage v →
          mmuMapGetTable s'.mmu.mem (s.table proc) v =
            mmuMapGetTable s.mmu.mem (s.table proc) v := by
  have h := hrun.inv hguard
  constructor
  · intro t ht u hu hne
    have hidx : ts.idxOf t ≠ ts.idxOf u :=
      fun heq => hne ((List.idxOf_inj (h.member t ht)).mp heq)
    rcases Nat.lt_or_gt_of_ne hidx with hlt | hlt
    · exact h.disjoint_of_lt hguard ht hu hlt (hlow u hu)
    · exact (h.disjoint_of_lt hguard hu ht hlt (hlow t ht)).symm
  · intro thread hmem hsize hfits fuel hfuel current s' hcall u hu hne v hv hpage
    exact h.frame hguard halign hmem hsize hfuel hfits hcall hu hne (hlow u hu) hv hpage

end Runs

/-! ## Two threads on the boot heap -/

def twoPageSlots : StackConfig := ⟨0x2000, false⟩

/-- The process at `1`, with its table at `0x1000`; a thread asks for a stack
of one and a half pages. -/
def stackTasks : Tasks :=
  { Tasks.boot 1 0 with
    kprocs := Function.update (fun _ => zeroProcess) 1
      { zeroProcess with pid := 1, mmuTable := 0x1000, domain := procDomainUserspace }
    kthreads := fun _ => { zeroThread with stackSize := 0x1800 } }

def stackStart : StackState { t : Table // TableOk 0x400000 0x410000 t } :=
  ⟨stackTasks, fun _ => ⟨0, 0, 0⟩, bootMmu⟩

/-- A thread is added, and gets a stack if it is not too large. -/
def addWithStack (s : StackState { t : Table // TableOk 0x400000 0x410000 t }) (thread : Nat) :
    Option (StackState { t : Table // TableOk 0x400000 0x410000 t }) := do
  let tasks ← s.tasks.procAddThread 1 thread
  if (tasks.kthreads thread).stackSize ≤ 0x2000 then
    archProcCreateStack bootPages 0x2000 0x1000 twoPageSlots 2 { s with tasks := tasks } thread
  else none

theorem StackRun.of_addWithStack {ts made : List Nat}
    {s s' : StackState { t : Table // TableOk 0x400000 0x410000 t }} {thread : Nat}
    (hrun : StackRun bootPages 0x2000 twoPageSlots 1 ts made s) (h0 : thread ≠ 0)
    (hnew : thread ∉ ts) (hlen : ts.length ≤ 1) (h : addWithStack s thread = some s') :
    StackRun bootPages 0x2000 twoPageSlots 1 (ts ++ [thread]) (thread :: made) s' := by
  obtain ⟨tasks, hadd, h⟩ := Option.bind_eq_some_iff.mp h
  split at h
  · rename_i hsize
    refine .stack (.add hrun h0 hnew hadd) (List.mem_append_right _ (List.mem_singleton_self _))
      hsize ?_ h
    rw [List.length_append]
    exact Nat.succ_le_succ hlen
  · cases h

set_option maxRecDepth 100000 in
theorem user_stacks_disjoint_two :
    ∃ s, StackRun bootPages 0x2000 twoPageSlots 1 [2, 3] [3, 2] s ∧
      Disjoint (s.user 2).range (s.user 3).range := by
  have hsome : ((addWithStack stackStart 2).bind fun s => addWithStack s 3).isSome = true := by
    decide +kernel
  obtain ⟨s', hs'⟩ := Option.isSome_iff_exists.mp hsome
  obtain ⟨s, hs, hs'⟩ := Option.bind_eq_some_iff.mp hs'
  have htables : TablesHold bootPages 0x2000 0x1000 bootMmu :=
    ⟨[0x1000, 0x2000], by simp, by simp, bootMmu_tables 0x2000 (by simp)⟩
  have hstart : StackRun bootPages 0x2000 twoPageSlots 1 [] [] stackStart :=
    .start (llistRep_init _) htables
  have hrun := (hstart.of_addWithStack (by decide) (by simp) (Nat.zero_le _) hs).of_addWithStack
    (by decide) (by simp) (Nat.le_refl _) hs'
  refine ⟨s', hrun, (user_stacks_disjoint rfl rfl hrun ?_).1 2 (by simp) 3 (by simp) (by decide)⟩
  intro t ht
  unfold StackConfig.SlotFits
  rcases List.mem_pair.mp ht with rfl | rfl <;> decide

end LambdaOs
