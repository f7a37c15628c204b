import Mathlib.Data.Finset.Card
import LambdaOs.LastWrite
import LambdaOs.AllocPages
import LambdaOs.PagingStep
import LambdaOs.Run

/-!
# Mapping below the kernel

Below `KERNEL_OFFSET` a mapping is private: a store reaches the table it is
made through and no other (`UserWrite`). A range is a sequence of such
stores, so what a table answers for an address after any operations is the
last one that covered its page (`mmu_table_refines_map`).
-/

namespace LambdaOs

section User

variable {H : Type} {A : PageHeap H} {kernel : Nat} {tabs : List Nat}

/-! ## One page -/

/-- Table `T` reads `word` for the page with number `page`; no other word of
any table changes. -/
structure UserWrite (tabs : List Nat) (T page word : Nat) (m m' : PageMem) : Prop where
  self : ∀ v < 4294967296, pgdirGetPageEntry m' T v =
    if v / 4096 = page then word else pgdirGetPageEntry m T v
  others : ∀ U ∈ tabs, U ≠ T → ∀ v < 4294967296,
    pgdirGetPageEntry m' U v = pgdirGetPageEntry m U v

/-- No two tables share a page table below the kernel. -/
theorem Tables.not_sameTable {s : Mmu H} (ht : Tables A kernel tabs s) {T U i : Nat}
    (hT : T ∈ tabs) (hU : U ∈ tabs) (hne : U ≠ T) (hi : i < kernelSlot) :
    ¬ SameTable s.mem U T i := by
  rintro ⟨hUp, hTp, heq⟩
  have hlt : i < pgdirEntries := Nat.lt_trans hi (by decide)
  rcases (ht.shared U hU T hT i hlt i hlt hUp hTp heq).2 with h | h
  · exact hne h
  · exact Nat.lt_irrefl _ (Nat.lt_of_lt_of_le hi h.1)

theorem pgdirMapPage_user {s s' : Mmu H} {T phys virt flags : Nat}
    (ht : Tables A kernel tabs s) (hnull : A.NeverNull) (hT : T ∈ tabs)
    (hv : virt < kernelOffset) (hal : virt % 4096 = 0)
    (h : pgdirMapPage A kernel s T phys virt flags = some s') :
    Tables A kernel tabs s' ∧
      UserWrite tabs T (virt / 4096) (pageWord (pageMask phys) flags) s.mem s'.mem ∧
      ∀ i < pgdirEntries, Present (s'.mem T i) ↔ Present (s.mem T i) ∨ i = pdindex virt := by
  have hlt : virt < 4294967296 := Nat.lt_trans hv (by decide)
  have hmask : pageMask virt = virt := pageMask_of_aligned hlt hal
  have hnk : ¬ kernelOffset ≤ virt := Nat.not_le.mpr hv
  have hdir : mapDir kernel T virt = T := if_neg fun hcon => hnk hcon.1
  obtain ⟨ht', hstep⟩ := pgdirMapPage_spec ht hnull hT
    (by rw [hmask]; exact fun hk => absurd hk hnk) h
  rw [hmask, hdir] at hstep
  have hslot : pdindex virt < kernelSlot := by
    rw [← Nat.not_le, kernelSlot_le_pdindex]
    exact hnk
  refine ⟨ht', ⟨?_, ?_⟩, ?_⟩
  · intro v hv'
    rw [pgdirGetPageEntry_eq, pgdirGetPageEntry_eq]
    by_cases hpd : pdindex v = pdindex virt
    · rw [hpd, hstep.seen T hT (Or.inl rfl)]
      have hiff := @index_eq_iff v virt
      by_cases hpt : ptindex v = ptindex virt
      · rw [if_pos hpt, if_pos (hiff.mp ⟨hpd, hpt⟩)]
      · rw [if_neg hpt, if_neg fun heq => hpt (hiff.mpr heq).2]
    · rw [hstep.other T hT _ (pdindex_lt hv') (fun heq => absurd heq hpd),
        if_neg fun heq => hpd (index_eq_iff.mpr heq).1]
  · intro U hU hne v hv'
    rw [pgdirGetPageEntry_eq, pgdirGetPageEntry_eq]
    refine hstep.other U hU _ (pdindex_lt hv') ?_ _
    intro _ hsee
    rcases hsee with h | h | h
    · exact hne h
    · exact hne h
    · exact ht.not_sameTable hT hU hne hslot h
  · intro i hi
    rw [hstep.present T hT i hi]
    simp

/-- Clearing one word of a page table that only slot `pd` of `T` uses. -/
theorem unmapPage_user {s : Mmu H} {T virt : Nat} (ht : Tables A kernel tabs s) (hT : T ∈ tabs)
    (hv : virt < kernelOffset) :
    Tables A kernel tabs { s with mem := unmapPage s.mem T virt } ∧
      UserWrite tabs T (virt / 4096) 0 s.mem (unmapPage s.mem T virt) ∧
      ∀ i, unmapPage s.mem T virt T i = s.mem T i := by
  have hlt : virt < 4294967296 := Nat.lt_trans hv (by decide)
  have hpd := pdindex_lt hlt
  have hslot : pdindex virt < kernelSlot := by
    rw [← Nat.not_le, kernelSlot_le_pdindex, Nat.not_le]
    exact hv
  unfold unmapPage
  by_cases hp : Present (s.mem T (pdindex virt))
  · rw [if_pos hp]
    have hnd := ht.notDir T hT _ hpd hp
    -- directories are untouched
    have hdirs : ∀ U ∈ tabs, ∀ i,
        s.mem.setWord (pageMask (s.mem T (pdindex virt))) (ptindex virt) 0 U i = s.mem U i := by
      intro U hU i
      have hne : U ≠ pageMask (s.mem T (pdindex virt)) := fun heq => hnd (heq ▸ hU)
      simp [PageMem.setWord, hne]
    have hread : ∀ U ∈ tabs, ∀ v,
        pgdirGetPageEntry (s.mem.setWord (pageMask (s.mem T (pdindex virt))) (ptindex virt) 0) U v
          = if Present (s.mem U (pdindex v)) ∧
              pageMask (s.mem U (pdindex v)) = pageMask (s.mem T (pdindex virt))
              ∧ ptindex v = ptindex virt then 0
            else pgdirGetPageEntry s.mem U v := by
      intro U hU v
      simp only [pgdirGetPageEntry, hdirs U hU]
      by_cases hUp : Present (s.mem U (pdindex v)) <;> simp [hUp, PageMem.setWord]
    refine ⟨⟨ht.aligned, ht.dirHeld, ?_, ?_, ?_⟩, ⟨?_, ?_⟩,
      fun i => hdirs T hT i⟩
    · intro U hU i
      simp only [hdirs U hU]
      exact ht.pageHeld U hU i
    · intro U hU i
      simp only [hdirs U hU]
      exact ht.notDir U hU i
    · intro U hU V hV i hi j hj
      simp only [hdirs U hU, hdirs V hV]
      intro hUi hVj heq
      obtain ⟨hij, hcase⟩ := ht.shared U hU V hV i hi j hj hUi hVj heq
      refine ⟨hij, hcase.imp_right ?_⟩
      rintro ⟨hks, hkt, hown⟩
      refine ⟨hks, hkt, ?_⟩
      simp only [hdirs kernel hkt]
      exact hown
    · intro v hv'
      rw [hread T hT v]
      refine if_congr ⟨?_, ?_⟩ rfl rfl
      · rintro ⟨hvp, heq, hpt⟩
        have hij := (ht.shared T hT T hT _ (pdindex_lt hv') _ hpd hvp hp heq).1
        exact index_eq_iff.mp ⟨hij, hpt⟩
      · intro heq
        obtain ⟨hij, hpt⟩ := index_eq_iff.mpr heq
        rw [hij]
        exact ⟨hp, rfl, hpt⟩
    · intro U hU hne v hv'
      rw [hread U hU v, if_neg]
      rintro ⟨hUp, heq, -⟩
      obtain ⟨hij, -⟩ := ht.shared U hU T hT _ (pdindex_lt hv') _ hpd hUp hp heq
      rw [hij] at hUp heq
      exact ht.not_sameTable hT hU hne hslot ⟨hUp, hp, heq⟩
  · rw [if_neg hp]
    refine ⟨ht, ⟨?_, fun _ _ _ _ _ => rfl⟩, fun _ => rfl⟩
    intro v _
    -- nothing was mapped there
    split
    · rename_i heq
      have habs : ¬ Present (s.mem T (pdindex v)) := by
        rw [(index_eq_iff.mpr heq).1]
        exact hp
      rw [pgdirGetPageEntry_eq, slotEntry_of_absent habs]
    · rfl

/-! ## Ranges -/

theorem mem_pageOffs {size : Nat} {offs : List Nat} (h : pageOffs size = some offs) {off : Nat} :
    off ∈ offs ↔ off % 4096 = 0 ∧ off < size := by
  unfold pageOffs at h
  split at h
  · obtain rfl := Option.some.inj h
    simp only [List.mem_map, List.mem_range]
    constructor
    · rintro ⟨k, hk, rfl⟩
      omega
    · rintro ⟨hal, hlt⟩
      exact ⟨off / 4096, by omega, by omega⟩
  · cases h

/-- An empty range has no page. -/
theorem pageOffs_zero {offs : List Nat} (h : pageOffs 0 = some offs) : offs = [] :=
  List.eq_nil_iff_forall_not_mem.mpr fun _ hoff => Nat.not_lt_zero _ ((mem_pageOffs h).mp hoff).2

theorem pageOffs_le {size : Nat} {offs : List Nat} (h : pageOffs size = some offs) :
    size ≤ 0xFFFFF000 := by
  unfold pageOffs at h
  split at h
  · assumption
  · cases h

/-- The page `off` bytes into a range. -/
theorem page_off (base off : Nat) (hoff : off % 4096 = 0) :
    u32 (pageMask base + off) % 4096 = 0 := by
  have hal := pageMask_aligned base
  simp only [u32]
  omega

theorem pageMask_page_off (base off : Nat) (hoff : off % 4096 = 0) :
    pageMask (u32 (pageMask base + off)) = u32 (pageMask base + off) :=
  pageMask_of_aligned (u32_lt _) (page_off base off hoff)

/-- The words a table reads after a range of stores below the kernel: for
each page the last store to it. -/
structure UserRange (tabs : List Nat) (T virt : Nat) (word : Nat → Nat) (offs : List Nat)
    (m m' : PageMem) : Prop where
  self : ∀ v < 4294967296, pgdirGetPageEntry m' T v =
    lastWrite (fun off => v / 4096 = u32 (virt + off) / 4096) word offs (pgdirGetPageEntry m T v)
  others : ∀ U ∈ tabs, U ≠ T → ∀ v < 4294967296,
    pgdirGetPageEntry m' U v = pgdirGetPageEntry m U v

theorem UserRange.nil {T virt : Nat} {word : Nat → Nat} (m : PageMem) :
    UserRange tabs T virt word [] m m :=
  ⟨fun _ _ => rfl, fun _ _ _ _ _ => rfl⟩

theorem UserRange.cons {T virt off : Nat} {word : Nat → Nat} {offs : List Nat}
    {m m₁ m' : PageMem} (h₁ : UserWrite tabs T (u32 (virt + off) / 4096) (word off) m m₁)
    (h₂ : UserRange tabs T virt word offs m₁ m') :
    UserRange tabs T virt word (off :: offs) m m' := by
  refine ⟨?_, ?_⟩
  · intro v hv
    rw [h₂.self v hv, h₁.self v hv, lastWrite_cons]
  · intro U hU hne v hv
    rw [h₂.others U hU hne v hv, h₁.others U hU hne v hv]

/-- The loop of `mmu_map_table`. -/
theorem mapLoop_user {T phys virt flags : Nat} (hnull : A.NeverNull) (hT : T ∈ tabs)
    {offs : List Nat} {s s' : Mmu H} (ht : Tables A kernel tabs s)
    (hlow : ∀ off ∈ offs, off % 4096 = 0 ∧ u32 (pageMask virt + off) < kernelOffset)
    (hrun : exec (fun s off => pgdirMapPage A kernel s T (u32 (pageMask phys + off))
      (u32 (pageMask virt + off)) flags) s offs = some s') :
    Tables A kernel tabs s' ∧
      UserRange tabs T (pageMask virt) (fun off => pageWord (u32 (pageMask phys + off)) flags)
        offs s.mem s'.mem ∧
      ∀ i < pgdirEntries, Present (s'.mem T i) ↔
        Present (s.mem T i) ∨ ∃ off ∈ offs, i = pdindex (u32 (pageMask virt + off)) := by
  induction offs generalizing s with
  | nil =>
      obtain rfl := Option.some.inj hrun
      exact ⟨ht, UserRange.nil _, fun i _ => by simp⟩
  | cons off offs ih =>
      obtain ⟨s₁, hstep, hrest⟩ := exec_cons_eq_some.mp hrun
      obtain ⟨hoff, hk⟩ := hlow off (List.mem_cons_self ..)
      obtain ⟨ht₁, hwrite, hpres⟩ :=
        pgdirMapPage_user ht hnull hT hk (page_off virt off hoff) hstep
      obtain ⟨ht', hrange, hpres'⟩ := ih ht₁
        (fun o ho => hlow o (List.mem_cons_of_mem _ ho)) hrest
      rw [pageMask_page_off phys off hoff] at hwrite
      refine ⟨ht', UserRange.cons hwrite hrange, ?_⟩
      intro i hi
      rw [hpres' i hi, hpres i hi]
      simp only [List.mem_cons, exists_eq_or_imp, or_assoc]

/-- The loop of `mmu_unmap_table`. -/
theorem unmapLoop_user {T virt : Nat} (hT : T ∈ tabs) :
    ∀ {offs : List Nat} {s : Mmu H}, Tables A kernel tabs s →
      (∀ off ∈ offs, u32 (virt + off) < kernelOffset) →
      Tables A kernel tabs
        { s with mem := offs.foldl (fun m off => unmapPage m T (u32 (virt + off))) s.mem } ∧
        UserRange tabs T virt (fun _ => 0) offs s.mem
          (offs.foldl (fun m off => unmapPage m T (u32 (virt + off))) s.mem) ∧
        ∀ i, offs.foldl (fun m off => unmapPage m T (u32 (virt + off))) s.mem T i = s.mem T i
  | [], s, ht, _ => ⟨ht, UserRange.nil _, fun _ => rfl⟩
  | off :: offs, s, ht, hlow => by
      obtain ⟨ht₁, hwrite, hdir⟩ := unmapPage_user ht hT (hlow off (List.mem_cons_self ..))
      obtain ⟨ht', hrange, hdir'⟩ := unmapLoop_user hT ht₁
        (fun o ho => hlow o (List.mem_cons_of_mem _ ho))
      exact ⟨ht', UserRange.cons hwrite hrange, fun i => (hdir' i).trans (hdir i)⟩

/-! ## Enough page tables -/

/-- The heap can serve `n` more requests for a page. -/
inductive PageHeap.Supplies (A : PageHeap H) : Nat → H → Prop
  | zero (h : H) : A.Supplies 0 h
  | succ {n r : Nat} {h h' : H} : A.kamalloc h 0x1000 0x1000 = some (r, h') →
      A.Supplies n h' → A.Supplies (n + 1) h

/-- The directory slots below the kernel without a page table: each can ask
for one page, once. -/
def absentSlots (m : PageMem) (T : Nat) : Finset Nat :=
  (Finset.range kernelSlot).filter fun i => ¬ Present (m T i)

/-- The heap can serve every page table that `T` may still ask for. -/
def EnoughPages (A : PageHeap H) (T : Nat) (s : Mmu H) : Prop :=
  A.Supplies (absentSlots s.mem T).card s.heap

theorem EnoughPages.congr {T : Nat} {s s' : Mmu H} (h : EnoughPages A T s)
    (hheap : s'.heap = s.heap) (hdir : ∀ i, s'.mem T i = s.mem T i) : EnoughPages A T s' := by
  have habs : absentSlots s'.mem T = absentSlots s.mem T := by
    simp only [absentSlots, hdir]
  rw [EnoughPages, habs, hheap]
  exact h

theorem mem_absentSlots {m : PageMem} {T i : Nat} :
    i ∈ absentSlots m T ↔ i < kernelSlot ∧ ¬ Present (m T i) := by
  rw [absentSlots, Finset.mem_filter, Finset.mem_range]

theorem pgdirMapPage_total {s : Mmu H} {T phys virt flags : Nat}
    (ht : Tables A kernel tabs s) (hnull : A.NeverNull) (hT : T ∈ tabs)
    (hv : virt < kernelOffset) (hal : virt % 4096 = 0)
    (hsup : EnoughPages A T s) :
    ∃ s', pgdirMapPage A kernel s T phys virt flags = some s' ∧ EnoughPages A T s' := by
  have hmask : pageMask virt = virt := pageMask_of_aligned (Nat.lt_trans hv (by decide)) hal
  have hdir : mapDir kernel T virt = T := if_neg fun hcon => absurd hcon.1 (Nat.not_le.mpr hv)
  have hslot : pdindex virt < kernelSlot := by
    rw [← Nat.not_le, kernelSlot_le_pdindex, Nat.not_le]
    exact hv
  -- the slot of `virt` is no longer absent, and nothing else changes
  have habsent : ∀ s', pgdirMapPage A kernel s T phys virt flags = some s' →
      absentSlots s'.mem T = (absentSlots s.mem T).erase (pdindex virt) := by
    intro s' hs'
    obtain ⟨-, -, hpres⟩ := pgdirMapPage_user ht hnull hT hv hal hs'
    ext i
    rw [Finset.mem_erase, mem_absentSlots, mem_absentSlots]
    constructor
    · rintro ⟨hi, habs⟩
      rw [hpres i (Nat.lt_trans hi (by decide)), not_or] at habs
      exact ⟨habs.2, hi, habs.1⟩
    · rintro ⟨hne, hi, habs⟩
      rw [hpres i (Nat.lt_trans hi (by decide)), not_or]
      exact ⟨hi, habs, hne⟩
  by_cases hp : Present (s.mem T (pdindex virt))
  · have hadd : addPageTable A s T (pdindex virt) = some s := if_pos hp
    refine ⟨_, by rw [pgdirMapPage, hmask, hdir, hadd]; rfl, ?_⟩
    rw [EnoughPages, habsent _ (by rw [pgdirMapPage, hmask, hdir, hadd]; rfl),
      Finset.erase_eq_of_notMem]
    · exact hsup
    · exact fun hmem => (mem_absentSlots.mp hmem).2 hp
  · have hmem : pdindex virt ∈ absentSlots s.mem T := mem_absentSlots.mpr ⟨hslot, hp⟩
    obtain ⟨n, hn⟩ := Nat.exists_eq_succ_of_ne_zero (Finset.card_ne_zero_of_mem hmem)
    rw [EnoughPages, hn] at hsup
    obtain _ | @⟨_, r, _, h', hk, hrest⟩ := hsup
    have hadd : ∃ s₁, addPageTable A s T (pdindex virt) = some s₁ ∧ s₁.heap = h' := by
      rw [addPageTable, if_neg hp, hk]
      exact ⟨_, rfl, rfl⟩
    obtain ⟨s₁, hadd, rfl⟩ := hadd
    have hmap : pgdirMapPage A kernel s T phys virt flags = some
        { s₁ with mem := storeEntry s₁.mem T T (pdindex virt) (ptindex virt) (pageMask phys) flags }
        := by
      rw [pgdirMapPage, hmask, hdir, hadd]
      rfl
    refine ⟨_, hmap, ?_⟩
    rw [EnoughPages, habsent _ hmap, Finset.card_erase_of_mem hmem, hn]
    exact hrest

theorem mapLoop_total {T virt : Nat} (phys flags : Nat) (hnull : A.NeverNull) (hT : T ∈ tabs)
    {offs : List Nat} {s : Mmu H} (ht : Tables A kernel tabs s)
    (hlow : ∀ off ∈ offs, off % 4096 = 0 ∧ u32 (pageMask virt + off) < kernelOffset)
    (hsup : EnoughPages A T s) :
    ∃ s', exec (fun s off => pgdirMapPage A kernel s T (u32 (pageMask phys + off))
      (u32 (pageMask virt + off)) flags) s offs = some s' ∧ EnoughPages A T s' := by
  induction offs generalizing s with
  | nil => exact ⟨s, rfl, hsup⟩
  | cons off offs ih =>
    obtain ⟨hoff, hk⟩ := hlow off (List.mem_cons_self ..)
    obtain ⟨s₁, hstep, hsup₁⟩ := pgdirMapPage_total ht hnull hT hk (page_off virt off hoff) hsup
    obtain ⟨ht₁, -⟩ := pgdirMapPage_user ht hnull hT hk (page_off virt off hoff) hstep
    obtain ⟨s', hrest, hsup'⟩ := ih ht₁ (fun o ho => hlow o (List.mem_cons_of_mem _ ho)) hsup₁
    exact ⟨s', exec_cons_eq_some.mpr ⟨s₁, hstep, hrest⟩, hsup'⟩

end User

/-! ## The partial map -/

/-- A call on one MMU table. -/
inductive MmuOp where
  | map (virt phys size flags : Nat)
  | unmap (virt size : Nat)
deriving Repr, DecidableEq

namespace MmuOp

def virt : MmuOp → Nat
  | .map virt _ _ _ => virt
  | .unmap virt _ => virt

def size : MmuOp → Nat
  | .map _ _ size _ => size
  | .unmap _ size => size

/-- Page aligned, not empty, below the kernel. -/
def Valid (op : MmuOp) : Prop :=
  op.virt % 4096 = 0 ∧ 0 < op.size ∧ op.virt + op.size ≤ kernelOffset

/-- The operation covers the page of `v`. -/
def Covers (v : Nat) (op : MmuOp) : Prop :=
  op.virt ≤ pageMask v ∧ pageMask v < op.virt + op.size

instance (v : Nat) : DecidablePred (Covers v) := fun _ => inferInstanceAs (Decidable (_ ∧ _))

/-- What the pages an operation covers answer after it. A mapping is always
readable. -/
def answer (v : Nat) : MmuOp → Except Int (Nat × Nat)
  | .map virt phys _ flags =>
      .ok (mmuFlagRead ||| (flags &&& mmuFlagWrite) ||| (flags &&& mmuFlagKernel),
        u32 (pageMask phys + (pageMask v - virt)))
  | .unmap _ _ => .error (-EUNSPEC)

end MmuOp

/-- The partial map the table stands for: the last operation that covered the
page of `v` decides. -/
def pageMapSpec (ops : List MmuOp) (v : Nat) : Except Int (Nat × Nat) :=
  lastWrite (MmuOp.Covers v) (MmuOp.answer v) ops (.error (-EUNSPEC))

section Refine

variable {H : Type} (A : PageHeap H) (kernel T : Nat)

def mmuStep (s : Mmu H) : MmuOp → Option (Mmu H)
  | .map virt phys size flags => mmuMapTable A kernel s T virt phys size flags
  | .unmap virt size => (mmuUnmapTable s.mem T virt size).map fun m => { s with mem := m }

variable {A kernel T}

/-- The words of a range answer for the covered pages, and only for them. -/
theorem lastWrite_pages {β : Type*} {virt size : Nat} {offs : List Nat}
    (hoffs : pageOffs size = some offs) (hvirt : virt % 4096 = 0)
    (hfits : virt + size ≤ 4294967296) (word : Nat → β) (init : β) {v : Nat}
    (hv : v < 4294967296) :
    lastWrite (fun off => v / 4096 = u32 (virt + off) / 4096) word offs init =
      if virt ≤ pageMask v ∧ pageMask v < virt + size then word (pageMask v - virt) else init := by
  have hmask := pageMask_eq hv
  have hwrap : ∀ off ∈ offs, u32 (virt + off) = virt + off ∧ off % 4096 = 0 ∧ off < size := by
    intro off hoff
    obtain ⟨hoff, hlt⟩ := (mem_pageOffs hoffs).mp hoff
    exact ⟨u32_of_lt (by omega), hoff, hlt⟩
  split
  · rename_i hcov
    refine lastWrite_of_mem ⟨pageMask v - virt, (mem_pageOffs hoffs).mpr ?_, ?_⟩ ?_
    · omega
    · rw [u32_of_lt] <;> omega
    · intro off hoff hhit
      obtain ⟨hu, hoff, -⟩ := hwrap off hoff
      rw [hu] at hhit
      congr 1
      omega
  · rename_i hcov
    refine lastWrite_of_forall_not fun off hoff hhit => hcov ?_
    obtain ⟨hu, hoff, hlt⟩ := hwrap off hoff
    rw [hu] at hhit
    omega

theorem lastWrite_range {op : MmuOp} (hop : op.Valid) {offs : List Nat}
    (hoffs : pageOffs op.size = some offs) (word : Nat → Nat) (init : Nat) {v : Nat}
    (hv : v < 4294967296) :
    lastWrite (fun off => v / 4096 = u32 (op.virt + off) / 4096) word offs init =
      if op.Covers v then word (pageMask v - op.virt) else init :=
  lastWrite_pages hoffs hop.1 (Nat.le_trans hop.2.2 (by decide)) word init hv

/-- The answer of a stored word. -/
theorem entryAnswer_pageWord {frame flags : Nat} (hlt : frame < 4294967296)
    (hal : frame % 4096 = 0) :
    entryAnswer (pageWord frame (pageFlags flags)) =
      .ok (mmuFlagRead ||| (flags &&& mmuFlagWrite) ||| (flags &&& mmuFlagKernel), frame) := by
  have hbit : ∀ i, flags &&& 2 ^ i = 0 ∨ flags &&& 2 ^ i = 2 ^ i := by
    intro i
    rw [Nat.and_two_pow]
    cases flags.testBit i <;> simp
  have hmask : frame &&& 0xFFFFF000 = frame := pageMask_of_aligned hlt hal
  have hlow : ∀ mask, 0xFFFFF000 &&& mask = 0 → frame &&& mask = 0 := by
    intro mask h
    rw [← hmask]
    exact pageMask_and frame h
  have h2 := hlow 2 (by decide)
  have h4 := hlow 4 (by decide)
  have hw : flags &&& 2 = 0 ∨ flags &&& 2 = 2 := hbit 1
  have hk : flags &&& 16 = 0 ∨ flags &&& 16 = 16 := hbit 4
  rcases hw with hw | hw <;> rcases hk with hk | hk <;>
    simp [entryAnswer, pageWord, pageFlags, Present, pageMask, pageFlagPresent, pageFlagWritable,
      pageFlagUser, mmuFlagRead, mmuFlagWrite, mmuFlagKernel, Nat.and_or_distrib_right,
      hw, hk, h2, h4, hmask]

/-- The stores of one valid operation. -/
def MmuOp.word (op : MmuOp) (off : Nat) : Nat :=
  match op with
  | .map _ phys _ flags => pageWord (u32 (pageMask phys + off)) (pageFlags flags)
  | .unmap _ _ => 0

theorem MmuOp.entryAnswer_word {op : MmuOp} (hop : op.Valid) {v : Nat} (hv : v < 4294967296) :
    entryAnswer (op.word (pageMask v - op.virt)) = op.answer v := by
  cases op with
  | map virt phys size flags =>
    have hoff : (pageMask v - virt) % 4096 = 0 := by
      have h1 := pageMask_eq hv
      have h2 : virt % 4096 = 0 := hop.1
      omega
    exact entryAnswer_pageWord (u32_lt _) (page_off phys _ hoff)
  | unmap virt size => simp [MmuOp.word, MmuOp.answer, entryAnswer, Present]

/-- The address the loop of an operation starts at. -/
def MmuOp.base : MmuOp → Nat
  | .map virt _ _ _ => pageMask virt
  | .unmap virt _ => virt

/-- All pages the operation reaches lie below the kernel. -/
def MmuOp.Low (op : MmuOp) : Prop :=
  ∀ off, off % 4096 = 0 → off < op.size → u32 (op.base + off) < kernelOffset

theorem MmuOp.Valid.base_eq {op : MmuOp} (hop : op.Valid) : op.base = op.virt := by
  cases op with
  | map virt phys size flags =>
    have hk : virt + size ≤ kernelOffset := hop.2.2
    exact pageMask_of_aligned (by simp only [kernelOffset] at hk; omega) hop.1
  | unmap virt size => rfl

theorem MmuOp.Valid.low {op : MmuOp} (hop : op.Valid) : op.Low := by
  intro off _ hlt
  have hk := hop.2.2
  rw [hop.base_eq, u32_of_lt] <;> simp only [kernelOffset] at * <;> omega

/-- One operation below the kernel is a range of stores. -/
theorem mmuStep_low {tabs : List Nat} {s s' : Mmu H} (hnull : A.NeverNull)
    (ht : Tables A kernel tabs s) (hT : T ∈ tabs) {op : MmuOp} (hop : op.Low)
    (h : mmuStep A kernel T s op = some s') :
    Tables A kernel tabs s' ∧
      ∃ offs, pageOffs op.size = some offs ∧
        UserRange tabs T op.base op.word offs s.mem s'.mem := by
  cases op with
  | map virt phys size flags =>
    obtain ⟨offs, hoffs, hrun⟩ := Option.bind_eq_some_iff.mp h
    have hlow : ∀ off ∈ offs, off % 4096 = 0 ∧ u32 (pageMask virt + off) < kernelOffset := by
      intro off hoff
      obtain ⟨hal, hlt⟩ := (mem_pageOffs hoffs).mp hoff
      exact ⟨hal, hop off hal hlt⟩
    rw [foldlM_eq_exec] at hrun
    obtain ⟨ht', hrange, -⟩ := mapLoop_user hnull hT ht hlow hrun
    exact ⟨ht', offs, hoffs, hrange⟩
  | unmap virt size =>
    obtain ⟨m, hm, rfl⟩ := Option.map_eq_some_iff.mp h
    obtain ⟨offs, hoffs, hfold⟩ := Option.bind_eq_some_iff.mp hm
    obtain rfl := Option.some.inj hfold
    have hlow : ∀ off ∈ offs, u32 (virt + off) < kernelOffset := by
      intro off hoff
      obtain ⟨hal, hlt⟩ := (mem_pageOffs hoffs).mp hoff
      exact hop off hal hlt
    obtain ⟨ht', hrange, -⟩ := unmapLoop_user hT ht hlow
    exact ⟨ht', offs, hoffs, hrange⟩

/-- A valid operation returns. -/
theorem mmuStep_total {s : Mmu H} (hnull : A.NeverNull) (ht : Tables A kernel [T] s)
    (hsup : EnoughPages A T s) {op : MmuOp} (hop : op.Valid) :
    ∃ s', mmuStep A kernel T s op = some s' ∧ EnoughPages A T s' := by
  have hsize : op.size ≤ 0xFFFFF000 := by
    have hk := hop.2.2
    simp only [kernelOffset] at hk
    omega
  have hoffs : pageOffs op.size = some _ := if_pos hsize
  have hT := List.mem_singleton.mpr (Eq.refl T)
  cases op with
  | map virt phys size flags =>
    obtain ⟨s', hrun, hsup'⟩ := mapLoop_total phys (pageFlags flags) hnull hT ht
      (fun off hoff => ⟨((mem_pageOffs hoffs).mp hoff).1,
        hop.low off ((mem_pageOffs hoffs).mp hoff).1 ((mem_pageOffs hoffs).mp hoff).2⟩) hsup
    refine ⟨s', Option.bind_eq_some_iff.mpr ⟨_, hoffs, ?_⟩, hsup'⟩
    rw [foldlM_eq_exec]
    exact hrun
  | unmap virt size =>
    obtain ⟨-, -, hdir⟩ := unmapLoop_user hT ht fun off hoff =>
      hop.low off ((mem_pageOffs hoffs).mp hoff).1 ((mem_pageOffs hoffs).mp hoff).2
    refine ⟨_, Option.map_eq_some_iff.mpr ⟨_, Option.bind_eq_some_iff.mpr ⟨_, hoffs, rfl⟩, rfl⟩, ?_⟩
    exact hsup.congr rfl hdir

/-- One valid operation decides the pages it covers and no others. -/
theorem mmuStep_get {tabs : List Nat} {s s' : Mmu H} (hnull : A.NeverNull)
    (ht : Tables A kernel tabs s) (hT : T ∈ tabs) {op : MmuOp} (hop : op.Valid)
    (h : mmuStep A kernel T s op = some s') :
    Tables A kernel tabs s' ∧ ∀ v < kernelOffset, mmuMapGetTable s'.mem T v =
      if op.Covers v then op.answer v else mmuMapGetTable s.mem T v := by
  obtain ⟨ht', offs, hoffs, hrange⟩ := mmuStep_low hnull ht hT hop.low h
  refine ⟨ht', ?_⟩
  intro v hv
  have hv' : v < 4294967296 := Nat.lt_trans hv (by decide)
  rw [mmuMapGetTable, hrange.self v hv', hop.base_eq, lastWrite_range hop hoffs _ _ hv']
  split
  · exact op.entryAnswer_word hop hv'
  · rfl

theorem mmuRun_get {tabs : List Nat} (hnull : A.NeverNull) {ops : List MmuOp} {s s' : Mmu H}
    (ht : Tables A kernel tabs s) (hT : T ∈ tabs) (hops : ∀ op ∈ ops, op.Valid)
    (hrun : exec (mmuStep A kernel T) s ops = some s') :
    Tables A kernel tabs s' ∧ ∀ v < kernelOffset, mmuMapGetTable s'.mem T v =
      lastWrite (MmuOp.Covers v) (MmuOp.answer v) ops (mmuMapGetTable s.mem T v) := by
  induction ops generalizing s with
  | nil =>
    obtain rfl := Option.some.inj hrun
    exact ⟨ht, fun _ _ => rfl⟩
  | cons op ops ih =>
    obtain ⟨s₁, hstep, hrest⟩ := exec_cons_eq_some.mp hrun
    obtain ⟨ht₁, hget⟩ := mmuStep_get hnull ht hT (hops op (List.mem_cons_self ..)) hstep
    obtain ⟨ht', hget'⟩ := ih ht₁ (fun o ho => hops o (List.mem_cons_of_mem _ ho)) hrest
    refine ⟨ht', ?_⟩
    intro v hv
    rw [hget' v hv, hget v hv, lastWrite_cons]

theorem mmuRun_total (hnull : A.NeverNull) {ops : List MmuOp} {s : Mmu H}
    (ht : Tables A kernel [T] s) (hsup : EnoughPages A T s) (hops : ∀ op ∈ ops, op.Valid) :
    ∃ s', exec (mmuStep A kernel T) s ops = some s' := by
  induction ops generalizing s with
  | nil => exact ⟨s, rfl⟩
  | cons op ops ih =>
    have hop := hops op (List.mem_cons_self ..)
    obtain ⟨s₁, hstep, hsup₁⟩ := mmuStep_total hnull ht hsup hop
    obtain ⟨s', hrest⟩ := ih (mmuStep_get hnull ht (List.mem_singleton.mpr rfl) hop hstep).1 hsup₁
      fun o ho => hops o (List.mem_cons_of_mem _ ho)
    exact ⟨s', exec_cons_eq_some.mpr ⟨s₁, hstep, hrest⟩⟩

/-- **A two-level page table is a partial map.** After every sequence of valid
operations from a table that maps nothing below the kernel, the table answers
for each address what the last operation that covered its page says, and no
further operation changes the answer for a page it does not cover. Such a
sequence always returns when the heap can serve its page tables. -/
theorem mmu_table_refines_map {s : Mmu H} (hnull : A.NeverNull) (ht : Tables A kernel [T] s)
    (hempty : ∀ v < kernelOffset, mmuMapGetTable s.mem T v = .error (-EUNSPEC))
    {ops : List MmuOp} (hops : ∀ op ∈ ops, op.Valid) :
    (∀ s', exec (mmuStep A kernel T) s ops = some s' →
      (∀ v < kernelOffset, mmuMapGetTable s'.mem T v = pageMapSpec ops v) ∧
      ∀ op : MmuOp, op.Valid → ∀ s'', mmuStep A kernel T s' op = some s'' →
        ∀ v < kernelOffset, ¬ op.Covers v →
          mmuMapGetTable s''.mem T v = mmuMapGetTable s'.mem T v) ∧
    (EnoughPages A T s → ∃ s', exec (mmuStep A kernel T) s ops = some s') := by
  refine ⟨?_, fun hsup => mmuRun_total hnull ht hsup hops⟩
  intro s' hrun
  obtain ⟨ht', hget⟩ := mmuRun_get hnull ht (List.mem_singleton.mpr rfl) hops hrun
  refine ⟨?_, ?_⟩
  · intro v hv
    rw [hget v hv, hempty v hv]
    rfl
  · intro op hop s'' hstep v hv hcov
    rw [(mmuStep_get hnull ht' (List.mem_singleton.mpr rfl) hop hstep).2 v hv, if_neg hcov]

end Refine

/-! ## On the boot heap -/

/-- Memory of zero words. -/
def zeroPages : PageMem := fun _ _ => 0

/-- An empty table at `0x1000`, beside the kernel's at `0x2000`. -/
def bootMmu : Mmu { t : Table // TableOk 0x400000 0x410000 t } := ⟨zeroPages, bootTable⟩

/-- Empty tables outside the boot heap. -/
theorem zeroPages_tables (kernel : Nat) (t : { t : Table // TableOk 0x400000 0x410000 t })
    {tabs : List Nat} (htabs : ∀ T ∈ tabs, T % 4096 = 0 ∧ T + 4096 ≤ 0x400000) :
    Tables bootKernelHeap kernel tabs ⟨zeroPages, t⟩ := by
  have habs : ∀ T i, ¬ Present (zeroPages T i) := by simp [zeroPages, Present]
  refine ⟨fun T hT => (htabs T hT).1,
    fun T hT x _ hx => ByteHeld.outside t.2 (Or.inl (Nat.lt_of_lt_of_le hx (htabs T hT).2)),
    ?_, ?_, ?_⟩
  · exact fun T _ i _ h => absurd h (habs T i)
  · exact fun T _ i _ h => absurd h (habs T i)
  · exact fun T _ _ _ i _ _ _ h => absurd h (habs T i)

theorem bootMmu_tables (kernel : Nat) {tabs : List Nat}
    (htabs : ∀ T ∈ tabs, T % 4096 = 0 ∧ T + 4096 ≤ 0x400000) :
    Tables bootPages kernel tabs bootMmu :=
  (zeroPages_tables kernel bootTable htabs).served

theorem bootMmu_empty (T v : Nat) : mmuMapGetTable bootMmu.mem T v = .error (-EUNSPEC) := by
  simp [mmuMapGetTable, pgdirGetPageEntry, entryAnswer, bootMmu, zeroPages, Present]

/-- Two pages mapped, the second unmapped again. -/
def bootOps : List MmuOp :=
  [.map 0x8000000 0x403000 0x2000 (mmuFlagRead ||| mmuFlagWrite), .unmap 0x8001000 0x1000]

theorem bootOps_valid : ∀ op ∈ bootOps, op.Valid := by
  simp [bootOps, MmuOp.Valid, MmuOp.virt, MmuOp.size, kernelOffset]

set_option maxRecDepth 100000 in
theorem mmu_table_refines_map_boot :
    ∃ s', exec (mmuStep bootPages 0x2000 0x1000) bootMmu bootOps = some s' ∧
      mmuMapGetTable s'.mem 0x1000 0x8000123 = .ok (mmuFlagRead ||| mmuFlagWrite, 0x403000) ∧
      mmuMapGetTable s'.mem 0x1000 0x8001123 = .error (-EUNSPEC) := by
  have hsome : (exec (mmuStep bootPages 0x2000 0x1000) bootMmu bootOps).isSome = true := by
    decide +kernel
  obtain ⟨s', hrun⟩ := Option.isSome_iff_exists.mp hsome
  have hget := ((mmu_table_refines_map (PageHeap.served_neverNull _)
    (bootMmu_tables 0x2000 (by simp)) (fun v _ => bootMmu_empty _ v) bootOps_valid).1 s' hrun).1
  refine ⟨s', hrun, ?_, ?_⟩
  · rw [hget _ (by decide)]
    decide +kernel
  · rw [hget _ (by decide)]
    decide +kernel

/-- The answer with exactly the flags that were given. -/
def MmuOp.givenAnswer (v : Nat) : MmuOp → Except Int (Nat × Nat)
  | .map virt phys _ flags =>
      .ok (flags &&& (mmuFlagRead ||| mmuFlagWrite ||| mmuFlagKernel),
        u32 (pageMask phys + (pageMask v - virt)))
  | .unmap _ _ => .error (-EUNSPEC)

set_option maxRecDepth 100000 in
/-- A page mapped only for writing answers that it can be read. -/
theorem write_only_map_answers_read :
    ¬ ∀ ops : List MmuOp, (∀ op ∈ ops, op.Valid) →
      ∀ s', exec (mmuStep bootPages 0x2000 0x1000) bootMmu ops = some s' →
        ∀ v < kernelOffset, mmuMapGetTable s'.mem 0x1000 v =
          lastWrite (MmuOp.Covers v) (MmuOp.givenAnswer v) ops (.error (-EUNSPEC)) := by
  intro hall
  have hsome : ((exec (mmuStep bootPages 0x2000 0x1000) bootMmu
      [.map 0x8000000 0x403000 0x1000 mmuFlagWrite]).any fun s =>
        mmuMapGetTable s.mem 0x1000 0x8000000 = .ok (mmuFlagRead ||| mmuFlagWrite, 0x403000))
      = true := by
    decide +kernel
  obtain ⟨s', hrun, hget⟩ := (Option.any_eq_true _ _).mp hsome
  have hclaim := hall _ (by simp [MmuOp.Valid, MmuOp.virt, MmuOp.size, kernelOffset]) s' hrun
    0x8000000 (by decide)
  rw [of_decide_eq_true hget] at hclaim
  revert hclaim
  decide +kernel

end LambdaOs
