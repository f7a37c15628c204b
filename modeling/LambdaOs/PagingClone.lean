import LambdaOs.PagingMap

/-!
# Cloning an MMU table

`mmu_clone_table` copies a directory and each of its page tables into one
new block. The block is fresh, so the mapping of it into the current table
never uses it for a page table (`Avoids`), and the copying loop reads only
the source and writes only the block (`CloneInv`). The result is a table
with the same answers that shares no page with any other.
-/

namespace LambdaOs

section Clone

variable {H : Type} {A : PageHeap H} {kernel : Nat} {tabs : List Nat}

/-! ## Reserved pages -/

/-- The pages `res` are held, and no table of the set uses them. -/
structure Avoids (A : PageHeap H) (tabs : List Nat) (res : Nat → Prop) (s : Mmu H) : Prop where
  held : ∀ a, res a → A.heldPage s.heap a
  dirs : ∀ T ∈ tabs, ¬ res T
  pages : ∀ T ∈ tabs, ∀ i < pgdirEntries, Present (s.mem T i) → ¬ res (pageMask (s.mem T i))

theorem addPageTable_avoids {s s' : Mmu H} {res : Nat → Prop} {dir pd : Nat}
    (hav : Avoids A tabs res s) (ht : Tables A kernel tabs s) (hnull : A.NeverNull)
    (hdir : dir ∈ tabs) (hpd : pd < pgdirEntries) (h : addPageTable A s dir pd = some s') :
    Avoids A tabs res s' := by
  obtain ⟨-, -, -, hwords, -, -⟩ := addPageTable_spec ht hnull hdir hpd h
  rcases addPageTable_cases h with ⟨-, rfl⟩ | ⟨-, page, hk, hmem⟩
  · exact hav
  obtain ⟨hal, hlt, hblock⟩ := A.fresh_pages hk (hnull hk) (by decide)
  have hpage : pageMask page = page := pageMask_of_aligned (by omega) hal
  obtain ⟨hnew, -⟩ := hblock page hal (Nat.le_refl _) (by omega)
  refine ⟨fun a ha => A.keeps_page hk (hav.held a ha), hav.dirs, ?_⟩
  intro T hT i hi hTi
  by_cases hslot : T = dir ∧ i = pd
  · -- the new page was not held, and reserved pages are
    obtain ⟨rfl, rfl⟩ := hslot
    have hne : T ≠ page := fun heq => hnew (heq ▸ ht.dirHeld T hT)
    have hword : s'.mem T i = page ||| pageFlagPresent ||| pageFlagWritable := by
      simp [hmem, hpage, PageMem.zeroPage, PageMem.setWord, hne]
    rw [hword, (newTable_word page).2, hpage]
    exact fun hres => hnew (hav.held page hres)
  · rw [hwords T hT i hi (not_and_or.mp hslot)] at hTi ⊢
    exact hav.pages T hT i hi hTi

theorem pgdirMapPage_avoids {s s' : Mmu H} {res : Nat → Prop} {T phys virt flags : Nat}
    (hav : Avoids A tabs res s) (ht : Tables A kernel tabs s) (hnull : A.NeverNull)
    (hT : T ∈ tabs) (hk : kernelOffset ≤ pageMask virt → kernel ∈ tabs)
    (h : pgdirMapPage A kernel s T phys virt flags = some s') : Avoids A tabs res s' := by
  obtain ⟨s₁, hadd, hret⟩ := Option.bind_eq_some_iff.mp h
  obtain rfl := Option.some.inj hret
  have hpd : pdindex (pageMask virt) < pgdirEntries :=
    pdindex_lt (Nat.lt_of_le_of_lt (pageMask_le virt) (by decide))
  have hdir := mapDir_mem hT hk
  have hav₁ := addPageTable_avoids hav ht hnull hdir hpd hadd
  obtain ⟨ht₁, hp, -⟩ := addPageTable_spec ht hnull hdir hpd hadd
  refine ⟨hav₁.held, hav₁.dirs, ?_⟩
  intro U hU i hi hUi
  rcases storeEntry_slot (ht₁.notDir _ hdir _ hpd hp) hdir hp hU T
    (ptindex (pageMask virt)) (pageMask phys) flags i with ⟨-, rfl, -, hm⟩ | ⟨-, hm⟩
  · simp only [hm]
    exact hav₁.pages _ hdir _ hpd hp
  · simp only [hm] at hUi ⊢
    exact hav₁.pages U hU i hi hUi

/-- The loop of `mmu_map_table`, over any range. -/
theorem mapLoop_tables {res : Nat → Prop} {T phys virt flags : Nat} (hnull : A.NeverNull)
    (hT : T ∈ tabs) (hk : kernel ∈ tabs) {offs : List Nat} {s s' : Mmu H}
    (ht : Tables A kernel tabs s) (hav : Avoids A tabs res s)
    (hrun : exec (fun s off => pgdirMapPage A kernel s T (u32 (pageMask phys + off))
      (u32 (pageMask virt + off)) flags) s offs = some s') :
    Tables A kernel tabs s' ∧ Avoids A tabs res s' ∧
      ∀ U ∈ tabs, ∀ i < pgdirEntries, Present (s.mem U i) → Present (s'.mem U i) := by
  induction offs generalizing s with
  | nil =>
      obtain rfl := Option.some.inj hrun
      exact ⟨ht, hav, fun _ _ _ _ h => h⟩
  | cons off offs ih =>
      obtain ⟨s₁, hstep, hrest⟩ := exec_cons_eq_some.mp hrun
      obtain ⟨ht₁, hmap⟩ := pgdirMapPage_spec ht hnull hT (fun _ => hk) hstep
      obtain ⟨ht', hav', hpres⟩ := ih ht₁
        (pgdirMapPage_avoids hav ht hnull hT (fun _ => hk) hstep) hrest
      exact ⟨ht', hav', fun U hU i hi hUi =>
        hpres U hU i hi ((hmap.present U hU i hi).mpr (Or.inl hUi))⟩

theorem mmuMapTable_tables {res : Nat → Prop} {s s' : Mmu H} {T virt phys size flags : Nat}
    (ht : Tables A kernel tabs s) (hav : Avoids A tabs res s) (hnull : A.NeverNull)
    (hT : T ∈ tabs) (hk : kernel ∈ tabs)
    (h : mmuMapTable A kernel s T virt phys size flags = some s') :
    Tables A kernel tabs s' ∧ Avoids A tabs res s' ∧
      ∀ U ∈ tabs, ∀ i < pgdirEntries, Present (s.mem U i) → Present (s'.mem U i) := by
  obtain ⟨offs, -, hrun⟩ := Option.bind_eq_some_iff.mp h
  rw [foldlM_eq_exec] at hrun
  exact mapLoop_tables hnull hT hk ht hav hrun

/-! ## The copying loop -/

/-- The number of present words among the first `k` of a directory. -/
def presentRank (dir : Nat → Nat) (k : Nat) : Nat :=
  (List.range k).countP fun i => Present (dir i)

theorem presentRank_succ (dir : Nat → Nat) (k : Nat) :
    presentRank dir (k + 1) = presentRank dir k + if Present (dir k) then 1 else 0 := by
  rw [presentRank, List.range_succ, List.countP_append]
  by_cases h : Present (dir k) <;> simp [presentRank, h]

theorem presentRank_congr {dir dir' : Nat → Nat} {k : Nat}
    (h : ∀ i < k, Present (dir i) ↔ Present (dir' i)) : presentRank dir k = presentRank dir' k := by
  induction k with
  | zero => rfl
  | succ k ih =>
    rw [presentRank_succ, presentRank_succ, ih fun i hi => h i (Nat.lt_succ_of_lt hi)]
    simp only [h k (Nat.lt_succ_self k)]

theorem presentRank_lt {dir : Nat → Nat} {i : Nat} (hi : Present (dir i)) {k : Nat}
    (hik : i < k) : presentRank dir i < presentRank dir k := by
  induction k with
  | zero => exact absurd hik (Nat.not_lt_zero i)
  | succ k ih =>
      rw [presentRank_succ]
      rcases Nat.lt_succ_iff_lt_or_eq.mp hik with hlt | rfl
      · have := ih hlt
        omega
      · rw [if_pos hi]
        omega

/-- The page table copied for slot `i`. -/
def clonePage (new : Nat) (dir : Nat → Nat) (i : Nat) : Nat :=
  new + 4096 * (presentRank dir i + 1)

/-- After `k` rounds on the memory `m₁`: only the new block was written, the
words not yet visited are the source's, and each present slot visited has its
own copy of the source's page table. -/
structure CloneInv (new src size : Nat) (m₁ : PageMem) (k : Nat) (mo : PageMem × Nat) :
    Prop where
  frame : ∀ p, ¬ (new ≤ p ∧ p < new + size) → mo.1 p = m₁ p
  off : mo.2 = 4096 * (presentRank (m₁ src) k + 1)
  todo : ∀ i, k ≤ i → mo.1 new i = m₁ src i
  absent : ∀ i < k, ¬ Present (m₁ src i) → mo.1 new i = m₁ src i
  copied : ∀ i < k, Present (m₁ src i) → Present (mo.1 new i) ∧
    pageMask (mo.1 new i) = clonePage new (m₁ src) i ∧
    mo.1 (clonePage new (m₁ src) i) = m₁ (pageMask (m₁ src i))

/-- The word of a copied slot: the flags of the source, the address of the
copy. -/
theorem cloneWord {w page : Nat} (hlt : page < 4294967296) (hal : page % 4096 = 0)
    (hp : Present w) :
    Present (w &&& 0xFFF ||| page) ∧ pageMask (w &&& 0xFFF ||| page) = page := by
  have hmask : page &&& 0xFFFFF000 = page := pageMask_of_aligned hlt hal
  constructor
  · have hbit : page &&& pageFlagPresent = 0 := by
      rw [← hmask]
      exact pageMask_and page (by decide)
    have hsame : (w &&& 0xFFF ||| page) &&& pageFlagPresent = w &&& pageFlagPresent := by
      rw [Nat.and_or_distrib_right, Nat.and_assoc, hbit, Nat.or_zero]
      rfl
    rw [Present, hsame]
    exact hp
  · simp [pageMask, Nat.and_or_distrib_right, Nat.and_assoc, hmask]

section Loop

variable {new src size : Nat} {m₁ : PageMem}

/-- Where the loop runs: the block holds one page for the directory and one
for each present slot, and the source uses none of it. -/
structure CloneRoom (new src size : Nat) (m₁ : PageMem) : Prop where
  aligned : new % 4096 = 0
  fits : new + size ≤ 4294967296
  size_eq : size = 4096 * (presentRank (m₁ src) pgdirEntries + 1)
  src_out : ¬ (new ≤ src ∧ src < new + size)
  pages_out : ∀ i < pgdirEntries, Present (m₁ src i) →
    ¬ (new ≤ pageMask (m₁ src i) ∧ pageMask (m₁ src i) < new + size)

theorem CloneRoom.page_in (hr : CloneRoom new src size m₁) {i : Nat} (hi : i < pgdirEntries)
    (hp : Present (m₁ src i)) :
    new < clonePage new (m₁ src) i ∧ clonePage new (m₁ src) i < new + size
      ∧ clonePage new (m₁ src) i % 4096 = 0 := by
  have hrank := presentRank_lt hp hi
  have hsz := hr.size_eq
  have hal := hr.aligned
  simp only [clonePage]
  omega

/-- Different present slots have different copies. -/
theorem clonePage_ne {dir : Nat → Nat} {i k : Nat} (hi : Present (dir i)) (hik : i < k) :
    clonePage new dir i ≠ clonePage new dir k := by
  have hrank := presentRank_lt hi hik
  simp only [clonePage]
  omega

/-- A round on a present slot: a copy of its page table, and the word that
points to it. -/
theorem cloneSlot_present (hr : CloneRoom new src size m₁) {k : Nat} (hk : k < pgdirEntries)
    {mo : PageMem × Nat} (h : CloneInv new src size m₁ k mo) (hp : Present (m₁ src k)) :
    (cloneSlot new src mo k).2 = mo.2 + 0x1000 ∧
      ∀ p j, (cloneSlot new src mo k).1 p j =
        if p = clonePage new (m₁ src) k then m₁ (pageMask (m₁ src k)) j
        else if p = new ∧ j = k then (m₁ src k &&& 0xFFF) ||| clonePage new (m₁ src) k
        else mo.1 p j := by
  have hnewk : mo.1 new k = m₁ src k := h.todo k (Nat.le_refl k)
  obtain ⟨hlo, hhi, hal⟩ := hr.page_in hk hp
  have hfits := hr.fits
  have hpage : u32 (new + mo.2) = clonePage new (m₁ src) k := by
    rw [h.off]
    exact u32_of_lt (by simp only [clonePage] at hhi; omega)
  have hsrc : src ≠ new := fun heq => hr.src_out ⟨Nat.le_of_eq heq.symm, by omega⟩
  have hpo := hr.pages_out k hk hp
  have hpn : pageMask (m₁ src k) ≠ new := fun heq => hpo ⟨by omega, by omega⟩
  have hwm := (cloneWord (by omega) hal hp).2
  have hfsrc : mo.1 src = m₁ src := h.frame src hr.src_out
  have hfpg : mo.1 (pageMask (m₁ src k)) = m₁ (pageMask (m₁ src k)) := h.frame _ hpo
  rw [cloneSlot, if_pos (hnewk ▸ hp)]
  refine ⟨rfl, ?_⟩
  intro p j
  simp only [PageMem.copyPage, PageMem.setWord, hnewk, hpage, hwm, hsrc, hpn, hfsrc, hfpg,
    and_self, if_true, false_and, if_false]

theorem cloneSlot_inv (hr : CloneRoom new src size m₁) {k : Nat} (hk : k < pgdirEntries)
    {mo : PageMem × Nat} (h : CloneInv new src size m₁ k mo) :
    CloneInv new src size m₁ (k + 1) (cloneSlot new src mo k) := by
  by_cases hp : Present (m₁ src k)
  · obtain ⟨hoff, hmem⟩ := cloneSlot_present hr hk h hp
    obtain ⟨hlo, hhi, hal⟩ := hr.page_in hk hp
    have hfits := hr.fits
    have hnp : new ≠ clonePage new (m₁ src) k := Nat.ne_of_lt hlo
    refine ⟨?_, ?_, ?_, ?_, ?_⟩
    · intro p hpout
      funext j
      have h1 : p ≠ clonePage new (m₁ src) k := fun heq => hpout ⟨by omega, by omega⟩
      have h2 : p ≠ new := fun heq => hpout ⟨by omega, by omega⟩
      rw [hmem, if_neg h1, if_neg fun hc => h2 hc.1, h.frame p hpout]
    · rw [presentRank_succ, if_pos hp, hoff, h.off]
      omega
    · intro i hi
      rw [hmem, if_neg hnp, if_neg fun hc => by omega, h.todo i (by omega)]
    · intro i hi hpi
      have hik : i ≠ k := fun heq => hpi (heq ▸ hp)
      rw [hmem, if_neg hnp, if_neg fun hc => hik hc.2, h.absent i (by omega) hpi]
    · intro i hi hpi
      by_cases hik : i = k
      · subst hik
        rw [hmem, if_neg hnp, if_pos ⟨rfl, rfl⟩]
        obtain ⟨hwp, hwm⟩ := cloneWord (by omega) hal hp
        refine ⟨hwp, hwm, ?_⟩
        funext j
        rw [hmem, if_pos rfl]
      · obtain ⟨hip, him, hic⟩ := h.copied i (by omega) hpi
        have hne := @clonePage_ne new (m₁ src) i k hpi (by omega)
        have hin := (hr.page_in (by omega) hpi).1
        rw [hmem, if_neg hnp, if_neg fun hc => hik hc.2]
        refine ⟨hip, him, ?_⟩
        funext j
        rw [hmem, if_neg hne, if_neg fun hc => by omega, hic]
  · have hnewk : mo.1 new k = m₁ src k := h.todo k (Nat.le_refl k)
    have hsame : cloneSlot new src mo k = mo := if_neg (hnewk ▸ hp)
    rw [hsame]
    refine ⟨h.frame, ?_, fun i hi => h.todo i (by omega), ?_, ?_⟩
    · rw [presentRank_succ, if_neg hp]
      exact h.off
    · intro i hi hpi
      by_cases hik : i = k
      · rw [hik]
        exact hnewk
      · exact h.absent i (by omega) hpi
    · intro i hi hpi
      have hik : i ≠ k := fun heq => hp (heq ▸ hpi)
      exact h.copied i (by omega) hpi

theorem cloneLoop_inv (hr : CloneRoom new src size m₁) {k : Nat} (hk : k ≤ pgdirEntries) :
    CloneInv new src size m₁ k
      ((List.range k).foldl (cloneSlot new src) (m₁.copyPage new src, 0x1000)) := by
  induction k with
  | zero =>
    have hsz := hr.size_eq
    refine ⟨?_, rfl, ?_, by simp, by simp⟩
    · intro p hp
      funext j
      have hne : p ≠ new := fun heq => hp ⟨by omega, by omega⟩
      simp [PageMem.copyPage, hne]
    · intro i _
      simp [PageMem.copyPage]
  | succ k ih =>
    rw [List.range_succ, List.foldl_append]
    exact cloneSlot_inv hr (by omega) (ih (by omega))

end Loop

/-! ## The clone -/

/-- The pages of the block `[new, new + size)`. -/
def BlockPage (new size a : Nat) : Prop := a % 4096 = 0 ∧ new ≤ a ∧ a < new + size

theorem Avoids.dir_out {new size : Nat} {s : Mmu H} (hav : Avoids A tabs (BlockPage new size) s)
    (ht : Tables A kernel tabs s) {U : Nat} (hU : U ∈ tabs) : ¬ (new ≤ U ∧ U < new + size) :=
  fun hin => hav.dirs U hU ⟨ht.aligned U hU, hin⟩

theorem Avoids.page_out {new size : Nat} {s : Mmu H} (hav : Avoids A tabs (BlockPage new size) s)
    {U : Nat} (hU : U ∈ tabs) {i : Nat} (hi : i < pgdirEntries) (hp : Present (s.mem U i)) :
    ¬ (new ≤ pageMask (s.mem U i) ∧ pageMask (s.mem U i) < new + size) :=
  fun hin => hav.pages U hU i hi hp ⟨pageMask_aligned _, hin⟩

/-- The directory after the loop: for each slot the source's word, or the
flags of the source with its own copy of the page table. -/
theorem CloneInv.read {new src size : Nat} {m₁ : PageMem} {mo : PageMem × Nat}
    (h : CloneInv new src size m₁ pgdirEntries mo) {i : Nat}
    (hi : i < pgdirEntries) (j : Nat) :
    slotEntry mo.1 new i j = slotEntry m₁ src i j := by
  by_cases hp : Present (m₁ src i)
  · obtain ⟨hip, him, hic⟩ := h.copied i hi hp
    rw [slotEntry_of_present hp, slotEntry_of_present hip, him, hic]
  · have hnew := h.absent i hi hp
    rw [slotEntry_of_absent hp, slotEntry_of_absent (hnew ▸ hp)]

/-- The tables of the set read as before the loop. -/
theorem CloneInv.read_tabs {new src size : Nat} {s₁ : Mmu H} {mo : PageMem × Nat}
    (h : CloneInv new src size s₁.mem pgdirEntries mo)
    (ht : Tables A kernel tabs s₁) (hav : Avoids A tabs (BlockPage new size) s₁)
    {U : Nat} (hU : U ∈ tabs) :
    mo.1 U = s₁.mem U ∧ ∀ i < pgdirEntries, ∀ j, slotEntry mo.1 U i j = slotEntry s₁.mem U i j := by
  have hdir := h.frame U (hav.dir_out ht hU)
  refine ⟨hdir, ?_⟩
  intro i hi j
  by_cases hp : Present (s₁.mem U i)
  · rw [slotEntry_of_present hp, slotEntry_of_present (hdir ▸ hp), hdir,
      h.frame _ (hav.page_out hU hi hp)]
  · rw [slotEntry_of_absent hp, slotEntry_of_absent (hdir ▸ hp)]

/-- A present slot of the clone has its own page of the block. -/
theorem CloneInv.slot {new src size : Nat} {m₁ : PageMem} {mo : PageMem × Nat}
    (h : CloneInv new src size m₁ pgdirEntries mo) {i : Nat} (hi : i < pgdirEntries)
    (hp : Present (mo.1 new i)) :
    Present (m₁ src i) ∧ pageMask (mo.1 new i) = clonePage new (m₁ src) i := by
  by_cases hsp : Present (m₁ src i)
  · exact ⟨hsp, (h.copied i hi hsp).2.1⟩
  · rw [h.absent i hi hsp] at hp
    exact absurd hp hsp

theorem CloneInv.slot_in {new src size : Nat} {m₁ : PageMem} {mo : PageMem × Nat}
    (hr : CloneRoom new src size m₁) (h : CloneInv new src size m₁ pgdirEntries mo) {i : Nat}
    (hi : i < pgdirEntries) (hp : Present (mo.1 new i)) :
    new < pageMask (mo.1 new i) ∧ pageMask (mo.1 new i) < new + size := by
  obtain ⟨hsp, hm⟩ := h.slot hi hp
  rw [hm]
  exact ⟨(hr.page_in hi hsp).1, (hr.page_in hi hsp).2.1⟩

/-- The set of tables with the clone in it. -/
theorem CloneInv.tables {new src size : Nat} {s₁ : Mmu H} {mo : PageMem × Nat}
    (ht : Tables A kernel tabs s₁) (hav : Avoids A tabs (BlockPage new size) s₁)
    (hr : CloneRoom new src size s₁.mem) (h : CloneInv new src size s₁.mem pgdirEntries mo) :
    Tables A kernel (new :: tabs) { s₁ with mem := mo.1 } := by
  have hsz := hr.size_eq
  have hpage : ∀ i < pgdirEntries, Present (mo.1 new i) →
      new < pageMask (mo.1 new i) ∧ pageMask (mo.1 new i) < new + size :=
    fun i hi => h.slot_in hr hi
  have hdir : ∀ U ∈ tabs, mo.1 U = s₁.mem U := fun U hU => h.frame U (hav.dir_out ht hU)
  have hout : ∀ U ∈ tabs, ∀ i < pgdirEntries, Present (s₁.mem U i) →
      ¬ (new ≤ pageMask (s₁.mem U i) ∧ pageMask (s₁.mem U i) < new + size) :=
    fun U hU i hi hp => hav.page_out hU hi hp
  refine ⟨?_, ?_, ?_, ?_, ?_⟩
  · rintro T hT
    rcases List.mem_cons.mp hT with rfl | hT
    · exact hr.aligned
    · exact ht.aligned T hT
  · rintro T hT
    rcases List.mem_cons.mp hT with rfl | hT
    · exact hav.held T ⟨hr.aligned, Nat.le_refl _, by omega⟩
    · exact ht.dirHeld T hT
  · intro T hT i hi hTi
    rcases List.mem_cons.mp hT with rfl | hT
    · obtain ⟨hlo, hhi⟩ := hpage i hi hTi
      exact hav.held _ ⟨pageMask_aligned _, Nat.le_of_lt hlo, hhi⟩
    · simp only [hdir T hT] at hTi ⊢
      exact ht.pageHeld T hT i hi hTi
  · intro T hT i hi hTi hmem
    rcases List.mem_cons.mp hT with rfl | hT
    · obtain ⟨hlo, hhi⟩ := hpage i hi hTi
      rcases List.mem_cons.mp hmem with heq | hmem
      · exact Nat.ne_of_gt hlo heq
      · exact hav.dir_out ht hmem ⟨Nat.le_of_lt hlo, hhi⟩
    · simp only [hdir T hT] at hTi hmem
      rcases List.mem_cons.mp hmem with heq | hmem
      · exact hout T hT i hi hTi ⟨by omega, by omega⟩
      · exact ht.notDir T hT i hi hTi hmem
  · intro T hT U hU i hi j hj hTi hUj heq
    rcases List.mem_cons.mp hT with rfl | hT
    · rcases List.mem_cons.mp hU with rfl | hU
      · refine ⟨?_, Or.inl rfl⟩
        obtain ⟨hsi, hmi⟩ := h.slot hi hTi
        obtain ⟨hsj, hmj⟩ := h.slot hj hUj
        simp only [hmi, hmj] at heq
        rcases Nat.lt_trichotomy i j with hlt | rfl | hlt
        · exact absurd heq (clonePage_ne hsi hlt)
        · rfl
        · exact absurd heq.symm (clonePage_ne hsj hlt)
      · obtain ⟨hlo, hhi⟩ := hpage i hi hTi
        simp only [hdir U hU] at hUj heq
        exact absurd ⟨by omega, by omega⟩ (hout U hU j hj hUj)
    · rcases List.mem_cons.mp hU with hU | hU
      · rw [hU] at hUj heq
        obtain ⟨hlo, hhi⟩ := hpage j hj hUj
        simp only [hdir T hT] at hTi heq
        exact absurd ⟨by omega, by omega⟩ (hout T hT i hi hTi)
      · simp only [hdir T hT, hdir U hU] at hTi hUj heq ⊢
        obtain ⟨hij, hown⟩ := ht.shared T hT U hU i hi j hj hTi hUj heq
        refine ⟨hij, hown.imp_right fun ⟨hks, hkt, hkp⟩ =>
          ⟨hks, List.mem_cons_of_mem _ hkt, ?_⟩⟩
        rw [hdir kernel hkt]
        exact hkp

/-- Mapping the new block into the current table gives the source no new page
table. (Otherwise the copy would not fit the block.) -/
def CloneAddsNone (A : PageHeap H) (kernel current : Nat) (s : Mmu H) (src : Nat) : Prop :=
  ∀ new heap s₁, A.kamalloc s.heap (cloneSize s.mem src) pageSz = some (new, heap) →
    mmuMapTable A kernel { s with heap := heap } current new new (cloneSize s.mem src)
      cloneFlags = some s₁ →
    ∀ i < pgdirEntries, Present (s₁.mem src i) → Present (s.mem src i)

/-- What a clone is: the block is mapped into the current table (`s₁`), and
then the set has one more table, which reads as the source does. -/
structure Cloned (A : PageHeap H) (kernel current : Nat) (tabs : List Nat) (src new : Nat)
    (s s₁ s' : Mmu H) : Prop where
  mapped : ∃ heap, A.kamalloc s.heap (cloneSize s.mem src) pageSz = some (new, heap) ∧
    mmuMapTable A kernel { s with heap := heap } current new new (cloneSize s.mem src)
      cloneFlags = some s₁
  tables : Tables A kernel (new :: tabs) s'
  fresh : new ∉ tabs
  dirs : ∀ U ∈ tabs, s'.mem U = s₁.mem U
  reads : ∀ U ∈ tabs, ∀ i < pgdirEntries, ∀ j, slotEntry s'.mem U i j = slotEntry s₁.mem U i j
  equal : ∀ i < pgdirEntries, ∀ j, slotEntry s'.mem new i j = slotEntry s'.mem src i j
  heap : s'.heap = s₁.heap
  frame : ∀ p, ¬ (new ≤ p ∧ p < new + cloneSize s.mem src) → s'.mem p = s₁.mem p
  slots : ∀ i < pgdirEntries, Present (s'.mem new i) →
    new ≤ pageMask (s'.mem new i) ∧ pageMask (s'.mem new i) < new + cloneSize s.mem src

theorem mmuCloneTable_spec {s s' : Mmu H} {current src new : Nat} (hnull : A.NeverNull)
    (ht : Tables A kernel tabs s) (hsrc : src ∈ tabs) (hcur : current ∈ tabs)
    (hk : kernel ∈ tabs) (hnone : CloneAddsNone A kernel current s src)
    (h : mmuCloneTable A kernel current s src = some (new, s')) :
    ∃ s₁, Cloned A kernel current tabs src new s s₁ s' := by
  obtain ⟨⟨new', heap⟩, hkam, hrest⟩ := Option.bind_eq_some_iff.mp h
  obtain ⟨s₁, hmap, hret⟩ := Option.bind_eq_some_iff.mp hrest
  obtain ⟨rfl, rfl⟩ := Prod.mk.inj (Option.some.inj hret)
  have hszmod : cloneSize s.mem src % 4096 = 0 := by
    simp only [cloneSize]
    omega
  obtain ⟨hal, hfits, hblock⟩ := A.fresh_pages hkam (hnull hkam) hszmod
  -- the block is none of the pages in use
  have hav : Avoids A tabs (BlockPage new' (cloneSize s.mem src)) { s with heap := heap } :=
    ⟨fun a ha => (hblock a ha.1 ha.2.1 ha.2.2).2,
      fun T hT hin => (hblock T hin.1 hin.2.1 hin.2.2).1 (ht.dirHeld T hT),
      fun T hT i hi hTi hin =>
        (hblock _ hin.1 hin.2.1 hin.2.2).1 (ht.pageHeld T hT i hi hTi)⟩
  obtain ⟨ht₁, hav₁, hpres⟩ := mmuMapTable_tables (ht.granted hkam) hav hnull hcur hk hmap
  -- the source has as many page tables as were counted
  have hcount : presentRank (s₁.mem src) pgdirEntries = countTables s.mem src :=
    presentRank_congr fun i hi => ⟨hnone new' heap s₁ hkam hmap i hi, hpres src hsrc i hi⟩
  have hr : CloneRoom new' src (cloneSize s.mem src) s₁.mem :=
    ⟨hal, hfits, by rw [hcount, cloneSize]; omega, hav₁.dir_out ht₁ hsrc,
      fun i hi hp => hav₁.page_out hsrc hi hp⟩
  obtain ⟨mo, hmo, hinv⟩ : ∃ mo : PageMem × Nat, copyTables s₁.mem new' src = mo.1 ∧
      CloneInv new' src (cloneSize s.mem src) s₁.mem pgdirEntries mo :=
    ⟨_, by rw [copyTables], cloneLoop_inv hr (Nat.le_refl _)⟩
  rw [hmo]
  refine ⟨s₁, ⟨heap, hkam, hmap⟩, hinv.tables ht₁ hav₁ hr, ?_,
    fun U hU => (hinv.read_tabs ht₁ hav₁ hU).1, fun U hU => (hinv.read_tabs ht₁ hav₁ hU).2,
    ?_, rfl, hinv.frame, fun i hi hp => (hinv.slot_in hr hi hp).imp_left Nat.le_of_lt⟩
  · exact fun hmem => hav₁.dir_out ht₁ hmem ⟨Nat.le_refl _, by simp only [cloneSize]; omega⟩
  · intro i hi j
    rw [(hinv.read_tabs ht₁ hav₁ hsrc).2 i hi j]
    exact hinv.read hi j

/-! ## Separation -/

/-- Operations below the kernel on one table leave the others alone. -/
theorem mmuRun_others {T : Nat} (hnull : A.NeverNull) (hT : T ∈ tabs) {ops : List MmuOp}
    {s s' : Mmu H} (ht : Tables A kernel tabs s) (hops : ∀ op ∈ ops, op.Low)
    (hrun : exec (mmuStep A kernel T) s ops = some s') :
    ∀ U ∈ tabs, U ≠ T → ∀ v < 4294967296,
      mmuMapGetTable s'.mem U v = mmuMapGetTable s.mem U v := by
  induction ops generalizing s with
  | nil =>
      obtain rfl := Option.some.inj hrun
      exact fun _ _ _ _ _ => rfl
  | cons op ops ih =>
      obtain ⟨s₁, hstep, hrest⟩ := exec_cons_eq_some.mp hrun
      obtain ⟨ht₁, offs, -, hrange⟩ :=
        mmuStep_low hnull ht hT (hops op (List.mem_cons_self ..)) hstep
      intro U hU hne v hv
      rw [ih ht₁ (fun o ho => hops o (List.mem_cons_of_mem _ ho)) hrest U hU hne v hv,
        mmuMapGetTable, hrange.others U hU hne v hv]
      rfl

/-- **A clone is an independent equal copy.** -/
theorem mmu_clone_is_independent_copy {s s' : Mmu H} {current src new : Nat}
    (hnull : A.NeverNull) (ht : Tables A kernel tabs s) (hsrc : src ∈ tabs)
    (hcur : current ∈ tabs) (hk : kernel ∈ tabs) (hnone : CloneAddsNone A kernel current s src)
    (h : mmuCloneTable A kernel current s src = some (new, s')) :
    (∀ v < 4294967296, mmuMapGetTable s'.mem new v = mmuMapGetTable s'.mem src v) ∧
    (∀ ops : List MmuOp, (∀ op ∈ ops, op.Low) → ∀ s'',
      (exec (mmuStep A kernel src) s' ops = some s'' → ∀ v < 4294967296,
        mmuMapGetTable s''.mem new v = mmuMapGetTable s'.mem new v) ∧
      (exec (mmuStep A kernel new) s' ops = some s'' → ∀ v < 4294967296,
        mmuMapGetTable s''.mem src v = mmuMapGetTable s'.mem src v)) := by
  obtain ⟨s₁, hcl⟩ := mmuCloneTable_spec hnull ht hsrc hcur hk hnone h
  have hne : new ≠ src := fun heq => hcl.fresh (heq ▸ hsrc)
  have hnew : new ∈ new :: tabs := List.mem_cons_self ..
  have hsrc' : src ∈ new :: tabs := List.mem_cons_of_mem _ hsrc
  refine ⟨?_, fun ops hops s'' => ⟨?_, ?_⟩⟩
  · intro v hv
    rw [mmuMapGetTable, mmuMapGetTable, pgdirGetPageEntry_eq, pgdirGetPageEntry_eq,
      hcl.equal _ (pdindex_lt hv)]
  · intro hrun v hv
    exact mmuRun_others hnull hsrc' hcl.tables hops hrun new hnew hne v hv
  · intro hrun v hv
    exact mmuRun_others hnull hnew hcl.tables hops hrun src hsrc' (Ne.symm hne) v hv

end Clone

/-! ## On the boot heap -/

/-- A table at `0x1000` with one mapped page, beside the kernel's at `0x2000`. -/
def mappedMmu : Mmu { t : Table // TableOk 0x400000 0x410000 t } :=
  (mmuStep bootPages 0x2000 0x1000 bootMmu
    (.map 0x8000000 0x403000 0x1000 (mmuFlagRead ||| mmuFlagWrite))).getD bootMmu

set_option maxRecDepth 100000 in
theorem mappedMmu_tables : Tables bootPages 0x2000 [0x1000, 0x2000] mappedMmu := by
  have hsome : (mmuStep bootPages 0x2000 0x1000 bootMmu
      (.map 0x8000000 0x403000 0x1000 (mmuFlagRead ||| mmuFlagWrite))).isSome = true := by
    decide +kernel
  obtain ⟨s, hs⟩ := Option.isSome_iff_exists.mp hsome
  have heq : mappedMmu = s := by rw [mappedMmu, hs, Option.getD_some]
  rw [heq]
  exact (mmuStep_low (PageHeap.served_neverNull _) (bootMmu_tables 0x2000 (by simp)) (by simp)
    (MmuOp.Valid.low (by simp [MmuOp.Valid, MmuOp.virt, MmuOp.size, kernelOffset])) hs).1

set_option maxRecDepth 100000 in
/-- A clone of the table at `0x1000`, made with the kernel's table current. -/
theorem mmu_clone_is_independent_copy_boot :
    ∃ new s', mmuCloneTable bootPages 0x2000 0x2000 mappedMmu 0x1000 = some (new, s') ∧
      mmuMapGetTable s'.mem new 0x8000123 = .ok (mmuFlagRead ||| mmuFlagWrite, 0x403000) := by
  have hnone : CloneAddsNone bootPages 0x2000 0x2000 mappedMmu 0x1000 := by
    have hall : ((bootPages.kamalloc mappedMmu.heap (cloneSize mappedMmu.mem 0x1000) pageSz).all
        fun nh => (mmuMapTable bootPages 0x2000 { mappedMmu with heap := nh.2 } 0x2000 nh.1 nh.1
          (cloneSize mappedMmu.mem 0x1000) cloneFlags).all fun s₁ =>
            (List.range pgdirEntries).all fun i =>
              Present (s₁.mem 0x1000 i) → Present (mappedMmu.mem 0x1000 i)) = true := by
      decide +kernel
    intro new heap s₁ hkam hmap i hi
    rw [hkam, Option.all_some, hmap, Option.all_some, List.all_eq_true] at hall
    exact of_decide_eq_true (hall i (List.mem_range.mpr hi))
  have hsome : ((mmuCloneTable bootPages 0x2000 0x2000 mappedMmu 0x1000).any fun ns =>
      mmuMapGetTable ns.2.mem 0x1000 0x8000123 = .ok (mmuFlagRead ||| mmuFlagWrite, 0x403000))
      = true := by
    decide +kernel
  obtain ⟨⟨new, s'⟩, hclone, hget⟩ := (Option.any_eq_true _ _).mp hsome
  have heq := (mmu_clone_is_independent_copy (PageHeap.served_neverNull _) mappedMmu_tables
    (by simp) (by simp) (by simp) hnone hclone).1
  exact ⟨new, s', hclone, (heq _ (by decide)).trans (of_decide_eq_true hget)⟩

end LambdaOs
