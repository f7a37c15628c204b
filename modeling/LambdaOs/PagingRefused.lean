import LambdaOs.PagingGlobal

/-!
# Page tables that are refused

`pgdir_map_page` does not look at what `kamalloc` gives it for a page table.
Refused, the slot gets physical page `0` for its page table, and all slots
that were refused one share it.

A slot whose directory had a page table before the call is not disturbed: it
reads what it would if no request were refused (`mmuMapTable_filled`). A slot
without one ends up with words of the range in it and nothing else, whether
its request was refused or not (`mmuMapTable_empty`, `mmuMapTable_asked`).
-/

namespace LambdaOs

/-- The directory that decides what slot `i` of `T` gets. -/
def slotDir (kernel T i : Nat) : Nat := if kernelSlot ≤ i then kernel else T

theorem mapDir_eq_slotDir (kernel T virt : Nat) :
    mapDir kernel T virt = slotDir kernel T (pdindex virt) := by
  unfold mapDir slotDir
  by_cases hv : kernelOffset ≤ virt
  · rw [if_pos (kernelSlot_le_pdindex.mpr hv)]
    by_cases hT : T = kernel
    · rw [if_neg fun h => h.2 hT, hT]
    · rw [if_pos ⟨hv, hT⟩]
  · rw [if_neg fun h => hv h.1, if_neg fun h => hv (kernelSlot_le_pdindex.mp h)]

/-- The table has no page table in the kernel's part that the kernel's own
table does not have. -/
def KernelFirst (kernel T : Nat) (m : PageMem) : Prop :=
  ∀ i < pgdirEntries, Present (m T i) → Present (m (slotDir kernel T i) i)

/-- The directory that decides the slot of `v` has a page table there. -/
def SlotFilled (kernel T : Nat) (m : PageMem) (i : Nat) : Prop :=
  Present (m (slotDir kernel T i) i)

instance (kernel T : Nat) (m : PageMem) (i : Nat) : Decidable (SlotFilled kernel T m i) :=
  inferInstanceAs (Decidable (_ ≠ _))

section Refused

variable {H : Type} {A : PageHeap H} {kernel : Nat} {tabs : List Nat}

/-! ## One mapping -/

/-- Slot `pd` of `dir` and of `T` is given the page table `page`, which is
cleared if `dir` had none, and one word of it is stored. -/
structure MapStore (tabs : List Nat) (dir T pd pt word page : Nat) (m m' : PageMem) : Prop where
  notDir : page ∉ tabs
  had : Present (m dir pd) → pageMask (m dir pd) = page
  filled : ∀ U, U = dir ∨ U = T → Present (m' U pd) ∧ pageMask (m' U pd) = page
  slots : ∀ U ∈ tabs, ∀ i, i ≠ pd → m' U i = m U i
  word : ∀ j, m' page j = if j = pt then word else if Present (m dir pd) then m page j else 0
  pages : ∀ p ∉ tabs, p ≠ page → m' p = m p

/-- The page table of a new slot is the page that was granted, or page `0`. -/
theorem addPageTable_page {s s₁ : Mmu H} {dir pd : Nat} (hdir : dir ∈ tabs)
    (hnew : ∀ page heap, A.kamalloc s.heap 0x1000 0x1000 = some (page, heap) →
      pageMask page ∉ tabs)
    (hp : ¬ Present (s.mem dir pd)) (h : addPageTable A s dir pd = some s₁) :
    ∃ page, A.kamalloc s.heap 0x1000 0x1000 = some (page, s₁.heap) ∧
      Present (s₁.mem dir pd) ∧ pageMask (s₁.mem dir pd) = pageMask page ∧
      (∀ U ∈ tabs, ∀ i, i ≠ pd → s₁.mem U i = s.mem U i) ∧
      (∀ j, s₁.mem (pageMask page) j = 0) ∧
      ∀ p ∉ tabs, p ≠ pageMask page → s₁.mem p = s.mem p := by
  obtain ⟨hcon, -⟩ | ⟨-, page, hk, hmem⟩ := addPageTable_cases h
  · exact absurd hcon hp
  have hnot := hnew page _ hk
  have hne : ∀ U ∈ tabs, U ≠ pageMask page := fun U hU heq => hnot (heq ▸ hU)
  obtain ⟨hwp, hwm⟩ := newTable_word page
  have hword : s₁.mem dir pd = page ||| pageFlagPresent ||| pageFlagWritable := by
    simp [hmem, PageMem.zeroPage, PageMem.setWord, hne dir hdir]
  refine ⟨page, hk, by rw [hword]; exact hwp, by rw [hword, hwm], ?_, ?_, ?_⟩
  · intro U hU i hi
    simp [hmem, PageMem.zeroPage, PageMem.setWord, hne U hU, hi]
  · intro j
    simp [hmem, PageMem.zeroPage]
  · intro p hptabs hpage
    have hpdir : p ≠ dir := fun heq => hptabs (heq ▸ hdir)
    funext j
    simp [hmem, PageMem.zeroPage, PageMem.setWord, hpage, hpdir]

theorem storeEntry_store {s : Mmu H} {dir T pd : Nat} (pt phys flags : Nat) (hdir : dir ∈ tabs)
    (hT : T ∈ tabs) (hp : Present (s.mem dir pd)) (hnd : pageMask (s.mem dir pd) ∉ tabs) :
    MapStore tabs dir T pd pt (pageWord phys flags) (pageMask (s.mem dir pd)) s.mem
      (storeEntry s.mem dir T pd pt phys flags) := by
  refine ⟨hnd, fun _ => rfl, ?_, ?_, ?_, ?_⟩
  · intro U hU
    have hUtabs : U ∈ tabs := hU.elim (fun h => h ▸ hdir) fun h => h ▸ hT
    rw [storeEntry_dir hnd hdir hUtabs, if_pos ⟨hU, rfl⟩]
    exact ⟨present_or_user hp flags, pageMask_or_user _ _⟩
  · intro U hU i hi
    rw [storeEntry_dir hnd hdir hU, if_neg fun h => hi h.2]
  · intro j
    rw [storeEntry_page hdir hT hnd, if_pos hp]
    simp only [true_and]
  · intro p hptabs hpage
    funext j
    rw [storeEntry_page hdir hT hptabs, if_neg fun h => hpage h.1]

/-- **One mapping, whatever the heap answers.** -/
theorem pgdirMapPage_store {s s' : Mmu H} {T phys virt flags : Nat} (hT : T ∈ tabs)
    (hk : kernel ∈ tabs)
    (hhad : SlotFilled kernel T s.mem (pdindex (pageMask virt)) →
      pageMask (s.mem (slotDir kernel T (pdindex (pageMask virt))) (pdindex (pageMask virt)))
        ∉ tabs)
    (hnew : ∀ page heap, A.kamalloc s.heap 0x1000 0x1000 = some (page, heap) →
      pageMask page ∉ tabs)
    (h : pgdirMapPage A kernel s T phys virt flags = some s') :
    ∃ page, MapStore tabs (slotDir kernel T (pdindex (pageMask virt))) T (pdindex (pageMask virt))
        (ptindex (pageMask virt)) (pageWord (pageMask phys) flags) page s.mem s'.mem ∧
      (SlotFilled kernel T s.mem (pdindex (pageMask virt)) → s'.heap = s.heap) ∧
      (¬ SlotFilled kernel T s.mem (pdindex (pageMask virt)) →
        ∃ new, A.kamalloc s.heap 0x1000 0x1000 = some (new, s'.heap) ∧ page = pageMask new) := by
  have hdir : slotDir kernel T (pdindex (pageMask virt)) ∈ tabs := by
    rw [← mapDir_eq_slotDir]
    exact mapDir_mem hT fun _ => hk
  obtain ⟨s₁, hadd, hret⟩ := Option.bind_eq_some_iff.mp h
  obtain rfl := Option.some.inj hret
  rw [mapDir_eq_slotDir] at hadd
  simp only [mapDir_eq_slotDir, SlotFilled] at hhad ⊢
  generalize slotDir kernel T (pdindex (pageMask virt)) = dir at *
  generalize pdindex (pageMask virt) = pd at *
  by_cases hp : Present (s.mem dir pd)
  · obtain rfl : s₁ = s := by
      rw [addPageTable, if_pos hp] at hadd
      exact (Option.some.inj hadd).symm
    exact ⟨_, storeEntry_store _ _ _ hdir hT hp (hhad hp), fun _ => rfl, fun hcon => absurd hp hcon⟩
  · obtain ⟨new, hkam, hpres, hmask, hslots, hzero, hpages⟩ := addPageTable_page hdir hnew hp hadd
    have hst := storeEntry_store (ptindex (pageMask virt)) (pageMask phys) flags hdir hT hpres
      (hmask ▸ hnew new _ hkam)
    rw [hmask] at hst
    refine ⟨_, ⟨hst.notDir, fun hcon => absurd hcon hp, hst.filled, ?_, ?_, ?_⟩,
      fun hcon => absurd hcon hp, fun _ => ⟨new, hkam, rfl⟩⟩
    · intro U hU i hi
      rw [hst.slots U hU i hi, hslots U hU i hi]
    · intro j
      rw [hst.word j, if_pos hpres, if_neg hp, hzero j]
    · intro p hptabs hpage
      rw [hst.pages p hptabs hpage, hpages p hptabs hpage]

/-! ## In the middle of a call -/

/-- The page belongs to slot `i` of a table of the set. -/
def SlotPage (tabs : List Nat) (m : PageMem) (i p : Nat) : Prop :=
  ∃ U ∈ tabs, Present (m U i) ∧ pageMask (m U i) = p

theorem SlotPage.table {m : PageMem} {i p : Nat} (hi : i < pgdirEntries)
    (h : SlotPage tabs m i p) : TablePage tabs m p := by
  obtain ⟨U, hU, hp, hm⟩ := h
  exact Or.inr ⟨U, hU, i, hi, hp, hm⟩

theorem Tables.slotPage_notDir {s : Mmu H} (ht : Tables A kernel tabs s) {i p : Nat}
    (hi : i < pgdirEntries) (h : SlotPage tabs s.mem i p) : p ∉ tabs := by
  obtain ⟨U, hU, hp, rfl⟩ := h
  exact ht.notDir U hU i hi hp

theorem Tables.slotPage_unique {s : Mmu H} (ht : Tables A kernel tabs s) {i j p : Nat}
    (hi : i < pgdirEntries) (hj : j < pgdirEntries) (h : SlotPage tabs s.mem i p)
    (h' : SlotPage tabs s.mem j p) : i = j := by
  obtain ⟨U, hU, hp, hm⟩ := h
  obtain ⟨V, hV, hp', hm'⟩ := h'
  exact (ht.shared U hU V hV i hi j hj hp hp' (hm.trans hm'.symm)).1

theorem Tables.tableHeld {s : Mmu H} (ht : Tables A kernel tabs s) {p : Nat}
    (h : TablePage tabs s.mem p) : A.heldPage s.heap p := by
  rcases h with h | ⟨U, hU, i, hi, hp, rfl⟩
  · exact ht.dirHeld p h
  · exact ht.pageHeld U hU i hi hp

/-- The state of a call through `T` that began in `s₀`. A slot that had a page
table keeps one of those that were there; a slot that had none is given a page
that was none of them. -/
structure Amid (A : PageHeap H) (kernel T : Nat) (tabs : List Nat) (s₀ s : Mmu H) : Prop where
  held : ∀ p, TablePage tabs s₀.mem p → A.heldPage s.heap p
  kept : ∀ i < pgdirEntries, SlotFilled kernel T s₀.mem i → SlotFilled kernel T s.mem i
  old : ∀ i < pgdirEntries, SlotFilled kernel T s₀.mem i → ∀ U, U = slotDir kernel T i ∨ U = T →
    Present (s.mem U i) → SlotPage tabs s₀.mem i (pageMask (s.mem U i))
  new : ∀ i < pgdirEntries, ¬ SlotFilled kernel T s₀.mem i → ∀ U, U = slotDir kernel T i ∨ U = T →
    Present (s.mem U i) → ¬ TablePage tabs s₀.mem (pageMask (s.mem U i))

theorem slotDir_mem {T : Nat} (hT : T ∈ tabs) (hk : kernel ∈ tabs) (i : Nat) :
    slotDir kernel T i ∈ tabs := by
  unfold slotDir
  split
  · exact hk
  · exact hT

theorem Amid.start {T : Nat} {s : Mmu H} (ht : Tables A kernel tabs s) (hT : T ∈ tabs)
    (hk : kernel ∈ tabs) (hfirst : KernelFirst kernel T s.mem) : Amid A kernel T tabs s s := by
  refine ⟨fun p => ht.tableHeld, fun _ _ h => h, ?_, ?_⟩
  · intro i _ _ U hU hp
    have hUtabs : U ∈ tabs := hU.elim (fun h => h ▸ slotDir_mem hT hk i) fun h => h ▸ hT
    exact ⟨U, hUtabs, hp, rfl⟩
  · intro i hi hempty U hU hp
    rcases hU with rfl | rfl
    · exact absurd hp hempty
    · exact absurd (hfirst i hi hp) hempty

variable {T : Nat} {s₀ s s' : Mmu H}

/-- A page that is granted, and page `0`, is none of the page tables. -/
theorem Amid.newPage (h : Amid A kernel T tabs s₀ s) (hzero : ¬ TablePage tabs s₀.mem 0)
    {page : Nat} {heap : H} (hk : A.kamalloc s.heap 0x1000 0x1000 = some (page, heap)) :
    ¬ TablePage tabs s₀.mem (pageMask page) := by
  by_cases hnull : page = 0
  · rw [hnull]
    exact hzero
  · obtain ⟨hal, hlt, hblock⟩ := A.fresh_pages hk hnull rfl
    rw [pageMask_of_aligned (by omega) hal]
    exact fun htab => (hblock page hal (Nat.le_refl _) (by omega)).1 (h.held page htab)

/-- One mapping of the call. -/
theorem Amid.store (ht : Tables A kernel tabs s₀) (hT : T ∈ tabs) (hk : kernel ∈ tabs)
    (hzero : ¬ TablePage tabs s₀.mem 0) (h : Amid A kernel T tabs s₀ s) {phys virt flags : Nat}
    (hrun : pgdirMapPage A kernel s T phys virt flags = some s') :
    Amid A kernel T tabs s₀ s' ∧
    ∃ page, MapStore tabs (slotDir kernel T (pdindex (pageMask virt))) T (pdindex (pageMask virt))
        (ptindex (pageMask virt)) (pageWord (pageMask phys) flags) page s.mem s'.mem ∧
      (SlotFilled kernel T s₀.mem (pdindex (pageMask virt)) →
        SlotPage tabs s₀.mem (pdindex (pageMask virt)) page ∧ s'.heap = s.heap) ∧
      (¬ SlotFilled kernel T s₀.mem (pdindex (pageMask virt)) →
        ¬ TablePage tabs s₀.mem page) := by
  have hpd : pdindex (pageMask virt) < pgdirEntries :=
    pdindex_lt (Nat.lt_of_le_of_lt (pageMask_le virt) (by decide))
  have hnotab : ∀ p, ¬ TablePage tabs s₀.mem p → p ∉ tabs := fun p hp hmem => hp (Or.inl hmem)
  have hhad : SlotFilled kernel T s.mem (pdindex (pageMask virt)) →
      pageMask (s.mem (slotDir kernel T (pdindex (pageMask virt))) (pdindex (pageMask virt)))
        ∉ tabs := by
    intro hp
    by_cases hf : SlotFilled kernel T s₀.mem (pdindex (pageMask virt))
    · exact ht.slotPage_notDir hpd (h.old _ hpd hf _ (Or.inl rfl) hp)
    · exact hnotab _ (h.new _ hpd hf _ (Or.inl rfl) hp)
  obtain ⟨page, hst, hheap, hasked⟩ := pgdirMapPage_store hT hk hhad
    (fun page heap hkam => hnotab _ (h.newPage hzero hkam)) hrun
  have hfilled : SlotFilled kernel T s₀.mem (pdindex (pageMask virt)) →
      SlotPage tabs s₀.mem (pdindex (pageMask virt)) page ∧ s'.heap = s.heap := by
    intro hf
    have hp := h.kept _ hpd hf
    rw [← hst.had hp]
    exact ⟨h.old _ hpd hf _ (Or.inl rfl) hp, hheap hp⟩
  have hempty : ¬ SlotFilled kernel T s₀.mem (pdindex (pageMask virt)) →
      ¬ TablePage tabs s₀.mem page := by
    intro hf
    by_cases hp : SlotFilled kernel T s.mem (pdindex (pageMask virt))
    · rw [← hst.had hp]
      exact h.new _ hpd hf _ (Or.inl rfl) hp
    · obtain ⟨new, hkam, rfl⟩ := hasked hp
      exact h.newPage hzero hkam
  refine ⟨⟨?_, ?_, ?_, ?_⟩, page, hst, hfilled, hempty⟩
  · intro p hp
    by_cases hf : SlotFilled kernel T s.mem (pdindex (pageMask virt))
    · rw [hheap hf]
      exact h.held p hp
    · obtain ⟨new, hkam, -⟩ := hasked hf
      exact A.keeps_page hkam (h.held p hp)
  · intro i hi hf
    by_cases hipd : i = pdindex (pageMask virt)
    · rw [hipd]
      exact (hst.filled _ (Or.inl rfl)).1
    · rw [SlotFilled, hst.slots _ (slotDir_mem hT hk i) i hipd]
      exact h.kept i hi hf
  · intro i hi hf U hU hp
    by_cases hipd : i = pdindex (pageMask virt)
    · subst hipd
      rw [(hst.filled U hU).2]
      exact (hfilled hf).1
    · have hUtabs : U ∈ tabs := hU.elim (fun heq => heq ▸ slotDir_mem hT hk i) fun heq => heq ▸ hT
      rw [hst.slots U hUtabs i hipd] at hp ⊢
      exact h.old i hi hf U hU hp
  · intro i hi hf U hU hp
    by_cases hipd : i = pdindex (pageMask virt)
    · subst hipd
      rw [(hst.filled U hU).2]
      exact hempty hf
    · have hUtabs : U ∈ tabs := hU.elim (fun heq => heq ▸ slotDir_mem hT hk i) fun heq => heq ▸ hT
      rw [hst.slots U hUtabs i hipd] at hp ⊢
      exact h.new i hi hf U hU hp

/-! ## Slots that had a page table -/

/-- What the tables of a call read in a slot that had a page table. -/
theorem MapStore.entry_filled {dir pd pt word page i : Nat} (ht : Tables A kernel tabs s₀)
    (hT : T ∈ tabs) (hk : kernel ∈ tabs) (h : Amid A kernel T tabs s₀ s)
    (hst : MapStore tabs dir T pd pt word page s.mem s'.mem) (hdir : dir = slotDir kernel T pd)
    (hpd : pd < pgdirEntries)
    (hfilled : SlotFilled kernel T s₀.mem pd → SlotPage tabs s₀.mem pd page)
    (hempty : ¬ SlotFilled kernel T s₀.mem pd → ¬ TablePage tabs s₀.mem page)
    (hi : i < pgdirEntries) (hf : SlotFilled kernel T s₀.mem i) {U : Nat}
    (hU : U = slotDir kernel T i ∨ U = T) (j : Nat) :
    slotEntry s'.mem U i j =
      if i = pd then if j = pt then word else slotEntry s.mem dir i j
      else slotEntry s.mem U i j := by
  by_cases hipd : i = pd
  · subst hipd
    have hp : Present (s.mem dir i) := hdir ▸ h.kept i hi hf
    obtain ⟨hUp, hUm⟩ := hst.filled U (hdir ▸ hU)
    rw [if_pos rfl, slotEntry_of_present hUp, hUm, hst.word j, if_pos hp,
      slotEntry_of_present hp, hst.had hp]
  · have hUtabs : U ∈ tabs := hU.elim (fun heq => heq ▸ slotDir_mem hT hk i) fun heq => heq ▸ hT
    have hm := hst.slots U hUtabs i hipd
    rw [if_neg hipd]
    by_cases hp : Present (s.mem U i)
    · have hpage := h.old i hi hf U hU hp
      rw [slotEntry_of_present hp, slotEntry_of_present (hm ▸ hp), hm,
        hst.pages _ (ht.slotPage_notDir hi hpage)]
      -- the page belongs to slot `i` alone
      intro heq
      by_cases hfpd : SlotFilled kernel T s₀.mem pd
      · exact hipd (ht.slotPage_unique hi hpd hpage (heq ▸ hfilled hfpd))
      · exact hempty hfpd (heq ▸ hpage.table hi)
    · rw [slotEntry_of_absent hp, slotEntry_of_absent (hm ▸ hp)]

variable {phys virt flags : Nat}

/-- The loop of `mmu_map_table`, for the slots that had a page table. -/
theorem mapLoop_filled (ht : Tables A kernel tabs s₀) (hT : T ∈ tabs) (hk : kernel ∈ tabs)
    (hzero : ¬ TablePage tabs s₀.mem 0) {offs : List Nat} (h : Amid A kernel T tabs s₀ s)
    (hal : ∀ off ∈ offs, off % 4096 = 0)
    (hrun : exec (fun s off => pgdirMapPage A kernel s T (u32 (pageMask phys + off))
      (u32 (pageMask virt + off)) flags) s offs = some s') :
    ∀ v < 4294967296, SlotFilled kernel T s₀.mem (pdindex v) →
      pgdirGetPageEntry s'.mem T v = readAfterMap s.mem kernel T (pageMask virt)
        (fun off => pageWord (u32 (pageMask phys + off)) flags) offs v := by
  induction offs generalizing s with
  | nil =>
      obtain rfl := Option.some.inj hrun
      exact fun _ _ _ => rfl
  | cons off offs ih =>
      obtain ⟨s₁, hstep, hrest⟩ := exec_cons_eq_some.mp hrun
      have hoff := hal off (List.mem_cons_self ..)
      obtain ⟨h₁, page, hst, hfilled, hempty⟩ := h.store ht hT hk hzero hstep
      rw [pageMask_page_off virt off hoff, pageMask_page_off phys off hoff] at hst
      rw [pageMask_page_off virt off hoff] at hfilled hempty
      intro v hv hf
      rw [ih h₁ (fun o ho => hal o (List.mem_cons_of_mem _ ho)) hrest v hv hf]
      have hentry := fun {U} => hst.entry_filled (U := U) ht hT hk h rfl (pdindex_lt (u32_lt _))
        (fun hfpd => (hfilled hfpd).1) hempty (pdindex_lt hv) hf
      have hdirk : kernelOffset ≤ u32 (pageMask virt + off) →
          slotDir kernel T (pdindex (u32 (pageMask virt + off))) = kernel :=
        fun hpk => if_pos (kernelSlot_le_pdindex.mpr hpk)
      refine readAfterMap_cons ?_ fun hvk => ?_
      · simp only [pgdirGetPageEntry_eq]
        rw [hentry (Or.inr rfl)]
        by_cases hpd : pdindex v = pdindex (u32 (pageMask virt + off))
        · rw [if_pos hpd]
          by_cases hpt : ptindex v = ptindex (u32 (pageMask virt + off))
          · rw [if_pos hpt, if_pos (index_eq_iff.mp ⟨hpd, hpt⟩)]
          · rw [if_neg hpt, if_neg fun heq => hpt (index_eq_iff.mpr heq).2]
            by_cases hpk : kernelOffset ≤ u32 (pageMask virt + off)
            · rw [if_pos ⟨hpk, hpd.symm⟩, hdirk hpk]
            · rw [if_neg fun hc => hpk hc.1, slotDir,
                if_neg fun hc => hpk (kernelSlot_le_pdindex.mp hc)]
        · rw [if_neg hpd, if_neg fun heq => hpd (index_eq_iff.mpr heq).1,
            if_neg fun hc => hpd hc.2.symm]
      · have hvdir : slotDir kernel T (pdindex v) = kernel :=
          if_pos (kernelSlot_le_pdindex.mpr hvk)
        simp only [pgdirGetPageEntry_eq]
        rw [hentry (Or.inl hvdir.symm)]
        by_cases hpd : pdindex v = pdindex (u32 (pageMask virt + off))
        · rw [if_pos hpd, ← hpd, hvdir]
          exact if_congr ⟨fun hpt => index_eq_iff.mp ⟨hpd, hpt⟩,
            fun heq => (index_eq_iff.mpr heq).2⟩ rfl rfl
        · rw [if_neg hpd, if_neg fun heq => hpd (index_eq_iff.mpr heq).1]

/-! ## Slots that had none -/

/-- Slot `i` has no page table. -/
def SlotEmpty (kernel T : Nat) (m : PageMem) (i : Nat) : Prop :=
  ¬ Present (m T i) ∧ ¬ SlotFilled kernel T m i

/-- Slot `i` has the page table of its directory, with nothing but words of
the call in it, and at least one. -/
structure SlotOf (kernel T : Nat) (W : Nat → Prop) (m : PageMem) (i : Nat) : Prop where
  same : SameTable m T (slotDir kernel T i) i
  words : ∀ j, slotEntry m T i j = 0 ∨ W (slotEntry m T i j)
  some : ∃ j < pgdirEntries, W (slotEntry m T i j)

theorem ptindex_lt (v : Nat) : ptindex v < pgdirEntries := by
  rw [ptindex_eq, pgdirEntries]
  omega

section Empty

variable {pd pt word page i : Nat} {W : Nat → Prop}

/-- The slot of the mapping. -/
theorem MapStore.slotOf_self (hst : MapStore tabs (slotDir kernel T pd) T pd pt word page s.mem
    s'.mem) (hpt : pt < pgdirEntries) (hw : W word)
    (h : SlotEmpty kernel T s.mem pd ∨ SlotOf kernel T W s.mem pd) :
    SlotOf kernel T W s'.mem pd := by
  obtain ⟨hTp, hTm⟩ := hst.filled T (Or.inr rfl)
  obtain ⟨hdp, hdm⟩ := hst.filled (slotDir kernel T pd) (Or.inl rfl)
  have hread : ∀ j, slotEntry s'.mem T pd j = s'.mem page j := by
    intro j
    rw [slotEntry_of_present hTp, hTm]
  refine ⟨⟨hTp, hdp, hTm.trans hdm.symm⟩, ?_, pt, hpt, ?_⟩
  · intro j
    rw [hread, hst.word j]
    by_cases hj : j = pt
    · rw [if_pos hj]
      exact Or.inr hw
    · rw [if_neg hj]
      rcases h with ⟨-, hno⟩ | hof
      · rw [SlotFilled] at hno
        rw [if_neg hno]
        exact Or.inl rfl
      · obtain ⟨hT, hd, heq⟩ := hof.same
        have hold := hof.words j
        rw [slotEntry_of_present hT, heq, hst.had hd] at hold
        rw [if_pos hd]
        exact hold
  · rw [hread, hst.word pt, if_pos rfl]
    exact hw

/-- Another slot: its page table may be the same page. -/
theorem MapStore.slotOf_other {dir : Nat} (hst : MapStore tabs dir T pd pt word page s.mem s'.mem)
    (hT : T ∈ tabs) (hk : kernel ∈ tabs) (hpt : pt < pgdirEntries) (hw : W word) (hi : i ≠ pd)
    (hnd : Present (s.mem T i) → pageMask (s.mem T i) ∉ tabs) (h : SlotOf kernel T W s.mem i) :
    SlotOf kernel T W s'.mem i := by
  obtain ⟨hTp, hdp, heq⟩ := h.same
  have hTm := hst.slots T hT i hi
  have hdm := hst.slots _ (slotDir_mem hT hk i) i hi
  have hsame : SameTable s'.mem T (slotDir kernel T i) i := by
    rw [SameTable, hTm, hdm]
    exact h.same
  have hread : ∀ j, slotEntry s'.mem T i j = s'.mem (pageMask (s.mem T i)) j := by
    intro j
    rw [slotEntry_of_present hsame.1, hTm]
  have hold : ∀ j, slotEntry s.mem T i j = s.mem (pageMask (s.mem T i)) j :=
    slotEntry_of_present hTp
  by_cases hpage : pageMask (s.mem T i) = page
  · refine ⟨hsame, fun j => ?_, pt, hpt, ?_⟩
    · rw [hread, hpage, hst.word j]
      by_cases hj : j = pt
      · rw [if_pos hj]
        exact Or.inr hw
      · rw [if_neg hj]
        split
        · rw [← hpage, ← hold]
          exact h.words j
        · exact Or.inl rfl
    · rw [hread, hpage, hst.word pt, if_pos rfl]
      exact hw
  · have hkeep : ∀ j, slotEntry s'.mem T i j = slotEntry s.mem T i j := by
      intro j
      rw [hread, hold, hst.pages _ (hnd hTp) hpage]
    refine ⟨hsame, fun j => ?_, ?_⟩
    · rw [hkeep]
      exact h.words j
    · obtain ⟨j, hj, hWj⟩ := h.some
      exact ⟨j, hj, hkeep j ▸ hWj⟩

theorem MapStore.slotEmpty_other {dir : Nat}
    (hst : MapStore tabs dir T pd pt word page s.mem s'.mem) (hT : T ∈ tabs) (hk : kernel ∈ tabs)
    (hi : i ≠ pd) (h : SlotEmpty kernel T s.mem i) : SlotEmpty kernel T s'.mem i := by
  rw [SlotEmpty, SlotFilled, hst.slots T hT i hi, hst.slots _ (slotDir_mem hT hk i) i hi]
  exact h

end Empty

/-- The loop of `mmu_map_table`, for a slot that had no page table. -/
theorem mapLoop_empty {W : Nat → Prop} (ht : Tables A kernel tabs s₀) (hT : T ∈ tabs)
    (hk : kernel ∈ tabs) (hzero : ¬ TablePage tabs s₀.mem 0) {i : Nat} (hi : i < pgdirEntries)
    (hf : ¬ SlotFilled kernel T s₀.mem i) {offs : List Nat} (h : Amid A kernel T tabs s₀ s)
    (hal : ∀ off ∈ offs, off % 4096 = 0 ∧ W (pageWord (u32 (pageMask phys + off)) flags))
    (hrun : exec (fun s off => pgdirMapPage A kernel s T (u32 (pageMask phys + off))
      (u32 (pageMask virt + off)) flags) s offs = some s') :
    (SlotOf kernel T W s.mem i → SlotOf kernel T W s'.mem i) ∧
    (SlotEmpty kernel T s.mem i → (∃ off ∈ offs, pdindex (u32 (pageMask virt + off)) = i) →
      SlotOf kernel T W s'.mem i) ∧
    (SlotEmpty kernel T s.mem i → (∀ off ∈ offs, pdindex (u32 (pageMask virt + off)) ≠ i) →
      SlotEmpty kernel T s'.mem i) := by
  induction offs generalizing s with
  | nil =>
      obtain rfl := Option.some.inj hrun
      refine ⟨id, fun _ hex => ?_, fun hempty _ => hempty⟩
      obtain ⟨off, hoff, -⟩ := hex
      exact absurd hoff List.not_mem_nil
  | cons off offs ih =>
      obtain ⟨s₁, hstep, hrest⟩ := exec_cons_eq_some.mp hrun
      obtain ⟨hoff, hw⟩ := hal off (List.mem_cons_self ..)
      obtain ⟨h₁, page, hst, -, -⟩ := h.store ht hT hk hzero hstep
      rw [pageMask_page_off virt off hoff, pageMask_page_off phys off hoff] at hst
      obtain ⟨hof, hasked, huntouched⟩ :=
        ih h₁ (fun o ho => hal o (List.mem_cons_of_mem _ ho)) hrest
      have hpt := ptindex_lt (u32 (pageMask virt + off))
      have hnd : Present (s.mem T i) → pageMask (s.mem T i) ∉ tabs :=
        fun hp hmem => h.new i hi hf T (Or.inr rfl) hp (Or.inl hmem)
      by_cases hpd : pdindex (u32 (pageMask virt + off)) = i
      · subst hpd
        refine ⟨fun hs => hof (hst.slotOf_self hpt hw (Or.inr hs)),
          fun hs _ => hof (hst.slotOf_self hpt hw (Or.inl hs)), fun _ hno => ?_⟩
        exact absurd rfl (hno off (List.mem_cons_self ..))
      · have hne : i ≠ pdindex (u32 (pageMask virt + off)) := fun heq => hpd heq.symm
        refine ⟨fun hs => hof (hst.slotOf_other hT hk hpt hw hne hnd hs), fun hs hex => ?_,
          fun hs hno => huntouched (hst.slotEmpty_other hT hk hne hs)
            fun o ho => hno o (List.mem_cons_of_mem _ ho)⟩
        refine hasked (hst.slotEmpty_other hT hk hne hs) ?_
        obtain ⟨o, ho, heq⟩ := hex
        rcases List.mem_cons.mp ho with rfl | ho
        · exact absurd heq hpd
        · exact ⟨o, ho, heq⟩

/-- A range whose slots all have page tables asks for none. -/
theorem mapLoop_heap (ht : Tables A kernel tabs s₀) (hT : T ∈ tabs) (hk : kernel ∈ tabs)
    (hzero : ¬ TablePage tabs s₀.mem 0) {offs : List Nat} (h : Amid A kernel T tabs s₀ s)
    (hal : ∀ off ∈ offs, off % 4096 = 0 ∧
      SlotFilled kernel T s₀.mem (pdindex (u32 (pageMask virt + off))))
    (hrun : exec (fun s off => pgdirMapPage A kernel s T (u32 (pageMask phys + off))
      (u32 (pageMask virt + off)) flags) s offs = some s') : s'.heap = s.heap := by
  induction offs generalizing s with
  | nil =>
      obtain rfl := Option.some.inj hrun
      rfl
  | cons off offs ih =>
      obtain ⟨s₁, hstep, hrest⟩ := exec_cons_eq_some.mp hrun
      obtain ⟨hoff, hf⟩ := hal off (List.mem_cons_self ..)
      obtain ⟨h₁, page, -, hfilled, -⟩ := h.store ht hT hk hzero hstep
      rw [pageMask_page_off virt off hoff] at hfilled
      rw [ih h₁ (fun o ho => hal o (List.mem_cons_of_mem _ ho)) hrest, (hfilled hf).2]

theorem mapLoop_kernelFirst (ht : Tables A kernel tabs s₀) (hT : T ∈ tabs) (hk : kernel ∈ tabs)
    (hzero : ¬ TablePage tabs s₀.mem 0) {U : Nat} (hU : U ∈ tabs) {offs : List Nat}
    (h : Amid A kernel T tabs s₀ s) (hfirst : KernelFirst kernel U s.mem)
    (hrun : exec (fun s off => pgdirMapPage A kernel s T (u32 (pageMask phys + off))
      (u32 (pageMask virt + off)) flags) s offs = some s') : KernelFirst kernel U s'.mem := by
  induction offs generalizing s with
  | nil =>
      obtain rfl := Option.some.inj hrun
      exact hfirst
  | cons off offs ih =>
      obtain ⟨s₁, hstep, hrest⟩ := exec_cons_eq_some.mp hrun
      obtain ⟨h₁, page, hst, -, -⟩ := h.store ht hT hk hzero hstep
      refine ih h₁ ?_ hrest
      intro i hi hp
      by_cases hpd : i = pdindex (pageMask (u32 (pageMask virt + off)))
      · by_cases hks : kernelSlot ≤ i
        · have hdir : slotDir kernel U i = slotDir kernel T i := by
            rw [slotDir, slotDir, if_pos hks, if_pos hks]
          rw [hdir, hpd]
          exact (hst.filled _ (Or.inl rfl)).1
        · rw [slotDir, if_neg hks]
          exact hp
      · rw [hst.slots U hU i hpd] at hp
        rw [hst.slots _ (slotDir_mem hU hk i) i hpd]
        exact hfirst i hi hp

/-! ## A range -/

/-- The answer of `table` for `v` once `phys` is mapped at `virt`: the new
translation for the pages of the range, the kernel's for the rest of a kernel
slot the range reaches into, the old one elsewhere. -/
def mapAnswer (m : PageMem) (kernel table virt phys size flags v : Nat) :
    Except Int (Nat × Nat) :=
  entryAnswer (readAfterMap m kernel table (pageMask virt)
    (fun off => pageWord (u32 (pageMask phys + off)) (pageFlags flags))
    ((pageOffs size).getD []) v)

/-- The tables a range is mapped in: well formed, the kernel's page tables
first, and none of them in page `0`. -/
structure MapReady (A : PageHeap H) (kernel T : Nat) (tabs : List Nat) (s : Mmu H) : Prop where
  tables : Tables A kernel tabs s
  table_mem : T ∈ tabs
  kernel_mem : kernel ∈ tabs
  first : KernelFirst kernel T s.mem
  zero : ¬ TablePage tabs s.mem 0

theorem MapReady.granted (h : MapReady A kernel T tabs s) {sz align r : Nat} {heap : H}
    (hkam : A.kamalloc s.heap sz align = some (r, heap)) :
    MapReady A kernel T tabs { s with heap := heap } :=
  ⟨h.tables.granted hkam, h.table_mem, h.kernel_mem, h.first, h.zero⟩

theorem MapReady.start (h : MapReady A kernel T tabs s) : Amid A kernel T tabs s s :=
  Amid.start h.tables h.table_mem h.kernel_mem h.first

theorem MapReady.slotEmpty (h : MapReady A kernel T tabs s) {i : Nat} (hi : i < pgdirEntries)
    (hf : ¬ SlotFilled kernel T s.mem i) : SlotEmpty kernel T s.mem i :=
  ⟨fun hp => hf (h.first i hi hp), hf⟩

/-- Nothing is translated in a slot that is empty. -/
theorem SlotEmpty.get {m : PageMem} {v : Nat} (h : SlotEmpty kernel T m (pdindex v)) :
    mmuMapGetTable m T v = .error (-EUNSPEC) := by
  rw [mmuMapGetTable, pgdirGetPageEntry_eq, slotEntry_of_absent h.1]
  rfl

section Range

variable {size : Nat}

/-- **A slot that had a page table** answers as if no request were refused. -/
theorem mmuMapTable_filled (h : MapReady A kernel T tabs s)
    (hrun : mmuMapTable A kernel s T virt phys size flags = some s') {v : Nat}
    (hv : v < 4294967296) (hf : SlotFilled kernel T s.mem (pdindex v)) :
    mmuMapGetTable s'.mem T v = mapAnswer s.mem kernel T virt phys size flags v := by
  obtain ⟨offs, hoffs, hrun⟩ := Option.bind_eq_some_iff.mp hrun
  rw [foldlM_eq_exec] at hrun
  rw [mmuMapGetTable, mapAnswer, hoffs, Option.getD_some,
    mapLoop_filled h.tables h.table_mem h.kernel_mem h.zero h.start
      (fun off hoff => ((mem_pageOffs hoffs).mp hoff).1) hrun v hv hf]

/-- The words a range stores. -/
def RangeWord (phys size flags w : Nat) : Prop :=
  ∃ off, off % 4096 = 0 ∧ off < size ∧ w = pageWord (u32 (pageMask phys + off)) (pageFlags flags)

theorem RangeWord.answer {w : Nat} (h : RangeWord phys size flags w) :
    ∃ off, off % 4096 = 0 ∧ off < size ∧ entryAnswer w =
      .ok (mmuFlagRead ||| (flags &&& mmuFlagWrite) ||| (flags &&& mmuFlagKernel),
        u32 (pageMask phys + off)) := by
  obtain ⟨off, hal, hlt, rfl⟩ := h
  exact ⟨off, hal, hlt, entryAnswer_pageWord (u32_lt _) (page_off phys off hal)⟩

/-- **A slot that had none** answers with frames of the range, or not at
all. -/
theorem mmuMapTable_empty (h : MapReady A kernel T tabs s)
    (hrun : mmuMapTable A kernel s T virt phys size flags = some s') {v : Nat}
    (hv : v < 4294967296) (hf : ¬ SlotFilled kernel T s.mem (pdindex v)) :
    mmuMapGetTable s'.mem T v = .error (-EUNSPEC) ∨
      ∃ off, off % 4096 = 0 ∧ off < size ∧ mmuMapGetTable s'.mem T v =
        .ok (mmuFlagRead ||| (flags &&& mmuFlagWrite) ||| (flags &&& mmuFlagKernel),
          u32 (pageMask phys + off)) := by
  obtain ⟨offs, hoffs, hrun⟩ := Option.bind_eq_some_iff.mp hrun
  rw [foldlM_eq_exec] at hrun
  obtain ⟨-, hasked, huntouched⟩ := mapLoop_empty (W := RangeWord phys size flags) h.tables
    h.table_mem h.kernel_mem h.zero (pdindex_lt hv) hf h.start
    (fun off hoff => ⟨((mem_pageOffs hoffs).mp hoff).1, off, ((mem_pageOffs hoffs).mp hoff).1,
      ((mem_pageOffs hoffs).mp hoff).2, rfl⟩) hrun
  have hempty := h.slotEmpty (pdindex_lt hv) hf
  by_cases hex : ∃ off ∈ offs, pdindex (u32 (pageMask virt + off)) = pdindex v
  · rw [mmuMapGetTable, pgdirGetPageEntry_eq]
    rcases (hasked hempty hex).words (ptindex v) with hz | hw
    · rw [hz]
      exact Or.inl rfl
    · exact Or.inr hw.answer
  · exact Or.inl (huntouched hempty fun off hoff heq => hex ⟨off, hoff, heq⟩).get

/-- A slot the range reaches and that had none: some answer in it changes. -/
theorem mmuMapTable_asked (h : MapReady A kernel T tabs s)
    (hrun : mmuMapTable A kernel s T virt phys size flags = some s') {off : Nat}
    (hal : off % 4096 = 0) (hlt : off < size)
    (hf : ¬ SlotFilled kernel T s.mem (pdindex (u32 (pageMask virt + off)))) :
    ∃ v < 4294967296, pdindex v = pdindex (u32 (pageMask virt + off)) ∧
      mmuMapGetTable s'.mem T v ≠ mmuMapGetTable s.mem T v := by
  obtain ⟨offs, hoffs, hrun⟩ := Option.bind_eq_some_iff.mp hrun
  rw [foldlM_eq_exec] at hrun
  have hpd := pdindex_lt (u32_lt (pageMask virt + off))
  obtain ⟨-, hasked, -⟩ := mapLoop_empty (W := RangeWord phys size flags) h.tables
    h.table_mem h.kernel_mem h.zero hpd hf h.start
    (fun off hoff => ⟨((mem_pageOffs hoffs).mp hoff).1, off, ((mem_pageOffs hoffs).mp hoff).1,
      ((mem_pageOffs hoffs).mp hoff).2, rfl⟩) hrun
  have hempty := h.slotEmpty hpd hf
  obtain ⟨j, hj, hw⟩ := (hasked hempty ⟨off, (mem_pageOffs hoffs).mpr ⟨hal, hlt⟩, rfl⟩).some
  generalize pdindex (u32 (pageMask virt + off)) = i at *
  -- the address of the word
  have hN : pgdirEntries = 1024 := rfl
  have hpdv : pdindex (i * 4194304 + j * 4096) = i := by
    rw [pdindex_eq]
    omega
  have hptv : ptindex (i * 4194304 + j * 4096) = j := by
    rw [ptindex_eq]
    omega
  refine ⟨i * 4194304 + j * 4096, by omega, hpdv, ?_⟩
  obtain ⟨_, -, -, hans⟩ := hw.answer
  rw [← hpdv] at hempty
  rw [hempty.get, mmuMapGetTable, pgdirGetPageEntry_eq, hpdv, hptv, hans]
  intro hcon
  cases hcon

/-- A slot the range does not reach and that had none. -/
theorem mmuMapTable_untouched (h : MapReady A kernel T tabs s)
    (hrun : mmuMapTable A kernel s T virt phys size flags = some s') {v : Nat}
    (hv : v < 4294967296) (hf : ¬ SlotFilled kernel T s.mem (pdindex v))
    (hno : ∀ off, off % 4096 = 0 → off < size →
      pdindex (u32 (pageMask virt + off)) ≠ pdindex v) :
    mmuMapGetTable s'.mem T v = mmuMapGetTable s.mem T v := by
  obtain ⟨offs, hoffs, hrun⟩ := Option.bind_eq_some_iff.mp hrun
  rw [foldlM_eq_exec] at hrun
  obtain ⟨-, -, huntouched⟩ := mapLoop_empty (W := fun _ => True) h.tables h.table_mem
    h.kernel_mem h.zero (pdindex_lt hv) hf h.start
    (fun off hoff => ⟨((mem_pageOffs hoffs).mp hoff).1, trivial⟩) hrun
  have hempty := h.slotEmpty (pdindex_lt hv) hf
  rw [hempty.get, (huntouched hempty fun off hoff => hno off ((mem_pageOffs hoffs).mp hoff).1
    ((mem_pageOffs hoffs).mp hoff).2).get]

theorem mmuMapTable_heap (h : MapReady A kernel T tabs s)
    (hrun : mmuMapTable A kernel s T virt phys size flags = some s')
    (hf : ∀ off, off % 4096 = 0 → off < size →
      SlotFilled kernel T s.mem (pdindex (u32 (pageMask virt + off)))) :
    s'.heap = s.heap := by
  obtain ⟨offs, hoffs, hrun⟩ := Option.bind_eq_some_iff.mp hrun
  rw [foldlM_eq_exec] at hrun
  exact mapLoop_heap h.tables h.table_mem h.kernel_mem h.zero h.start
    (fun off hoff => ⟨((mem_pageOffs hoffs).mp hoff).1, hf off ((mem_pageOffs hoffs).mp hoff).1
      ((mem_pageOffs hoffs).mp hoff).2⟩) hrun

/-- **The kernel's page tables stay first** in every table, whatever the heap
answers. -/
theorem mmuMapTable_kernelFirst (h : MapReady A kernel T tabs s)
    (hrun : mmuMapTable A kernel s T virt phys size flags = some s') {U : Nat} (hU : U ∈ tabs)
    (hfirst : KernelFirst kernel U s.mem) : KernelFirst kernel U s'.mem := by
  obtain ⟨offs, hoffs, hrun⟩ := Option.bind_eq_some_iff.mp hrun
  rw [foldlM_eq_exec] at hrun
  exact mapLoop_kernelFirst h.tables h.table_mem h.kernel_mem h.zero hU h.start hfirst hrun

end Range

end Refused

end LambdaOs
