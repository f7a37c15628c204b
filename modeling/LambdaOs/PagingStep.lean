import LambdaOs.Paging

/-!
# One mapping, seen from every table

`Tables tabs` is the invariant of a set of MMU tables that live side by
side: their directories and page tables are pages the heap holds, no page
table is a directory, and a page table belongs to one directory slot, except
that a slot at or above `KERNEL_OFFSET` may be the kernel's own.

`pgdirMapPage_spec` says what one mapping does to every word of every table
in the set. All results about ranges, runs and clones are derived from it.
-/

namespace LambdaOs

/-! ## Indices -/

/-- The first directory slot of the kernel's part. -/
def kernelSlot : Nat := 768

theorem pdindex_eq (v : Nat) : pdindex v = v / 4194304 := Nat.shiftRight_eq_div_pow v 22

theorem ptindex_eq (v : Nat) : ptindex v = v / 4096 % 1024 := by
  rw [ptindex, Nat.shiftRight_eq_div_pow]
  exact Nat.and_two_pow_sub_one_eq_mod _ 10

theorem pdindex_lt {v : Nat} (h : v < 4294967296) : pdindex v < pgdirEntries := by
  rw [pdindex_eq, pgdirEntries]
  omega

/-- The two indices are the page number. -/
theorem index_eq_iff {v w : Nat} :
    (pdindex v = pdindex w ∧ ptindex v = ptindex w) ↔ v / 4096 = w / 4096 := by
  simp only [pdindex_eq, ptindex_eq]
  omega

theorem kernelSlot_le_pdindex {v : Nat} : kernelSlot ≤ pdindex v ↔ kernelOffset ≤ v := by
  rw [pdindex_eq, kernelSlot, kernelOffset]
  omega

/-! ## Reading a table -/

/-- The table word at directory slot `i` and index `j`. -/
def slotEntry (m : PageMem) (table i j : Nat) : Nat :=
  if Present (m table i) then m (pageMask (m table i)) j else 0

theorem pgdirGetPageEntry_eq (m : PageMem) (table v : Nat) :
    pgdirGetPageEntry m table v = slotEntry m table (pdindex v) (ptindex v) := rfl

/-- Two addresses on one page. -/
theorem mmuMapGetTable_page (m : PageMem) (T : Nat) {v w : Nat} (h : v / 4096 = w / 4096) :
    mmuMapGetTable m T v = mmuMapGetTable m T w := by
  obtain ⟨hpd, hpt⟩ := index_eq_iff.mpr h
  simp only [mmuMapGetTable, pgdirGetPageEntry, hpd, hpt]

theorem slotEntry_of_present {m : PageMem} {table i : Nat} (h : Present (m table i)) (j : Nat) :
    slotEntry m table i j = m (pageMask (m table i)) j := if_pos h

theorem slotEntry_of_absent {m : PageMem} {table i : Nat} (h : ¬ Present (m table i)) (j : Nat) :
    slotEntry m table i j = 0 := if_neg h

theorem present_or_user {w : Nat} (h : Present w) (f : Nat) :
    Present (w ||| (f &&& pageFlagUser)) := by
  simpa [Present, pageFlagPresent, pageFlagUser, Nat.and_or_distrib_right, Nat.and_assoc] using h

theorem pageMask_or_user (w f : Nat) : pageMask (w ||| (f &&& pageFlagUser)) = pageMask w :=
  pageMask_or_flags w f (by decide)

/-- The directory word of a new page table. -/
theorem newTable_word (page : Nat) :
    Present (page ||| pageFlagPresent ||| pageFlagWritable)
      ∧ pageMask (page ||| pageFlagPresent ||| pageFlagWritable) = pageMask page := by
  constructor
  · simp [Present, pageFlagPresent, pageFlagWritable]
  · simp [pageMask, pageFlagPresent, pageFlagWritable, Nat.and_or_distrib_right]

/-! ## Pages of the heap -/

section Pages

variable {H : Type} {A : PageHeap H} {h h' : H}

theorem PageHeap.fresh_pages {sz r : Nat} (hk : A.kamalloc h sz 0x1000 = some (r, h'))
    (hr : r ≠ 0) (hsz : sz % 4096 = 0) :
    r % 4096 = 0 ∧ r + sz ≤ 4294967296 ∧
      ∀ a, a % 4096 = 0 → r ≤ a → a < r + sz → ¬ A.heldPage h a ∧ A.heldPage h' a := by
  obtain ⟨hal, hfits, hbytes⟩ := A.fresh hk hr
  refine ⟨hal, hfits, fun a ha hlo hhi => ⟨?_, ?_⟩⟩
  · intro hheld
    exact (hbytes a hlo hhi).1 (hheld a (Nat.le_refl _) (by omega))
  · intro x hlo' hhi'
    exact (hbytes x (by omega) (by omega)).2

theorem PageHeap.keeps_page {sz align r a : Nat} (hk : A.kamalloc h sz align = some (r, h'))
    (ha : A.heldPage h a) : A.heldPage h' a :=
  fun x hlo hhi => A.keeps hk (ha x hlo hhi)

end Pages

/-! ## The invariant of a set of tables -/

section Step

variable {H : Type} {A : PageHeap H} {kernel : Nat} {tabs : List Nat}

/-- Slot `i` of a table is the kernel's own page table. -/
def OwnKernel (kernel : Nat) (tabs : List Nat) (m : PageMem) (i page : Nat) : Prop :=
  kernelSlot ≤ i ∧ kernel ∈ tabs ∧ Present (m kernel i) ∧ pageMask (m kernel i) = page

structure Tables (A : PageHeap H) (kernel : Nat) (tabs : List Nat) (s : Mmu H) : Prop where
  aligned : ∀ T ∈ tabs, T % 4096 = 0
  dirHeld : ∀ T ∈ tabs, A.heldPage s.heap T
  pageHeld : ∀ T ∈ tabs, ∀ i < pgdirEntries, Present (s.mem T i) →
    A.heldPage s.heap (pageMask (s.mem T i))
  notDir : ∀ T ∈ tabs, ∀ i < pgdirEntries, Present (s.mem T i) → pageMask (s.mem T i) ∉ tabs
  shared : ∀ T ∈ tabs, ∀ U ∈ tabs, ∀ i < pgdirEntries, ∀ j < pgdirEntries,
    Present (s.mem T i) → Present (s.mem U j) → pageMask (s.mem T i) = pageMask (s.mem U j) →
    i = j ∧ (T = U ∨ OwnKernel kernel tabs s.mem i (pageMask (s.mem T i)))

/-- The heap may hand out other blocks meanwhile. -/
theorem Tables.granted {s : Mmu H} (ht : Tables A kernel tabs s) {sz align r : Nat} {heap : H}
    (hkam : A.kamalloc s.heap sz align = some (r, heap)) :
    Tables A kernel tabs { s with heap := heap } :=
  ⟨ht.aligned, fun T hT => A.keeps_page hkam (ht.dirHeld T hT),
    fun T hT i hi hTi => A.keeps_page hkam (ht.pageHeld T hT i hi hTi), ht.notDir, ht.shared⟩

theorem Tables.served {s : Mmu H} (ht : Tables A kernel tabs s) : Tables A.served kernel tabs s :=
  ⟨ht.aligned, ht.dirHeld, ht.pageHeld, ht.notDir, ht.shared⟩

theorem Tables.of_served {s : Mmu H} (ht : Tables A.served kernel tabs s) :
    Tables A kernel tabs s :=
  ⟨ht.aligned, ht.dirHeld, ht.pageHeld, ht.notDir, ht.shared⟩

/-- The page is a directory of the set, or a page table of one. -/
def TablePage (tabs : List Nat) (m : PageMem) (p : Nat) : Prop :=
  p ∈ tabs ∨ ∃ T ∈ tabs, ∃ i < pgdirEntries, Present (m T i) ∧ pageMask (m T i) = p

/-- Two tables use the same page table in slot `i`. -/
def SameTable (m : PageMem) (T U i : Nat) : Prop :=
  Present (m T i) ∧ Present (m U i) ∧ pageMask (m T i) = pageMask (m U i)

/-! ## A new page table -/

/-- What `addPageTable` does: nothing, or it fills slot `pd` of `dir` with an
empty page that nothing in the set used. -/
theorem addPageTable_cases {s s' : Mmu H} {dir pd : Nat}
    (h : addPageTable A s dir pd = some s') :
    (Present (s.mem dir pd) ∧ s' = s) ∨
    (¬ Present (s.mem dir pd) ∧ ∃ page, A.kamalloc s.heap 0x1000 0x1000 = some (page, s'.heap)
      ∧ s'.mem = (s.mem.setWord dir pd (page ||| pageFlagPresent ||| pageFlagWritable)).zeroPage
          (pageMask page)) := by
  unfold addPageTable at h
  split at h
  · rename_i hp
    exact Or.inl ⟨hp, (Option.some.inj h).symm⟩
  · rename_i hp
    obtain ⟨⟨page, heap⟩, hk, hret⟩ := Option.bind_eq_some_iff.mp h
    obtain rfl := Option.some.inj hret
    refine Or.inr ⟨hp, page, hk, ?_⟩
    simp only [(newTable_word page).2]

theorem addPageTable_spec {s s' : Mmu H} {dir pd : Nat} (ht : Tables A kernel tabs s)
    (hnull : A.NeverNull) (hdir : dir ∈ tabs) (hpd : pd < pgdirEntries)
    (h : addPageTable A s dir pd = some s') :
    Tables A kernel tabs s' ∧ Present (s'.mem dir pd)
      ∧ (∀ U ∈ tabs, ∀ i j, i < pgdirEntries → slotEntry s'.mem U i j = slotEntry s.mem U i j)
      ∧ (∀ U ∈ tabs, ∀ i < pgdirEntries, U ≠ dir ∨ i ≠ pd → s'.mem U i = s.mem U i)
      ∧ (Present (s.mem dir pd) → s'.mem dir pd = s.mem dir pd)
      ∧ (∀ U ∈ tabs, U ≠ dir → SameTable s'.mem U dir pd → SameTable s.mem U dir pd) := by
  rcases addPageTable_cases h with ⟨hp, rfl⟩ | ⟨hp, page, hk, hmem⟩
  · exact ⟨ht, hp, fun _ _ _ _ _ => rfl, fun _ _ _ _ _ => rfl, fun _ => rfl,
      fun _ _ _ hsame => hsame⟩
  obtain ⟨hal, hlt, hblock⟩ := A.fresh_pages hk (hnull hk) (by decide)
  have hpage : pageMask page = page := pageMask_of_aligned (by omega) hal
  obtain ⟨hnew, hheld⟩ := hblock page hal (Nat.le_refl _) (by omega)
  obtain ⟨hwp, hwm⟩ := newTable_word page
  rw [hpage] at hmem hwm
  -- the new page is none of the pages of the set
  have hnotab : ∀ U ∈ tabs, U ≠ page := fun U hU heq => hnew (heq ▸ ht.dirHeld U hU)
  have hnoslot : ∀ U ∈ tabs, ∀ i < pgdirEntries, Present (s.mem U i) →
      pageMask (s.mem U i) ≠ page :=
    fun U hU i hi hUi heq => hnew (heq ▸ ht.pageHeld U hU i hi hUi)
  have hword : s'.mem dir pd = page ||| pageFlagPresent ||| pageFlagWritable := by
    simp [hmem, PageMem.zeroPage, PageMem.setWord, hnotab dir hdir]
  have hother : ∀ U ∈ tabs, ∀ i, U ≠ dir ∨ i ≠ pd → s'.mem U i = s.mem U i := by
    intro U hU i hne
    simp [hmem, PageMem.zeroPage, PageMem.setWord, hnotab U hU, not_and_or.mpr hne]
  -- a present slot of the new state is the new one or an old one
  have hlook : ∀ U ∈ tabs, ∀ i, Present (s'.mem U i) →
      (U = dir ∧ i = pd ∧ pageMask (s'.mem U i) = page) ∨
      ((U ≠ dir ∨ i ≠ pd) ∧ s'.mem U i = s.mem U i) := by
    intro U hU i _
    by_cases hslot : U = dir ∧ i = pd
    · obtain ⟨rfl, rfl⟩ := hslot
      exact Or.inl ⟨rfl, rfl, by rw [hword, hwm]⟩
    · have hne := not_and_or.mp hslot
      exact Or.inr ⟨hne, hother U hU i hne⟩
  have hkeep : ∀ a, A.heldPage s.heap a → A.heldPage s'.heap a := fun a => A.keeps_page hk
  refine ⟨⟨ht.aligned, fun T hT => hkeep T (ht.dirHeld T hT), ?_, ?_, ?_⟩,
    by rw [hword]; exact hwp, ?_, fun U hU i _ hne => hother U hU i hne,
    fun hpres => absurd hpres hp, ?_⟩
  · intro T hT i hi hTi
    rcases hlook T hT i hTi with ⟨-, -, hm⟩ | ⟨-, hm⟩
    · rw [hm]
      exact hheld
    · rw [hm] at hTi ⊢
      exact hkeep _ (ht.pageHeld T hT i hi hTi)
  · intro T hT i hi hTi
    rcases hlook T hT i hTi with ⟨-, -, hm⟩ | ⟨-, hm⟩
    · rw [hm]
      exact fun hmem => hnotab page hmem rfl
    · rw [hm] at hTi ⊢
      exact ht.notDir T hT i hi hTi
  · intro T hT U hU i hi j hj hTi hUj heq
    rcases hlook T hT i hTi with ⟨hT', hi', hm⟩ | ⟨hne, hm⟩
    · rcases hlook U hU j hUj with ⟨hU', hj', -⟩ | ⟨-, hm'⟩
      · exact ⟨by omega, Or.inl (by rw [hT', hU'])⟩
      · rw [hm'] at hUj heq
        exact absurd (hm.symm.trans heq).symm (hnoslot U hU j hj hUj)
    · rcases hlook U hU j hUj with ⟨-, -, hm'⟩ | ⟨-, hm'⟩
      · rw [hm] at hTi heq
        exact absurd (heq.trans hm') (hnoslot T hT i hi hTi)
      · rw [hm] at hTi heq ⊢
        rw [hm'] at hUj heq
        obtain ⟨hij, hown⟩ := ht.shared T hT U hU i hi j hj hTi hUj heq
        refine ⟨hij, hown.imp_right fun ⟨hks, hkt, hkp, hkm⟩ => ⟨hks, hkt, ?_⟩⟩
        -- the kernel's slot was present, so it is not the one just filled
        have hkne : kernel ≠ dir ∨ i ≠ pd := by
          refine not_and_or.mp ?_
          intro hcon
          rw [hcon.1, hcon.2] at hkp
          exact hp hkp
        rw [hother kernel hkt i hkne]
        exact ⟨hkp, hkm⟩
  · intro U hU i j hi
    by_cases hslot : U = dir ∧ i = pd
    · obtain ⟨rfl, rfl⟩ := hslot
      rw [slotEntry_of_absent hp, slotEntry_of_present (hword ▸ hwp), hword, hwm, hmem]
      simp [PageMem.zeroPage]
    · have hm := hother U hU i (not_and_or.mp hslot)
      by_cases hUi : Present (s.mem U i)
      · have hpg := hnoslot U hU i hi hUi
        have hd := ht.notDir U hU i hi hUi
        have hpd : pageMask (s.mem U i) ≠ dir := fun heq => hd (heq ▸ hdir)
        rw [slotEntry_of_present hUi, slotEntry_of_present (hm ▸ hUi), hm, hmem]
        simp [PageMem.zeroPage, PageMem.setWord, hpg, hpd]
      · rw [slotEntry_of_absent hUi, slotEntry_of_absent (hm ▸ hUi)]
  · rintro U hU hne ⟨hUp, -, heq⟩
    have hm := hother U hU pd (Or.inl hne)
    rw [hm] at hUp heq
    rw [hword, hwm] at heq
    exact absurd heq (hnoslot U hU pd hpd hUp)

/-! ## The stores of one mapping -/

/-- The word `pgdir_map_page` stores for a frame. -/
def pageWord (phys flags : Nat) : Nat := phys ||| (flags &&& 0xFFF) ||| 1

section Store

variable {s : Mmu H} {dir T pd pt phys flags : Nat}

/-- The stores touch the directory word of `dir`, its copy in `T`, and one
word of the page table. -/
theorem storeEntry_dir (hnd : pageMask (s.mem dir pd) ∉ tabs) (hdir : dir ∈ tabs)
    {U : Nat} (hU : U ∈ tabs) (i : Nat) :
    storeEntry s.mem dir T pd pt phys flags U i =
      if (U = dir ∨ U = T) ∧ i = pd then s.mem dir pd ||| (flags &&& pageFlagUser)
      else s.mem U i := by
  have hUp : U ≠ pageMask (s.mem dir pd) := fun heq => hnd (heq ▸ hU)
  have hdp : dir ≠ pageMask (s.mem dir pd) := fun heq => hnd (heq ▸ hdir)
  unfold storeEntry
  by_cases hdT : dir = T
  · subst hdT
    by_cases hUd : U = dir ∧ i = pd
    · simp [PageMem.setWord, pageMask_or_user, hUd, hdp]
    · simp [PageMem.setWord, pageMask_or_user, hUd, hUp]
  · by_cases hUT : U = T ∧ i = pd
    · simp [PageMem.setWord, pageMask_or_user, hUT, hdT, hdp]
    · by_cases hUd : U = dir ∧ i = pd
      · simp [PageMem.setWord, pageMask_or_user, hUd, hdT, hdp]
      · have hneither : ¬ ((U = dir ∨ U = T) ∧ i = pd) :=
          fun h => h.1.elim (fun hd => hUd ⟨hd, h.2⟩) fun hT => hUT ⟨hT, h.2⟩
        simp [PageMem.setWord, pageMask_or_user, hUT, hUd, hUp, hdT, hneither]

theorem storeEntry_page (hdir : dir ∈ tabs) (hT : T ∈ tabs)
    {Q : Nat} (hQ : Q ∉ tabs) (j : Nat) :
    storeEntry s.mem dir T pd pt phys flags Q j =
      if Q = pageMask (s.mem dir pd) ∧ j = pt then pageWord phys flags else s.mem Q j := by
  have hQd : Q ≠ dir := fun heq => hQ (heq ▸ hdir)
  have hQT : Q ≠ T := fun heq => hQ (heq ▸ hT)
  unfold storeEntry
  by_cases hdT : dir = T <;>
    simp [PageMem.setWord, pageMask_or_user, pageWord, hQd, hQT, hdT]

/-- A present slot after the stores: its page is the one it had, or, in
slot `pd` of `T`, the one of `dir`. -/
theorem storeEntry_slot (hnd : pageMask (s.mem dir pd) ∉ tabs) (hdir : dir ∈ tabs)
    (hp : Present (s.mem dir pd)) {U : Nat} (hU : U ∈ tabs) (T pt phys flags i : Nat) :
    ((U = dir ∨ U = T) ∧ i = pd ∧ Present (storeEntry s.mem dir T pd pt phys flags U i)
      ∧ pageMask (storeEntry s.mem dir T pd pt phys flags U i) = pageMask (s.mem dir pd)) ∨
    (¬ ((U = dir ∨ U = T) ∧ i = pd)
      ∧ storeEntry s.mem dir T pd pt phys flags U i = s.mem U i) := by
  rw [storeEntry_dir hnd hdir hU]
  by_cases hslot : (U = dir ∨ U = T) ∧ i = pd
  · rw [if_pos hslot]
    exact Or.inl ⟨hslot.1, hslot.2, present_or_user hp flags, pageMask_or_user _ _⟩
  · rw [if_neg hslot]
    exact Or.inr ⟨hslot, rfl⟩

theorem storeEntry_tables (ht : Tables A kernel tabs s) (hdir : dir ∈ tabs)
    (hpd : pd < pgdirEntries) (hp : Present (s.mem dir pd))
    (hglobal : dir = T ∨ dir = kernel ∧ kernelSlot ≤ pd) :
    Tables A kernel tabs { s with mem := storeEntry s.mem dir T pd pt phys flags } := by
  -- the page of every slot is the page of an old slot with the same index
  have hlook : ∀ U ∈ tabs, ∀ i, Present (storeEntry s.mem dir T pd pt phys flags U i) →
      ∃ W ∈ tabs, Present (s.mem W i)
        ∧ pageMask (storeEntry s.mem dir T pd pt phys flags U i) = pageMask (s.mem W i)
        ∧ (W = U ∨ OwnKernel kernel tabs s.mem i (pageMask (s.mem W i))) := by
    intro U hU i hUi
    rcases storeEntry_slot (ht.notDir _ hdir _ hpd hp) hdir hp hU T pt phys flags i
      with ⟨hUdT, rfl, -, hm⟩ | ⟨-, hm⟩
    · refine ⟨dir, hdir, hp, hm, ?_⟩
      rcases hglobal with rfl | ⟨rfl, hks⟩
      · exact Or.inl (hUdT.elim Eq.symm Eq.symm)
      · exact Or.inr ⟨hks, hdir, hp, rfl⟩
    · rw [hm] at hUi ⊢
      exact ⟨U, hU, hUi, rfl, Or.inl rfl⟩
  refine ⟨ht.aligned, ht.dirHeld, ?_, ?_, ?_⟩
  · intro U hU i hi hUi
    obtain ⟨W, hW, hWi, hm, -⟩ := hlook U hU i hUi
    rw [hm]
    exact ht.pageHeld W hW i hi hWi
  · intro U hU i hi hUi
    obtain ⟨W, hW, hWi, hm, -⟩ := hlook U hU i hUi
    rw [hm]
    exact ht.notDir W hW i hi hWi
  · intro U hU V hV i hi j hj hUi hVj heq
    obtain ⟨W, hW, hWi, hmW, hownW⟩ := hlook U hU i hUi
    obtain ⟨X, hX, hXj, hmX, hownX⟩ := hlook V hV j hVj
    simp only at heq
    rw [hmW, hmX] at heq
    obtain ⟨rfl, hWX⟩ := ht.shared W hW X hX i hi j hj hWi hXj heq
    refine ⟨rfl, ?_⟩
    -- the kernel's slots keep their pages
    have hkern : OwnKernel kernel tabs s.mem i (pageMask (s.mem W i)) →
        OwnKernel kernel tabs (storeEntry s.mem dir T pd pt phys flags) i
          (pageMask (storeEntry s.mem dir T pd pt phys flags U i)) := by
      rintro ⟨hks, hkt, hkp, hkm⟩
      rw [hmW]
      refine ⟨hks, hkt, ?_⟩
      rcases storeEntry_slot (ht.notDir _ hdir _ hpd hp) hdir hp hkt T pt phys flags i with
        ⟨hkdT, rfl, hkp', hkm'⟩ | ⟨-, hkm'⟩
      · refine ⟨hkp', hkm'.trans ?_⟩
        rcases hglobal with rfl | ⟨rfl, -⟩
        · obtain rfl : kernel = dir := hkdT.elim id id
          exact hkm
        · exact hkm
      · rw [hkm']
        exact ⟨hkp, hkm⟩
    rcases hownW with rfl | hown
    · rcases hownX with rfl | hown
      · exact hWX.imp_right hkern
      · exact Or.inr (hkern (heq ▸ hown))
    · exact Or.inr (hkern hown)

/-- What each table reads after the stores. -/
theorem storeEntry_read (ht : Tables A kernel tabs s) (hdir : dir ∈ tabs) (hT : T ∈ tabs)
    (hpd : pd < pgdirEntries) (hp : Present (s.mem dir pd)) {U : Nat} (hU : U ∈ tabs) :
    ((U = T ∨ SameTable s.mem U dir pd) → ∀ j,
      slotEntry (storeEntry s.mem dir T pd pt phys flags) U pd j =
        if j = pt then pageWord phys flags else slotEntry s.mem dir pd j) ∧
    (∀ i < pgdirEntries, (i = pd → U ≠ T ∧ ¬ SameTable s.mem U dir pd) → ∀ j,
      slotEntry (storeEntry s.mem dir T pd pt phys flags) U i j = slotEntry s.mem U i j) := by
  have hQ := ht.notDir dir hdir pd hpd hp
  constructor
  · intro hlink j
    -- the slot's page is the page of `dir`
    have hslot : Present (storeEntry s.mem dir T pd pt phys flags U pd) ∧
        pageMask (storeEntry s.mem dir T pd pt phys flags U pd) = pageMask (s.mem dir pd) := by
      rcases storeEntry_slot (ht.notDir _ hdir _ hpd hp) hdir hp hU T pt phys flags pd with
        ⟨-, -, hUp, hm⟩ | ⟨hne, hm⟩
      · exact ⟨hUp, hm⟩
      · rw [hm]
        rcases hlink with rfl | hsame
        · exact absurd ⟨Or.inr rfl, rfl⟩ hne
        · exact ⟨hsame.1, hsame.2.2⟩
    rw [slotEntry_of_present hslot.1, hslot.2, storeEntry_page hdir hT hQ,
      slotEntry_of_present hp]
    simp
  · intro i hi hne j
    rcases storeEntry_slot (ht.notDir _ hdir _ hpd hp) hdir hp hU T pt phys flags i with
      ⟨hUdT, rfl, -, -⟩ | ⟨-, hm⟩
    · rcases hUdT with rfl | rfl
      · exact absurd ⟨hp, hp, rfl⟩ (hne rfl).2
      · exact absurd rfl (hne rfl).1
    · by_cases hUi : Present (s.mem U i)
      · rw [slotEntry_of_present (hm ▸ hUi), slotEntry_of_present hUi, hm,
          storeEntry_page hdir hT (ht.notDir U hU i hi hUi), if_neg]
        -- another page: else the slots would be linked
        rintro ⟨heq, -⟩
        obtain ⟨rfl, -⟩ := ht.shared U hU dir hdir i hi pd hpd hUi hp heq
        exact (hne rfl).2 ⟨hUi, hp, heq⟩
      · rw [slotEntry_of_absent (hm ▸ hUi), slotEntry_of_absent hUi]

end Store

/-! ## One mapping -/

/-- Table `U` sees the words stored in slot `pd` of `dir` through `T`. -/
def Sees (m : PageMem) (dir T pd U : Nat) : Prop := U = T ∨ U = dir ∨ SameTable m U dir pd

/-- What storing `word` in slot `pd` at `pt` of `dir`, through table `T`, does
to the tables of the set. -/
structure MapStep (tabs : List Nat) (dir T pd pt word : Nat) (m m' : PageMem) : Prop where
  seen : ∀ U ∈ tabs, Sees m dir T pd U → ∀ j,
    slotEntry m' U pd j = if j = pt then word else slotEntry m dir pd j
  other : ∀ U ∈ tabs, ∀ i < pgdirEntries, (i = pd → ¬ Sees m dir T pd U) → ∀ j,
    slotEntry m' U i j = slotEntry m U i j
  present : ∀ U ∈ tabs, ∀ i < pgdirEntries,
    Present (m' U i) ↔ Present (m U i) ∨ (i = pd ∧ (U = T ∨ U = dir))
  page : ∀ U ∈ tabs, ∀ i < pgdirEntries, Present (m U i) → (U = T → i = pd → T = dir) →
    pageMask (m' U i) = pageMask (m U i)
  copied : SameTable m' T dir pd

theorem mapDir_mem {T virt : Nat} (hT : T ∈ tabs) (hk : kernelOffset ≤ virt → kernel ∈ tabs) :
    mapDir kernel T virt ∈ tabs := by
  unfold mapDir
  split
  · rename_i h
    exact hk h.1
  · exact hT

theorem mapDir_global (kernel T virt : Nat) :
    mapDir kernel T virt = T ∨ mapDir kernel T virt = kernel ∧ kernelSlot ≤ pdindex virt := by
  unfold mapDir
  split
  · rename_i h
    exact Or.inr ⟨rfl, kernelSlot_le_pdindex.mpr h.1⟩
  · exact Or.inl rfl

/-- **One mapping.** -/
theorem pgdirMapPage_spec {s s' : Mmu H} {T phys virt flags : Nat}
    (ht : Tables A kernel tabs s) (hnull : A.NeverNull) (hT : T ∈ tabs)
    (hk : kernelOffset ≤ pageMask virt → kernel ∈ tabs)
    (h : pgdirMapPage A kernel s T phys virt flags = some s') :
    Tables A kernel tabs s' ∧
      MapStep tabs (mapDir kernel T (pageMask virt)) T (pdindex (pageMask virt))
        (ptindex (pageMask virt)) (pageWord (pageMask phys) flags) s.mem s'.mem := by
  obtain ⟨s₁, hadd, hret⟩ := Option.bind_eq_some_iff.mp h
  obtain rfl := Option.some.inj hret
  have hpd : pdindex (pageMask virt) < pgdirEntries :=
    pdindex_lt (Nat.lt_of_le_of_lt (pageMask_le virt) (by decide))
  have hdir := mapDir_mem hT hk
  have hglob := mapDir_global kernel T (pageMask virt)
  generalize mapDir kernel T (pageMask virt) = dir at *
  generalize pdindex (pageMask virt) = pd at *
  obtain ⟨ht₁, hp, hread, hwords, hkept, hsame⟩ := addPageTable_spec ht hnull hdir hpd hadd
  have hsees : ∀ U ∈ tabs, Sees s.mem dir T pd U ↔ (U = T ∨ SameTable s₁.mem U dir pd) := by
    intro U hU
    refine or_congr_right ⟨?_, ?_⟩
    · rintro (rfl | hold)
      · exact ⟨hp, hp, rfl⟩
      · by_cases hUd : U = dir
        · subst hUd
          exact ⟨hp, hp, rfl⟩
        · rw [SameTable, hkept hold.2.1, hwords U hU pd hpd (Or.inl hUd)]
          exact hold
    · intro hnew
      by_cases hUd : U = dir
      · exact Or.inl hUd
      · exact Or.inr (hsame U hU hUd hnew)
  refine ⟨storeEntry_tables ht₁ hdir hpd hp hglob, ?_, ?_, ?_, ?_, ?_⟩
  · intro U hU hsee j
    rw [(storeEntry_read ht₁ hdir hT hpd hp hU).1 ((hsees U hU).mp hsee), hread dir hdir pd j hpd]
  · intro U hU i hi hne j
    rw [(storeEntry_read ht₁ hdir hT hpd hp hU).2 i hi, hread U hU i j hi]
    intro hipd
    have hnot := hne hipd
    rw [hsees U hU] at hnot
    exact not_or.mp hnot
  · intro U hU i hi
    rcases storeEntry_slot (ht₁.notDir _ hdir _ hpd hp) hdir hp hU T
      (ptindex (pageMask virt)) (pageMask phys) flags i
      with ⟨hUdT, rfl, hUp, -⟩ | ⟨hne, hm⟩
    · exact ⟨fun _ => Or.inr ⟨rfl, hUdT.symm⟩, fun _ => hUp⟩
    · have hslot : U ≠ dir ∨ i ≠ pd := not_and_or.mp fun h => hne ⟨Or.inl h.1, h.2⟩
      simp only [hm, hwords U hU i hi hslot]
      exact ⟨Or.inl, fun h => h.resolve_right fun hpdT => hne ⟨hpdT.2.symm, hpdT.1⟩⟩
  · intro U hU i hi hUi hne
    rcases storeEntry_slot (ht₁.notDir _ hdir _ hpd hp) hdir hp hU T
      (ptindex (pageMask virt)) (pageMask phys) flags i
      with ⟨hUdT, rfl, -, hm⟩ | ⟨hslot, hm⟩
    · obtain rfl : U = dir := hUdT.elim id fun heq => heq.trans (hne heq rfl)
      exact hm.trans (by rw [hkept hUi])
    · have hslot : U ≠ dir ∨ i ≠ pd := not_and_or.mp fun h => hslot ⟨Or.inl h.1, h.2⟩
      simp only [hm, hwords U hU i hi hslot]
  · have hslot : ∀ U ∈ tabs, U = dir ∨ U = T → Present (storeEntry s₁.mem dir T pd
        (ptindex (pageMask virt)) (pageMask phys) flags U pd) ∧
        pageMask (storeEntry s₁.mem dir T pd (ptindex (pageMask virt)) (pageMask phys) flags U pd)
          = pageMask (s₁.mem dir pd) := by
      intro U hU hUdT
      rcases storeEntry_slot (ht₁.notDir _ hdir _ hpd hp) hdir hp hU T
        (ptindex (pageMask virt)) (pageMask phys) flags pd with ⟨-, -, hUp, hm⟩ | ⟨hne, -⟩
      · exact ⟨hUp, hm⟩
      · exact absurd ⟨hUdT, rfl⟩ hne
    obtain ⟨hTp, hTm⟩ := hslot T hT (Or.inr rfl)
    obtain ⟨hdp, hdm⟩ := hslot dir hdir (Or.inl rfl)
    exact ⟨hTp, hdp, hTm.trans hdm.symm⟩

end Step

end LambdaOs
