import LambdaOs.PagingClone

/-!
# Whether a clone fits its block

`mmu_clone_table` counts the source's page tables, takes a block of that
size, maps the block through the current table, and copies afterwards. The
mapping may give the source a page table that was not counted. Here the
stores of the copies are written down as the loop makes them
(`copyWrites`), the directories are followed through the mapping, and the
two are put together: the stores stay in the block exactly when no page of
it is mapped through a directory slot the source does not have yet.

Following the directories needs less than `Tables`: what the page tables
hold plays no part, and a second-level table for which the heap answers
`NULL` lands on the page at zero, which is no directory.
-/

namespace LambdaOs

/-! ## The stores of the copies -/

/-- The memory and `off` before round `k` of the copying loop. -/
def cloneAt (m : PageMem) (new src k : Nat) : PageMem × Nat :=
  (List.range k).foldl (cloneSlot new src) (m.copyPage new src, 0x1000)

/-- The page round `i` copies to: the one the new directory word names. -/
def slotTarget (new : Nat) (mo : PageMem × Nat) (i : Nat) : Nat :=
  pageMask ((mo.1 new i &&& 0xFFF) ||| u32 (new + mo.2))

/-- The stores of round `i`, each with its length: the directory word, and
the page. -/
def slotWrites (new : Nat) (mo : PageMem × Nat) (i : Nat) : List (Nat × Nat) :=
  if Present (mo.1 new i) then [(new + 4 * i, 4), (slotTarget new mo i, 0x1000)] else []

/-- The stores of the directory copy and of the page table copies. -/
def copyWrites (m : PageMem) (new src : Nat) : List (Nat × Nat) :=
  (new, 0x1000) :: (List.range pgdirEntries).flatMap fun k =>
    slotWrites new (cloneAt m new src k) k

/-- The block `mmu_clone_table` takes and the stores its copies make. -/
def mmuCloneWrites {H : Type} (A : PageHeap H) (kernel current : Nat) (s : Mmu H) (src : Nat) :
    Option (Nat × List (Nat × Nat)) := do
  let (new, heap) ← A.kamalloc s.heap (cloneSize s.mem src) pageSz
  let s ← mmuMapTable A kernel { s with heap := heap } current new new (cloneSize s.mem src)
    cloneFlags
  return (new, copyWrites s.mem new src)

/-- The store is inside the block of `size` bytes at `new`. There is no block
at `NULL`. -/
def InsideBlock (new size : Nat) (w : Nat × Nat) : Prop :=
  new ≠ 0 ∧ new ≤ w.1 ∧ w.1 + w.2 ≤ new + size

theorem cloneAt_succ (m : PageMem) (new src k : Nat) :
    cloneAt m new src (k + 1) = cloneSlot new src (cloneAt m new src k) k := by
  simp [cloneAt, List.range_succ]

theorem mem_slotWrites {new i : Nat} {mo : PageMem × Nat} {w : Nat × Nat} :
    w ∈ slotWrites new mo i ↔
      Present (mo.1 new i) ∧ (w = (new + 4 * i, 4) ∨ w = (slotTarget new mo i, 0x1000)) := by
  unfold slotWrites
  split <;> simp_all

theorem mem_copyWrites {m : PageMem} {new src : Nat} {w : Nat × Nat} :
    w ∈ copyWrites m new src ↔ w = (new, 0x1000) ∨
      ∃ k < pgdirEntries, w ∈ slotWrites new (cloneAt m new src k) k := by
  rw [copyWrites, List.mem_cons]
  simp only [List.mem_flatMap, List.mem_range]

theorem copyTables_eq_cloneAt (m : PageMem) (new src : Nat) :
    copyTables m new src = (cloneAt m new src pgdirEntries).1 := by
  rw [copyTables, cloneAt]

/-- A word that a round changes is the directory word or on the page copied to. -/
theorem cloneSlot_frame {new src i p j : Nat} {mo : PageMem × Nat}
    (hw : (cloneSlot new src mo i).1 p j ≠ mo.1 p j) :
    Present (mo.1 new i) ∧ (p = new ∧ j = i ∨ p = slotTarget new mo i) := by
  unfold cloneSlot at hw
  split at hw
  · rename_i hp
    refine ⟨hp, ?_⟩
    by_contra hout
    obtain ⟨hdir, hpage⟩ := not_or.mp hout
    refine hw ?_
    have hpage' : p ≠ pageMask ((mo.1 new i &&& 0xFFF) ||| u32 (new + mo.2)) := hpage
    simp [PageMem.copyPage, PageMem.setWord, hpage', hdir]
  · exact absurd rfl hw

/-- A word that differs after some rounds was in one of their stores. -/
theorem cloneAt_frame (m : PageMem) (new src : Nat) {p j : Nat} (k : Nat)
    (hw : (cloneAt m new src k).1 p j ≠ m p j) :
    p = new ∨ ∃ i < k, (p, 0x1000) ∈ slotWrites new (cloneAt m new src i) i := by
  induction k with
  | zero =>
      refine .inl (by_contra fun hp => hw ?_)
      simp [cloneAt, PageMem.copyPage, hp]
  | succ k ih =>
      by_cases hsame : (cloneAt m new src (k + 1)).1 p j = (cloneAt m new src k).1 p j
      · rw [hsame] at hw
        rcases ih hw with hnew | ⟨i, hi, hmem⟩
        · exact .inl hnew
        · exact .inr ⟨i, Nat.lt_succ_of_lt hi, hmem⟩
      · rw [cloneAt_succ] at hsame
        obtain ⟨hp, ⟨hnew, -⟩ | rfl⟩ := cloneSlot_frame hsame
        · exact .inl hnew
        · exact .inr ⟨k, Nat.lt_succ_self k, mem_slotWrites.mpr ⟨hp, .inr rfl⟩⟩

/-- **The stores are all there are**: a word the copies change is in one of
them. -/
theorem copyTables_frame (m : PageMem) (new src : Nat) {p j : Nat} (hj : j < pgdirEntries)
    (hw : copyTables m new src p j ≠ m p j) :
    ∃ w ∈ copyWrites m new src, w.1 ≤ p + 4 * j ∧ p + 4 * j + 4 ≤ w.1 + w.2 := by
  have hjp : 4 * j + 4 ≤ 0x1000 := by
    simp only [pgdirEntries] at hj
    omega
  rw [copyTables_eq_cloneAt] at hw
  have hin : (p, 0x1000) ∈ copyWrites m new src := by
    rcases cloneAt_frame m new src pgdirEntries hw with rfl | hround
    · exact mem_copyWrites.mpr (.inl rfl)
    · exact mem_copyWrites.mpr (.inr hround)
  exact ⟨_, hin, Nat.le_add_right _ _, by simp only; omega⟩

/-! ## Where the loop stores -/

/-- While the copies so far fill no more than `n` pages, the loop has changed
nothing of the directory ahead of it, and `off` is behind them. -/
theorem cloneAt_ahead {m : PageMem} {new src n : Nat} (hal : new % 4096 = 0)
    (hfits : new + 4096 * (n + 1) ≤ 4294967296) {k : Nat} (hk : presentRank (m src) k ≤ n) :
    (cloneAt m new src k).2 = 4096 * (presentRank (m src) k + 1)
      ∧ ∀ i, k ≤ i → (cloneAt m new src k).1 new i = m src i := by
  induction k with
  | zero => exact ⟨rfl, fun i _ => by simp [cloneAt, PageMem.copyPage]⟩
  | succ k ih =>
      rw [presentRank_succ] at hk
      obtain ⟨hoff, hahead⟩ := ih (Nat.le_trans (Nat.le_add_right _ _) hk)
      have hword := hahead k (Nat.le_refl k)
      rw [cloneAt_succ, presentRank_succ]
      by_cases hp : Present (m src k)
      · rw [if_pos hp] at hk ⊢
        -- the page copied to is in the block, behind the directory
        have hpage : u32 (new + (cloneAt m new src k).2) = clonePage new (m src) k := by
          rw [hoff]
          exact u32_of_lt (by omega)
        have hmask := (@cloneWord (m src k) (clonePage new (m src) k)
          (by simp only [clonePage]; omega) (by simp only [clonePage]; omega) hp).2
        have hne : new ≠ clonePage new (m src) k := by
          simp only [clonePage]
          omega
        rw [cloneSlot, if_pos (hword ▸ hp)]
        refine ⟨by simp only [hoff]; omega, ?_⟩
        intro i hi
        have hik : i ≠ k := by omega
        simp [PageMem.copyPage, PageMem.setWord, hword, hpage, hmask, hne, hik, hahead i (by omega)]
      · rw [if_neg hp] at hk ⊢
        rw [cloneSlot, if_neg (hword ▸ hp)]
        exact ⟨by simpa using hoff, fun i hi => hahead i (by omega)⟩

/-- The page a present slot's copy goes to. -/
theorem slotTarget_eq {m : PageMem} {new src n k : Nat} (hal : new % 4096 = 0)
    (hfits : new + 4096 * (n + 1) ≤ 4294967296) (hk : presentRank (m src) k ≤ n)
    (hp : Present (m src k)) :
    slotTarget new (cloneAt m new src k) k = u32 (clonePage new (m src) k) := by
  obtain ⟨hoff, hahead⟩ := cloneAt_ahead hal hfits hk
  have hmod : u32 (clonePage new (m src) k) % 4096 = 0 := by
    simp only [u32, clonePage]
    omega
  rw [slotTarget, hoff, hahead k (Nat.le_refl k)]
  exact (cloneWord (u32_lt _) hmod hp).2

theorem presentRank_mono (dir : Nat → Nat) {i k : Nat} (hik : i ≤ k) :
    presentRank dir i ≤ presentRank dir k := by
  induction hik with
  | refl => exact Nat.le_refl _
  | step _ ih =>
      rw [presentRank_succ]
      exact Nat.le_trans ih (Nat.le_add_right _ _)

/-- Counting present slots one by one, every number below the total comes up. -/
theorem presentRank_hits {dir : Nat → Nat} {n k : Nat} (hlt : n < presentRank dir k) :
    ∃ i < k, Present (dir i) ∧ presentRank dir i = n := by
  induction k with
  | zero => exact absurd hlt (Nat.not_lt_zero n)
  | succ k ih =>
      by_cases hk : n < presentRank dir k
      · obtain ⟨i, hi, hp, hrank⟩ := ih hk
        exact ⟨i, Nat.lt_succ_of_lt hi, hp, hrank⟩
      · rw [presentRank_succ] at hlt
        by_cases hp : Present (dir k)
        · rw [if_pos hp] at hlt
          exact ⟨k, Nat.lt_succ_self k, hp, by omega⟩
        · rw [if_neg hp] at hlt
          exact absurd hlt hk

/-- A directory with more present slots has no more of them exactly when it
has no other. -/
theorem presentRank_le_iff {dir dir' : Nat → Nat} {k : Nat}
    (h : ∀ i < k, Present (dir i) → Present (dir' i)) :
    presentRank dir' k ≤ presentRank dir k ↔ ∀ i < k, Present (dir' i) → Present (dir i) := by
  constructor
  · induction k with
    | zero => exact fun _ i hi => absurd hi (Nat.not_lt_zero i)
    | succ k ih =>
        intro hle i hi hp'
        have hmono : presentRank dir k ≤ presentRank dir' k :=
          List.countP_mono_left fun j hj => by
            simpa using h j (Nat.lt_succ_of_lt (List.mem_range.mp hj))
        rw [presentRank_succ, presentRank_succ] at hle
        have hk : Present (dir' k) → Present (dir k) := by
          refine fun hk' => Decidable.byContradiction ?_
          intro hk
          rw [if_pos hk', if_neg hk] at hle
          omega
        have hrest : presentRank dir' k ≤ presentRank dir k := by
          by_cases hk' : Present (dir' k)
          · rw [if_pos hk', if_pos (hk hk')] at hle
            omega
          · rw [if_neg hk'] at hle
            by_cases hkd : Present (dir k)
            · exact absurd (h k (Nat.lt_succ_self k) hkd) hk'
            · rw [if_neg hkd] at hle
              exact hle
        rcases Nat.lt_succ_iff_lt_or_eq.mp hi with hlt | rfl
        · exact ih (fun j hj => h j (Nat.lt_succ_of_lt hj)) hrest i hlt hp'
        · exact hk hp'
  · intro hback
    exact Nat.le_of_eq (presentRank_congr fun i hi => ⟨hback i hi, h i hi⟩)

/-- The copy of a slot with fewer than `n` before it has its page in a block of `n`. -/
theorem clonePage_room (new : Nat) {dir : Nat → Nat} {k n : Nat} (h : presentRank dir k < n) :
    clonePage new dir k + 4096 ≤ new + 4096 * (n + 1) := by
  simp only [clonePage]
  omega

/-- In a block with room for `n` page tables the stores stay inside exactly
when there are no more than `n` to copy. -/
theorem copyWrites_inside_iff {m : PageMem} {new src n : Nat} (hal : new % 4096 = 0)
    (hfits : new + 4096 * (n + 1) ≤ 4294967296) :
    (∀ w ∈ copyWrites m new src, InsideBlock new (4096 * (n + 1)) w) ↔
      new ≠ 0 ∧ presentRank (m src) pgdirEntries ≤ n := by
  have hsize : 0x1000 ≤ 4096 * (n + 1) := Nat.le_mul_of_pos_right 4096 (Nat.succ_pos n)
  constructor
  · intro hall
    have hnew : new ≠ 0 := (hall _ (mem_copyWrites.mpr (.inl rfl))).1
    refine ⟨hnew, Nat.le_of_not_lt ?_⟩
    intro hlt
    -- the first copy too many goes to the page after the block
    obtain ⟨k, hk, hp, hrank⟩ := presentRank_hits hlt
    have htarget := slotTarget_eq hal hfits (Nat.le_of_eq hrank) hp
    have hword := (cloneAt_ahead hal hfits (Nat.le_of_eq hrank)).2 k (Nat.le_refl k)
    obtain ⟨-, hlo, hhi⟩ := hall (slotTarget new (cloneAt m new src k) k, 0x1000)
      (mem_copyWrites.mpr (.inr ⟨k, hk, mem_slotWrites.mpr ⟨hword ▸ hp, .inr rfl⟩⟩))
    rw [htarget] at hlo hhi
    simp only [clonePage, hrank, u32] at hlo hhi
    omega
  · rintro ⟨hnew, hle⟩ w hw
    rcases mem_copyWrites.mp hw with rfl | ⟨k, hk, hw⟩
    · exact ⟨hnew, Nat.le_refl _, Nat.add_le_add_left hsize new⟩
    · have hrank := Nat.le_trans (presentRank_mono (m src) (Nat.le_of_lt hk)) hle
      obtain ⟨hp, rfl | rfl⟩ := mem_slotWrites.mp hw
      · have hword : 4 * k + 4 ≤ 0x1000 := by
          simp only [pgdirEntries] at hk
          omega
        refine ⟨hnew, Nat.le_add_right _ _, ?_⟩
        rw [Nat.add_assoc]
        exact Nat.add_le_add_left (Nat.le_trans hword hsize) new
      · rw [(cloneAt_ahead hal hfits hrank).2 k (Nat.le_refl k)] at hp
        have hroom := clonePage_room new (Nat.lt_of_lt_of_le (presentRank_lt hp hk) hle)
        have hin : u32 (clonePage new (m src) k) = clonePage new (m src) k :=
          u32_of_lt (Nat.lt_of_lt_of_le (Nat.lt_add_of_pos_right (by decide))
            (Nat.le_trans hroom hfits))
        rw [slotTarget_eq hal hfits hrank hp, hin]
        exact ⟨hnew, Nat.le_add_right _ _, hroom⟩

/-! ## The directories through the mapping -/

section Dirs

variable {H : Type} {A : PageHeap H} {kernel : Nat} {tabs : List Nat}

/-- The directories are in use, and no page table is one of them. -/
structure DirsApart (A : PageHeap H) (tabs : List Nat) (s : Mmu H) : Prop where
  nonnull : 0 ∉ tabs
  held : ∀ T ∈ tabs, A.heldPage s.heap T
  notDir : ∀ T ∈ tabs, ∀ i < pgdirEntries, Present (s.mem T i) → pageMask (s.mem T i) ∉ tabs

theorem Tables.dirsApart {s : Mmu H} (ht : Tables A kernel tabs s) (h0 : 0 ∉ tabs) :
    DirsApart A tabs s :=
  ⟨h0, ht.dirHeld, ht.notDir⟩

theorem DirsApart.granted {s : Mmu H} (hd : DirsApart A tabs s) {sz align r : Nat} {heap : H}
    (hkam : A.kamalloc s.heap sz align = some (r, heap)) :
    DirsApart A tabs { s with heap := heap } :=
  ⟨hd.nonnull, fun T hT => A.keeps_page hkam (hd.held T hT), hd.notDir⟩

/-- The mapping of the page at `v` through `current` stores into the
directory `U`. -/
def MapsInto (kernel current U v : Nat) : Prop := U = mapDir kernel current v ∨ U = current

theorem addPageTable_dirs {s s' : Mmu H} {dir pd : Nat} (hd : DirsApart A tabs s)
    (hdir : dir ∈ tabs) (h : addPageTable A s dir pd = some s') :
    DirsApart A tabs s' ∧ Present (s'.mem dir pd) ∧
      ∀ U ∈ tabs, ∀ i, ¬ (U = dir ∧ i = pd) → s'.mem U i = s.mem U i := by
  rcases addPageTable_cases h with ⟨hp, rfl⟩ | ⟨-, page, hk, hmem⟩
  · exact ⟨hd, hp, fun _ _ _ _ => rfl⟩
  -- a page from the heap was not held; without one the words go to the page at zero
  have hout : pageMask page ∉ tabs := by
    by_cases hzero : page = 0
    · subst hzero
      exact hd.nonnull
    · obtain ⟨hal, hlt, hblock⟩ := A.fresh_pages hk hzero (by decide)
      rw [pageMask_of_aligned (by omega) hal]
      exact fun hmem => (hblock page hal (Nat.le_refl _) (by omega)).1 (hd.held page hmem)
  have hne : ∀ U ∈ tabs, U ≠ pageMask page := fun U hU heq => hout (heq ▸ hU)
  obtain ⟨hwp, hwm⟩ := newTable_word page
  have hword : s'.mem dir pd = page ||| pageFlagPresent ||| pageFlagWritable := by
    simp [hmem, PageMem.zeroPage, PageMem.setWord, hne dir hdir]
  have hother : ∀ U ∈ tabs, ∀ i, ¬ (U = dir ∧ i = pd) → s'.mem U i = s.mem U i := by
    intro U hU i hslot
    simp [hmem, PageMem.zeroPage, PageMem.setWord, hne U hU, hslot]
  refine ⟨⟨hd.nonnull, fun T hT => A.keeps_page hk (hd.held T hT), ?_⟩,
    hword ▸ hwp, hother⟩
  intro T hT i hi hTi
  by_cases hslot : T = dir ∧ i = pd
  · rw [hslot.1, hslot.2, hword, hwm]
    exact hout
  · rw [hother T hT i hslot] at hTi ⊢
    exact hd.notDir T hT i hi hTi

theorem pgdirMapPage_dirs {s s' : Mmu H} {T phys virt flags : Nat} (hd : DirsApart A tabs s)
    (hT : T ∈ tabs) (hk : kernel ∈ tabs)
    (h : pgdirMapPage A kernel s T phys virt flags = some s') :
    DirsApart A tabs s' ∧ ∀ U ∈ tabs, ∀ i < pgdirEntries, Present (s'.mem U i) ↔
      Present (s.mem U i) ∨
        i = pdindex (pageMask virt) ∧ MapsInto kernel T U (pageMask virt) := by
  obtain ⟨s₁, hadd, hret⟩ := Option.bind_eq_some_iff.mp h
  obtain rfl := Option.some.inj hret
  have hpd : pdindex (pageMask virt) < pgdirEntries :=
    pdindex_lt (Nat.lt_of_le_of_lt (pageMask_le virt) (by decide))
  have hdir : mapDir kernel T (pageMask virt) ∈ tabs := mapDir_mem hT fun _ => hk
  obtain ⟨hd₁, hp, hother⟩ := addPageTable_dirs hd hdir hadd
  have hnd := hd₁.notDir _ hdir _ hpd hp
  refine ⟨⟨hd₁.nonnull, hd₁.held, ?_⟩, ?_⟩
  · intro U hU i hi hUi
    rcases storeEntry_slot hnd hdir hp hU T (ptindex (pageMask virt)) (pageMask phys) flags i
      with ⟨-, -, -, hm⟩ | ⟨-, hm⟩
    · simp only [hm]
      exact hnd
    · simp only [hm] at hUi ⊢
      exact hd₁.notDir U hU i hi hUi
  · intro U hU i hi
    rcases storeEntry_slot hnd hdir hp hU T (ptindex (pageMask virt)) (pageMask phys) flags i
      with ⟨hUdT, rfl, hUp, -⟩ | ⟨hslot, hm⟩
    · exact ⟨fun _ => .inr ⟨rfl, hUdT⟩, fun _ => hUp⟩
    · have hout : ¬ (i = pdindex (pageMask virt) ∧ MapsInto kernel T U (pageMask virt)) :=
        fun hc => hslot ⟨hc.2, hc.1⟩
      have hsame := hother U hU i fun hc => hslot ⟨.inl hc.1, hc.2⟩
      simp only [hm, hsame, hout, or_false]

/-- The directories after a range was mapped: a slot is present that was, or
that one of the pages went through. -/
theorem mapLoop_dirs {T phys virt flags : Nat} (hT : T ∈ tabs) (hk : kernel ∈ tabs)
    {offs : List Nat} {s s' : Mmu H} (hd : DirsApart A tabs s)
    (hal : ∀ off ∈ offs, off % 4096 = 0)
    (hrun : exec (fun s off => pgdirMapPage A kernel s T (u32 (pageMask phys + off))
      (u32 (pageMask virt + off)) flags) s offs = some s') :
    ∀ U ∈ tabs, ∀ i < pgdirEntries, Present (s'.mem U i) ↔ Present (s.mem U i) ∨
      ∃ off ∈ offs, i = pdindex (u32 (pageMask virt + off)) ∧
        MapsInto kernel T U (u32 (pageMask virt + off)) := by
  induction offs generalizing s with
  | nil =>
      obtain rfl := Option.some.inj hrun
      simp
  | cons off offs ih =>
      obtain ⟨s₁, hstep, hrest⟩ := exec_cons_eq_some.mp hrun
      obtain ⟨hd₁, hpres⟩ := pgdirMapPage_dirs hd hT hk hstep
      intro U hU i hi
      rw [ih hd₁ (fun o ho => hal o (List.mem_cons_of_mem _ ho)) hrest U hU i hi,
        hpres U hU i hi, pageMask_page_off virt off (hal off List.mem_cons_self)]
      simp only [List.mem_cons, exists_eq_or_imp, or_assoc]

/-! ## The clone's block -/

theorem cloneSize_eq (m : PageMem) (src : Nat) :
    cloneSize m src = 4096 * (presentRank (m src) pgdirEntries + 1) := by
  have hcount : countTables m src = presentRank (m src) pgdirEntries := by
    rw [countTables, presentRank]
  rw [cloneSize, hcount]
  generalize presentRank (m src) pgdirEntries = n
  omega

/-- A clone's stores are those of the copies, made on the memory after the
mapping; the rest of that memory is left alone. -/
theorem mmuCloneTable_writes {s s' : Mmu H} {current src new : Nat}
    (h : mmuCloneTable A kernel current s src = some (new, s')) :
    ∃ (heap : H) (s₁ : Mmu H), A.kamalloc s.heap (cloneSize s.mem src) pageSz = some (new, heap)
      ∧ mmuMapTable A kernel { s with heap := heap } current new new (cloneSize s.mem src)
          cloneFlags = some s₁
      ∧ mmuCloneWrites A kernel current s src = some (new, copyWrites s₁.mem new src)
      ∧ ∀ p, ∀ j < pgdirEntries, s'.mem p j ≠ s₁.mem p j →
        ∃ w ∈ copyWrites s₁.mem new src, w.1 ≤ p + 4 * j ∧ p + 4 * j + 4 ≤ w.1 + w.2 := by
  obtain ⟨⟨new', heap⟩, hkam, hrest⟩ := Option.bind_eq_some_iff.mp h
  obtain ⟨s₁, hmap, hret⟩ := Option.bind_eq_some_iff.mp hrest
  obtain ⟨rfl, rfl⟩ := Prod.mk.inj (Option.some.inj hret)
  refine ⟨heap, s₁, hkam, hmap, ?_, ?_⟩
  · exact Option.bind_eq_some_iff.mpr ⟨_, hkam, Option.bind_eq_some_iff.mpr ⟨s₁, hmap, rfl⟩⟩
  · intro p j hj hw
    dsimp only at hw
    exact copyTables_frame s₁.mem new' src hj hw

/-- The source's page tables after its clone's block at `new` was mapped. -/
theorem mapBlock_present {s s₁ : Mmu H} {current src new size : Nat} (hd : DirsApart A tabs s)
    (hsrc : src ∈ tabs) (hcur : current ∈ tabs) (hk : kernel ∈ tabs) (hal : new % 4096 = 0)
    (hfits : new + size ≤ 4294967296) (hpos : 0 < size)
    (hmap : mmuMapTable A kernel s current new new size cloneFlags = some s₁) :
    ∀ i < pgdirEntries, Present (s₁.mem src i) ↔ Present (s.mem src i) ∨
      ∃ v, BlockPage new size v ∧ MapsInto kernel current src v ∧ i = pdindex v := by
  obtain ⟨offs, hoffs, hrun⟩ := Option.bind_eq_some_iff.mp hmap
  rw [foldlM_eq_exec] at hrun
  have hbase : pageMask new = new := pageMask_of_aligned (by omega) hal
  intro i hi
  rw [mapLoop_dirs hcur hk hd (fun off hoff => ((mem_pageOffs hoffs).mp hoff).1) hrun src hsrc i hi,
    hbase]
  refine or_congr_right ⟨?_, ?_⟩
  · rintro ⟨off, hoff, hi, hinto⟩
    obtain ⟨hoal, hosz⟩ := (mem_pageOffs hoffs).mp hoff
    rw [u32_of_lt (by omega : new + off < 4294967296)] at hi hinto
    exact ⟨new + off, ⟨by omega, by omega, by omega⟩, hinto, hi⟩
  · rintro ⟨v, ⟨hval, hlo, hhi⟩, hinto, hi⟩
    have hv : u32 (new + (v - new)) = v := by
      rw [Nat.add_sub_cancel' hlo]
      exact u32_of_lt (by omega)
    exact ⟨v - new, (mem_pageOffs hoffs).mpr ⟨by omega, by omega⟩, by rw [hv]; exact hi,
      by rw [hv]; exact hinto⟩

/-- **When a clone stays in its block.** Whatever the source and the current
table and wherever the heap places the block, all stores of the directory and
page table copies are inside it exactly when there is a block and each of its
pages that is mapped through the source has a page table there already. -/
theorem clone_inside_iff {s s' : Mmu H} {current src new : Nat} (hd : DirsApart A tabs s)
    (hsrc : src ∈ tabs) (hcur : current ∈ tabs) (hk : kernel ∈ tabs)
    (h : mmuCloneTable A kernel current s src = some (new, s')) :
    ∃ ws, mmuCloneWrites A kernel current s src = some (new, ws) ∧
      ((∀ w ∈ ws, InsideBlock new (cloneSize s.mem src) w) ↔
        new ≠ 0 ∧ ∀ v, BlockPage new (cloneSize s.mem src) v →
          MapsInto kernel current src v → Present (s.mem src (pdindex v))) := by
  obtain ⟨heap, s₁, hkam, hmap, hws, -⟩ := mmuCloneTable_writes h
  refine ⟨_, hws, ?_⟩
  have hsize := cloneSize_eq s.mem src
  by_cases hnew : new = 0
  · -- without a block the first store is already outside
    exact ⟨fun hall => (hall _ (mem_copyWrites.mpr (.inl rfl))).1.elim hnew,
      fun hcond => absurd hnew hcond.1⟩
  have hszmod : cloneSize s.mem src % 4096 = 0 := hsize ▸ Nat.mul_mod_right _ _
  obtain ⟨hal, hfits, -⟩ := A.fresh_pages hkam hnew hszmod
  have hpos : 0 < cloneSize s.mem src := hsize ▸ Nat.mul_pos (by decide) (Nat.succ_pos _)
  have hpres := mapBlock_present (hd.granted hkam) hsrc hcur hk hal hfits hpos hmap
  rw [hsize, copyWrites_inside_iff hal (hsize ▸ hfits), ← hsize,
    presentRank_le_iff fun i hi hp => (hpres i hi).mpr (.inl hp)]
  refine and_congr_right fun _ => ⟨?_, ?_⟩
  · intro hnone v hv hinto
    have hi : pdindex v < pgdirEntries := pdindex_lt (Nat.lt_of_lt_of_le hv.2.2 hfits)
    exact hnone _ hi ((hpres _ hi).mpr (.inr ⟨v, hv, hinto, rfl⟩))
  · intro hhas i hi hp
    rcases (hpres i hi).mp hp with hold | ⟨v, hv, hinto, rfl⟩
    · exact hold
    · exact hhas v hv hinto

end Dirs

/-! ## On the boot heap -/

set_option maxRecDepth 100000 in
/-- The table at `0x1000`, cloned with the kernel's table current. -/
theorem clone_inside_iff_boot :
    ∃ new s' ws, mmuCloneTable bootPages 0x2000 0x2000 mappedMmu 0x1000 = some (new, s')
      ∧ mmuCloneWrites bootPages 0x2000 0x2000 mappedMmu 0x1000 = some (new, ws)
      ∧ ∀ w ∈ ws, InsideBlock new (cloneSize mappedMmu.mem 0x1000) w := by
  have hsome : (mmuCloneTable bootPages 0x2000 0x2000 mappedMmu 0x1000).isSome = true := by
    decide +kernel
  obtain ⟨⟨new, s'⟩, hclone⟩ := Option.isSome_iff_exists.mp hsome
  obtain ⟨heap, -, hkam, -⟩ := mmuCloneTable_writes hclone
  obtain ⟨ws, hws, hiff⟩ := clone_inside_iff (mappedMmu_tables.dirsApart (by simp)) (by simp)
    (by simp) (by simp) hclone
  refine ⟨new, s', ws, hclone, hws, hiff.mpr ⟨PageHeap.served_neverNull _ hkam, ?_⟩⟩
  -- the mapping goes to the kernel's directory only
  intro v _ hinto
  simp [MapsInto, mapDir] at hinto

set_option maxRecDepth 100000 in
/-- The same table, cloned while it is the current one: the heap's 4 MiB have no
page table in it yet, and get one by mapping the block. -/
theorem clone_outside_current :
    ∃ new ws, mmuCloneWrites bootPages 0x2000 0x1000 mappedMmu 0x1000 = some (new, ws)
      ∧ new ≠ 0 ∧ ¬ ∀ w ∈ ws, InsideBlock new (cloneSize mappedMmu.mem 0x1000) w := by
  have hsome : (mmuCloneTable bootPages 0x2000 0x1000 mappedMmu 0x1000).isSome = true := by
    decide +kernel
  obtain ⟨⟨new, s'⟩, hclone⟩ := Option.isSome_iff_exists.mp hsome
  obtain ⟨heap, s₁, hkam, hmap, hws, -⟩ := mmuCloneTable_writes hclone
  have hmore : ((bootPages.kamalloc mappedMmu.heap (cloneSize mappedMmu.mem 0x1000) pageSz).all
      fun nh => (mmuMapTable bootPages 0x2000 { mappedMmu with heap := nh.2 } 0x1000 nh.1 nh.1
        (cloneSize mappedMmu.mem 0x1000) cloneFlags).all fun s₁ =>
          presentRank (mappedMmu.mem 0x1000) pgdirEntries
            < presentRank (s₁.mem 0x1000) pgdirEntries) = true := by
    decide +kernel
  rw [hkam, Option.all_some, hmap, Option.all_some, decide_eq_true_iff] at hmore
  have hnew : new ≠ 0 := PageHeap.served_neverNull _ hkam
  have hszmod : cloneSize mappedMmu.mem 0x1000 % 4096 = 0 :=
    cloneSize_eq mappedMmu.mem 0x1000 ▸ Nat.mul_mod_right _ _
  obtain ⟨hal, hfits, -⟩ := PageHeap.fresh_pages hkam hnew hszmod
  refine ⟨new, _, hws, hnew, ?_⟩
  intro hall
  rw [cloneSize_eq] at hfits hall
  exact absurd ((copyWrites_inside_iff hal hfits).mp hall).2 (Nat.not_le.mpr hmore)

end LambdaOs
