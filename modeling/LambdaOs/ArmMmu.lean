import LambdaOs.PagingMap

/-!
# The ARM32 page tables

`arch/arm32/src/mm/mmu.c`, with `mmu_map_save` and `mmu_map_restore` of
`mm/mmu.c`. A word of the first-level table maps a section of 1 MiB, or names
a page table of 256 words for pages of 4 KiB. There is one first-level table:
`mmu_clone_table` returns its argument. It is always in use, so the
checks for a `NULL` table are left out.

`_mmu_map_page` leaves the translation of a section to its caller, and no
caller does it: the first page mapped into a section replaces it by an empty
page table. `mmu_map_restore` maps `mmu_get_pagesize` bytes, which is the size
of a section, from an entry that describes one page. `arm_mapping_right_iff`
says when a mapping, and a mapping saved and restored, change only what they
should.
-/

namespace LambdaOs.Arm32

/-! ## Constants -/

/-- `MMU_DESCTYPE_*` and `MMU_PTENTRYTYPE_*`. -/
def mmuDesctypeMask : Nat := 3
def mmuDesctypePagetable : Nat := 1
def mmuDesctypeSection : Nat := 2
def mmuPtentrytypeLarge : Nat := 1
def mmuPtentrytypeSmall : Nat := 2

/-- The addresses in a descriptor and in the words of a page table. -/
def mmuDescPtAddr : Nat := 0xFFFFFC00
def mmuDescSBase : Nat := 0xFFF00000
def mmuPtentryLargeBase : Nat := 0xFFFF0000

/-- The execute-never bits, and the two that allow caching. -/
def mmuDescSXn : Nat := 1 <<< 4
def mmuPtentryLargeXn : Nat := 1 <<< 15
def mmuPtentrySmallXn : Nat := 1 <<< 0
def mmuPtentryB : Nat := 1 <<< 2
def mmuPtentryC : Nat := 1 <<< 3

def mmuFlagNocache : Nat := 0x20

/-! ## The tables -/

/-- The words of the first-level table, those of the page tables by their
address, and the heap the page tables come from. -/
structure ArmMmu (H : Type) where
  table : Nat → Nat
  ptables : PageMem
  heap : H

def tidx (virt : Nat) : Nat := virt >>> 20

def pidx (virt : Nat) : Nat := virt >>> 12 &&& 0xFF

/-- The address of the page table a descriptor names. -/
def ptableAddr (word : Nat) : Nat := word &&& mmuDescPtAddr

abbrev IsPtable (word : Nat) : Prop := word &&& mmuDesctypeMask = mmuDesctypePagetable

section Map

variable {H : Type} (A : PageHeap H)

def mmuMapSection (s : ArmMmu H) (virt phys flags : Nat) : ArmMmu H :=
  { s with
    table := Function.update s.table (tidx virt)
      ((phys &&& mmuDescSBase) ||| flags ||| mmuDesctypeSection) }

/-- The page table for an address, and the state with it. One that is not
granted is cleared at address 0, where nothing is mapped. -/
def ptableFor (s : ArmMmu H) (virt : Nat) : Option (Nat × ArmMmu H) :=
  if ¬ IsPtable (s.table (tidx virt)) then do
    let (ptable, heap) ← A.served.kamalloc s.heap (256 * 4) 4096
    return (ptable, { table := Function.update s.table (tidx virt) (ptable ||| mmuDesctypePagetable)
                      ptables := s.ptables.zeroPage ptable
                      heap := heap })
  else some (ptableAddr (s.table (tidx virt)), s)

/-- The word for a page. -/
def smallWord (phys flags : Nat) : Nat := pageMask phys ||| flags ||| mmuPtentrytypeSmall

def mmuMapPage (s : ArmMmu H) (virt phys flags : Nat) : Option (ArmMmu H) := do
  let (ptable, s) ← ptableFor A s virt
  return { s with ptables := s.ptables.setWord ptable (pidx virt) (smallWord phys flags) }

/-- `pflags` -/
def ptentryFlags (flags : Nat) : Nat :=
  (if flags &&& mmuFlagExec = 0 then mmuPtentrySmallXn else 0) |||
    (if flags &&& mmuFlagNocache = 0 then mmuPtentryB ||| mmuPtentryC else 0)

/-- It always returns `0`. From `0xC0000000` on it does nothing. -/
def mmuMapTable (s : ArmMmu H) (virt phys size flags : Nat) : Option (ArmMmu H) :=
  if kernelOffset ≤ virt then some s
  else do
    let offs ← pageOffs size
    offs.foldlM (fun s off =>
      mmuMapPage A s (u32 (pageMask virt + off)) (u32 (pageMask phys + off))
        (ptentryFlags flags)) s

/-! ## Start -/

/-- The sections of the first gigabyte, at `0xC0000000` and at the start. -/
def mapSections (s : ArmMmu H) (i : Nat) : ArmMmu H :=
  let addr := i * 1024 * 1024
  let s := mmuMapSection s (u32 (addr + 0xC0000000)) addr 0
  mmuMapSection s addr addr mmuDescSXn

/-- `pageTable0` is the physical address of `_page_table0`. Its first word is
kept clear, to trap null pointers. -/
def setPageTable0 (s : ArmMmu H) (pageTable0 : Nat) : ArmMmu H :=
  { s with
    ptables := s.ptables.setWord pageTable0 0 0
    table := Function.update s.table 0 (pageTable0 ||| mmuDesctypePagetable) }

/-- Both tables are zero before. -/
def armv7MmuInit (pageTable0 : Nat) (heap : H) : Option (ArmMmu H) :=
  let s := (List.range 1024).foldl mapSections ⟨fun _ => 0, fun _ _ => 0, heap⟩
  (List.range' 1 255).foldlM (fun s i =>
    mmuMapPage A s (i * 4096) (i * 4096) mmuPtentrySmallXn) (setPageTable0 s pageTable0)

/-! ## Looking up -/

/-- The flags of a mapping. -/
def accessFlags (xn : Prop) [Decidable xn] : Nat :=
  if xn then mmuFlagRead ||| mmuFlagWrite else mmuFlagRead ||| mmuFlagWrite ||| mmuFlagExec

/-- The value returned, and `*phys` where it is stored. -/
def mmuMapGetTable (s : ArmMmu H) (virt : Nat) : Nat × Option Nat :=
  let word := s.table (tidx virt)
  if word &&& mmuDesctypeMask = 0 then (0, none)
  else if IsPtable word then
    let entry := s.ptables (ptableAddr word) (pidx virt)
    if entry &&& mmuDesctypeMask = 0 then (0, none)
    else if entry &&& mmuDesctypeMask = mmuPtentrytypeLarge then
      (accessFlags (entry &&& mmuPtentryLargeXn ≠ 0), some (entry &&& mmuPtentryLargeBase))
    else (accessFlags (entry &&& mmuPtentrySmallXn ≠ 0), some (pageMask entry))
  else (accessFlags (word &&& mmuDescSXn ≠ 0), some (word &&& mmuDescSBase))

def mmuGetPagesize : Nat := 1024 * 1024

/-- `mmu_map_entry_t` -/
structure MmuMapEntry where
  virt : Nat
  phys : Nat
  flags : Nat
deriving Repr, DecidableEq

/-- What `*entry` becomes; a lookup never fails, and `0` is returned. -/
def mmuMapSave (s : ArmMmu H) (entry : MmuMapEntry) (virt : Nat) : MmuMapEntry :=
  ⟨virt, (mmuMapGetTable s virt).2.getD entry.phys, (mmuMapGetTable s virt).1⟩

def mmuMapRestore (s : ArmMmu H) (entry : MmuMapEntry) : Option (ArmMmu H) :=
  mmuMapTable A s entry.virt entry.phys mmuGetPagesize entry.flags

end Map

/-! ## Translations -/

section Translate

variable {H : Type} {s s' : ArmMmu H} {v w : Nat}

/-- What a word maps: a section, a large page or a small one. -/
def blockSize (s : ArmMmu H) (virt : Nat) : Nat :=
  let word := s.table (tidx virt)
  if IsPtable word then
    if s.ptables (ptableAddr word) (pidx virt) &&& mmuDesctypeMask = mmuPtentrytypeLarge then 65536
    else 4096
  else 1048576

/-- The physical address an address is translated to, and the access it has. -/
def translate (s : ArmMmu H) (virt : Nat) : Option (Nat × Nat) :=
  (mmuMapGetTable s virt).2.map fun base =>
    (base + virt % blockSize s virt, (mmuMapGetTable s virt).1)

/-- The address is mapped as a part of a section. -/
def InSection (s : ArmMmu H) (virt : Nat) : Prop :=
  s.table (tidx virt) &&& mmuDesctypeMask ≠ 0 ∧ ¬ IsPtable (s.table (tidx virt))

instance (s : ArmMmu H) (virt : Nat) : Decidable (InSection s virt) :=
  inferInstanceAs (Decidable (_ ∧ _))

theorem tidx_eq (v : Nat) : tidx v = v / 1048576 := Nat.shiftRight_eq_div_pow v 20

theorem pidx_eq (v : Nat) : pidx v = v / 4096 % 256 := by
  rw [pidx, Nat.shiftRight_eq_div_pow]
  exact Nat.and_two_pow_sub_one_eq_mod _ 8

theorem tidx_lt (h : v < 4294967296) : tidx v < 4096 := by
  rw [tidx_eq]
  omega

/-- The two indices are the page number. -/
theorem index_eq_iff : (tidx v = tidx w ∧ pidx v = pidx w) ↔ v / 4096 = w / 4096 := by
  simp only [tidx_eq, pidx_eq]
  omega

theorem IsPtable.ne_zero {word : Nat} (h : IsPtable word) : word &&& mmuDesctypeMask ≠ 0 := by
  rw [h]
  decide

theorem translate_of_invalid (h : s.table (tidx v) &&& mmuDesctypeMask = 0) :
    translate s v = none := by
  rw [translate, mmuMapGetTable, if_pos h]
  rfl

theorem translate_of_empty (hpt : IsPtable (s.table (tidx v)))
    (h : s.ptables (ptableAddr (s.table (tidx v))) (pidx v) = 0) : translate s v = none := by
  rw [translate, mmuMapGetTable, if_neg hpt.ne_zero, if_pos hpt, h]
  rfl

theorem InSection.translate_ne (h : InSection s v) : translate s v ≠ none := by
  obtain ⟨hvalid, hpt⟩ := h
  rw [translate, mmuMapGetTable, if_neg hvalid, if_neg hpt]
  exact Option.some_ne_none _

/-- An address is translated by the words its indices select. -/
theorem translate_congr (htable : s'.table (tidx v) = s.table (tidx v))
    (hentry : IsPtable (s.table (tidx v)) →
      s'.ptables (ptableAddr (s.table (tidx v))) (pidx v) =
        s.ptables (ptableAddr (s.table (tidx v))) (pidx v)) :
    translate s' v = translate s v := by
  simp only [translate, mmuMapGetTable, blockSize, htable]
  by_cases hpt : IsPtable (s.table (tidx v))
  · simp only [hentry hpt]
  · simp only [if_neg hpt]

/-- The bytes of a page are translated alike. -/
theorem translate_page (hv : v < 4294967296) :
    translate s v = (translate s (pageMask v)).map fun a => (a.1 + v % 4096, a.2) := by
  have hmask := pageMask_eq hv
  have ht : tidx (pageMask v) = tidx v := by
    rw [tidx_eq, tidx_eq, hmask]
    omega
  have hp : pidx (pageMask v) = pidx v := by
    rw [pidx_eq, pidx_eq, hmask]
    omega
  have hget : mmuMapGetTable s (pageMask v) = mmuMapGetTable s v := by
    simp only [mmuMapGetTable, ht, hp]
  have hsize : blockSize s (pageMask v) = blockSize s v := by
    simp only [blockSize, ht, hp]
  have hoff : v % blockSize s v = pageMask v % blockSize s v + v % 4096 := by
    rw [hmask]
    unfold blockSize
    dsimp only
    split
    · split <;> omega
    · omega
  rw [translate, translate, hget, hsize, Option.map_map]
  congr 1
  funext base
  rw [Function.comp_apply, hoff, Nat.add_assoc]

end Translate

/-! ## Words -/

/-- The flags a page is mapped with. -/
def PageBits (flags : Nat) : Prop := flags = 0 ∨ flags = 1 ∨ flags = 12 ∨ flags = 13

instance (flags : Nat) : Decidable (PageBits flags) := inferInstanceAs (Decidable (_ ∨ _))

theorem pageBits_ptentryFlags (flags : Nat) : PageBits (ptentryFlags flags) := by
  unfold ptentryFlags
  split <;> split <;> decide

/-- A small page is not to be executed when its lowest bit is set. -/
theorem PageBits.smallWord {flags : Nat} (h : PageBits flags) (phys : Nat) :
    (smallWord phys flags &&& mmuDesctypeMask = 2 ∨
      smallWord phys flags &&& mmuDesctypeMask = 3) ∧
    pageMask (smallWord phys flags) = pageMask phys ∧
    smallWord phys flags &&& mmuPtentrySmallXn = flags &&& 1 := by
  have hlow : ∀ mask, 0xFFFFF000 &&& mask = 0 →
      Arm32.smallWord phys flags &&& mask = (flags ||| mmuPtentrytypeSmall) &&& mask := by
    intro mask hmask
    rw [Arm32.smallWord, Nat.or_assoc, Nat.and_or_distrib_right, pageMask_and phys hmask,
      Nat.zero_or]
  have haddr : (flags ||| mmuPtentrytypeSmall) &&& 0xFFFFF000 = 0 := by
    rcases h with rfl | rfl | rfl | rfl <;> rfl
  refine ⟨?_, ?_, ?_⟩
  · rw [hlow mmuDesctypeMask (by decide)]
    rcases h with rfl | rfl | rfl | rfl <;> decide
  · rw [pageMask, Arm32.smallWord, Nat.or_assoc, Nat.and_or_distrib_right, haddr, Nat.or_zero]
    exact pageMask_pageMask phys
  · rw [hlow mmuPtentrySmallXn (by decide)]
    rcases h with rfl | rfl | rfl | rfl <;> rfl

/-- The descriptor of a new page table. -/
theorem ptable_word {ptable : Nat} (hlt : ptable < 4294967296) (hal : ptable % 4096 = 0) :
    IsPtable (ptable ||| mmuDesctypePagetable) ∧
      ptableAddr (ptable ||| mmuDesctypePagetable) = ptable := by
  have hmask : ptable &&& 0xFFFFF000 = ptable := pageMask_of_aligned hlt hal
  have h₃ : ptable &&& 3 = 0 := by
    rw [← hmask]
    exact pageMask_and ptable (by decide)
  constructor
  · simp [IsPtable, mmuDesctypePagetable, mmuDesctypeMask, Nat.and_or_distrib_right, h₃]
  · rw [← hmask, ptableAddr, mmuDescPtAddr, mmuDesctypePagetable, Nat.and_or_distrib_right,
      Nat.and_assoc]
    exact Nat.or_zero (ptable &&& 0xFFFFF000)

/-! ## One page -/

section Page

variable {H : Type} {A : PageHeap H} {s s' : ArmMmu H} {virt phys flags : Nat}

/-- The page tables are in memory the heap does not hand out, and each is
named by one descriptor. -/
structure PtablesOk (A : PageHeap H) (s : ArmMmu H) : Prop where
  held : ∀ i < 4096, IsPtable (s.table i) → ∀ x, ptableAddr (s.table i) ≤ x →
    x < ptableAddr (s.table i) + 1024 → A.held s.heap x
  distinct : ∀ i < 4096, ∀ j < 4096, IsPtable (s.table i) → IsPtable (s.table j) →
    ptableAddr (s.table i) = ptableAddr (s.table j) → i = j

/-- What mapping one page with `word` does. -/
structure PageMapped (s s' : ArmMmu H) (virt word : Nat) : Prop where
  isPtable : IsPtable (s'.table (tidx virt))
  table : ∀ i, i ≠ tidx virt → s'.table i = s.table i
  kept : IsPtable (s.table (tidx virt)) → s'.table (tidx virt) = s.table (tidx virt)
  stored : s'.ptables (ptableAddr (s'.table (tidx virt))) (pidx virt) = word
  filled : IsPtable (s.table (tidx virt)) → ∀ j, j ≠ pidx virt →
    s'.ptables (ptableAddr (s.table (tidx virt))) j =
      s.ptables (ptableAddr (s.table (tidx virt))) j
  empty : ¬ IsPtable (s.table (tidx virt)) → ∀ j, j ≠ pidx virt →
    s'.ptables (ptableAddr (s'.table (tidx virt))) j = 0
  elsewhere : ∀ i < 4096, i ≠ tidx virt → IsPtable (s.table i) → ∀ j,
    s'.ptables (ptableAddr (s.table i)) j = s.ptables (ptableAddr (s.table i)) j

theorem mmuMapPage_spec (hok : PtablesOk A s) (hv : virt < 4294967296)
    (h : mmuMapPage A s virt phys flags = some s') :
    PtablesOk A s' ∧ PageMapped s s' virt (smallWord phys flags) := by
  obtain ⟨⟨ptable, s₁⟩, hpt, h⟩ := Option.bind_eq_some_iff.mp h
  obtain rfl := Option.some.inj h
  have hidx := tidx_lt hv
  unfold ptableFor at hpt
  split at hpt
  · rename_i hnot
    obtain ⟨⟨page, heap⟩, hkam, hpt⟩ := Option.bind_eq_some_iff.mp hpt
    obtain ⟨rfl, rfl⟩ := Prod.mk.inj (Option.some.inj hpt)
    have hne : page ≠ 0 := PageHeap.served_neverNull A hkam
    obtain ⟨hal, hfits, hfresh⟩ := A.served.fresh hkam hne
    obtain ⟨htype, haddr⟩ := @ptable_word page (by omega) hal
    -- the new table is none of the old ones
    have hnew : ∀ i < 4096, IsPtable (s.table i) → ptableAddr (s.table i) ≠ page := by
      intro i hi hpt heq
      exact (hfresh page (Nat.le_refl _) (by omega)).1
        (hok.held i hi hpt page (by omega) (by omega))
    have hself : Function.update s.table (tidx virt) (page ||| mmuDesctypePagetable) (tidx virt) =
        page ||| mmuDesctypePagetable := Function.update_self ..
    have hother : ∀ i, i ≠ tidx virt → Function.update s.table (tidx virt)
        (page ||| mmuDesctypePagetable) i = s.table i := fun i hi => Function.update_of_ne hi _ _
    refine ⟨⟨?_, ?_⟩, ⟨?_, hother, fun hpt => absurd hpt hnot, ?_, fun hpt => absurd hpt hnot,
      ?_, ?_⟩⟩
    · intro i hi hpt x hlo hhi
      dsimp only at hpt hlo hhi ⊢
      by_cases heq : i = tidx virt
      · subst heq
        rw [hself, haddr] at hlo hhi
        exact (hfresh x hlo (by omega)).2
      · rw [hother i heq] at hpt hlo hhi
        exact A.served.keeps hkam (hok.held i hi hpt x hlo hhi)
    · intro i hi j hj hpti hptj heq
      dsimp only at hpti hptj heq
      by_cases hii : i = tidx virt
      · by_cases hjj : j = tidx virt
        · exact hii.trans hjj.symm
        · rw [hii, hself, haddr, hother j hjj] at heq
          rw [hother j hjj] at hptj
          exact absurd heq.symm (hnew j hj hptj)
      · by_cases hjj : j = tidx virt
        · rw [hjj, hself, haddr, hother i hii] at heq
          rw [hother i hii] at hpti
          exact absurd heq (hnew i hi hpti)
        · rw [hother i hii, hother j hjj] at heq
          rw [hother i hii] at hpti
          rw [hother j hjj] at hptj
          exact hok.distinct i hi j hj hpti hptj heq
    · dsimp only
      rw [hself]
      exact htype
    · dsimp only
      rw [hself, haddr]
      simp [PageMem.setWord]
    · intro _ j hj
      dsimp only
      rw [hself, haddr]
      simp [PageMem.setWord, PageMem.zeroPage, hj]
    · intro i hi _ hpt j
      simp [PageMem.setWord, PageMem.zeroPage, hnew i hi hpt]
  · rename_i hnot
    obtain ⟨rfl, rfl⟩ := Prod.mk.inj (Option.some.inj hpt)
    have hpt := not_not.mp hnot
    refine ⟨⟨hok.held, hok.distinct⟩, ⟨hpt, fun _ _ => rfl, fun _ => rfl, ?_, ?_,
      fun hcon => absurd hpt hcon, ?_⟩⟩
    · simp [PageMem.setWord]
    · intro _ j hj
      simp [PageMem.setWord, hj]
    · intro i hi hne hpti j
      have hdiff : ptableAddr (s.table i) ≠ ptableAddr (s.table (tidx virt)) :=
        fun heq => hne (hok.distinct i hi _ hidx hpti hpt heq)
      simp [PageMem.setWord, hdiff]

/-- How a small page is translated. -/
def smallAnswer (phys flags v : Nat) : Option (Nat × Nat) :=
  some (pageMask phys + v % 4096, accessFlags (flags &&& 1 ≠ 0))

/-- What one page does to the translations: its own is new, and the rest of
a section that it was a part of is gone. -/
theorem PageMapped.translate_eq {phys : Nat} (h : PageMapped s s' virt (smallWord phys flags))
    (hbits : PageBits flags) {v : Nat} (hv : v < 4294967296) :
    translate s' v = if v / 4096 = virt / 4096 then smallAnswer phys flags v
      else if tidx v = tidx virt ∧ InSection s v then none else translate s v := by
  obtain ⟨htype, haddr, hxn⟩ := hbits.smallWord phys
  by_cases hpage : v / 4096 = virt / 4096
  · rw [if_pos hpage]
    obtain ⟨ht, hp⟩ := index_eq_iff.mpr hpage
    have hstored := h.stored
    have hpt := h.isPtable
    rw [← ht] at hstored hpt
    rw [← hp] at hstored
    have hnz : smallWord phys flags &&& mmuDesctypeMask ≠ 0 ∧
        smallWord phys flags &&& mmuDesctypeMask ≠ mmuPtentrytypeLarge := by
      rcases htype with htype | htype <;> rw [htype] <;> decide
    simp only [translate, mmuMapGetTable, blockSize, if_neg hpt.ne_zero, if_pos hpt, hstored,
      if_neg hnz.1, if_neg hnz.2, Option.map_some, haddr, hxn, smallAnswer]
  · rw [if_neg hpage]
    by_cases ht : tidx v = tidx virt
    · have hp : pidx v ≠ pidx virt := fun hp => hpage (index_eq_iff.mp ⟨ht, hp⟩)
      by_cases hpt : IsPtable (s.table (tidx virt))
      · rw [if_neg]
        · refine translate_congr ?_ fun _ => ?_
          · rw [ht]
            exact h.kept hpt
          · rw [ht]
            exact h.filled hpt _ hp
        · rintro ⟨-, -, hnot⟩
          rw [ht] at hnot
          exact hnot hpt
      · have hnone : translate s' v = none := by
          have hempty := h.empty hpt _ hp
          have hpt' := h.isPtable
          rw [← ht] at hempty hpt'
          exact translate_of_empty hpt' hempty
        rw [hnone]
        split
        · rfl
        · rename_i hsec
          have hinvalid : s.table (tidx v) &&& mmuDesctypeMask = 0 := by
            by_contra hcon
            exact hsec ⟨ht, hcon, by rw [ht]; exact hpt⟩
          exact (translate_of_invalid hinvalid).symm
    · rw [if_neg fun hcon => ht hcon.1]
      exact translate_congr (h.table _ ht) fun hpt => h.elsewhere _ (tidx_lt hv) ht hpt _

theorem PageMapped.inSection {word : Nat} (h : PageMapped s s' virt word) (v : Nat) :
    InSection s' v ↔ InSection s v ∧ tidx v ≠ tidx virt := by
  by_cases ht : tidx v = tidx virt
  · refine ⟨fun hsec => absurd h.isPtable ?_, fun hcon => absurd ht hcon.2⟩
    rw [← ht]
    exact hsec.2
  · rw [InSection, InSection, h.table _ ht]
    exact (and_iff_left ht).symm

end Page

/-! ## Ranges -/

section Range

variable {H : Type} {A : PageHeap H} {s s' : ArmMmu H} {virt phys size flags v : Nat}

/-- Some page of the range is in the megabyte of an address. -/
def TouchedBy (virt : Nat) (offs : List Nat) (v : Nat) : Prop :=
  ∃ off ∈ offs, tidx v = tidx (u32 (virt + off))

instance (virt : Nat) (offs : List Nat) (v : Nat) : Decidable (TouchedBy virt offs v) :=
  inferInstanceAs (Decidable (∃ off ∈ offs, _))

theorem touchedBy_cons {off : Nat} {offs : List Nat} :
    TouchedBy virt (off :: offs) v ↔ tidx v = tidx (u32 (virt + off)) ∨ TouchedBy virt offs v := by
  simp [TouchedBy]

/-- What mapping the pages of a range does. -/
structure RangeMapped (A : PageHeap H) (virt phys flags : Nat) (offs : List Nat)
    (s s' : ArmMmu H) : Prop where
  ok : PtablesOk A s'
  translate_eq : ∀ v < 4294967296, translate s' v =
    lastWrite (fun off => v / 4096 = u32 (virt + off) / 4096)
      (fun off => smallAnswer (u32 (phys + off)) flags v) offs
      (if TouchedBy virt offs v ∧ InSection s v then none else translate s v)
  inSection : ∀ v, InSection s' v ↔ InSection s v ∧ ¬ TouchedBy virt offs v

theorem RangeMapped.cons {off : Nat} {offs : List Nat} {s₁ : ArmMmu H}
    (h₁ : PageMapped s s₁ (u32 (virt + off)) (smallWord (u32 (phys + off)) flags))
    (hbits : PageBits flags) (h₂ : RangeMapped A virt phys flags offs s₁ s') :
    RangeMapped A virt phys flags (off :: offs) s s' := by
  refine ⟨h₂.ok, fun v hv => ?_, fun v => ?_⟩
  · rw [h₂.translate_eq v hv, lastWrite_cons]
    congr 1
    rw [h₁.translate_eq hbits hv]
    by_cases hlost : TouchedBy virt offs v ∧ InSection s₁ v
    · -- the megabyte is still a section when the rest of the range comes to it
      obtain ⟨htouch, hsec₁⟩ := hlost
      obtain ⟨hsec, hne⟩ := (h₁.inSection v).mp hsec₁
      have hpage : v / 4096 ≠ u32 (virt + off) / 4096 :=
        fun hpage => hne (index_eq_iff.mpr hpage).1
      rw [if_pos ⟨htouch, hsec₁⟩, if_neg hpage,
        if_pos ⟨touchedBy_cons.mpr (Or.inr htouch), hsec⟩]
    · rw [if_neg hlost]
      refine if_congr Iff.rfl rfl (if_congr ?_ rfl rfl)
      rw [touchedBy_cons]
      refine ⟨fun h => ⟨Or.inl h.1, h.2⟩, fun h => ⟨?_, h.2⟩⟩
      by_contra hne
      exact hlost ⟨h.1.resolve_left hne, (h₁.inSection v).mpr ⟨h.2, hne⟩⟩
  · rw [h₂.inSection, h₁.inSection, touchedBy_cons, not_or, and_assoc]

theorem mapLoop_spec (hbits : PageBits flags) {offs : List Nat} (hok : PtablesOk A s)
    (hrun : exec (fun s off => mmuMapPage A s (u32 (pageMask virt + off))
      (u32 (pageMask phys + off)) flags) s offs = some s') :
    RangeMapped A (pageMask virt) (pageMask phys) flags offs s s' := by
  induction offs generalizing s with
  | nil =>
    obtain rfl := Option.some.inj hrun
    refine ⟨hok, fun v _ => ?_, fun v => ?_⟩
    · rw [lastWrite_nil, if_neg]
      simp [TouchedBy]
    · simp [TouchedBy]
  | cons off offs ih =>
    obtain ⟨s₁, hstep, hrest⟩ := exec_cons_eq_some.mp hrun
    obtain ⟨hok₁, hpage⟩ := mmuMapPage_spec hok (u32_lt _) hstep
    exact .cons hpage hbits (ih hok₁ hrest)

theorem mmuMapTable_spec (hok : PtablesOk A s) (hlow : virt < kernelOffset)
    (h : mmuMapTable A s virt phys size flags = some s') :
    ∃ offs, pageOffs size = some offs ∧
      RangeMapped A (pageMask virt) (pageMask phys) (ptentryFlags flags) offs s s' := by
  unfold mmuMapTable at h
  rw [if_neg (Nat.not_le.mpr hlow)] at h
  obtain ⟨offs, hoffs, hrun⟩ := Option.bind_eq_some_iff.mp h
  rw [foldlM_eq_exec] at hrun
  exact ⟨offs, hoffs, mapLoop_spec (pageBits_ptentryFlags flags) hok hrun⟩

/-- The range covers the page of an address. -/
def Covers (virt size v : Nat) : Prop :=
  ∃ off, off % 4096 = 0 ∧ off < size ∧ v / 4096 = u32 (pageMask virt + off) / 4096

/-- The range has a page in the megabyte of an address. -/
def Touches (virt size v : Nat) : Prop :=
  ∃ off, off % 4096 = 0 ∧ off < size ∧ tidx v = tidx (u32 (pageMask virt + off))

theorem Covers.touches (h : Covers virt size v) : Touches virt size v := by
  obtain ⟨off, hal, hlt, hpage⟩ := h
  exact ⟨off, hal, hlt, (index_eq_iff.mpr hpage).1⟩

theorem touchedBy_iff {offs : List Nat} (hoffs : pageOffs size = some offs) :
    TouchedBy (pageMask virt) offs v ↔ Touches virt size v := by
  simp only [TouchedBy, Touches, mem_pageOffs hoffs, and_assoc]

/-- Outside of a range nothing changes, but for the rest of the sections it
reaches into. -/
theorem mmuMapTable_outside (hok : PtablesOk A s) (hlow : virt < kernelOffset)
    (h : mmuMapTable A s virt phys size flags = some s') (hv : v < 4294967296)
    (hout : ¬ Covers virt size v) :
    (Touches virt size v → InSection s v → translate s' v = none) ∧
      (¬ (Touches virt size v ∧ InSection s v) → translate s' v = translate s v) := by
  obtain ⟨offs, hoffs, hm⟩ := mmuMapTable_spec hok hlow h
  have hnohit : ∀ off ∈ offs, ¬ v / 4096 = u32 (pageMask virt + off) / 4096 := by
    intro off hoff hpage
    obtain ⟨hal, hlt⟩ := (mem_pageOffs hoffs).mp hoff
    exact hout ⟨off, hal, hlt, hpage⟩
  have htouch : TouchedBy (pageMask virt) offs v ↔ Touches virt size v := touchedBy_iff hoffs
  rw [hm.translate_eq v hv, lastWrite_of_forall_not hnohit]
  exact ⟨fun ht hsec => if_pos ⟨htouch.mpr ht, hsec⟩,
    fun hnot => if_neg fun hcon => hnot ⟨htouch.mp hcon.1, hcon.2⟩⟩

/-- A covered page, in a range that does not wrap around. -/
theorem mmuMapTable_covered (hok : PtablesOk A s) (hlow : virt < kernelOffset)
    (hfits : pageMask virt + size ≤ 4294967296)
    (h : mmuMapTable A s virt phys size flags = some s') (hv : v < 4294967296)
    (hcov : pageMask virt ≤ pageMask v ∧ pageMask v < pageMask virt + size) :
    translate s' v =
      smallAnswer (u32 (pageMask phys + (pageMask v - pageMask virt))) (ptentryFlags flags) v := by
  obtain ⟨offs, hoffs, hm⟩ := mmuMapTable_spec hok hlow h
  rw [hm.translate_eq v hv, lastWrite_pages hoffs (pageMask_aligned virt) hfits _ _ hv,
    if_pos hcov]

theorem covers_iff (hfits : pageMask virt + size ≤ 4294967296) (hv : v < 4294967296) :
    Covers virt size v ↔ pageMask virt ≤ pageMask v ∧ pageMask v < pageMask virt + size := by
  have hal := pageMask_aligned virt
  have hmask := pageMask_eq hv
  constructor
  · rintro ⟨off, hoff, hlt, hpage⟩
    rw [u32_of_lt (by omega)] at hpage
    omega
  · rintro ⟨hlo, hhi⟩
    refine ⟨pageMask v - pageMask virt, by omega, by omega, ?_⟩
    rw [u32_of_lt (by omega)]
    omega

/-- A range is never refused for its sections: they are page tables behind it. -/
theorem mmuMapTable_inSection (hok : PtablesOk A s) (hlow : virt < kernelOffset)
    (h : mmuMapTable A s virt phys size flags = some s') :
    PtablesOk A s' ∧ ∀ v, InSection s' v ↔ InSection s v ∧ ¬ Touches virt size v := by
  obtain ⟨offs, hoffs, hm⟩ := mmuMapTable_spec hok hlow h
  refine ⟨hm.ok, fun v => ?_⟩
  rw [hm.inSection, touchedBy_iff hoffs]

theorem mmuMapTable_ok (hok : PtablesOk A s) (h : mmuMapTable A s virt phys size flags = some s') :
    PtablesOk A s' := by
  by_cases hlow : virt < kernelOffset
  · exact (mmuMapTable_inSection hok hlow h).1
  · rw [mmuMapTable, if_pos (Nat.not_lt.mp hlow)] at h
    obtain rfl := Option.some.inj h
    exact hok

end Range

/-! ## Start and runs -/

section Runs

variable {H : Type} (A : PageHeap H)

/-- A call of `mmu_map_table`. -/
structure MapCall where
  virt : Nat
  phys : Nat
  size : Nat
  flags : Nat
deriving Repr, DecidableEq

def armStep (s : ArmMmu H) (c : MapCall) : Option (ArmMmu H) :=
  mmuMapTable A s c.virt c.phys c.size c.flags

/-- `_page_table0` is a page of the kernel's image. -/
structure PageTable0 (pageTable0 : Nat) (heap : H) : Prop where
  lt : pageTable0 < 4294967296
  aligned : pageTable0 % 4096 = 0
  held : ∀ x, pageTable0 ≤ x → x < pageTable0 + 1024 → A.held heap x

variable {A}

theorem noPtable_zero : ¬ IsPtable 0 := by decide

/-- No word is a page table's while the sections are mapped. -/
theorem mapSections_noPtable (is : List Nat) {s : ArmMmu H}
    (h : ∀ i, ¬ IsPtable (s.table i)) :
    (∀ i, ¬ IsPtable ((is.foldl mapSections s).table i)) ∧
      (is.foldl mapSections s).heap = s.heap := by
  induction is generalizing s with
  | nil => exact ⟨h, rfl⟩
  | cons k ks ih =>
    have hsection : ∀ phys flags, flags = 0 ∨ flags = mmuDescSXn →
        ¬ IsPtable ((phys &&& mmuDescSBase) ||| flags ||| mmuDesctypeSection) := by
      intro phys flags hflags
      have hlow : phys &&& mmuDescSBase &&& mmuDesctypeMask = 0 := by
        rw [Nat.and_assoc]
        exact Nat.and_zero phys
      rw [IsPtable, Nat.or_assoc, Nat.and_or_distrib_right, hlow, Nat.zero_or]
      rcases hflags with rfl | rfl <;> decide
    refine ih fun i => ?_
    change ¬ IsPtable (Function.update (Function.update s.table _ _) _ _ i)
    rw [Function.update_apply, Function.update_apply]
    split
    · exact hsection _ _ (.inr rfl)
    · split
      · exact hsection _ _ (.inl rfl)
      · exact h i

theorem setPageTable0_ok {s : ArmMmu H} {pageTable0 : Nat} (h0 : PageTable0 A pageTable0 s.heap)
    (hno : ∀ i, ¬ IsPtable (s.table i)) : PtablesOk A (setPageTable0 s pageTable0) := by
  have haddr := (ptable_word h0.lt h0.aligned).2
  -- the only page table is the first one
  have hself : (setPageTable0 s pageTable0).table 0 = pageTable0 ||| mmuDesctypePagetable := by
    simp [setPageTable0]
  have honly : ∀ i, IsPtable ((setPageTable0 s pageTable0).table i) → i = 0 := by
    intro i hi
    by_contra hne
    have hother : (setPageTable0 s pageTable0).table i = s.table i := by
      simp [setPageTable0, hne]
    rw [hother] at hi
    exact hno i hi
  refine ⟨fun i _ hi x hlo hhi => ?_, fun i _ j _ hi hj _ => (honly i hi).trans (honly j hj).symm⟩
  rw [honly i hi, hself, haddr] at hlo hhi
  exact h0.held x hlo hhi

theorem armv7MmuInit_ok {pageTable0 : Nat} {heap : H} {s : ArmMmu H}
    (h0 : PageTable0 A pageTable0 heap) (h : armv7MmuInit A pageTable0 heap = some s) :
    PtablesOk A s := by
  obtain ⟨hno, hheap⟩ := mapSections_noPtable (List.range 1024)
    (s := ⟨fun _ => 0, fun _ _ => 0, heap⟩) (fun _ => noPtable_zero)
  have h0' : PageTable0 A pageTable0 ((List.range 1024).foldl mapSections
      ⟨fun _ => 0, fun _ _ => 0, heap⟩).heap := by
    rw [hheap]
    exact h0
  have hall : ∀ i ∈ List.range' 1 255, i < 256 := fun i hi => (List.mem_range'_1.mp hi).2
  rw [armv7MmuInit, foldlM_eq_exec] at h
  exact exec_guarded_inv (fun s i s' hs hi hstep => (mmuMapPage_spec hs (by omega) hstep).1)
    (setPageTable0_ok h0' hno) (guarded_of_forall _ hall) h

theorem armRun_ok {pageTable0 : Nat} {heap : H} {s₀ s : ArmMmu H} {calls : List MapCall}
    (h0 : PageTable0 A pageTable0 heap) (hinit : armv7MmuInit A pageTable0 heap = some s₀)
    (hrun : exec (armStep A) s₀ calls = some s) : PtablesOk A s :=
  exec_inv (fun _ _ _ hs hstep => mmuMapTable_ok hs hstep) (armv7MmuInit_ok h0 hinit) hrun

end Runs

/-! ## What a mapping should leave -/

section Frame

variable {H : Type} {A : PageHeap H} {s s' : ArmMmu H} {virt phys size flags : Nat}

/-- The addresses outside of the pages of a range are translated as before. -/
def FrameKept (virt size : Nat) (s s' : ArmMmu H) : Prop :=
  ∀ v < 4294967296, ¬ Covers virt size v → translate s' v = translate s v

/-- Of every section it reaches into, the range covers every page. -/
def SectionsCovered (s : ArmMmu H) (virt size : Nat) : Prop :=
  ∀ v < 4294967296, InSection s v → Touches virt size v → Covers virt size v

theorem mmuMapTable_frame_iff (hok : PtablesOk A s) (hlow : virt < kernelOffset)
    (h : mmuMapTable A s virt phys size flags = some s') :
    FrameKept virt size s s' ↔ SectionsCovered s virt size := by
  constructor
  · intro hframe v hv hsec htouch
    by_contra hout
    have hnone := (mmuMapTable_outside hok hlow h hv hout).1 htouch hsec
    rw [hframe v hv hout] at hnone
    exact hsec.translate_ne hnone
  · intro hcov v hv hout
    refine (mmuMapTable_outside hok hlow h hv hout).2 ?_
    rintro ⟨htouch, hsec⟩
    exact hout (hcov v hv hsec htouch)

/-! ## Saving and restoring -/

/-- A range of at most one page. -/
theorem covers_page {v : Nat} (hvirt : virt < 4294967296) (hpos : 0 < size) (hsize : size ≤ 4096) :
    Covers virt size v ↔ v / 4096 = virt / 4096 := by
  have hmask := pageMask_eq hvirt
  have hzero : u32 (pageMask virt + 0) / 4096 = virt / 4096 := by
    rw [u32_of_lt (by omega)]
    omega
  constructor
  · rintro ⟨off, hal, hlt, hpage⟩
    obtain rfl : off = 0 := by omega
    exact hpage.trans hzero
  · intro hpage
    exact ⟨0, rfl, hpos, hpage.trans hzero.symm⟩

theorem touches_page {v : Nat} (hvirt : virt < 4294967296) (hpos : 0 < size)
    (hsize : size ≤ 4096) : Touches virt size v ↔ tidx v = tidx virt := by
  have hmask := pageMask_eq hvirt
  have hzero : tidx (u32 (pageMask virt + 0)) = tidx virt := by
    rw [u32_of_lt (by omega), tidx_eq, tidx_eq]
    omega
  constructor
  · rintro ⟨off, hal, hlt, htidx⟩
    obtain rfl : off = 0 := by omega
    exact htidx.trans hzero
  · intro htidx
    exact ⟨0, rfl, hpos, htidx.trans hzero.symm⟩

/-- The address is mapped, and its page and the 255 behind it are mapped one
behind the other from the frame that is saved, with the same access; where
they reach into a section, they are all of it. -/
structure Restorable (s : ArmMmu H) (virt : Nat) : Prop where
  pages : ∃ base, (mmuMapGetTable s virt).2 = some base ∧ ∀ i < 256,
    translate s (u32 (pageMask virt + i * 4096)) =
      some (u32 (base + i * 4096), (mmuMapGetTable s virt).1)
  sections : SectionsCovered s virt mmuGetPagesize

theorem accessFlags_cases (xn : Prop) [Decidable xn] : accessFlags xn = 3 ∨ accessFlags xn = 7 := by
  unfold accessFlags
  split
  · exact .inl rfl
  · exact .inr rfl

theorem pageMask_base (word : Nat) {mask : Nat} (h : mask &&& 0xFFFFF000 = mask) :
    pageMask (word &&& mask) = word &&& mask := by
  rw [pageMask, Nat.and_assoc, h]

/-- What a lookup answers for a mapped address: a page, and one of two sets of
flags. -/
theorem mmuMapGetTable_some {v base : Nat} : (mmuMapGetTable s v).2 = some base →
    pageMask base = base ∧ ((mmuMapGetTable s v).1 = 3 ∨ (mmuMapGetTable s v).1 = 7) := by
  unfold mmuMapGetTable
  dsimp only
  split
  · nofun
  · split
    · split
      · nofun
      · split
        · rintro ⟨⟩
          exact ⟨pageMask_base _ rfl, accessFlags_cases _⟩
        · rintro ⟨⟩
          exact ⟨pageMask_pageMask _, accessFlags_cases _⟩
    · rintro ⟨⟩
      exact ⟨pageMask_base _ rfl, accessFlags_cases _⟩

/-- Flags that a lookup answers are mapped as they were. -/
theorem accessFlags_restored {flags : Nat} (h : flags = 3 ∨ flags = 7) :
    accessFlags (ptentryFlags flags &&& 1 ≠ 0) = flags := by
  rcases h with rfl | rfl <;> decide

/-- Outside of the pages restored: what was a section before either call is
gone, if a page of it is in the range. -/
theorem mmuMapRestore_outside {v w base : Nat} {s₁ s₂ : ArmMmu H} (hok : PtablesOk A s)
    (hlow : v < kernelOffset) (hpos : 0 < size) (hsize : size ≤ 4096)
    (h₁ : mmuMapTable A s v phys size flags = some s₁) {flags' : Nat}
    (h₂ : mmuMapTable A s₁ v base mmuGetPagesize flags' = some s₂)
    (hw : w < 4294967296) (hout : ¬ Covers v mmuGetPagesize w) :
    (Touches v mmuGetPagesize w → InSection s w → translate s₂ w = none) ∧
      (¬ (Touches v mmuGetPagesize w ∧ InSection s w) → translate s₂ w = translate s w) := by
  have hv : v < 4294967296 := Nat.lt_trans hlow (by decide)
  obtain ⟨hok₁, hsec₁⟩ := mmuMapTable_inSection hok hlow h₁
  have htouch₁ : Touches v size w ↔ tidx w = tidx v := touches_page hv hpos hsize
  have hcover : ∀ x, x / 4096 = v / 4096 → Covers v mmuGetPagesize x := by
    intro x hx
    obtain ⟨off, hal, hlt, hpage⟩ := (covers_page hv hpos hsize).mpr hx
    exact ⟨off, hal, Nat.lt_of_lt_of_le hlt (Nat.le_trans hsize (by decide)), hpage⟩
  -- the page that was mapped in between is restored
  have hout₁ : ¬ Covers v size w :=
    fun hcov => hout (hcover w ((covers_page hv hpos hsize).mp hcov))
  obtain ⟨hlost₁, hkept₁⟩ := mmuMapTable_outside hok hlow h₁ hw hout₁
  obtain ⟨hlost₂, hkept₂⟩ := mmuMapTable_outside hok₁ hlow h₂ hw hout
  have hreach : tidx w = tidx v → Touches v mmuGetPagesize w := by
    intro heq
    obtain ⟨off, hal, hlt, ht⟩ := htouch₁.mpr heq
    exact ⟨off, hal, Nat.lt_of_lt_of_le hlt (Nat.le_trans hsize (by decide)), ht⟩
  constructor
  · intro htouch hsec
    by_cases heq : tidx w = tidx v
    · rw [hkept₂ fun hcon => ((hsec₁ w).mp hcon.2).2 (htouch₁.mpr heq)]
      exact hlost₁ (htouch₁.mpr heq) hsec
    · exact hlost₂ htouch ((hsec₁ w).mpr ⟨hsec, fun ht => heq (htouch₁.mp ht)⟩)
  · intro hnot
    rw [hkept₂ fun hcon => hnot ⟨hcon.1, ((hsec₁ w).mp hcon.2).1⟩]
    exact hkept₁ fun hcon => hnot ⟨hreach (htouch₁.mp hcon.1), hcon.2⟩

/-- The pages restored. -/
theorem mmuMapRestore_covered {v w base : Nat} {s₁ s₂ : ArmMmu H} (hok : PtablesOk A s₁)
    (hlow : v < kernelOffset) (hbase : pageMask base = base) {flags' : Nat}
    (h : mmuMapTable A s₁ v base mmuGetPagesize flags' = some s₂) (hw : w < 4294967296)
    (hcov : pageMask v ≤ pageMask w ∧ pageMask w < pageMask v + mmuGetPagesize) :
    translate s₂ w = some (u32 (base + (pageMask w - pageMask v)) + w % 4096,
      accessFlags (ptentryFlags flags' &&& 1 ≠ 0)) := by
  have hv : v < 4294967296 := Nat.lt_trans hlow (by decide)
  have hmask := pageMask_eq hv
  have halv := pageMask_aligned v
  have halw := pageMask_aligned w
  have hfits : pageMask v + mmuGetPagesize ≤ 4294967296 := by
    unfold kernelOffset at hlow
    unfold mmuGetPagesize
    omega
  have hframe := pageMask_page_off base (pageMask w - pageMask v) (by omega)
  rw [hbase] at hframe
  rw [mmuMapTable_covered hok hlow hfits h hw hcov, smallAnswer, hbase, hframe]

/-- An address below the kernel. -/
theorem mmuMapRestore_iff {v : Nat} {s₁ s₂ : ArmMmu H} {entry : MmuMapEntry}
    (hok : PtablesOk A s) (hlow : v < kernelOffset) (hpos : 0 < size) (hsize : size ≤ 4096)
    (h₁ : mmuMapTable A s v phys size flags = some s₁)
    (h₂ : mmuMapRestore A s₁ (mmuMapSave s entry v) = some s₂) :
    (∀ w < 4294967296, translate s₂ w = translate s w) ↔ Restorable s v := by
  have hv : v < 4294967296 := Nat.lt_trans hlow (by decide)
  have hok₁ := mmuMapTable_ok hok h₁
  have hmask := pageMask_eq hv
  have halv := pageMask_aligned v
  have hfits : pageMask v + mmuGetPagesize ≤ 4294967296 := by
    unfold kernelOffset at hlow
    unfold mmuGetPagesize
    omega
  have hcovers : ∀ w < 4294967296, Covers v mmuGetPagesize w ↔
      pageMask v ≤ pageMask w ∧ pageMask w < pageMask v + mmuGetPagesize :=
    fun w hw => covers_iff hfits hw
  unfold mmuMapRestore mmuMapSave at h₂
  dsimp only at h₂
  -- what is mapped at the address decides what is restored
  cases hget : (mmuMapGetTable s v).2 with
  | none =>
    have hnone : translate s v = none := by
      rw [translate, hget]
      rfl
    have hsome : translate s₂ v ≠ none := by
      have hself : pageMask v ≤ pageMask v ∧ pageMask v < pageMask v + mmuGetPagesize :=
        ⟨Nat.le_refl _, Nat.lt_add_of_pos_right (by decide)⟩
      rw [mmuMapTable_covered hok₁ hlow hfits h₂ hv hself]
      exact Option.some_ne_none _
    refine ⟨fun hall => absurd ((hall v hv).trans hnone) hsome, fun hr => ?_⟩
    obtain ⟨base, hbase, -⟩ := hr.pages
    rw [hget] at hbase
    cases hbase
  | some base =>
    obtain ⟨hbase, hflags⟩ := mmuMapGetTable_some hget
    rw [hget, Option.getD_some] at h₂
    have hrestored : ∀ w < 4294967296, pageMask v ≤ pageMask w ∧
        pageMask w < pageMask v + mmuGetPagesize → translate s₂ w =
          some (u32 (base + (pageMask w - pageMask v)) + w % 4096, (mmuMapGetTable s v).1) := by
      intro w hw hcov
      rw [mmuMapRestore_covered hok₁ hlow hbase h₂ hw hcov, accessFlags_restored hflags]
    constructor
    · intro hall
      refine ⟨⟨base, hget, fun i hi => ?_⟩, fun w hw hsec htouch => ?_⟩
      · have hlt : pageMask v + i * 4096 < 4294967296 := by
          unfold mmuGetPagesize at hfits
          omega
        have hal : (pageMask v + i * 4096) % 4096 = 0 := by omega
        have hpage : pageMask (pageMask v + i * 4096) = pageMask v + i * 4096 :=
          pageMask_of_aligned hlt hal
        rw [u32_of_lt hlt, ← hall _ hlt, hrestored _ hlt, hpage, hal, Nat.add_sub_cancel_left,
          Nat.add_zero]
        rw [hpage]
        unfold mmuGetPagesize
        omega
      · by_contra hout
        have hnone :=
          (mmuMapRestore_outside hok hlow hpos hsize h₁ h₂ hw hout).1 htouch hsec
        rw [hall w hw] at hnone
        exact hsec.translate_ne hnone
    · rintro ⟨⟨base', hget', hpages⟩, hsections⟩ w hw
      obtain rfl : base = base' := Option.some.inj (hget.symm.trans hget')
      by_cases hcov : Covers v mmuGetPagesize w
      · have hin := (hcovers w hw).mp hcov
        obtain ⟨hlo, hhi⟩ := hin
        have halw := pageMask_aligned w
        have hle := pageMask_le w
        unfold mmuGetPagesize at hhi
        have hpage := hpages ((pageMask w - pageMask v) / 4096) (by omega)
        have hoff : (pageMask w - pageMask v) / 4096 * 4096 = pageMask w - pageMask v := by omega
        rw [hoff, Nat.add_sub_cancel' hlo, u32_of_lt (by omega)] at hpage
        rw [hrestored w hw ((hcovers w hw).mp hcov), translate_page hw, hpage]
        rfl
      · refine (mmuMapRestore_outside hok hlow hpos hsize h₁ h₂ hw hcov).2 ?_
        rintro ⟨htouch, hsec⟩
        exact hcov (hsections w hw hsec htouch)

/-- **Mappings change only what they should** exactly when each section they
reach into is covered completely, and a saved mapping is restored exactly when
it is one of the kernel's or as `Restorable` says: in every state reached from
`armv7_mmu_init` by calls of `mmu_map_table`. -/
theorem arm_mapping_right_iff {pageTable0 : Nat} {heap : H} {s₀ : ArmMmu H} {calls : List MapCall}
    (h0 : PageTable0 A pageTable0 heap) (hinit : armv7MmuInit A pageTable0 heap = some s₀)
    (hrun : exec (armStep A) s₀ calls = some s) :
    (∀ virt phys size flags s', virt < kernelOffset →
      mmuMapTable A s virt phys size flags = some s' →
      (FrameKept virt size s s' ↔ SectionsCovered s virt size)) ∧
    ∀ v phys size flags entry s₁ s₂, 0 < size → size ≤ 4096 →
      mmuMapTable A s v phys size flags = some s₁ →
      mmuMapRestore A s₁ (mmuMapSave s entry v) = some s₂ →
      ((∀ w < 4294967296, translate s₂ w = translate s w) ↔
        kernelOffset ≤ v ∨ Restorable s v) := by
  have hok := armRun_ok h0 hinit hrun
  constructor
  · intro virt phys size flags s' hlow h
    exact mmuMapTable_frame_iff hok hlow h
  · intro v phys size flags entry s₁ s₂ hpos hsize h₁ h₂
    by_cases hlow : v < kernelOffset
    · rw [mmuMapRestore_iff hok hlow hpos hsize h₁ h₂, or_iff_right (Nat.not_le.mpr hlow)]
    · -- neither call does anything
      have hle := Nat.not_lt.mp hlow
      obtain rfl : s = s₁ := Option.some.inj ((if_pos hle).symm.trans h₁)
      obtain rfl : s = s₂ := Option.some.inj ((if_pos hle).symm.trans h₂)
      exact ⟨fun _ => .inl hle, fun _ _ _ => rfl⟩

end Frame

/-! ## On the boot heap -/

theorem pageTable0_boot : PageTable0 bootPages 0x1000 bootTable where
  lt := by decide
  aligned := rfl
  held := fun x _ hx => ByteHeld.outside bootTable.2 (Or.inl (by omega))

set_option maxRecDepth 100000 in
/-- A page is mapped where the boot tables have nothing. -/
theorem arm_mapping_right_free :
    ∃ s s', armv7MmuInit bootPages 0x1000 bootTable = some s ∧
      mmuMapTable bootPages s 0x40000000 0x500000 0x1000 mmuFlagRead = some s' ∧
      FrameKept 0x40000000 0x1000 s s' := by
  have hstart : ((armv7MmuInit bootPages 0x1000 bootTable).any fun s =>
      s.table (tidx 0x40000000) = 0 ∧
        (mmuMapTable bootPages s 0x40000000 0x500000 0x1000 mmuFlagRead).isSome) = true := by
    decide +kernel
  obtain ⟨s, hinit, hs⟩ := (Option.any_eq_true _ _).mp hstart
  obtain ⟨hfree, hsome⟩ := of_decide_eq_true hs
  obtain ⟨s', hmap⟩ := Option.isSome_iff_exists.mp hsome
  have hrun : exec (armStep bootPages) s [] = some s := rfl
  refine ⟨s, s', hinit, hmap,
    ((arm_mapping_right_iff pageTable0_boot hinit hrun).1 _ _ _ _ _ (by decide) hmap).mpr ?_⟩
  rintro v hv ⟨hvalid, -⟩ htouch
  rw [(touches_page (by decide) (by decide) (by decide)).mp htouch, hfree] at hvalid
  exact absurd rfl hvalid

set_option maxRecDepth 100000 in
/-- Behind `armv7_mmu_init`, a page mapped at `0x100000` takes the next one out
of its section, and restoring the page at `0x1000` does the same. -/
theorem arm_mapping_wrong :
    (∃ s s', armv7MmuInit bootPages 0x1000 bootTable = some s ∧
      mmuMapTable bootPages s 0x100000 0x500000 0x1000 mmuFlagRead = some s' ∧
      ¬ FrameKept 0x100000 0x1000 s s') ∧
    ∃ s s₁ s₂, armv7MmuInit bootPages 0x1000 bootTable = some s ∧
      mmuMapTable bootPages s 0x1000 0x500000 0x1000 mmuFlagRead = some s₁ ∧
      mmuMapRestore bootPages s₁ (mmuMapSave s ⟨0, 0, 0⟩ 0x1000) = some s₂ ∧
      ¬ ∀ w < 4294967296, translate s₂ w = translate s w := by
  have hmap : ((armv7MmuInit bootPages 0x1000 bootTable).any fun s =>
      (mmuMapTable bootPages s 0x100000 0x500000 0x1000 mmuFlagRead).any fun s' =>
        translate s' 0x101000 ≠ translate s 0x101000) = true := by
    decide +kernel
  have hrestore : ((armv7MmuInit bootPages 0x1000 bootTable).any fun s =>
      (mmuMapTable bootPages s 0x1000 0x500000 0x1000 mmuFlagRead).any fun s₁ =>
        (mmuMapRestore bootPages s₁ (mmuMapSave s ⟨0, 0, 0⟩ 0x1000)).any fun s₂ =>
          translate s₂ 0x101000 ≠ translate s 0x101000) = true := by
    decide +kernel
  constructor
  · obtain ⟨s, hinit, hs⟩ := (Option.any_eq_true _ _).mp hmap
    obtain ⟨s', hs', hdiff⟩ := (Option.any_eq_true _ _).mp hs
    have hout : ¬ Covers 0x100000 0x1000 0x101000 := by
      rw [covers_page (by decide) (by decide) (by decide)]
      decide
    exact ⟨s, s', hinit, hs', fun hkept =>
      of_decide_eq_true hdiff (hkept 0x101000 (by decide) hout)⟩
  · obtain ⟨s, hinit, hs⟩ := (Option.any_eq_true _ _).mp hrestore
    obtain ⟨s₁, h₁, hs₁⟩ := (Option.any_eq_true _ _).mp hs
    obtain ⟨s₂, h₂, hdiff⟩ := (Option.any_eq_true _ _).mp hs₁
    exact ⟨s, s₁, s₂, hinit, h₁, h₂, fun hall => of_decide_eq_true hdiff (hall _ (by decide))⟩

end LambdaOs.Arm32
