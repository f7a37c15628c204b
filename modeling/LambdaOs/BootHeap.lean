import LambdaOs.AllocCall
import LambdaOs.Multiboot

/-!
# Where the kernel heap is placed

`mm_init` of `init/init.c` and the arithmetic of `paging_init`
(`mm/paging.c`): from the Multiboot information to the region that
`init_alloc` gets. `mm_init` takes the extent of the modules off the size of
the upper memory, and `paging_init` reads what is left as the address where
memory ends.
-/

namespace LambdaOs

/-! ## The code -/

/-- The base and size that `paging_init` hands to `init_alloc`. -/
def pagingInit (som eom : Nat) : Nat × Nat :=
  let som := if som % 4096 ≠ 0 then pageMask (u32 (som + 4096)) else som
  (som, u32 (eom + 4294967296 - som))

/-- `none` is a panic, or a walk over the tags that does not end. -/
def mmInit (fuel : Nat) (m : Nat → UInt8) (head : Nat) : Option (Nat × Nat) := do
  if head = 0 then none
  let (_, modsEnd) ← multibootLocateModules fuel m head
  let upperMem ← multibootGetUpperMemory fuel m head
  if upperMem = 0 then none
  let upperMem :=
    if modsEnd > 0x100000 then u32 (upperMem + 4294967296 - (modsEnd - 0x100000)) else upperMem
  return pagingInit modsEnd upperMem

/-! ## What is asked of it -/

/-- The upper memory that the tags describe, in bytes. -/
def upperMemory (tags : List MbootTag) : Nat :=
  match tags.find? fun t => t.type = tagtypeBasicMeminfo with
  | none => 0
  | some t => dataWord t.data 4 * 1024

/-- Some upper memory, below the end of the address space, and in it the
modules, of which there is one at least. -/
structure ModulesInMemory (tags : List MbootTag) : Prop where
  pos : 0 < upperMemory tags
  upper : 0x100000 + upperMemory tags < 4294967296
  some_module : modulesOf tags ≠ []
  inside : ∀ t ∈ modulesOf tags, 0x100000 ≤ dataWord t.data 0 ∧
    dataWord t.data 0 ≤ dataWord t.data 4 ∧ dataWord t.data 4 ≤ 0x100000 + upperMemory tags

/-- A region from a page boundary on, behind the modules and within memory. -/
structure HeapRegion (tags : List MbootTag) (base size : Nat) : Prop where
  aligned : base % 4096 = 0
  behind : maxEnd (modulesOf tags) ≤ base
  within : base + size ≤ 0x100000 + upperMemory tags

/-- `n` rounded up to a page. -/
def pageCeil (n : Nat) : Nat := (n + 4095) / 4096 * 4096

/-- `mm_init` hands over such a region. -/
def HeapPlaced (fuel : Nat) (m : Nat → UInt8) (head : Nat) (tags : List MbootTag) : Prop :=
  ∃ base size, mmInit fuel m head = some (base, size) ∧ HeapRegion tags base size

/-! ## The lookups -/

theorem maxEnd_le {mods : List MbootTag} {n : Nat} (h : ∀ t ∈ mods, dataWord t.data 4 ≤ n) :
    maxEnd mods ≤ n := by
  induction mods with
  | nil => exact Nat.zero_le n
  | cons t mods ih =>
      obtain ⟨ht, hmods⟩ := List.forall_mem_cons.mp h
      exact Nat.max_le.mpr ⟨ht, ih hmods⟩

theorem le_maxEnd {mods : List MbootTag} {t : MbootTag} (h : t ∈ mods) :
    dataWord t.data 4 ≤ maxEnd mods := by
  induction mods with
  | nil => cases h
  | cons t' mods ih =>
      rcases List.mem_cons.mp h with rfl | h
      · exact Nat.le_max_left _ _
      · exact (ih h).trans (Nat.le_max_right _ _)

section Lookups

variable {m : Nat → UInt8} {head total fuel : Nat} {tags : List MbootTag}

theorem MbootInfo.upper_eq (h : MbootInfo m head total tags)
    (hend : head + 8 + total < 4294967296) (hfuel : tags.length < fuel) :
    multibootGetUpperMemory fuel m head = some (u32 (upperMemory tags)) := by
  rw [multibootGetUpperMemory, h.find_eq hend hfuel (by decide) (by decide), upperMemory,
    ← List.head?_filter, ← placedOf_snd tagtypeBasicMeminfo (head + 8), nthTag]
  cases hplaced : placedOf tagtypeBasicMeminfo (head + 8) tags with
  | nil => rfl
  | cons p rest =>
      obtain ⟨hp, htype⟩ := List.mem_filter.mp (hplaced ▸ List.mem_cons_self : p ∈ placedOf _ _ _)
      obtain ⟨hle, hword⟩ :=
        h.laid.word_eq hp (p.2.bounds (.inr (of_decide_eq_true htype)) : 4 + 4 ≤ _)
      have hne : p.1 ≠ 0 := by omega
      simp [hne, hword]

end Lookups

/-! ## The region -/

theorem pagingInit_eq {som eom : Nat} (h : som < 4294967296) :
    pagingInit som eom =
      (u32 (pageCeil som), u32 (eom + 4294967296 - u32 (pageCeil som))) := by
  have hbase : (if som % 4096 ≠ 0 then pageMask (u32 (som + 4096)) else som) =
      u32 (pageCeil som) := by
    rw [pageMask_eq (u32_lt _), pageCeil, u32, u32]
    split <;> omega
  rw [pagingInit, hbase]

/-- The heap starts behind the modules, and ends as far in front of the end of
memory as they reach. -/
theorem MbootInfo.mmInit_eq {m : Nat → UInt8} {head total fuel : Nat} {tags : List MbootTag}
    (h : MbootInfo m head total tags) (hmods : ModulesInMemory tags) (h0 : head ≠ 0)
    (hend : head + 8 + total < 4294967296) (hfuel : tags.length < fuel) :
    0x100000 ≤ maxEnd (modulesOf tags) ∧
      maxEnd (modulesOf tags) ≤ 0x100000 + upperMemory tags ∧
      mmInit fuel m head = some (u32 (pageCeil (maxEnd (modulesOf tags))),
        u32 (0x100000 + upperMemory tags - maxEnd (modulesOf tags) + 4294967296 -
          u32 (pageCeil (maxEnd (modulesOf tags))))) := by
  have hpos := hmods.pos
  have hupper := hmods.upper
  obtain ⟨t, ht⟩ := List.exists_mem_of_ne_nil _ hmods.some_module
  obtain ⟨hlo, hle, -⟩ := hmods.inside t ht
  have hge : 0x100000 ≤ maxEnd (modulesOf tags) := (hlo.trans hle).trans (le_maxEnd ht)
  have hmax : maxEnd (modulesOf tags) ≤ 0x100000 + upperMemory tags :=
    maxEnd_le fun t ht => (hmods.inside t ht).2.2
  refine ⟨hge, hmax, ?_⟩
  have hleft : (if maxEnd (modulesOf tags) > 0x100000 then
      u32 (upperMemory tags + 4294967296 - (maxEnd (modulesOf tags) - 0x100000))
      else upperMemory tags) = 0x100000 + upperMemory tags - maxEnd (modulesOf tags) := by
    rw [u32]
    split <;> omega
  simp only [mmInit, if_neg h0, h.locate_eq hend hfuel, h.upper_eq hend hfuel,
    u32_of_lt (show upperMemory tags < 4294967296 by omega), Option.bind_eq_bind,
    Option.bind_some, if_neg hpos.ne', hleft, pure]
  rw [pagingInit_eq (by omega)]

/-- In an information that the walk cannot see, there is no upper memory. -/
theorem MbootInfo.mmInit_wrapped {m : Nat → UInt8} {head total fuel : Nat} {tags : List MbootTag}
    (h : MbootInfo m head total tags) (hend : 4294967296 ≤ head + 8 + total) :
    mmInit (fuel + 1) m head = none := by
  have hupper : multibootGetUpperMemory (fuel + 1) m head = some 0 := by
    rw [multibootGetUpperMemory, h.find_wrapped hend]
    rfl
  have hloc : multibootLocateModules (fuel + 1) m head = some (4294967295, 0) := by
    rw [multibootLocateModules, locateModulesLoop, h.find_wrapped hend]
    rfl
  simp [mmInit, hupper, hloc]

/-- The region handed over, against the end of memory. -/
theorem heapRegion_iff {tags : List MbootTag} (hge : 0x100000 ≤ maxEnd (modulesOf tags))
    (hmax : maxEnd (modulesOf tags) ≤ 0x100000 + upperMemory tags)
    (hupper : 0x100000 + upperMemory tags < 4294967296) :
    HeapRegion tags (u32 (pageCeil (maxEnd (modulesOf tags))))
        (u32 (0x100000 + upperMemory tags - maxEnd (modulesOf tags) + 4294967296 -
          u32 (pageCeil (maxEnd (modulesOf tags))))) ↔
      maxEnd (modulesOf tags) + pageCeil (maxEnd (modulesOf tags)) ≤
        0x100000 + upperMemory tags := by
  have hceil : maxEnd (modulesOf tags) ≤ pageCeil (maxEnd (modulesOf tags)) ∧
      pageCeil (maxEnd (modulesOf tags)) % 4096 = 0 ∧
      pageCeil (maxEnd (modulesOf tags)) ≤ 4294967296 := by
    rw [pageCeil]
    omega
  obtain ⟨hle, halign, htop⟩ := hceil
  rcases Nat.lt_or_eq_of_le htop with hlt | htop
  · rw [u32_of_lt hlt]
    by_cases hroom : maxEnd (modulesOf tags) + pageCeil (maxEnd (modulesOf tags)) ≤
        0x100000 + upperMemory tags
    · refine iff_of_true ⟨halign, hle, ?_⟩ hroom
      rw [u32]
      omega
    · -- the size has wrapped
      refine iff_of_false ?_ hroom
      rintro ⟨-, -, hwithin⟩
      rw [u32_of_lt (by omega)] at hwithin
      omega
  · -- the base has wrapped
    refine iff_of_false ?_ (by omega)
    rintro ⟨-, hbehind, -⟩
    rw [htop, u32] at hbehind
    omega

/-- The region is inside memory exactly when the modules end in its lower half:
their end and the page boundary behind it come to no more than the end of
memory. -/
theorem boot_heap_placed_iff {m : Nat → UInt8} {head total fuel : Nat} {tags : List MbootTag}
    (h : MbootInfo m head total tags) (hmods : ModulesInMemory tags) (hfuel : tags.length < fuel) :
    HeapPlaced fuel m head tags ↔ head ≠ 0 ∧ head + 8 + total < 4294967296 ∧
      maxEnd (modulesOf tags) + pageCeil (maxEnd (modulesOf tags)) ≤
        0x100000 + upperMemory tags := by
  by_cases h0 : head = 0
  · simp [HeapPlaced, mmInit, h0]
  by_cases hend : head + 8 + total < 4294967296
  · obtain ⟨hge, hmax, hrun⟩ := h.mmInit_eq hmods h0 hend hfuel
    have hupper := hmods.upper
    simp only [HeapPlaced, hrun, h0, hend, not_false_eq_true, ne_eq, true_and]
    rw [← heapRegion_iff hge hmax (by omega)]
    constructor
    · rintro ⟨base, size, heq, hregion⟩
      obtain ⟨rfl, rfl⟩ := Prod.mk.inj (Option.some.inj heq)
      exact hregion
    · exact fun hregion => ⟨_, _, rfl, hregion⟩
  · obtain ⟨fuel, rfl⟩ := Nat.exists_eq_succ_of_ne_zero (Nat.ne_of_gt (Nat.zero_lt_of_lt hfuel))
    simp [HeapPlaced, h.mmInit_wrapped (Nat.not_lt.mp hend), hend]

/-- Where it is right, and not empty, the heap starts out well formed. -/
theorem HeapRegion.heap_wf {tags : List MbootTag} {base size : Nat}
    (h : HeapRegion tags base size) (hupper : 0x100000 + upperMemory tags < 4294967296)
    (hge : 0x100000 ≤ maxEnd (modulesOf tags)) (hpos : 0 < size) {t : Table}
    (hinit : initAlloc base size = .ok t) : TableWf t := by
  have hbehind := h.behind
  have hwithin := h.within
  exact initAlloc_wf hpos (by omega) (by omega) hinit

/-! ## A module of 8 MiB -/

/-- From 2 MiB to 10 MiB, with an empty name. -/
def wideModuleData : List UInt8 := [0, 0, 32, 0, 0, 0, 160, 0, 0]

theorem wideModule_bounds : tagtypeModule = tagtypeModule ∨ tagtypeModule = tagtypeBasicMeminfo →
    8 ≤ wideModuleData.length := fun _ => by decide

def wideModule : MbootTag := ⟨tagtypeModule, wideModuleData, tagtypeModule_ne, wideModule_bounds⟩

theorem tagtypeBasicMeminfo_ne : tagtypeBasicMeminfo ≠ 0 := by decide

/-- So many quarters of a MiB of upper memory. -/
def meminfoData (quarters : UInt8) : List UInt8 := [0, 0, 0, 0, 0, quarters, 0, 0]

theorem meminfo_bounds (quarters : UInt8) :
    tagtypeBasicMeminfo = tagtypeModule ∨ tagtypeBasicMeminfo = tagtypeBasicMeminfo →
      8 ≤ (meminfoData quarters).length := fun _ => Nat.le_refl _

def meminfoTag (quarters : UInt8) : MbootTag :=
  ⟨tagtypeBasicMeminfo, meminfoData quarters, tagtypeBasicMeminfo_ne, meminfo_bounds quarters⟩

/-- The information with both tags, at 4096. -/
def wideInfo (quarters : UInt8) (a : Nat) : UInt8 :=
  ([56, 0, 0, 0, 0, 0, 0, 0, 3, 0, 0, 0, 17, 0, 0, 0] ++ wideModuleData ++ [0, 0, 0, 0, 0, 0, 0] ++
    [4, 0, 0, 0, 16, 0, 0, 0] ++ meminfoData quarters ++ [0, 0, 0, 0, 8, 0, 0, 0]).getD (a - 4096) 0

/-- 32 MiB of memory. -/
theorem wideInfo_large : MbootInfo (wideInfo 124) 4096 56 [wideModule, meminfoTag 124] :=
  ⟨by decide, ⟨by decide, by decide, by decide, by decide, by decide, by decide, by decide,
    by decide⟩, by decide, by decide⟩

theorem wideInfo_large_memory : ModulesInMemory [wideModule, meminfoTag 124] :=
  ⟨by decide, by decide, by decide, by decide⟩

theorem boot_heap_placed_large :
    HeapPlaced 3 (wideInfo 124) 4096 [wideModule, meminfoTag 124] ↔
      4096 ≠ 0 ∧ 4096 + 8 + 56 < 4294967296 ∧
        maxEnd (modulesOf [wideModule, meminfoTag 124]) +
            pageCeil (maxEnd (modulesOf [wideModule, meminfoTag 124])) ≤
          0x100000 + upperMemory [wideModule, meminfoTag 124] :=
  boot_heap_placed_iff wideInfo_large wideInfo_large_memory (by decide)

/-- With 16 MiB the heap starts at 10 MiB and has a size of 4 GiB less
4 MiB. -/
theorem boot_heap_wrong_small :
    MbootInfo (wideInfo 60) 4096 56 [wideModule, meminfoTag 60] ∧
      ModulesInMemory [wideModule, meminfoTag 60] ∧
      mmInit 3 (wideInfo 60) 4096 = some (0xA00000, 0xFFC00000) ∧
      ¬ HeapPlaced 3 (wideInfo 60) 4096 [wideModule, meminfoTag 60] := by
  have hrun : mmInit 3 (wideInfo 60) 4096 = some (0xA00000, 0xFFC00000) := by decide
  refine ⟨⟨by decide, ⟨by decide, by decide, by decide, by decide, by decide, by decide, by decide,
    by decide⟩, by decide, by decide⟩, ⟨by decide, by decide, by decide, by decide⟩, hrun, ?_⟩
  rintro ⟨base, size, heq, -, -, hwithin⟩
  obtain ⟨rfl, rfl⟩ := Prod.mk.inj (Option.some.inj (hrun.symm.trans heq))
  exact absurd hwithin (by decide)

end LambdaOs
