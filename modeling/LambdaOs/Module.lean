import LambdaOs.Paging
import LambdaOs.Run

/-!
# Placing modules

`module_install` of `mod/module.c`. `_module_place` adds up the sizes of a
module's PROGBITS sections and of its NOBITS sections, each aligned, and maps
the two areas: the first at `_current_base`, which then goes on by 64 KiB, and
the second one page behind the start of the first.

Neither distance depends on the sizes, so the areas overlap when the first is
longer than a page or one of them is longer than the space. For modules that
fit (`FitsSlot`) every area lies in the 64 KiB of its module (`SlotInv`), and
these differ as long as the base has not come round.
-/

namespace LambdaOs

/-! ## Sections -/

inductive SectionType where
  | progbits
  | nobits
  | other
deriving Repr, DecidableEq

/-- What is read of an `Elf32_Shdr`. -/
structure Shdr where
  type : SectionType
  addr : Nat
  size : Nat
  addralign : Nat
deriving Repr, DecidableEq

def Shdr.alignMask (sect : Shdr) : Nat := if sect.addralign ≠ 0 then sect.addralign - 1 else 0

/-- `FORCE_ALIGN` -/
def forceAlign (v am : Nat) : Nat :=
  if v &&& am ≠ 0 then u32 (v + am) &&& (0xFFFFFFFF ^^^ am) else v

/-- The locals of the first loop. -/
structure Areas where
  progBase : Nat
  progSize : Nat
  nobitsBase : Nat
  nobitsSize : Nat
deriving Repr, DecidableEq

/-- One section; `none` is `return NULL`. -/
def placeSection (a : Areas) (sect : Shdr) : Option Areas :=
  if sect.addr ≠ 0 then none
  -- the arbitrary maximum
  else if sect.addralign > 0x80 then none
  else
    match sect.type with
    | .progbits => some { a with
        progBase := forceAlign a.progBase sect.alignMask
        progSize := u32 (forceAlign a.progSize sect.alignMask + sect.size) }
    | .nobits => some { a with
        nobitsBase := forceAlign a.nobitsBase sect.alignMask
        nobitsSize := u32 (forceAlign a.nobitsSize sect.alignMask + sect.size) }
    | .other => some a

/-- The first loop, and `nobits_base` behind it. -/
def placeAreas (sects : List Shdr) (baseaddr : Nat) : Option Areas := do
  let a ← sects.foldlM placeSection ⟨baseaddr, 0, 0, 0⟩
  return { a with nobitsBase := pageMask (u32 (a.progBase + 0x1000)) }

/-! ## Installing -/

/-- The pages that `_alloc_map` maps; `none` when `mmu_map` does not return. -/
def allocMapPages (virt len : Nat) : Option (List Nat) := do
  let offs ← pageOffs len
  return offs.map fun off => u32 (pageMask virt + off)

/-- The pages of the two areas of a module. -/
structure PlacedModule where
  prog : List Nat
  nobits : List Nat
deriving Repr, DecidableEq

/-- `_current_base`, and the modules placed so far. -/
structure ModuleState where
  currentBase : Nat
  placed : List PlacedModule
deriving Repr, DecidableEq

def modulesInit : ModuleState := ⟨kernelOffset + 0x10000000, []⟩

/-- The sections of a file that was read, and whether its symbols and
relocations are found when the areas are mapped. -/
structure ModuleFile where
  sections : List Shdr
  linked : Bool
deriving Repr, DecidableEq

/-- `none` when it does not return. A module that is not linked leaves its pages
mapped and the base where it was. -/
def moduleInstall (s : ModuleState) (file : ModuleFile) : Option ModuleState :=
  match placeAreas file.sections s.currentBase with
  | none => some s
  | some a => do
      let prog ← allocMapPages a.progBase a.progSize
      let nobits ← allocMapPages a.nobitsBase a.nobitsSize
      if file.linked then
        return ⟨u32 (s.currentBase + 0x10000), s.placed ++ [⟨prog, nobits⟩]⟩
      else return s

/-- Both areas of every module. -/
def ModuleState.areas (s : ModuleState) : List (List Nat) :=
  s.placed.flatMap fun p => [p.prog, p.nobits]

/-- No page is in two areas. -/
def AreasDisjoint (s : ModuleState) : Prop := s.areas.Pairwise List.Disjoint

instance (s : ModuleState) : Decidable (AreasDisjoint s) :=
  have (l l' : List Nat) : Decidable (l.Disjoint l') :=
    decidable_of_iff (∀ page ∈ l, page ∉ l')
      ⟨fun h _ hl hl' => h _ hl hl', fun h _ hl hl' => h hl hl'⟩
  inferInstanceAs (Decidable (List.Pairwise _ _))

section Map

variable {H : Type} {A : PageHeap H} {kernel : Nat}

/-- The pages are the ones that `mmu_map` goes over. -/
theorem mmuMapTable_pages (s : Mmu H) (table virt phys size flags : Nat) :
    mmuMapTable A kernel s table virt phys size flags =
      (allocMapPages virt size).bind fun pages =>
        pages.zipIdx.foldlM (fun s page =>
          pgdirMapPage A kernel s table (u32 (pageMask phys + page.2 * 4096)) page.1
            (pageFlags flags)) s := by
  unfold mmuMapTable allocMapPages pageOffs
  split
  · generalize (size + 4095) / 4096 = n
    have hidx : (List.range n).zipIdx = (List.range n).map fun i => (i, i) := by
      rw [List.zipIdx_eq_zip_range', List.length_range, ← List.range_eq_range']
      simpa using List.zip_map' (f := id) (g := id) (l := List.range n)
    simp only [Option.bind_eq_bind, Option.bind_some, Option.pure_def, List.foldlM_map,
      List.zipIdx_map, hidx]
    rfl
  · rfl

end Map

/-! ## Modules that fit -/

/-- What the sections of a type take. -/
def areaSize (type : SectionType) (sects : List Shdr) : Nat :=
  sects.foldl (fun size sect =>
    if sect.type = type then u32 (forceAlign size sect.alignMask + sect.size) else size) 0

/-- A file whose module is placed. -/
def ModuleFile.Accepted (file : ModuleFile) : Prop :=
  file.linked = true ∧ ∀ sect ∈ file.sections, sect.addr = 0 ∧ sect.addralign ≤ 0x80

/-- The first area ends before the second, both end within 64 KiB, and there are
fewer modules than such spaces. -/
def FitsSlot (s : ModuleState) (file : ModuleFile) : Prop :=
  file.Accepted →
    (areaSize .progbits file.sections ≤ 0x1000 ∨ areaSize .nobits file.sections = 0) ∧
    areaSize .progbits file.sections ≤ 0x10000 ∧ areaSize .nobits file.sections ≤ 0xF000 ∧
    s.placed.length < 65536

instance (file : ModuleFile) : Decidable file.Accepted := inferInstanceAs (Decidable (_ ∧ _))

instance (s : ModuleState) (file : ModuleFile) : Decidable (FitsSlot s file) :=
  inferInstanceAs (Decidable (_ → _))

section Place

variable {sects : List Shdr} {base : Nat} {a : Areas}

/-- A base of a module is aligned already. -/
theorem forceAlign_base (hbase : base % 128 = 0) {am : Nat} (ham : am < 128) :
    forceAlign base am = base := by
  refine if_neg (not_not.mpr ?_)
  refine Nat.eq_of_testBit_eq ?_
  intro i
  rw [Nat.testBit_and, Nat.zero_testBit]
  by_cases hi : i < 7
  · have hbit : (base % 2 ^ 7).testBit i = base.testBit i := by
      rw [Nat.testBit_mod_two_pow, decide_eq_true hi, Bool.true_and]
    rw [← hbit, show base % 2 ^ 7 = 0 from hbase, Nat.zero_testBit, Bool.false_and]
  · have hpow : 2 ^ 7 ≤ 2 ^ i := Nat.pow_le_pow_right (by decide) (by omega)
    rw [Nat.testBit_lt_two_pow (Nat.lt_of_lt_of_le ham hpow), Bool.and_false]

theorem foldlM_placeSection (hbase : base % 128 = 0) {sects : List Shdr} {ps nb ns : Nat}
    (h : sects.foldlM placeSection ⟨base, ps, nb, ns⟩ = some a) :
    (∀ sect ∈ sects, sect.addr = 0 ∧ sect.addralign ≤ 0x80) ∧ a.progBase = base ∧
    a.progSize = sects.foldl (fun size sect =>
      if sect.type = .progbits then u32 (forceAlign size sect.alignMask + sect.size)
      else size) ps ∧
    a.nobitsSize = sects.foldl (fun size sect =>
      if sect.type = .nobits then u32 (forceAlign size sect.alignMask + sect.size)
      else size) ns := by
  induction sects generalizing ps nb ns with
  | nil =>
      obtain rfl := Option.some.inj h
      exact ⟨fun sect hsect => absurd hsect List.not_mem_nil, rfl, rfl, rfl⟩
  | cons sect sects ih =>
      rw [List.foldlM_cons] at h
      obtain ⟨a', hsect, h⟩ := Option.bind_eq_some_iff.mp h
      unfold placeSection at hsect
      split at hsect
      · cases hsect
      · split at hsect
        · cases hsect
        · rename_i haddr halign
          have hmask : sect.alignMask < 128 := by
            unfold Shdr.alignMask
            split <;> omega
          have hok : sect.addr = 0 ∧ sect.addralign ≤ 0x80 := ⟨not_not.mp haddr, by omega⟩
          simp only [List.forall_mem_cons, List.foldl_cons]
          split at hsect
          · rename_i htype
            obtain rfl := Option.some.inj hsect
            rw [forceAlign_base hbase hmask] at h
            obtain ⟨hall, hrest⟩ := ih h
            rw [htype, if_pos rfl, if_neg (by decide)]
            exact ⟨⟨hok, hall⟩, hrest⟩
          · rename_i htype
            obtain rfl := Option.some.inj hsect
            obtain ⟨hall, hrest⟩ := ih h
            rw [htype, if_neg (by decide), if_pos rfl]
            exact ⟨⟨hok, hall⟩, hrest⟩
          · rename_i htype
            obtain rfl := Option.some.inj hsect
            obtain ⟨hall, hrest⟩ := ih h
            rw [htype, if_neg (by decide), if_neg (by decide)]
            exact ⟨⟨hok, hall⟩, hrest⟩

/-- Where the areas are. -/
theorem placeAreas_spec (hbase : base % 65536 = 0) (hlt : base < 4294967296)
    (h : placeAreas sects base = some a) :
    (∀ sect ∈ sects, sect.addr = 0 ∧ sect.addralign ≤ 0x80) ∧ a.progBase = base ∧
      a.nobitsBase = base + 0x1000 ∧ a.progSize = areaSize .progbits sects ∧
      a.nobitsSize = areaSize .nobits sects := by
  obtain ⟨a', hfold, h⟩ := Option.bind_eq_some_iff.mp h
  obtain rfl := Option.some.inj h
  obtain ⟨hall, hprog, hps, hns⟩ := foldlM_placeSection (by omega) hfold
  refine ⟨hall, hprog, ?_, hps, hns⟩
  change pageMask (u32 (a'.progBase + 0x1000)) = _
  rw [hprog, u32_of_lt (by omega), pageMask_of_aligned (by omega) (by omega)]

/-- The pages of an area that ends in memory. -/
theorem mem_allocMapPages {virt len : Nat} {pages : List Nat} (hvirt : virt % 4096 = 0)
    (hfits : virt + len ≤ 4294967296) (h : allocMapPages virt len = some pages) {page : Nat}
    (hpage : page ∈ pages) : virt ≤ page ∧ page < virt + len ∧ (page - virt) % 4096 = 0 := by
  obtain ⟨offs, hoffs, h⟩ := Option.bind_eq_some_iff.mp h
  obtain rfl := Option.some.inj h
  obtain ⟨off, hoff, rfl⟩ := List.mem_map.mp hpage
  unfold pageOffs at hoffs
  split at hoffs
  · obtain rfl := Option.some.inj hoffs
    obtain ⟨i, hi, rfl⟩ := List.mem_map.mp hoff
    rw [List.mem_range] at hi
    rw [pageMask_of_aligned (by omega) hvirt, u32_of_lt (by omega)]
    omega
  · cases hoffs

end Place

/-! ## Runs -/

/-- The module number `i` has the pages of a space of its own. -/
def InSlot (i : Nat) (area : List Nat) : Prop :=
  ∀ page ∈ area, page / 65536 = (0xD000 + i) % 65536

/-- Every area is in the space of its module, and the base is at the next one. -/
structure SlotInv (s : ModuleState) : Prop where
  base : s.currentBase = u32 (0xD0000000 + 0x10000 * s.placed.length)
  few : s.placed.length ≤ 65536
  slots : ∀ area ∈ s.areas, ∃ i < s.placed.length, InSlot i area
  disjoint : AreasDisjoint s

section Run

variable {s s' : ModuleState} {file : ModuleFile}

theorem slotInv_init : SlotInv modulesInit :=
  ⟨by decide, by decide, nofun, List.Pairwise.nil⟩

/-- What a call does: nothing, or it places a module. -/
theorem moduleInstall_cases (h : moduleInstall s file = some s') :
    s' = s ∨ ∃ a prog nobits, file.linked = true ∧
      placeAreas file.sections s.currentBase = some a ∧
      allocMapPages a.progBase a.progSize = some prog ∧
      allocMapPages a.nobitsBase a.nobitsSize = some nobits ∧
      s' = ⟨u32 (s.currentBase + 0x10000), s.placed ++ [⟨prog, nobits⟩]⟩ := by
  unfold moduleInstall at h
  split at h
  · exact Or.inl (Option.some.inj h).symm
  · rename_i a hplace
    obtain ⟨prog, hprog, h⟩ := Option.bind_eq_some_iff.mp h
    obtain ⟨nobits, hnobits, h⟩ := Option.bind_eq_some_iff.mp h
    split at h
    · exact Or.inr ⟨a, prog, nobits, ‹_›, hplace, hprog, hnobits, (Option.some.inj h).symm⟩
    · exact Or.inl (Option.some.inj h).symm

theorem InSlot.disjoint {i j : Nat} {area area' : List Nat} (h : InSlot i area)
    (h' : InSlot j area') (hlt : i < j) (hj : j < 65536) : area.Disjoint area' := by
  intro page hpage hpage'
  have hi := h page hpage
  have hj := h' page hpage'
  omega

/-- The areas of a module that fits. -/
theorem placed_inSlot (h : SlotInv s) (hfits : FitsSlot s file) (hlinked : file.linked = true)
    {a : Areas} {prog nobits : List Nat}
    (hplace : placeAreas file.sections s.currentBase = some a)
    (hprog : allocMapPages a.progBase a.progSize = some prog)
    (hnobits : allocMapPages a.nobitsBase a.nobitsSize = some nobits) :
    s.placed.length < 65536 ∧ InSlot s.placed.length prog ∧ InSlot s.placed.length nobits ∧
      prog.Disjoint nobits := by
  have hbase := h.base
  have hlt : s.currentBase < 4294967296 := hbase ▸ u32_lt _
  have halign : s.currentBase % 65536 = 0 := by
    rw [hbase, u32]
    omega
  have hslot : s.currentBase / 65536 = (0xD000 + s.placed.length) % 65536 := by
    rw [hbase, u32]
    omega
  obtain ⟨hall, hpb, hnb, hps, hns⟩ := placeAreas_spec halign hlt hplace
  obtain ⟨hone, hp, hn, hfew⟩ := hfits ⟨hlinked, hall⟩
  rw [hpb, hps] at hprog
  rw [hnb, hns] at hnobits
  have hmem : ∀ page ∈ prog, s.currentBase ≤ page ∧ page < s.currentBase + areaSize .progbits _ ∧
      (page - s.currentBase) % 4096 = 0 := fun page hpage =>
    mem_allocMapPages (by omega) (by omega) hprog hpage
  have hmem' : ∀ page ∈ nobits, s.currentBase + 0x1000 ≤ page ∧
      page < s.currentBase + 0x1000 + areaSize .nobits _ ∧ _ := fun page hpage =>
    mem_allocMapPages (by omega) (by omega) hnobits hpage
  refine ⟨hfew, ?_, ?_, ?_⟩
  · intro page hpage
    have hin := hmem page hpage
    omega
  · intro page hpage
    have hin := hmem' page hpage
    omega
  · intro page hpage hpage'
    have hin := hmem page hpage
    have hin' := hmem' page hpage'
    omega

theorem SlotInv.step (h : SlotInv s) (hfits : FitsSlot s file)
    (hstep : moduleInstall s file = some s') : SlotInv s' := by
  obtain rfl | ⟨a, prog, nobits, hlinked, hplace, hprog, hnobits, rfl⟩ := moduleInstall_cases hstep
  · exact h
  · obtain ⟨hfew, hslot, hslot', hapart⟩ := placed_inSlot h hfits hlinked hplace hprog hnobits
    have hareas : (ModuleState.mk (u32 (s.currentBase + 0x10000))
        (s.placed ++ [⟨prog, nobits⟩])).areas = s.areas ++ [prog, nobits] := by
      simp [ModuleState.areas]
    refine ⟨?_, ?_, ?_, ?_⟩
    · rw [h.base, u32_u32_add, List.length_append, List.length_singleton, Nat.add_assoc,
        ← Nat.mul_succ]
    · rw [List.length_append, List.length_singleton]
      exact hfew
    · intro area harea
      rw [hareas] at harea
      rw [List.length_append, List.length_singleton]
      rcases List.mem_append.mp harea with harea | harea
      · obtain ⟨i, hi, hin⟩ := h.slots area harea
        exact ⟨i, by omega, hin⟩
      · refine ⟨s.placed.length, by omega, ?_⟩
        rcases List.mem_cons.mp harea with rfl | hlast
        · exact hslot
        · rw [List.mem_singleton.mp hlast]
          exact hslot'
    · rw [AreasDisjoint, hareas, List.pairwise_append]
      refine ⟨h.disjoint, List.pairwise_pair.mpr hapart, ?_⟩
      intro area harea new hnew
      obtain ⟨i, hi, hin⟩ := h.slots area harea
      rcases List.mem_cons.mp hnew with rfl | hlast
      · exact hin.disjoint hslot hi hfew
      · rw [List.mem_singleton.mp hlast]
        exact hin.disjoint hslot' hi hfew

end Run

/-- **Modules that fit do not overlap**: in every run of installs, whatever files
are refused in between. -/
theorem modules_disjoint {files : List ModuleFile} {s : ModuleState}
    (hfits : Guarded moduleInstall FitsSlot modulesInit files)
    (hrun : exec moduleInstall modulesInit files = some s) : AreasDisjoint s :=
  (exec_guarded_inv (fun _ _ _ h hok hstep => SlotInv.step h hok hstep) slotInv_init hfits
    hrun).disjoint

/-- Code of a page and data of three, and then a module without NOBITS. -/
theorem modules_disjoint_two :
    let files : List ModuleFile :=
      [⟨[⟨.progbits, 0, 0xFF0, 16⟩, ⟨.other, 0, 0x5000, 4⟩, ⟨.nobits, 0, 0x2001, 32⟩], true⟩,
        ⟨[⟨.progbits, 0, 0x8000, 4⟩, ⟨.progbits, 0, 0x8000, 128⟩], true⟩]
    ∃ s, exec moduleInstall modulesInit files = some s ∧ s.placed.length = 2 ∧
      AreasDisjoint s := by
  intro files
  have hrun : (exec moduleInstall modulesInit files).map (·.placed.length) = some 2 := by
    decide +kernel
  obtain ⟨s, hs, hlen⟩ := Option.map_eq_some_iff.mp hrun
  exact ⟨s, hs, hlen, modules_disjoint (by decide +kernel) hs⟩

/-- A module with code that is a byte longer than a page, and one byte of NOBITS;
and two modules, the first of which is longer than 64 KiB. -/
theorem modules_overlap :
    (∃ s, exec moduleInstall modulesInit
        [⟨[⟨.progbits, 0, 0x1001, 16⟩, ⟨.nobits, 0, 1, 1⟩], true⟩] = some s ∧
      ¬ AreasDisjoint s) ∧
    ∃ s, exec moduleInstall modulesInit
        [⟨[⟨.progbits, 0, 0x10001, 16⟩], true⟩, ⟨[⟨.progbits, 0, 0x100, 16⟩], true⟩] = some s ∧
      ¬ AreasDisjoint s := by
  have hone : (exec moduleInstall modulesInit
      [⟨[⟨.progbits, 0, 0x1001, 16⟩, ⟨.nobits, 0, 1, 1⟩], true⟩]).map
        (decide <| AreasDisjoint ·) = some false := by decide +kernel
  have htwo : (exec moduleInstall modulesInit
      [⟨[⟨.progbits, 0, 0x10001, 16⟩], true⟩, ⟨[⟨.progbits, 0, 0x100, 16⟩], true⟩]).map
        (decide <| AreasDisjoint ·) = some false := by decide +kernel
  obtain ⟨s, hs, hoverlap⟩ := Option.map_eq_some_iff.mp hone
  obtain ⟨s', hs', hoverlap'⟩ := Option.map_eq_some_iff.mp htwo
  exact ⟨⟨s, hs, of_decide_eq_false hoverlap⟩, s', hs', of_decide_eq_false hoverlap'⟩

end LambdaOs
