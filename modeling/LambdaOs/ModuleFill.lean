import LambdaOs.ModuleMem
import Mathlib.Data.List.Pairwise

/-!
# The sections of a module

What is where once the areas of a module are mapped and filled. The ranges of
the placed sections are in memory from 0x1000 on and do not overlap, so no
offset has wrapped (`noWrap_of_ranges`) and both areas follow the layout.

The sections of a kind leave no gap a page could start in. Hence a module with
anything in its second area has at most a page in its first, and mapping the
second behind that page takes nothing of the first away.
-/

namespace LambdaOs

/-! ## The entries -/

/-- An entry of `relocs`, without the physical address. -/
def Reloc.elfReloc (r : Reloc) : ElfReloc := ⟨r.sect, r.addrVirt, r.size⟩

/-- The range of an entry is in memory, behind the first page. -/
def ElfReloc.InMemory (r : ElfReloc) : Prop :=
  r.size ≠ 0 → 0x1000 ≤ r.addrVirt ∧ r.addrVirt + r.size ≤ 4294967296

def ElfReloc.Apart (r r' : ElfReloc) : Prop :=
  r.size = 0 ∨ r'.size = 0 ∨ r.addrVirt + r.size ≤ r'.addrVirt ∨ r'.addrVirt + r'.size ≤ r.addrVirt

instance (r : ElfReloc) : Decidable r.InMemory := inferInstanceAs (Decidable (_ → _))
instance (r r' : ElfReloc) : Decidable (r.Apart r') := inferInstanceAs (Decidable (_ ∨ _))

section Entries

variable {i : Nat} {sects : List Elf32Shdr} {ends : SectionType → Nat} {a : Areas}

theorem Elf32Shdr.shdr_size (sect : Elf32Shdr) : sect.shdr.size = sect.size := rfl

/-- The second loop stores what `placeRelocs` lists. -/
theorem placing_relocs (elf : List UInt8) (progPhys nobitsPhys : Nat) {o : Offsets} {p : Placing}
    (hprog : p.prog = o.prog) (hnobits : p.nobits = o.nobits)
    (hrelocs : (p.stores.map fun st => st.1.elfReloc) = o.relocs) :
    (((sects.zipIdx i).foldl (placeSect elf a progPhys nobitsPhys) p).stores.map fun st =>
        st.1.elfReloc) =
      (((sects.map Elf32Shdr.shdr).zipIdx i).foldl (placeReloc a) o).relocs := by
  induction sects generalizing i o p with
  | nil => exact hrelocs
  | cons sect sects ih =>
    rw [List.map_cons, List.zipIdx_cons, List.zipIdx_cons, List.foldl_cons, List.foldl_cons]
    refine ih ?_ ?_ ?_ <;> cases htype : sect.shdr.type <;>
      simp only [placeSect, placeReloc, htype, hprog, hnobits, ← hrelocs, List.map_append,
        List.map_cons, List.map_nil, Reloc.elfReloc, Elf32Shdr.shdr_size]

theorem mem_foldl_placeReloc {sects : List (Shdr × Nat)} {o : Offsets} {r : ElfReloc}
    (h : r ∈ o.relocs) : r ∈ (sects.foldl (placeReloc a) o).relocs := by
  induction sects generalizing o with
  | nil => exact h
  | cons sect sects ih =>
    refine ih ?_
    unfold placeReloc
    split
    · exact List.mem_append_left _ h
    · exact List.mem_append_left _ h
    · exact h

/-- The end of an area is within memory, if there is anything in it. -/
def EndsInMemory (a : Areas) (ends : SectionType → Nat) : Prop :=
  ∀ k, ends k = 0 ∨ 0x1000 ≤ a.base k ∧ a.base k + ends k ≤ 4294967296

/-- One more section. -/
theorem EndsInMemory.step {sect : Elf32Shdr} (h : EndsInMemory a ends) (hsect : sect.Placeable)
    (hbase : ∀ k, a.base k % 0x1000 = 0 ∧ a.base k < 4294967296)
    (hrange : sect.size ≠ 0 →
      0x1000 ≤ u32 (a.base sect.shdr.type + sect.block.2.place ends sect.shdr.type) ∧
        u32 (a.base sect.shdr.type + sect.block.2.place ends sect.shdr.type) + sect.size ≤
          4294967296) :
    ends sect.shdr.type + (sect.block.2.align - 1) + sect.size < 4294967296 ∧
      EndsInMemory a (sect.block.2.ends ends sect.shdr.type) := by
  obtain ⟨k, hk, hpow, -⟩ := hsect.pow
  have hsmall : sect.block.2.align ≤ 128 := hpow ▸ Nat.pow_le_pow_right (by decide) hk
  have hpage : 0x1000 % sect.block.2.align = 0 := by
    rw [hpow]
    exact Nat.mod_eq_zero_of_dvd (Nat.pow_dvd_pow 2 (show k ≤ 12 by omega))
  obtain ⟨hmod, hlt⟩ := hbase sect.shdr.type
  have hle := alignUp_le (ends sect.shdr.type) sect.block.2.align
  have hge := le_alignUp sect.block.2.pos (ends sect.shdr.type)
  -- the room behind the base is a number of pages
  have hroom : ∀ n, ends sect.shdr.type ≤ n → n % 0x1000 = 0 →
      alignUp (ends sect.shdr.type) sect.block.2.align ≤ n := fun n hn hal =>
    alignUp_le_of_mod sect.block.2.pos hn (Nat.mod_eq_zero_of_dvd (Nat.dvd_trans
      (Nat.dvd_of_mod_eq_zero hpage) (Nat.dvd_of_mod_eq_zero hal)))
  have hfits := hroom (4294967296 - a.base sect.shdr.type)
  have hzero := hroom 0
  have hends := h sect.shdr.type
  have hother : ∀ k, k ≠ sect.shdr.type → sect.block.2.ends ends sect.shdr.type k = ends k :=
    fun k hk => Function.update_of_ne hk _ _
  have hself : sect.block.2.ends ends sect.shdr.type sect.shdr.type =
      alignUp (ends sect.shdr.type) sect.block.2.align + sect.size := Function.update_self ..
  rw [Block.place] at hrange
  have hstep : ends sect.shdr.type + (sect.block.2.align - 1) + sect.size < 4294967296 ∧
      (alignUp (ends sect.shdr.type) sect.block.2.align + sect.size = 0 ∨
        0x1000 ≤ a.base sect.shdr.type ∧ a.base sect.shdr.type +
          (alignUp (ends sect.shdr.type) sect.block.2.align + sect.size) ≤ 4294967296) := by
    unfold u32 at hrange
    by_cases hsize : sect.size = 0
    · omega
    · have hrange := hrange hsize
      omega
  refine ⟨hstep.1, fun k => ?_⟩
  by_cases hk : k = sect.shdr.type
  · rw [hk, hself]
    exact hstep.2
  · rw [hother k hk]
    exact h k

/-- What `placeReloc` does with a placed section. -/
theorem placeReloc_step {sect : Elf32Shdr} (hsect : sect.Placeable)
    (hother : sect.shdr.type ≠ .other) {o : Offsets} (hprog : o.prog = ends .progbits)
    (hnobits : o.nobits = ends .nobits) (hsmall : ends sect.shdr.type + 127 < 4294967296) :
    (placeReloc a o (sect.shdr, i)).relocs = o.relocs ++
        [⟨i, u32 (a.base sect.shdr.type + sect.block.2.place ends sect.shdr.type), sect.size⟩] ∧
      (ends sect.shdr.type + (sect.block.2.align - 1) + sect.size < 4294967296 →
        (placeReloc a o (sect.shdr, i)).prog =
            sect.block.2.ends ends sect.shdr.type .progbits ∧
          (placeReloc a o (sect.shdr, i)).nobits =
            sect.block.2.ends ends sect.shdr.type .nobits) := by
  obtain ⟨k, hk, hpow, hmask⟩ := hsect.pow
  have hle : 2 ^ k ≤ 128 := Nat.pow_le_pow_right (n := 2) (by decide) hk
  have halign : forceAlign (ends sect.shdr.type) sect.shdr.alignMask =
      sect.block.2.place ends sect.shdr.type := by
    rw [hmask, forceAlign_eq (by omega), Block.place, hpow]
  have hends : ∀ k, k ≠ sect.shdr.type →
      sect.block.2.ends ends sect.shdr.type k = ends k := fun k hk => Function.update_of_ne hk _ _
  have hend : sect.block.2.ends ends sect.shdr.type sect.shdr.type =
      alignUp (ends sect.shdr.type) sect.block.2.align + sect.size := Function.update_self ..
  have hsize := fun hfits => (hsect.step (v := ends sect.shdr.type) hfits).2
  cases htype : sect.shdr.type with
  | progbits =>
    rw [htype] at halign hends hend hsize
    refine ⟨?_, fun hfits => ⟨?_, ?_⟩⟩
    · simp only [placeReloc, htype, hprog, halign, Areas.base, Elf32Shdr.shdr_size]
    · rw [placeReloc, htype, hprog, hend]
      exact hsize hfits
    · rw [placeReloc, htype, hends .nobits (by decide), hnobits]
  | nobits =>
    rw [htype] at halign hends hend hsize
    refine ⟨?_, fun hfits => ⟨?_, ?_⟩⟩
    · simp only [placeReloc, htype, hnobits, halign, Areas.base, Elf32Shdr.shdr_size]
    · rw [placeReloc, htype, hends .progbits (by decide), hprog]
    · rw [placeReloc, htype, hnobits, hend]
      exact hsize hfits
  | other => exact absurd htype hother

/-- No offset wraps when the sections are in memory. -/
theorem noWrap_of_ranges (hsects : ∀ sect ∈ sects, sect.Placeable)
    (hbase : ∀ k, a.base k % 0x1000 = 0 ∧ a.base k < 4294967296) (h : EndsInMemory a ends)
    {o : Offsets} (hprog : o.prog = ends .progbits) (hnobits : o.nobits = ends .nobits)
    (hranges : ∀ r ∈ (((sects.map Elf32Shdr.shdr).zipIdx i).foldl (placeReloc a) o).relocs,
      r.InMemory) :
    NoWrap ends (sectBlocks (sects.zipIdx i)) ∧
      EndsInMemory a (layoutEnd ends (sectBlocks (sects.zipIdx i))) := by
  induction sects generalizing i ends o with
  | nil => exact ⟨True.intro, h⟩
  | cons sect sects ih =>
    obtain ⟨hsect, hsects⟩ := List.forall_mem_cons.mp hsects
    rw [List.map_cons, List.zipIdx_cons, List.foldl_cons] at hranges
    by_cases hother : sect.shdr.type = .other
    · rw [sectBlocks_other hother]
      have hskip : placeReloc a o (sect.shdr, i) = o := by rw [placeReloc, hother]
      rw [hskip] at hranges
      exact ih hsects h hprog hnobits hranges
    · rw [sectBlocks_placed hother]
      have hsmall : ends sect.shdr.type + 127 < 4294967296 := by
        have := h sect.shdr.type
        omega
      obtain ⟨hrelocs, hnext⟩ := placeReloc_step (i := i) (a := a) hsect hother hprog hnobits hsmall
      -- the entry of this section is in memory
      have hrange := hranges _ (mem_foldl_placeReloc
        (hrelocs ▸ List.mem_append_right _ (List.mem_singleton_self _)))
      obtain ⟨hfits, hends⟩ := h.step hsect hbase hrange
      obtain ⟨hprog', hnobits'⟩ := hnext hfits
      obtain ⟨hwrap, hlast⟩ := ih hsects hends hprog' hnobits' hranges
      exact ⟨⟨hfits, hwrap⟩, hlast⟩

end Entries

/-! ## The bytes -/

section Bytes

variable {i : Nat} {sects : List Elf32Shdr} {ends : SectionType → Nat}

/-- The byte of physical memory after the second loop: that of the last copy
over it. -/
theorem placing_bytes (elf : List UInt8) (a : Areas) (progPhys nobitsPhys : Nat)
    (hsects : ∀ sect ∈ sects, sect.Placeable)
    (hwrap : NoWrap ends (sectBlocks (sects.zipIdx i))) {p : Placing}
    (hprog : p.prog = ends .progbits) (hnobits : p.nobits = ends .nobits) (x : Nat) :
    ((sects.zipIdx i).foldl (placeSect elf a progPhys nobitsPhys) p).bytes x =
      lastWrite (fun q : (Elf32Shdr × Nat) × Nat => q.1.1.shdr.type = .progbits ∧
          u32 (progPhys + q.2) ≤ x ∧ x < u32 (progPhys + q.2) + q.1.1.size)
        (fun q => elfBytes elf (q.1.1.offset + (x - u32 (progPhys + q.2))))
        ((placedSects (sects.zipIdx i)).zip (layout ends (sectBlocks (sects.zipIdx i))))
        (p.bytes x) := by
  induction sects generalizing i ends p with
  | nil => rfl
  | cons sect sects ih =>
    obtain ⟨hsect, hsects⟩ := List.forall_mem_cons.mp hsects
    rw [List.zipIdx_cons, List.foldl_cons, ← List.zipIdx_cons]
    by_cases hother : sect.shdr.type = .other
    · rw [sectBlocks_other hother] at hwrap ⊢
      rw [placeSect_other elf a progPhys nobitsPhys hother, placedSects_other hother]
      exact ih hsects hwrap hprog hnobits
    · rw [sectBlocks_placed hother] at hwrap ⊢
      obtain ⟨hfits, hrest⟩ := hwrap
      have hstep := placeSect_step (i := i) elf a progPhys nobitsPhys hsect hother hfits hprog
        hnobits
      rw [ih hsects hrest hstep.prog hstep.nobits, placedSects_cons hother, layout,
        List.zip_cons_cons, lastWrite_cons, hstep.bytes]
      have hblock : sect.block.1 = sect.shdr.type := rfl
      congr 1
      by_cases hkind : sect.shdr.type = .progbits
      · simp only [hblock, hkind, if_true, true_and, copyFile]
      · simp only [hkind, if_false, false_and]

end Bytes

/-! ## One module -/

/-- The byte number `o` of a section, before it is relocated. -/
def sectByte (elf : List UInt8) (sect o : Nat) : Nat :=
  if (elfSection elf sect).shdr.type = .progbits then
    elfBytes elf ((elfSection elf sect).offset + o)
  else 0

/-- The placed sections of a file, with their indices and offsets. -/
def filePlaces (elf : List UInt8) : List ((Elf32Shdr × Nat) × Nat) :=
  (placedSects (elfSections elf).zipIdx).zip
    (layout (fun _ => 0) (sectBlocks (elfSections elf).zipIdx))

/-- Where a placed section is, and that it is within its area. -/
structure PlacedIn (elf : List UInt8) (a : Areas) (q : (Elf32Shdr × Nat) × Nat) : Prop where
  sect : q.1.1 = elfSection elf q.1.2
  kind : q.1.1.shdr.type ≠ .other
  few : q.1.2 < 65536
  inside : q.2 + q.1.1.size ≤ a.size q.1.1.shdr.type

/-- The layout of a file. -/
structure FileLaid (elf : List UInt8) (base : Nat) (a : Areas) : Prop where
  progBase : a.progBase = base
  nobitsBase : a.nobitsBase = pageMask (u32 (base + 0x1000))
  placeable : ∀ sect ∈ elfSections elf, sect.Placeable
  noWrap : NoWrap (fun _ => 0) (sectBlocks (elfSections elf).zipIdx)
  ends : EndsInMemory a a.size
  placed : ∀ q ∈ filePlaces elf, PlacedIn elf a q
  apart : (filePlaces elf).Pairwise fun q q' => q.1.1.shdr.type = q'.1.1.shdr.type →
    q.2 + q.1.1.size ≤ q'.2
  covers : ∀ k, k ≠ .other → ∀ n, n % 0x1000 = 0 → n < a.size k →
    ∃ q ∈ filePlaces elf, q.1.1.shdr.type = k ∧ q.2 ≤ n ∧ n < q.2 + q.1.1.size

section File

variable {elf : List UInt8} {base : Nat} {z : Sizing}

theorem elfSections_length (elf : List UInt8) : (elfSections elf).length < 65536 := by
  rw [elfSections, List.length_map, List.length_range]
  exact halfAt_lt (elfBytes_lt elf) _

theorem mem_elfSections_zipIdx {sect : Elf32Shdr} {i : Nat}
    (h : (sect, i) ∈ (elfSections elf).zipIdx) : sect = elfSection elf i ∧ i < 65536 := by
  obtain ⟨hi, hget⟩ := List.mem_zipIdx' h
  refine ⟨?_, Nat.lt_trans hi (elfSections_length elf)⟩
  rw [hget]
  simp only [elfSections, List.getElem_map, List.getElem_range]

theorem sectBlocks_length (sects : List Elf32Shdr) :
    (sectBlocks sects.zipIdx).length ≤ sects.length := by
  rw [sectBlocks, List.length_map]
  exact Nat.le_trans (List.length_filter_le _ _) (Nat.le_of_eq List.length_zipIdx)

theorem fileLaid_of_ranges (hbase : base % 0x1000 = 0) (hlt : base < 4294967296)
    (halign : ∀ sect ∈ elfSections elf, sect.addralign = 0 ∨ ∃ k, sect.addralign = 2 ^ k)
    (hsize : sizeSections (elfSections elf) base = some z)
    (hranges : ∀ r ∈ placeRelocs z.areas ((elfSections elf).map Elf32Shdr.shdr), r.InMemory) :
    FileLaid elf base z.areas := by
  have hplace : placeAreas ((elfSections elf).map Elf32Shdr.shdr) base = some z.areas := by
    rw [← sizeSections_areas, hsize, Option.map_some]
  obtain ⟨a', hfold, hz⟩ := Option.bind_eq_some_iff.mp hplace
  have hareas := Option.some.inj hz
  obtain ⟨hchecked, hprog, -⟩ := foldlM_placeSection (by omega) hfold
  have hprogBase : z.areas.progBase = base := by
    rw [← hareas]
    exact hprog
  have hnobitsBase : z.areas.nobitsBase = pageMask (u32 (base + 0x1000)) := by
    rw [← hareas, ← hprog]
  have hplaceable : ∀ sect ∈ elfSections elf, sect.Placeable := fun sect hsect =>
    have hok := hchecked _ (List.mem_map_of_mem hsect)
    ⟨hok.1, hok.2, halign sect hsect⟩
  have hbases : ∀ k, z.areas.base k % 0x1000 = 0 ∧ z.areas.base k < 4294967296 := by
    intro k
    have hal := pageMask_aligned (u32 (base + 0x1000))
    have hle := pageMask_le (u32 (base + 0x1000))
    cases k <;> simp only [Areas.base, hprogBase, hnobitsBase] <;> omega
  have hstart : EndsInMemory z.areas fun _ => 0 := fun _ => .inl rfl
  obtain ⟨hwrap, hends⟩ := noWrap_of_ranges (i := 0) (o := ⟨0, 0, []⟩) hplaceable hbases hstart
    rfl rfl hranges
  have hfew := Nat.lt_of_le_of_lt (sectBlocks_length (elfSections elf)) (elfSections_length elf)
  obtain ⟨nb, hsizing⟩ := sizing_layout (n := 0) 0 (show base % 128 = 0 by omega) hplaceable hwrap
    (by omega)
  have hsizes : ∀ k, k ≠ .other →
      z.areas.size k = layoutEnd (fun _ => 0) (sectBlocks (elfSections elf).zipIdx) k := by
    rw [sizeSections, hsizing] at hsize
    obtain rfl := Option.some.inj hsize
    intro k hk
    cases k with
    | progbits => rfl
    | nobits => rfl
    | other => exact absurd rfl hk
  have hzip : (sectBlocks (elfSections elf).zipIdx).zip
        (layout (fun _ => 0) (sectBlocks (elfSections elf).zipIdx)) =
      (filePlaces elf).map (Prod.map (fun sect => sect.1.block) id) := List.zip_map_left
  have hplaced : ∀ q ∈ filePlaces elf, PlacedIn elf z.areas q := by
    intro q hq
    obtain ⟨hmem, hother⟩ := List.mem_filter.mp (List.of_mem_zip hq).1
    obtain ⟨hsect, hi⟩ := mem_elfSections_zipIdx hmem
    have hkind := of_decide_eq_true hother
    refine ⟨hsect, hkind, hi, ?_⟩
    rw [hsizes _ hkind]
    exact (layout_inside (hzip ▸ List.mem_map_of_mem hq)).2.2
  refine ⟨hprogBase, hnobitsBase, hplaceable, hwrap, fun k => ?_, hplaced, ?_, ?_⟩
  · cases k with
    | progbits => exact hsizes .progbits (by decide) ▸ hends .progbits
    | nobits => exact hsizes .nobits (by decide) ▸ hends .nobits
    | other => exact hsizes .nobits (by decide) ▸ hends .nobits
  · have hordered := layout_ordered (fun _ => 0) (sectBlocks (elfSections elf).zipIdx)
    rw [hzip, List.pairwise_map] at hordered
    exact hordered
  · intro k hk n hn hlt
    rw [hsizes k hk] at hlt
    have hmod : ∀ kb ∈ sectBlocks (elfSections elf).zipIdx, kb.1 = k → n % kb.2.align = 0 := by
      intro kb hkb _
      obtain ⟨sect, hsect, rfl⟩ := List.mem_map.mp hkb
      obtain ⟨j, hj, hpow, -⟩ := (hplaceable _ (List.fst_mem_of_mem_zipIdx
        (List.mem_filter.mp hsect).1)).pow
      rw [hpow]
      exact Nat.mod_eq_zero_of_dvd (Nat.dvd_trans (Nat.pow_dvd_pow 2 (show j ≤ 12 by omega))
        (Nat.dvd_of_mod_eq_zero hn))
    obtain ⟨kb, off, hmem, hkind, hle, hin⟩ := layout_covers hmod (Nat.zero_le n) hlt
    rw [hzip] at hmem
    obtain ⟨q, hq, heq⟩ := List.mem_map.mp hmem
    obtain ⟨rfl, rfl⟩ := Prod.mk.inj heq
    exact ⟨q, hq, hkind, hle, hin⟩

end File

/-! ## What is placed where -/

theorem pairwise_mem {α : Type} {R : α → α → Prop} {l : List α} (h : l.Pairwise R) {x y : α}
    (hx : x ∈ l) (hy : y ∈ l) : x = y ∨ R x y ∨ R y x := by
  have : Std.Symm fun x y => R x y ∨ R y x := ⟨fun _ _ => Or.symm⟩
  have hor : l.Pairwise fun x y => R x y ∨ R y x := h.imp Or.inl
  exact or_iff_not_imp_left.mpr fun hne => hor.forall hx hy hne

section Laid

variable {elf : List UInt8} {base : Nat} {a : Areas}

/-- The entry of a section. -/
def Areas.entry (a : Areas) (q : (Elf32Shdr × Nat) × Nat) : ElfReloc :=
  ⟨q.1.2, u32 (a.base q.1.1.shdr.type + q.2), q.1.1.size⟩

theorem FileLaid.stores (h : FileLaid elf base a) (progPhys nobitsPhys : Nat) (bytes : Nat → Nat) :
    ((elfSections elf).zipIdx.foldl (placeSect elf a progPhys nobitsPhys)
        ⟨0, 0, 0, [], bytes⟩).stores =
      ((filePlaces elf).map fun q => a.reloc progPhys nobitsPhys q.1 q.2).zipIdx := by
  have hfew := Nat.lt_of_le_of_lt (sectBlocks_length (elfSections elf)) (elfSections_length elf)
  obtain ⟨hstores, -⟩ := placing_layout elf a progPhys nobitsPhys (p := ⟨0, 0, 0, [], bytes⟩)
    h.placeable h.noWrap rfl rfl (by dsimp only; omega)
  rw [hstores, List.nil_append, filePlaces, List.map_zip_eq_zipWith]
  rfl

theorem FileLaid.relocs (h : FileLaid elf base a) :
    placeRelocs a ((elfSections elf).map Elf32Shdr.shdr) = (filePlaces elf).map a.entry := by
  rw [placeRelocs, ← placing_relocs (i := 0) (o := ⟨0, 0, []⟩) (p := ⟨0, 0, 0, [], fun _ => 0⟩)
    elf 0 0 rfl rfl rfl, h.stores]
  change List.map (Reloc.elfReloc ∘ Prod.fst) _ = _
  rw [← List.map_map, List.zipIdx_map_fst, List.map_map]
  rfl

/-- `_get_reloc` goes over the entries of the placed sections. -/
theorem FileLaid.relocList (h : FileLaid elf base a) (progPhys nobitsPhys : Nat)
    (bytes : Nat → Nat) :
    LambdaOs.relocList (placeSections elf a progPhys nobitsPhys (elfSections elf) bytes).stores =
      (filePlaces elf).map a.entry := by
  have hlisted : ∀ r ∈ (filePlaces elf).map fun q => a.reloc progPhys nobitsPhys q.1 q.2,
      decide (r.sect ≠ 0xFFFFFFFF) = true := by
    intro r hr
    obtain ⟨q, hq, rfl⟩ := List.mem_map.mp hr
    have hfew := (h.placed q hq).few
    exact decide_eq_true (show q.1.2 ≠ 0xFFFFFFFF by omega)
  rw [LambdaOs.relocList, placeSections, h.stores, List.map_append, List.zipIdx_map_fst,
    List.takeWhile_append_of_pos hlisted, List.map_append, List.map_map]
  exact List.append_nil _

/-- No address of a section that has a byte wraps. -/
theorem FileLaid.addr (h : FileLaid elf base a) {q : (Elf32Shdr × Nat) × Nat}
    (hq : q ∈ filePlaces elf) (hsize : q.1.1.size ≠ 0) :
    (a.entry q).addrVirt = a.base q.1.1.shdr.type + q.2 ∧
      a.base q.1.1.shdr.type + a.size q.1.1.shdr.type ≤ 4294967296 := by
  have hin := (h.placed q hq).inside
  have hends := h.ends q.1.1.shdr.type
  exact ⟨u32_of_lt (by omega), by omega⟩

theorem FileLaid.nobits_base (h : FileLaid elf base a) (hbase : base % 0x1000 = 0)
    (hlt : base < 4294967296) (hsize : a.nobitsSize ≠ 0) : a.nobitsBase = base + 0x1000 := by
  have hends : a.nobitsSize = 0 ∨ 0x1000 ≤ a.nobitsBase ∧ _ := h.ends .nobits
  have hnobits := h.nobitsBase
  rw [pageMask_of_aligned (u32_lt _) (by unfold u32; omega)] at hnobits
  unfold u32 at hnobits
  omega

/-- A second area leaves the first one page. -/
theorem FileLaid.one_page (h : FileLaid elf base a) (hbase : base % 0x1000 = 0)
    (hlt : base < 4294967296)
    (hapart : ((filePlaces elf).map a.entry).Pairwise ElfReloc.Apart) (hsize : a.nobitsSize ≠ 0) :
    a.progSize ≤ 0x1000 := by
  by_contra hlong
  have hnobits := h.nobits_base hbase hlt hsize
  obtain ⟨q, hq, hkind, hle, hin⟩ := h.covers .progbits (by decide) 0x1000 (by decide)
    (Nat.lt_of_not_le hlong)
  obtain ⟨q', hq', hkind', hle', hin'⟩ := h.covers .nobits (by decide) 0 (by decide)
    (Nat.pos_of_ne_zero hsize)
  -- both sections are at the second page
  have haddr := (h.addr hq (by omega)).1
  have haddr' := (h.addr hq' (by omega)).1
  rw [hkind, show a.base .progbits = base from h.progBase] at haddr
  rw [hkind', show a.base .nobits = base + 0x1000 from hnobits] at haddr'
  rw [List.pairwise_map] at hapart
  rcases pairwise_mem hapart hq hq' with rfl | hap | hap
  · rw [hkind] at hkind'
    cases hkind'
  all_goals
    simp only [ElfReloc.Apart, haddr, haddr', show ∀ q, (a.entry q).size = q.1.1.size from
      fun _ => rfl] at hap
    omega

end Laid

/-! ## The areas filled -/

/-- Every byte of a placed section is at a place of its own, and is the
section's in the file. -/
structure AreasFilled (elf : List UInt8) (relocs : List ElfReloc) (m : PageMem) (current : Nat)
    (bytes : Nat → Nat) : Prop where
  placed : ∀ r ∈ relocs, ∀ o < r.size, ∃ p, translate m current (r.addrVirt + o) = some p ∧
    bytes p = sectByte elf r.sect o
  inj : ∀ r ∈ relocs, ∀ o < r.size, ∀ r' ∈ relocs, ∀ o' < r'.size,
    translate m current (r.addrVirt + o) = translate m current (r'.addrVirt + o') →
      r.addrVirt + o = r'.addrVirt + o'

section Fill

variable {H : Type} {A : PageHeap H} {kernel current : Nat} {tabs : List Nat} {elf : List UInt8}
  {base progPhys nobitsPhys : Nat} {z : Sizing} {s s' : Machine H}

/-- The areas, mapped behind each other. -/
structure AreasMapped (A : PageHeap H) (current : Nat) (z : Sizing) (progPhys nobitsPhys : Nat)
    (bytes : Nat → Nat) (s' : Machine H) : Prop where
  prog : z.areas.nobitsSize = 0 ∨ z.areas.progSize ≤ 0x1000 → ∀ o < z.areas.progSize,
    translate s'.mmu.mem current (z.areas.progBase + o) = some (progPhys + o)
  nobits : ∀ o < z.areas.nobitsSize,
    translate s'.mmu.mem current (z.areas.nobitsBase + o) = some (nobitsPhys + o)
  bytes : s'.bytes = memset bytes nobitsPhys 0 z.areas.nobitsSize
  inProg : progPhys ≠ 0 → progPhys + z.areas.progSize ≤ 4294967296
  inNobits : z.areas.nobitsSize ≠ 0 → nobitsPhys + z.areas.nobitsSize ≤ 4294967296
  apart : progPhys ≠ 0 → ∀ o < z.areas.progSize, ∀ o' < z.areas.nobitsSize,
    progPhys + o ≠ nobitsPhys + o'

theorem allocAreas_spec (ht : Tables A kernel tabs s.mmu) (hcur : current ∈ tabs)
    (hk : kernel ∈ tabs) (hlaid : FileLaid elf base z.areas) (hbase : base % 0x1000 = 0)
    (hlt : base < 4294967296)
    (h : allocAreas A kernel current z s = some (progPhys, nobitsPhys, s')) :
    AreasMapped A current z progPhys nobitsPhys s.bytes s' := by
  obtain ⟨⟨relocs, heap⟩, hrelocs, h⟩ := Option.bind_eq_some_iff.mp h
  obtain ⟨⟨prog, s₁⟩, hprog, h⟩ := Option.bind_eq_some_iff.mp h
  obtain ⟨⟨nobits, s₂⟩, hnobits, h⟩ := Option.bind_eq_some_iff.mp h
  dsimp only at h
  split at h
  case isFalse => cases h
  rename_i hstore
  obtain ⟨hprog', hrest⟩ := Prod.mk.inj (Option.some.inj h)
  obtain ⟨rfl, rfl⟩ := Prod.mk.inj hrest
  subst hprog'
  have hprogBase := hlaid.progBase
  have hnobitsBase := hlaid.nobitsBase
  have hal := pageMask_aligned (u32 (base + 0x1000))
  have hle := pageMask_le (u32 (base + 0x1000))
  have hends : z.areas.progSize = 0 ∨ 0x1000 ≤ z.areas.progBase ∧
      z.areas.progBase + z.areas.progSize ≤ 4294967296 := hlaid.ends .progbits
  have hends' : z.areas.nobitsSize = 0 ∨ 0x1000 ≤ z.areas.nobitsBase ∧
      z.areas.nobitsBase + z.areas.nobitsSize ≤ 4294967296 := hlaid.ends .nobits
  have h₁ := allocMap_spec (s := ⟨{ s.mmu with heap := heap }, s.bytes⟩) (ht.granted hrelocs) hcur
    hk (by omega) (by omega) hprog
  have h₂ := allocMap_spec h₁.tables hcur hk (by omega) (by omega) hnobits
  have hnull : z.areas.nobitsSize ≠ 0 → nobits ≠ 0 := by
    rintro hsize rfl
    exact hstore.2.elim hsize (by decide)
  refine ⟨fun hone o ho => ?_, fun o ho => ?_, ?_, fun hne => (h₁.block hne).2.1,
    fun hsize => (h₂.block (hnull hsize)).2.1, fun hne o ho o' ho' heq => ?_⟩
  · have hloc := h₁.located (z.areas.progBase + o) (by omega) (by omega)
    rw [Nat.add_sub_cancel_left] at hloc
    refine (h₂.others _ _ (by omega) ?_ hloc).1
    rcases hone with hzero | hone
    · omega
    · -- the second area starts behind the page
      rintro ⟨hlow, hhigh⟩
      rw [pageMask_eq (by omega)] at hlow hhigh
      have := hlaid.nobits_base hbase hlt
      omega
  · have hloc := h₂.located (z.areas.nobitsBase + o) (by omega) (by omega)
    rw [Nat.add_sub_cancel_left] at hloc
    exact hloc.1
  · dsimp only
    rw [h₂.bytes, h₁.bytes]
  · have hheld := ((h₁.block hne).2.2 (prog + o) (by omega) (by omega)).2
    have hfree := ((h₂.block (hnull (by omega))).2.2 (nobits + o') (by omega) (by omega)).1
    exact hfree (heq ▸ hheld)

/-- Where a section is in physical memory. -/
def placePhys (progPhys nobitsPhys : Nat) (q : (Elf32Shdr × Nat) × Nat) : Nat :=
  (if q.1.1.shdr.type = .progbits then progPhys else nobitsPhys) + q.2

theorem PlacedIn.cases {a : Areas} {q : (Elf32Shdr × Nat) × Nat} (h : PlacedIn elf a q)
    (progPhys nobitsPhys : Nat) :
    (q.1.1.shdr.type = .progbits ∧ q.2 + q.1.1.size ≤ a.progSize ∧
        placePhys progPhys nobitsPhys q = progPhys + q.2) ∨
      (q.1.1.shdr.type = .nobits ∧ q.2 + q.1.1.size ≤ a.nobitsSize ∧
        placePhys progPhys nobitsPhys q = nobitsPhys + q.2) := by
  have hin := h.inside
  cases hkind : q.1.1.shdr.type with
  | progbits =>
    rw [hkind] at hin
    exact .inl ⟨rfl, hin, by rw [placePhys, hkind, if_pos rfl]⟩
  | nobits =>
    rw [hkind] at hin
    exact .inr ⟨rfl, hin, by rw [placePhys, hkind, if_neg (by decide)]⟩
  | other => exact absurd hkind h.kind

theorem AreasMapped.located {bytes : Nat → Nat}
    (h : AreasMapped A current z progPhys nobitsPhys bytes s') (hlaid : FileLaid elf base z.areas)
    (hbase : base % 0x1000 = 0) (hlt : base < 4294967296)
    (hapart : ((filePlaces elf).map z.areas.entry).Pairwise ElfReloc.Apart)
    {q : (Elf32Shdr × Nat) × Nat} (hq : q ∈ filePlaces elf) {o : Nat} (ho : o < q.1.1.size) :
    translate s'.mmu.mem current ((z.areas.entry q).addrVirt + o) =
      some (placePhys progPhys nobitsPhys q + o) := by
  have hin := (hlaid.placed q hq).inside
  have haddr := (hlaid.addr hq (by omega)).1
  rw [haddr, placePhys]
  cases hkind : q.1.1.shdr.type with
  | progbits =>
    rw [hkind] at hin
    have hone := or_iff_not_imp_left.mpr (hlaid.one_page hbase hlt hapart)
    rw [if_pos rfl, Nat.add_assoc, Nat.add_assoc]
    exact h.prog hone (q.2 + o) (Nat.lt_of_lt_of_le (Nat.add_lt_add_left ho _) hin)
  | nobits =>
    rw [hkind] at hin
    rw [if_neg (by decide), Nat.add_assoc, Nat.add_assoc]
    exact h.nobits (q.2 + o) (Nat.lt_of_lt_of_le (Nat.add_lt_add_left ho _) hin)
  | other => exact absurd hkind (hlaid.placed q hq).kind

/-- The first byte of the first area was stored. -/
theorem progPhys_pos (hlaid : FileLaid elf base z.areas) {bytes : Nat → Nat}
    (hstore : ∀ st ∈ (placeSections elf z.areas progPhys nobitsPhys (elfSections elf) bytes).stores,
      (elfSection elf st.1.sect).shdr.type = .progbits → Storable st.1.addrPhys st.1.size)
    (hsize : z.areas.progSize ≠ 0) : progPhys ≠ 0 := by
  rintro rfl
  obtain ⟨q, hq, hkind, hle, hin⟩ := hlaid.covers .progbits (by decide) 0 (by decide)
    (Nat.pos_of_ne_zero hsize)
  have hreloc := List.mem_map_of_mem (f := fun q => z.areas.reloc 0 nobitsPhys q.1 q.2) hq
  rw [← List.zipIdx_map_fst 0 ((filePlaces elf).map _)] at hreloc
  obtain ⟨st, hst, heq⟩ := List.mem_map.mp hreloc
  have hok := hstore st (by
    rw [placeSections, hlaid.stores]
    exact List.mem_append_left _ hst)
  rw [heq] at hok
  have hzero : u32 (0 + q.2) = 0 := by rw [Nat.le_zero.mp hle]; rfl
  rcases hok ((hlaid.placed q hq).sect ▸ hkind) with hnone | hsome
  · exact absurd hnone (show q.1.1.size ≠ 0 by omega)
  · simp only [Areas.reloc, hkind, if_true, hzero] at hsome
    exact absurd hsome (by decide)

theorem areas_filled {bytes : Nat → Nat}
    (h : AreasMapped A current z progPhys nobitsPhys bytes s) (hlaid : FileLaid elf base z.areas)
    (hbase : base % 0x1000 = 0) (hlt : base < 4294967296)
    (hapart : ((filePlaces elf).map z.areas.entry).Pairwise ElfReloc.Apart)
    {relocs : List ElfReloc}
    (hfill : fillAreas elf z.areas progPhys nobitsPhys s = some (relocs, s')) :
    relocs = (filePlaces elf).map z.areas.entry ∧ s'.mmu = s.mmu ∧
      AreasFilled elf relocs s'.mmu.mem current s'.bytes := by
  unfold fillAreas at hfill
  dsimp only at hfill
  split at hfill
  case isFalse => cases hfill
  rename_i hstore
  obtain ⟨hrelocs, rfl⟩ := Prod.mk.inj (Option.some.inj hfill)
  rw [hlaid.relocList] at hrelocs
  subst hrelocs
  have hpos := progPhys_pos hlaid hstore
  have hcases := fun q hq => (hlaid.placed q hq).cases progPhys nobitsPhys
  have hloc := fun q hq o ho => h.located hlaid hbase hlt hapart (q := q) hq (o := o) ho
  have hmem : ∀ r ∈ (filePlaces elf).map z.areas.entry, ∀ o < r.size, ∃ q ∈ filePlaces elf,
      r = z.areas.entry q ∧ o < q.1.1.size := by
    intro r hr o ho
    obtain ⟨q, hq, rfl⟩ := List.mem_map.mp hr
    exact ⟨q, hq, rfl, ho⟩
  refine ⟨rfl, rfl, fun r hr o ho => ?_, fun r hr o ho r' hr' o' ho' heq => ?_⟩
  · obtain ⟨q, hq, rfl, ho⟩ := hmem r hr o ho
    refine ⟨_, hloc q hq o ho, ?_⟩
    dsimp only
    rw [placeSections, placing_bytes elf z.areas progPhys nobitsPhys hlaid.placeable hlaid.noWrap
      rfl rfl, ← filePlaces, h.bytes]
    rcases hcases q hq with ⟨hkind, hin, hphys⟩ | ⟨hkind, hin, hphys⟩
    · -- the copy of the section, and no other
      have hprog := h.inProg (hpos (by omega))
      have hsect : sectByte elf (z.areas.entry q).sect o = elfBytes elf (q.1.1.offset + o) := by
        have heq : elfSection elf (z.areas.entry q).sect = q.1.1 := (hlaid.placed q hq).sect.symm
        rw [sectByte, heq, if_pos hkind]
      rw [hphys, hsect]
      refine lastWrite_of_mem ⟨q, hq, hkind, ?_⟩ fun q' hq' hhit => ?_
      · rw [u32_of_lt (by omega)]
        omega
      · obtain ⟨hkind', hlow, hhigh⟩ := hhit
        have hin' := (hlaid.placed q' hq').inside
        rw [hkind', show z.areas.size .progbits = z.areas.progSize from rfl] at hin'
        have hwrap : u32 (progPhys + q'.2) = progPhys + q'.2 := u32_of_lt (by omega)
        rw [hwrap] at hlow hhigh ⊢
        have hsame : q = q' := by
          rcases pairwise_mem hlaid.apart hq hq' with heq | hap | hap
          · exact heq
          · have := hap (hkind.trans hkind'.symm)
            omega
          · have := hap (hkind'.trans hkind.symm)
            omega
        rw [← hsame]
        congr 1
        omega
    · -- no copy, since the areas are apart
      have hnobits := h.inNobits (by omega)
      have hsect : sectByte elf (z.areas.entry q).sect o = 0 := by
        have heq : elfSection elf (z.areas.entry q).sect = q.1.1 := (hlaid.placed q hq).sect.symm
        rw [sectByte, heq, if_neg (by rw [hkind]; decide)]
      rw [hphys, hsect, lastWrite_of_forall_not fun q' hq' hhit => ?_]
      · exact if_pos (by omega)
      · obtain ⟨hkind', hlow, hhigh⟩ := hhit
        have hin' := (hlaid.placed q' hq').inside
        rw [hkind', show z.areas.size .progbits = z.areas.progSize from rfl] at hin'
        have hprog := h.inProg (hpos (by omega))
        have hwrap : u32 (progPhys + q'.2) = progPhys + q'.2 := u32_of_lt (by omega)
        rw [hwrap] at hlow hhigh
        exact h.apart (hpos (by omega)) (nobitsPhys + q.2 + o - progPhys) (by omega) (q.2 + o)
          (by omega) (by omega)
  · obtain ⟨q, hq, rfl, ho⟩ := hmem r hr o ho
    obtain ⟨q', hq', rfl, ho'⟩ := hmem r' hr' o' ho'
    dsimp only at heq
    rw [hloc q hq o ho, hloc q' hq' o' ho'] at heq
    have heq := Option.some.inj heq
    have haddr := (hlaid.addr hq (by omega)).1
    have haddr' := (hlaid.addr hq' (by omega)).1
    rcases hcases q hq with ⟨hkind, hin, hphys⟩ | ⟨hkind, hin, hphys⟩ <;>
      rcases hcases q' hq' with ⟨hkind', hin', hphys'⟩ | ⟨hkind', hin', hphys'⟩ <;>
      rw [hkind] at haddr <;> rw [hkind'] at haddr' <;> rw [hphys, hphys'] at heq
    · omega
    · exact absurd (show progPhys + (q.2 + o) = nobitsPhys + (q'.2 + o') by omega)
        (h.apart (hpos (by omega)) _ (by omega) _ (by omega))
    · exact absurd (show progPhys + (q'.2 + o') = nobitsPhys + (q.2 + o) by omega)
        (h.apart (hpos (by omega)) _ (by omega) _ (by omega))
    · omega

end Fill

end LambdaOs
