import LambdaOs.Layout
import LambdaOs.ModuleLink

/-!
# The two passes of placing a module

`_module_place` of `mod/module.c` goes over the sections twice: it adds up
what the PROGBITS and the NOBITS sections take and counts them, allocates and
maps the two areas, and goes over them again to give each its place, to copy
in the PROGBITS, and to write the entries of `relocs`.

The code of the two loops is not shared, and `FORCE_ALIGN` is applied to the
bases in the first one only. Both follow one `layout` of the sections
(`sizing_layout`, `placing_layout`), so the entries are within the areas and
as many as were counted: `module_passes_agree`.
-/

namespace LambdaOs

/-! ## The first loop -/

/-- Its locals, with `n_relocs`. -/
structure Sizing where
  areas : Areas
  nRelocs : Nat
deriving Repr, DecidableEq

def sizeSection (z : Sizing) (sect : Elf32Shdr) : Option Sizing := do
  let areas ← placeSection z.areas sect.shdr
  return ⟨areas, if sect.shdr.type ≠ .other then u32 (z.nRelocs + 1) else z.nRelocs⟩

def sizeSections (sects : List Elf32Shdr) (baseaddr : Nat) : Option Sizing := do
  let z ← sects.foldlM sizeSection ⟨⟨baseaddr, 0, 0, 0⟩, 0⟩
  return { z with areas := { z.areas with
    nobitsBase := pageMask (u32 (z.areas.progBase + 0x1000)) } }

/-- The count apart, these are the areas of `placeAreas`. -/
theorem sizeSections_areas (sects : List Elf32Shdr) (baseaddr : Nat) :
    (sizeSections sects baseaddr).map Sizing.areas =
      placeAreas (sects.map Elf32Shdr.shdr) baseaddr := by
  have hfold : ∀ z : Sizing, (sects.foldlM sizeSection z).map Sizing.areas =
      (sects.map Elf32Shdr.shdr).foldlM placeSection z.areas := by
    induction sects with
    | nil => exact fun _ => rfl
    | cons sect sects ih =>
      intro z
      rw [List.foldlM_cons, List.map_cons, List.foldlM_cons, sizeSection]
      cases placeSection z.areas sect.shdr with
      | none => rfl
      | some areas => exact ih _
  have hz := hfold ⟨⟨baseaddr, 0, 0, 0⟩, 0⟩
  rw [sizeSections, placeAreas, ← hz]
  cases sects.foldlM sizeSection ⟨⟨baseaddr, 0, 0, 0⟩, 0⟩ <;> rfl

/-! ## The second loop -/

/-- `elf_reloc_t` -/
structure Reloc where
  sect : Nat
  addrVirt : Nat
  addrPhys : Nat
  size : Nat
deriving Repr, DecidableEq

/-- The entry behind the last one. -/
def lastReloc : Reloc := ⟨0xFFFFFFFF, 0xFFFFFFFF, 0xFFFFFFFF, 0⟩

/-- `n` bytes of the file, from `offset` on, are copied to `dest`. -/
def copyFile (elf : List UInt8) (bytes : Nat → Nat) (dest offset n : Nat) : Nat → Nat := fun x =>
  if dest ≤ x ∧ x < dest + n then elfBytes elf (offset + (x - dest)) else bytes x

/-- The locals of the loop, the entries of `relocs` written so far, each with
its index, and the bytes of physical memory. -/
structure Placing where
  prog : Nat
  nobits : Nat
  j : Nat
  stores : List (Reloc × Nat)
  bytes : Nat → Nat

section Place

variable (elf : List UInt8) (a : Areas) (progPhys nobitsPhys : Nat)

/-- One section, with its index. -/
def placeSect (p : Placing) (sect : Elf32Shdr × Nat) : Placing :=
  match sect.1.shdr.type with
  | .progbits =>
      let off := forceAlign p.prog sect.1.shdr.alignMask
      let reloc := ⟨sect.2, u32 (a.progBase + off), u32 (progPhys + off), sect.1.size⟩
      { p with
        prog := u32 (off + sect.1.size)
        j := u32 (p.j + 1)
        stores := p.stores ++ [(reloc, p.j)]
        bytes := copyFile elf p.bytes reloc.addrPhys sect.1.offset reloc.size }
  | .nobits =>
      let off := forceAlign p.nobits sect.1.shdr.alignMask
      let reloc := ⟨sect.2, u32 (a.nobitsBase + off), u32 (nobitsPhys + off), sect.1.size⟩
      { p with
        nobits := u32 (off + sect.1.size)
        j := u32 (p.j + 1)
        stores := p.stores ++ [(reloc, p.j)] }
  | .other => p

/-- The loop and the last entry. -/
def placeSections (sects : List Elf32Shdr) (bytes : Nat → Nat) : Placing :=
  let p := sects.zipIdx.foldl (placeSect elf a progPhys nobitsPhys) ⟨0, 0, 0, [], bytes⟩
  { p with stores := p.stores ++ [(lastReloc, p.j)] }

end Place

/-! ## One layout -/

/-- The sections that are placed, with their indices. -/
def placedSects (sects : List (Elf32Shdr × Nat)) : List (Elf32Shdr × Nat) :=
  sects.filter fun sect => sect.1.shdr.type ≠ .other

/-- A section as a block. No alignment is an alignment of one. -/
def Elf32Shdr.block (sect : Elf32Shdr) : SectionType × Block :=
  (sect.shdr.type, ⟨sect.size, max sect.addralign 1, by omega⟩)

def sectBlocks (sects : List (Elf32Shdr × Nat)) : List (SectionType × Block) :=
  (placedSects sects).map fun sect => sect.1.block

def Areas.base (a : Areas) : SectionType → Nat
  | .progbits => a.progBase
  | _ => a.nobitsBase

def Areas.size (a : Areas) : SectionType → Nat
  | .progbits => a.progSize
  | _ => a.nobitsSize

/-- The entry of a section that is placed at an offset. -/
def Areas.reloc (a : Areas) (progPhys nobitsPhys : Nat) (sect : Elf32Shdr × Nat) (off : Nat) :
    Reloc where
  sect := sect.2
  addrVirt := u32 (a.base sect.1.shdr.type + off)
  addrPhys := u32 ((if sect.1.shdr.type = .progbits then progPhys else nobitsPhys) + off)
  size := sect.1.size

/-- What `_module_place` asks of a section, and the alignments of the format. -/
structure Elf32Shdr.Placeable (sect : Elf32Shdr) : Prop where
  addr : sect.addr = 0
  max : sect.addralign ≤ 0x80
  align : sect.addralign = 0 ∨ ∃ k, sect.addralign = 2 ^ k

/-! ## `FORCE_ALIGN` -/

theorem and_not_low {w : Nat} (hw : w < 4294967296) (k : Nat) :
    w &&& (0xFFFFFFFF ^^^ (2 ^ k - 1)) = w / 2 ^ k * 2 ^ k := by
  rw [← Nat.shiftRight_eq_div_pow, ← Nat.shiftLeft_eq]
  refine Nat.eq_of_testBit_eq fun i => ?_
  rw [Nat.testBit_and, Nat.testBit_xor, Nat.testBit_shiftLeft, Nat.testBit_shiftRight,
    show (0xFFFFFFFF : Nat) = 2 ^ 32 - 1 from rfl, Nat.testBit_two_pow_sub_one,
    Nat.testBit_two_pow_sub_one]
  by_cases hi : i < 32
  · by_cases hk : k ≤ i
    · rw [show k + (i - k) = i by omega]
      simp [hi, hk]
    · simp [hi, hk, Nat.lt_of_not_le hk]
  · have hpow : w < 2 ^ i := Nat.lt_of_lt_of_le hw (Nat.pow_le_pow_right (n := 2) (by decide)
      (show 32 ≤ i by omega))
    by_cases hk : k ≤ i
    · rw [show k + (i - k) = i by omega, Nat.testBit_lt_two_pow hpow]
      simp
    · rw [Nat.testBit_lt_two_pow hpow]
      simp [hk]

/-- The macro is `alignUp`, as long as nothing wraps. -/
theorem forceAlign_eq {v k : Nat} (hv : v + (2 ^ k - 1) < 4294967296) :
    forceAlign v (2 ^ k - 1) = alignUp v (2 ^ k) := by
  have hpos : 0 < 2 ^ k := Nat.two_pow_pos k
  unfold forceAlign
  rw [Nat.and_two_pow_sub_one_eq_mod]
  split
  · rw [u32_of_lt hv, and_not_low hv, alignUp]
  · rename_i hmod
    exact (alignUp_of_mod hpos (not_not.mp hmod)).symm

section Sect

variable {sect : Elf32Shdr}

theorem Elf32Shdr.Placeable.pow (h : sect.Placeable) :
    ∃ k ≤ 7, sect.block.2.align = 2 ^ k ∧ sect.shdr.alignMask = 2 ^ k - 1 := by
  rcases h.align with h0 | ⟨k, hpow⟩
  · refine ⟨0, Nat.zero_le 7, ?_, ?_⟩
    · simp only [Elf32Shdr.block, h0]
      rfl
    · simp only [Shdr.alignMask, Elf32Shdr.shdr, h0]
      rfl
  · have hpos : 0 < 2 ^ k := Nat.two_pow_pos k
    have hk : k ≤ 7 := (Nat.pow_le_pow_iff_right (a := 2) (by decide)).mp (hpow ▸ h.max)
    refine ⟨k, hk, ?_, ?_⟩
    · simp only [Elf32Shdr.block, hpow]
      omega
    · simp only [Shdr.alignMask, Elf32Shdr.shdr, hpow]
      rw [if_pos (by omega)]

/-- What both loops do to the end of an area. -/
theorem Elf32Shdr.Placeable.step (h : sect.Placeable) {v : Nat}
    (hv : v + (sect.block.2.align - 1) + sect.size < 4294967296) :
    forceAlign v sect.shdr.alignMask = alignUp v sect.block.2.align ∧
      u32 (forceAlign v sect.shdr.alignMask + sect.size) =
        alignUp v sect.block.2.align + sect.size := by
  obtain ⟨k, -, hpow, hmask⟩ := h.pow
  have hle := alignUp_le v (2 ^ k)
  rw [hpow] at hv ⊢
  rw [hmask, forceAlign_eq (by omega), u32_of_lt (by omega)]
  exact ⟨rfl, rfl⟩

/-- A section that is not placed is no error. -/
theorem Elf32Shdr.Placeable.placeSection (h : sect.Placeable) (a : Areas) :
    LambdaOs.placeSection a sect.shdr = match sect.shdr.type with
      | .progbits => some { a with
          progBase := forceAlign a.progBase sect.shdr.alignMask
          progSize := u32 (forceAlign a.progSize sect.shdr.alignMask + sect.size) }
      | .nobits => some { a with
          nobitsBase := forceAlign a.nobitsBase sect.shdr.alignMask
          nobitsSize := u32 (forceAlign a.nobitsSize sect.shdr.alignMask + sect.size) }
      | .other => some a := by
  have haddr : ¬ sect.shdr.addr ≠ 0 := not_not.mpr h.addr
  have halign : ¬ sect.shdr.addralign > 0x80 := Nat.not_lt.mpr h.max
  rw [LambdaOs.placeSection, if_neg haddr, if_neg halign]
  rfl

theorem Elf32Shdr.Placeable.alignMask_lt (h : sect.Placeable) : sect.shdr.alignMask < 128 := by
  have hmax := h.max
  unfold Shdr.alignMask
  split
  · exact Nat.lt_of_lt_of_le (Nat.sub_lt (by omega) Nat.one_pos) hmax
  · omega

end Sect

/-! ## Both loops follow the layout -/

section Loops

variable {i : Nat} {sect : Elf32Shdr} {sects : List Elf32Shdr} {ends : SectionType → Nat}

/-- No step of the layout leaves 32 bits. -/
def NoWrap (ends : SectionType → Nat) : List (SectionType × Block) → Prop
  | [] => True
  | kb :: blocks =>
      ends kb.1 + (kb.2.align - 1) + kb.2.size < 4294967296 ∧ NoWrap (kb.2.ends ends kb.1) blocks

theorem noWrap_of_room {blocks : List (SectionType × Block)}
    (h : ∀ k, ends k + roomFor k blocks < 4294967296) : NoWrap ends blocks := by
  induction blocks generalizing ends with
  | nil => exact True.intro
  | cons kb blocks ih =>
    have hroom := h kb.1
    rw [roomFor_cons, if_pos rfl] at hroom
    refine ⟨by omega, ih fun k => ?_⟩
    have hroom' := h k
    rw [roomFor_cons] at hroom'
    by_cases hk : k = kb.1
    · subst hk
      have hplace := alignUp_le (ends kb.1) kb.2.align
      rw [Block.ends, Function.update_self, Block.place]
      omega
    · rw [if_neg (Ne.symm hk)] at hroom'
      rw [Block.ends, Function.update_of_ne hk]
      omega

theorem sectBlocks_placed (h : sect.shdr.type ≠ .other) :
    sectBlocks ((sect :: sects).zipIdx i) = sect.block :: sectBlocks (sects.zipIdx (i + 1)) := by
  rw [List.zipIdx_cons, sectBlocks, placedSects, List.filter_cons_of_pos (by simpa using h)]
  rfl

theorem sectBlocks_other (h : sect.shdr.type = .other) :
    sectBlocks ((sect :: sects).zipIdx i) = sectBlocks (sects.zipIdx (i + 1)) := by
  rw [List.zipIdx_cons, sectBlocks, placedSects, List.filter_cons_of_neg (by simpa using h)]
  rfl

/-- The first loop: the sizes are the ends of the layout, and the count is
that of its blocks. -/
theorem sizing_layout {base n : Nat} (nb : Nat) (hbase : base % 128 = 0)
    (hsects : ∀ sect ∈ sects, sect.Placeable)
    (hwrap : NoWrap ends (sectBlocks (sects.zipIdx i)))
    (hn : n + (sectBlocks (sects.zipIdx i)).length < 4294967296) :
    ∃ nb', sects.foldlM sizeSection ⟨⟨base, ends .progbits, nb, ends .nobits⟩, n⟩ =
      some ⟨⟨base, layoutEnd ends (sectBlocks (sects.zipIdx i)) .progbits, nb',
        layoutEnd ends (sectBlocks (sects.zipIdx i)) .nobits⟩,
        n + (sectBlocks (sects.zipIdx i)).length⟩ := by
  induction sects generalizing i ends nb n with
  | nil => exact ⟨nb, rfl⟩
  | cons sect sects ih =>
    obtain ⟨hsect, hsects⟩ := List.forall_mem_cons.mp hsects
    rw [List.foldlM_cons, sizeSection, hsect.placeSection]
    by_cases hother : sect.shdr.type = .other
    · rw [sectBlocks_other hother] at hwrap hn ⊢
      simp only [hother, Option.bind_eq_bind, Option.bind_some, Option.pure_def]
      exact ih nb hsects hwrap hn
    · rw [sectBlocks_placed hother] at hwrap hn ⊢
      have hkind : sect.block.1 = sect.shdr.type := rfl
      obtain ⟨hfits, hrest⟩ := hwrap
      rw [hkind] at hfits hrest
      obtain ⟨-, hsize⟩ := hsect.step hfits
      have hcount : u32 (n + 1) = n + 1 := u32_of_lt (by rw [List.length_cons] at hn; omega)
      have halign := forceAlign_base hbase hsect.alignMask_lt
      have hends : ∀ k, k ≠ sect.shdr.type →
          sect.block.2.ends ends sect.shdr.type k = ends k :=
        fun k hk => Function.update_of_ne hk _ _
      have hend : sect.block.2.ends ends sect.shdr.type sect.shdr.type =
          alignUp (ends sect.shdr.type) sect.block.2.align + sect.size := Function.update_self ..
      have hsum : n + (sect.block :: sectBlocks (sects.zipIdx (i + 1))).length =
          n + 1 + (sectBlocks (sects.zipIdx (i + 1))).length := by
        rw [List.length_cons]
        omega
      rw [hsum] at hn
      rw [hsum, layoutEnd_cons, hkind]
      have hrest := fun nb' => ih nb' hsects hrest hn
      cases htype : sect.shdr.type with
      | progbits =>
        rw [htype] at hends hend hsize hrest
        rw [hend, hends .nobits (by decide)] at hrest
        simp only [Option.bind_eq_bind, Option.bind_some, Option.pure_def, halign, hcount, hsize,
          ne_eq, reduceCtorEq, not_false_eq_true, if_true]
        exact hrest nb
      | nobits =>
        rw [htype] at hends hend hsize hrest
        rw [hend, hends .progbits (by decide)] at hrest
        simp only [Option.bind_eq_bind, Option.bind_some, Option.pure_def, hcount, hsize, ne_eq,
          reduceCtorEq, not_false_eq_true, if_true]
        exact hrest _
      | other => exact absurd htype hother

theorem placedSects_cons (h : sect.shdr.type ≠ .other) :
    placedSects ((sect :: sects).zipIdx i) = (sect, i) :: placedSects (sects.zipIdx (i + 1)) := by
  rw [List.zipIdx_cons, placedSects, List.filter_cons_of_pos (by simpa using h)]
  rfl

theorem placedSects_other (h : sect.shdr.type = .other) :
    placedSects ((sect :: sects).zipIdx i) = placedSects (sects.zipIdx (i + 1)) := by
  rw [List.zipIdx_cons, placedSects, List.filter_cons_of_neg (by simpa using h)]
  rfl

section Second

variable (elf : List UInt8) (a : Areas) (progPhys nobitsPhys : Nat)

theorem placeSect_other (h : sect.shdr.type = .other) (p : Placing) :
    placeSect elf a progPhys nobitsPhys p (sect, i) = p := by
  rw [placeSect, h]

/-- A placed section: its entry, and what is copied. -/
structure SectPlaced (ends : SectionType → Nat) (sect : Elf32Shdr × Nat) (p q : Placing) :
    Prop where
  prog : q.prog = sect.1.block.2.ends ends sect.1.shdr.type .progbits
  nobits : q.nobits = sect.1.block.2.ends ends sect.1.shdr.type .nobits
  j : q.j = u32 (p.j + 1)
  stores : q.stores = p.stores ++ [(a.reloc progPhys nobitsPhys sect
    (sect.1.block.2.place ends sect.1.shdr.type), p.j)]
  bytes : q.bytes = if sect.1.shdr.type = .progbits then
      copyFile elf p.bytes (u32 (progPhys + sect.1.block.2.place ends sect.1.shdr.type))
        sect.1.offset sect.1.size
    else p.bytes

theorem placeSect_step (hsect : sect.Placeable) (hother : sect.shdr.type ≠ .other)
    (hfits : ends sect.shdr.type + (sect.block.2.align - 1) + sect.size < 4294967296)
    {p : Placing} (hprog : p.prog = ends .progbits) (hnobits : p.nobits = ends .nobits) :
    SectPlaced elf a progPhys nobitsPhys ends (sect, i) p
      (placeSect elf a progPhys nobitsPhys p (sect, i)) := by
  obtain ⟨halign, hsize⟩ := hsect.step hfits
  have hends : ∀ k, k ≠ sect.shdr.type →
      sect.block.2.ends ends sect.shdr.type k = ends k := fun k hk => Function.update_of_ne hk _ _
  have hend : sect.block.2.ends ends sect.shdr.type sect.shdr.type =
      alignUp (ends sect.shdr.type) sect.block.2.align + sect.size := Function.update_self ..
  rw [halign] at hsize
  cases htype : sect.shdr.type with
  | progbits =>
    rw [htype] at hends hend hsize halign
    have hkind : (sect, i).1.shdr.type = .progbits := htype
    refine ⟨?_, ?_, ?_, ?_, ?_⟩
    · rw [hkind, hend, placeSect, htype, hprog, ← hsize, ← halign]
    · rw [hkind, hends .nobits (by decide), placeSect, htype, hnobits]
    · rw [placeSect, htype]
    · simp only [placeSect, htype, hprog, halign, Areas.reloc, Areas.base, if_true, Block.place]
    · simp only [placeSect, htype, hprog, halign, if_true, Block.place]
  | nobits =>
    rw [htype] at hends hend hsize halign
    have hkind : (sect, i).1.shdr.type = .nobits := htype
    refine ⟨?_, ?_, ?_, ?_, ?_⟩
    · rw [hkind, hends .progbits (by decide), placeSect, htype, hprog]
    · rw [hkind, hend, placeSect, htype, hnobits, ← hsize, ← halign]
    · rw [placeSect, htype]
    · simp only [placeSect, htype, hnobits, halign, Areas.reloc, Areas.base, reduceCtorEq, if_false,
        Block.place]
    · simp only [placeSect, htype, reduceCtorEq, if_false]
  | other => exact absurd htype hother

/-- The second loop: the entries are those of the blocks at the offsets of the
layout. -/
theorem placing_layout (hsects : ∀ sect ∈ sects, sect.Placeable)
    (hwrap : NoWrap ends (sectBlocks (sects.zipIdx i))) {p : Placing}
    (hprog : p.prog = ends .progbits) (hnobits : p.nobits = ends .nobits)
    (hj : p.j + (sectBlocks (sects.zipIdx i)).length < 4294967296) :
    ((sects.zipIdx i).foldl (placeSect elf a progPhys nobitsPhys) p).stores =
        p.stores ++ (List.zipWith (a.reloc progPhys nobitsPhys) (placedSects (sects.zipIdx i))
          (layout ends (sectBlocks (sects.zipIdx i)))).zipIdx p.j ∧
      ((sects.zipIdx i).foldl (placeSect elf a progPhys nobitsPhys) p).j =
        p.j + (sectBlocks (sects.zipIdx i)).length := by
  induction sects generalizing i ends p with
  | nil => exact ⟨(List.append_nil _).symm, rfl⟩
  | cons sect sects ih =>
    obtain ⟨hsect, hsects⟩ := List.forall_mem_cons.mp hsects
    rw [List.zipIdx_cons, List.foldl_cons, ← List.zipIdx_cons]
    by_cases hother : sect.shdr.type = .other
    · rw [sectBlocks_other hother] at hwrap hj ⊢
      rw [placeSect_other elf a progPhys nobitsPhys hother, placedSects_other hother]
      exact ih hsects hwrap hprog hnobits hj
    · rw [sectBlocks_placed hother] at hwrap hj ⊢
      obtain ⟨hfits, hrest⟩ := hwrap
      have hstep := placeSect_step (i := i) elf a progPhys nobitsPhys hsect hother hfits hprog
        hnobits
      generalize placeSect elf a progPhys nobitsPhys p (sect, i) = q at hstep ⊢
      have hsum : p.j + (sect.block :: sectBlocks (sects.zipIdx (i + 1))).length =
          p.j + 1 + (sectBlocks (sects.zipIdx (i + 1))).length := by
        rw [List.length_cons]
        omega
      rw [hsum] at hj ⊢
      have hcount : q.j = p.j + 1 := hstep.j.trans (u32_of_lt (by omega))
      obtain ⟨hstores, hlen⟩ := ih hsects hrest hstep.prog hstep.nobits (hcount ▸ hj)
      rw [hstores, hlen, hstep.stores, hcount, placedSects_cons hother, layout,
        List.zipWith_cons_cons, List.zipIdx_cons, List.append_assoc]
      exact ⟨rfl, rfl⟩

end Second

/-- The sizes and the gaps before them. -/
theorem roomFor_sectBlocks (hsects : ∀ sect ∈ sects, sect.Placeable) (k : SectionType) :
    roomFor k (sectBlocks (sects.zipIdx i)) ≤
      (sects.map Elf32Shdr.size).sum + 127 * sects.length := by
  induction sects generalizing i with
  | nil => exact Nat.zero_le _
  | cons sect sects ih =>
    obtain ⟨hsect, hsects⟩ := List.forall_mem_cons.mp hsects
    have hrest := ih (i := i + 1) hsects
    have hmax := hsect.max
    have halign : sect.block.2.align = max sect.addralign 1 := rfl
    have hsize : sect.block.2.size = sect.size := rfl
    rw [List.map_cons, List.sum_cons, List.length_cons]
    by_cases hother : sect.shdr.type = .other
    · rw [sectBlocks_other hother]
      omega
    · rw [sectBlocks_placed hother, roomFor_cons]
      split <;> omega

end Loops

/-! ## The passes agree -/

/-- `offs` are the offsets of the placed sections: there are as many entries
as were counted, with one more behind the last, in the order of the sections;
each section is aligned, within its area, and behind the earlier ones of its
kind. -/
structure PlacingAgrees (sects : List Elf32Shdr) (z : Sizing) (progPhys nobitsPhys : Nat)
    (stores : List (Reloc × Nat)) (offs : List Nat) : Prop where
  entries : stores = (List.zipWith (z.areas.reloc progPhys nobitsPhys)
    (placedSects sects.zipIdx) offs ++ [lastReloc]).zipIdx
  all : offs.length = (placedSects sects.zipIdx).length
  count : stores.length = z.nRelocs + 1
  aligned : ∀ p ∈ (placedSects sects.zipIdx).zip offs, p.1.1.addralign ≠ 0 →
    (z.areas.reloc progPhys nobitsPhys p.1 p.2).addrVirt % p.1.1.addralign = 0
  inside : ∀ p ∈ (placedSects sects.zipIdx).zip offs,
    p.2 + p.1.1.size ≤ z.areas.size p.1.1.shdr.type
  apart : ((placedSects sects.zipIdx).zip offs).Pairwise fun p q =>
    p.1.1.shdr.type = q.1.1.shdr.type → p.2 + p.1.1.size ≤ q.2
  small : ∀ k, z.areas.size k < 4294967296

/-- **The two passes agree**: for every table of sections that can be placed,
whatever the two areas' physical addresses. -/
theorem module_passes_agree {sects : List Elf32Shdr} {baseaddr : Nat}
    (hlen : sects.length ≤ 65535) (hsects : ∀ sect ∈ sects, sect.Placeable)
    (hsizes : (sects.map Elf32Shdr.size).sum < 2147483648) (hbase : baseaddr % 0x1000 = 0) :
    ∃ z, sizeSections sects baseaddr = some z ∧ z.areas.progBase = baseaddr ∧
      ∀ elf progPhys nobitsPhys bytes, ∃ offs, PlacingAgrees sects z progPhys nobitsPhys
        (placeSections elf z.areas progPhys nobitsPhys sects bytes).stores offs := by
  have hbound := fun k => roomFor_sectBlocks (i := 0) hsects k
  have hroom : ∀ k, 0 + roomFor k (sectBlocks sects.zipIdx) < 4294967296 := fun k => by
    have := hbound k
    omega
  have hwrap : NoWrap (fun _ => 0) (sectBlocks sects.zipIdx) := noWrap_of_room hroom
  have hcount : (sectBlocks sects.zipIdx).length ≤ sects.length := by
    rw [sectBlocks, List.length_map]
    exact Nat.le_trans (List.length_filter_le _ _) (Nat.le_of_eq List.length_zipIdx)
  have hfew : 0 + (sectBlocks sects.zipIdx).length < 4294967296 := by omega
  obtain ⟨nb, hsizing⟩ := sizing_layout 0 (show baseaddr % 128 = 0 by omega) hsects
    hwrap hfew
  refine ⟨_, by rw [sizeSections, hsizing]; rfl, rfl, fun elf progPhys nobitsPhys bytes => ?_⟩
  dsimp only
  generalize hareas : Areas.mk baseaddr _ _ _ = a
  have hsize : ∀ k, k ≠ .other →
      a.size k = layoutEnd (fun _ => 0) (sectBlocks sects.zipIdx) k := by
    intro k hk
    rw [← hareas]
    cases k with
    | progbits => rfl
    | nobits => rfl
    | other => exact absurd rfl hk
  have hmod : ∀ k, 128 ∣ a.base k := by
    intro k
    have hnobits := pageMask_aligned (u32 (baseaddr + 0x1000))
    rw [← hareas]
    cases k <;> simp only [Areas.base] <;> omega
  obtain ⟨hstores, hj⟩ := placing_layout elf a progPhys nobitsPhys (p := ⟨0, 0, 0, [], bytes⟩)
    hsects hwrap rfl rfl hfew
  have hlength := length_layout (fun _ => 0) (sectBlocks sects.zipIdx)
  have hordered := layout_ordered (fun _ => 0) (sectBlocks sects.zipIdx)
  have hinside : ∀ {kb off}, (kb, off) ∈ (sectBlocks sects.zipIdx).zip
      (layout (fun _ => 0) (sectBlocks sects.zipIdx)) → _ := fun hmem => layout_inside hmem
  generalize layout (fun _ => 0) (sectBlocks sects.zipIdx) = offs at *
  have hzip : (sectBlocks sects.zipIdx).zip offs =
      ((placedSects sects.zipIdx).zip offs).map (Prod.map (fun sect => sect.1.block) id) :=
    List.zip_map_left
  have hall : offs.length = (placedSects sects.zipIdx).length := by
    rw [hlength, sectBlocks, List.length_map]
  -- what is known of a placed section
  have hplaced : ∀ p ∈ (placedSects sects.zipIdx).zip offs,
      p.1.1.shdr.type ≠ .other ∧ p.1.1.Placeable ∧
        (p.1.1.block, p.2) ∈ (sectBlocks sects.zipIdx).zip offs := by
    intro p hp
    obtain ⟨hmem, hother⟩ := List.mem_filter.mp (List.of_mem_zip hp).1
    refine ⟨of_decide_eq_true hother, hsects _ (List.fst_mem_of_mem_zipIdx hmem), ?_⟩
    rw [hzip]
    exact List.mem_map_of_mem hp
  have hentries : (placeSections elf a progPhys nobitsPhys sects bytes).stores =
      (List.zipWith (a.reloc progPhys nobitsPhys) (placedSects sects.zipIdx) offs ++
        [lastReloc]).zipIdx := by
    have hlast : offs.length = (sectBlocks sects.zipIdx).length := hlength
    rw [placeSections, hstores, hj, List.zipIdx_append, List.nil_append, List.length_zipWith,
      ← hall, Nat.min_self, hlast, Nat.zero_add]
    rfl
  refine ⟨offs, hentries, hall, ?_, ?_, ?_, ?_, ?_⟩
  · rw [hentries, List.length_zipIdx, List.length_append, List.length_zipWith, ← hall,
      Nat.min_self, hlength, Nat.zero_add]
    rfl
  · intro p hp halign
    obtain ⟨-, hplace, hmem⟩ := hplaced p hp
    obtain ⟨k, hk, hpow, -⟩ := hplace.pow
    have hoff := (hinside hmem).1
    have hsame : p.1.1.block.2.align = p.1.1.addralign :=
      Nat.max_eq_left (Nat.pos_of_ne_zero halign)
    rw [hsame] at hpow hoff
    have h128 : 2 ^ k ∣ 2 ^ 7 := Nat.pow_dvd_pow 2 hk
    rw [hpow] at hoff ⊢
    refine Nat.mod_eq_zero_of_dvd ((Nat.dvd_mod_iff (Nat.dvd_trans h128 ?_)).mpr
      (Nat.dvd_add (Nat.dvd_trans h128 (hmod _)) (Nat.dvd_of_mod_eq_zero hoff)))
    exact ⟨33554432, rfl⟩
  · intro p hp
    obtain ⟨hother, -, hmem⟩ := hplaced p hp
    rw [hsize _ hother]
    exact (hinside hmem).2.2
  · rw [hzip, List.pairwise_map] at hordered
    exact hordered
  · have hsmall : ∀ k, k ≠ .other → a.size k < 4294967296 := by
      intro k hk
      have hle := layoutEnd_le (fun _ => 0) (sectBlocks sects.zipIdx) k
      have hk' := hroom k
      rw [hsize k hk]
      omega
    intro k
    cases k with
    | progbits => exact hsmall .progbits (by decide)
    | nobits => exact hsmall .nobits (by decide)
    | other => exact hsmall .nobits (by decide)

/-- Code, a table that is not placed, data without alignment, and constants. -/
def fourSects : List Elf32Shdr :=
  [⟨0, shtProgbits, 0, 0x34, 0x65, 0, 0, 0x10, 0⟩, ⟨0, shtRel, 0, 0x9C, 0x10, 1, 0, 4, 8⟩,
    ⟨0, shtNobits, 0, 0xAC, 7, 0, 0, 0, 0⟩, ⟨0, shtProgbits, 0, 0xAC, 0x20, 0, 0, 0x80, 0⟩]

theorem fourSects_placeable : ∀ sect ∈ fourSects, sect.Placeable := by
  simp only [fourSects, List.forall_mem_cons]
  exact ⟨⟨rfl, by decide, .inr ⟨4, rfl⟩⟩, ⟨rfl, by decide, .inr ⟨2, rfl⟩⟩,
    ⟨rfl, by decide, .inl rfl⟩, ⟨rfl, by decide, .inr ⟨7, rfl⟩⟩, nofun⟩

theorem module_passes_agree_four :
    ∃ z, sizeSections fourSects 0xD0000000 = some z ∧ z.areas.progBase = 0xD0000000 ∧
      ∀ elf progPhys nobitsPhys bytes, ∃ offs, PlacingAgrees fourSects z progPhys nobitsPhys
        (placeSections elf z.areas progPhys nobitsPhys fourSects bytes).stores offs :=
  module_passes_agree (by decide) fourSects_placeable (by decide) rfl

example : (placeSections [] ⟨0xD0000000, 0xA0, 0xD0001000, 7⟩ 0x403000 0x404000 fourSects
    fun _ => 0).stores =
    [(⟨0, 0xD0000000, 0x403000, 0x65⟩, 0), (⟨2, 0xD0001000, 0x404000, 7⟩, 1),
      (⟨3, 0xD0000080, 0x403080, 0x20⟩, 2), (lastReloc, 3)] := by decide

end LambdaOs
