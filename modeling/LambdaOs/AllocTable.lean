import Mathlib.Data.List.Basic
import LambdaOs.Alloc
import LambdaOs.Run

/-!
# The allocation table as a set of blocks

What the table operations do, one lemma each, in terms of the entry at a
position (`Table.ent`), so that the invariants of `AllocRun` never open a
scanning loop.
-/

namespace LambdaOs

namespace Table

/-! ## Positions -/

theorem ent_upd_self (t : Table) (p : Nat × Nat) (f : Alcent → Alcent) :
    (t.upd p f).ent p = (t.ent p).map f := by
  unfold ent upd
  rw [List.getElem?_modify_eq]
  cases t[p.1]? with
  | none => rfl
  | some blk => simp

/-- A write only looks at the entry that is there. -/
theorem upd_congr {t : Table} {p : Nat × Nat} {e : Alcent} {f g : Alcent → Alcent}
    (he : t.ent p = some e) (h : f e = g e) : t.upd p f = t.upd p g := by
  obtain ⟨blk, hblk, he⟩ := Option.bind_eq_some_iff.mp he
  have hinner : blk.modify p.2 f = blk.modify p.2 g := by
    refine List.ext_getElem? ?_
    intro i
    rw [List.getElem?_modify, List.getElem?_modify]
    by_cases hi : p.2 = i
    · simp [← hi, he, h]
    · simp [hi]
  refine List.ext_getElem? ?_
  intro j
  unfold upd
  rw [List.getElem?_modify, List.getElem?_modify]
  by_cases hj : p.1 = j
  · simp [← hj, hblk, hinner]
  · simp [hj]

theorem ent_upd_ne (t : Table) {p q : Nat × Nat} (f : Alcent → Alcent) (h : q ≠ p) :
    (t.upd p f).ent q = t.ent q := by
  unfold ent upd
  by_cases h1 : p.1 = q.1
  · have h2 : p.2 ≠ q.2 := fun h2 => h (Prod.ext h1.symm h2.symm)
    rw [h1, List.getElem?_modify_eq]
    cases t[q.1]? with
    | none => rfl
    | some blk => simp [h2]
  · rw [List.getElem?_modify_ne _ _ h1]

/-- Writes at different positions commute. -/
theorem ent_upd_comm (t : Table) {p q : Nat × Nat} (f g : Alcent → Alcent) (h : p ≠ q)
    (r : Nat × Nat) : ((t.upd q g).upd p f).ent r = ((t.upd p f).upd q g).ent r := by
  by_cases hrp : r = p
  · subst hrp
    rw [ent_upd_self, ent_upd_ne t g h, ent_upd_ne _ g h, ent_upd_self]
  · rw [ent_upd_ne _ f hrp]
    by_cases hrq : r = q
    · subst hrq
      rw [ent_upd_self, ent_upd_self, ent_upd_ne t f hrp]
    · rw [ent_upd_ne t g hrq, ent_upd_ne _ g hrq, ent_upd_ne t f hrp]

theorem ent_append_left {t : Table} {p : Nat × Nat} (h : p.1 < t.length) (blk : List Alcent) :
    ent (t ++ [blk]) p = t.ent p := by
  unfold ent
  rw [List.getElem?_append_left h]

theorem ent_append_right {t : Table} {p : Nat × Nat} (h : t.length ≤ p.1) {blk : List Alcent}
    {e : Alcent} (he : ent (t ++ [blk]) p = some e) : p.1 = t.length ∧ blk[p.2]? = some e := by
  obtain ⟨b, hb, hent⟩ := Option.bind_eq_some_iff.mp he
  rw [List.getElem?_append_right h] at hb
  have hlt := (List.getElem?_eq_some_iff.mp hb).1
  rw [List.length_singleton] at hlt
  rw [← List.mem_singleton.mp (List.mem_of_getElem? hb)]
  exact ⟨by omega, hent⟩

/-- Entries of a table with one more block. -/
theorem ent_append_block {t : Table} {blk : List Alcent} {p : Nat × Nat} {e : Alcent}
    (h : ent (t ++ [blk]) p = some e) : t.ent p = some e ∨ e ∈ blk := by
  by_cases hlt : p.1 < t.length
  · rw [ent_append_left hlt] at h
    exact Or.inl h
  · exact Or.inr (List.mem_of_getElem? (ent_append_right (Nat.le_of_not_lt hlt) h).2)

theorem ent_append_of_ent {t : Table} {p : Nat × Nat} {e : Alcent} (h : t.ent p = some e)
    (blk : List Alcent) : ent (t ++ [blk]) p = some e := by
  obtain ⟨b, hb, -⟩ := Option.bind_eq_some_iff.mp h
  rw [ent_append_left (List.getElem?_eq_some_iff.mp hb).1]
  exact h

theorem get_eq {t : Table} {p : Nat × Nat} {e : Alcent} (h : t.ent p = some e) :
    t.get p = e := by
  simp [get, h]

/-- A used entry is not a free one. -/
theorem used_ne_free {t : Table} {p q : Nat × Nat} {u f : Alcent} (hu : t.ent p = some u)
    (huu : u.used = true) (hf : t.ent q = some f) (hfu : f.used = false) : p ≠ q := by
  rintro rfl
  rw [hu] at hf
  obtain rfl := Option.some.inj hf
  rw [huu] at hfu
  cases hfu

theorem mem_scan {t : Table} {p : Nat × Nat} {e : Alcent} :
    (p, e) ∈ t.scan ↔ t.ent p = some e := by
  obtain ⟨j, i⟩ := p
  simp only [scan, ent, List.mem_flatMap, List.mem_map, Prod.exists, Prod.mk.injEq,
    Option.bind_eq_some_iff]
  constructor
  · rintro ⟨blk, j', hblk, e', i', he, ⟨rfl, rfl⟩, rfl⟩
    exact ⟨blk, List.mem_zipIdx_iff_getElem?.mp hblk, List.mem_zipIdx_iff_getElem?.mp he⟩
  · rintro ⟨blk, hblk, he⟩
    exact ⟨blk, j, List.mem_zipIdx_iff_getElem?.mpr hblk, e, i,
      List.mem_zipIdx_iff_getElem?.mpr he, ⟨rfl, rfl⟩, rfl⟩

/-- The shape of the table: at most `ALLOC_BLOCKS` blocks of `ALLOC_BLOCK`
entries. -/
structure Shape (t : Table) : Prop where
  blocks : t.length ≤ allocBlocks
  slots : ∀ blk ∈ t, blk.length = allocBlock

/-- A write keeps the lengths of the blocks. -/
theorem slots_upd {t : Table} {n : Nat} (h : ∀ blk ∈ t, blk.length = n) (p : Nat × Nat)
    (f : Alcent → Alcent) : ∀ blk ∈ t.upd p f, blk.length = n := by
  intro blk hblk
  obtain ⟨j, hj⟩ := List.mem_iff_getElem?.mp hblk
  by_cases hjp : p.1 = j
  · rw [Table.upd, hjp, List.getElem?_modify_eq] at hj
    obtain ⟨b, hb, rfl⟩ := Option.map_eq_some_iff.mp hj
    rw [List.length_modify]
    exact h b (List.mem_of_getElem? hb)
  · rw [Table.upd, List.getElem?_modify_ne _ _ hjp] at hj
    exact h blk (List.mem_of_getElem? hj)

theorem Shape.upd {t : Table} (h : t.Shape) (p : Nat × Nat) (f : Alcent → Alcent) :
    (t.upd p f).Shape :=
  ⟨by simpa [Table.upd] using h.blocks, slots_upd h.slots p f⟩

theorem Shape.lt {t : Table} (h : t.Shape) {p : Nat × Nat} {e : Alcent}
    (he : t.ent p = some e) : p.1 < allocBlocks ∧ p.2 < allocBlock := by
  obtain ⟨blk, hblk, he⟩ := Option.bind_eq_some_iff.mp he
  have h1 := (List.getElem?_eq_some_iff.mp hblk).1
  have h2 := (List.getElem?_eq_some_iff.mp he).1
  rw [h.slots blk (List.mem_of_getElem? hblk)] at h2
  exact ⟨Nat.lt_of_lt_of_le h1 h.blocks, h2⟩

end Table

/-! ## Packed indices -/

theorem packIdx_eq {p : Nat × Nat} (h : p.2 < allocBlock) :
    packIdx p = p.1 * 65536 + p.2 := by
  have h2 : p.2 < 2 ^ 16 := Nat.lt_trans h (by decide)
  have hm : p.2 % 65536 = p.2 := Nat.mod_eq_of_lt h2
  rw [packIdx, hm, Nat.or_comm, Nat.shiftLeft_eq, Nat.mul_comm,
    ← Nat.two_pow_add_eq_or_of_lt h2]

theorem unpackIdx_packIdx {p : Nat × Nat} (h : p.2 < allocBlock) :
    unpackIdx (packIdx p) = p := by
  have h2 : p.2 < 65536 := Nat.lt_trans h (by decide)
  have hmask : ∀ n : Nat, n &&& 0xFFFF = n % 65536 := fun n => Nat.and_two_pow_sub_one_eq_mod n 16
  rw [unpackIdx, packIdx_eq h, hmask, Nat.shiftRight_eq_div_pow]
  exact Prod.ext (by simp; omega) (by simp; omega)

/-! ## The scanning loops -/

/-- `add_alloc` overwrites an invalid entry. -/
theorem addAlloc_eq_ok {t t' : Table} {al : Alcent} (h : addAlloc t al = .ok t') :
    ∃ p e, t.ent p = some e ∧ e.valid = false ∧ t' = t.upd p fun _ => al := by
  unfold addAlloc at h
  split at h
  · rename_i p e hfind
    have hmem := Table.mem_scan.mp (List.mem_of_find?_eq_some hfind)
    have hval := List.find?_some hfind
    refine ⟨p, e, hmem, by simpa using hval, ?_⟩
    simpa using h.symm
  · cases h

/-- What one round of `_find_hole` accepts. -/
def Hole (t : Table) (sz align : Nat) (p : Nat × Nat) (e : Alcent) : Prop :=
  t.ent p = some e ∧ e.valid = true ∧ e.used = false
    ∧ u32 (sz + holeOff e.addr align) ≤ e.size

/-- A scan that keeps its best index, or takes that of the entry it is at, ends
with nothing or with an entry that it took. -/
theorem foldl_best {f : Nat × Nat → (Nat × Nat) × Alcent → Nat × Nat}
    {P : Nat × Nat → Alcent → Prop}
    (hf : ∀ best pe, f best pe = best ∨ (f best pe).1 = packIdx pe.1 ∧ P pe.1 pe.2)
    (l : List ((Nat × Nat) × Alcent)) (best : Nat × Nat) :
    (l.foldl f best).1 = best.1 ∨
      ∃ pe ∈ l, (l.foldl f best).1 = packIdx pe.1 ∧ P pe.1 pe.2 := by
  induction l generalizing best with
  | nil => exact Or.inl rfl
  | cons pe l ih =>
      rw [List.foldl_cons]
      rcases ih (f best pe) with hsame | ⟨qe, hqe, hq⟩
      · rw [hsame]
        rcases hf best pe with h | h
        · exact Or.inl (by rw [h])
        · exact Or.inr ⟨pe, List.mem_cons_self, h⟩
      · exact Or.inr ⟨qe, List.mem_cons_of_mem _ hqe, hq⟩

theorem findHoleStep_cases (sz align : Nat) (best : Nat × Nat) (pe : (Nat × Nat) × Alcent) :
    findHoleStep sz align best pe = best ∨
      (findHoleStep sz align best pe).1 = packIdx pe.1 ∧ pe.2.valid = true ∧ pe.2.used = false ∧
        u32 (sz + holeOff pe.2.addr align) ≤ pe.2.size := by
  unfold findHoleStep
  split
  · rename_i hfree
    split
    · rename_i hfit
      simp only [Bool.and_eq_true, Bool.not_eq_true'] at hfree
      exact Or.inr ⟨rfl, hfree.1, hfree.2, hfit.1⟩
    · exact Or.inl rfl
  · exact Or.inl rfl

/-- A hole that `_find_hole` returns is a free entry it accepted. -/
theorem findHole_spec {t : Table} (hs : t.Shape) {sz align : Nat}
    (h : findHole t sz align ≠ noHole) :
    ∃ e, Hole t sz align (unpackIdx (findHole t sz align)) e := by
  rcases @foldl_best (findHoleStep sz align) (fun _ e => e.valid = true ∧ e.used = false ∧
    u32 (sz + holeOff e.addr align) ≤ e.size) (findHoleStep_cases sz align) t.scan
    (noHole, 0xFFFFFFFF) with hnone | ⟨⟨p, e⟩, hpe, heq, hfree⟩
  · exact absurd hnone h
  · have he := Table.mem_scan.mp hpe
    refine ⟨e, ?_⟩
    rw [findHole, heq, unpackIdx_packIdx (hs.lt he).2]
    exact ⟨he, hfree⟩

/-! ## Dividing a hole -/

/-- The ways `carve` divides the hole `e` at `p`, with the block it returns. -/
inductive Carved (t : Table) (p : Nat × Nat) (e : Alcent) (sz align : Nat) :
    Nat → Table → Prop
  | whole (hsize : e.size = sz) :
      Carved t p e sz align e.addr (t.upd p fun e => { e with used := true })
  | front {t' : Table} (hsize : e.size ≠ sz) (haligned : e.addr % align = 0)
      (hblock : addAlloc (t.upd p fun e =>
        { e with size := e.size - sz, addr := u32 (e.addr + sz) }) ⟨true, true, e.addr, sz⟩ =
          .ok t') :
      Carved t p e sz align e.addr t'
  | middle {t₁ t' : Table} (hsize : e.size ≠ sz) (hskip : e.addr % align ≠ 0)
      (htail : u32 (sz + (align - e.addr % align)) < e.size)
      (hrest : addAlloc t ⟨true, false, u32 (e.addr + u32 (sz + (align - e.addr % align))),
        e.size - u32 (sz + (align - e.addr % align))⟩ = .ok t₁)
      (hblock : addAlloc (t₁.upd p fun h => { h with size := align - e.addr % align })
        ⟨true, true, u32 (e.addr + (align - e.addr % align)), sz⟩ = .ok t') :
      Carved t p e sz align (u32 (e.addr + (align - e.addr % align))) t'
  | back {t' : Table} (hsize : e.size ≠ sz) (hskip : e.addr % align ≠ 0)
      (hend : e.size ≤ u32 (sz + (align - e.addr % align)))
      (hblock : addAlloc (t.upd p fun h => { h with size := align - e.addr % align })
        ⟨true, true, u32 (e.addr + (align - e.addr % align)), sz⟩ = .ok t') :
      Carved t p e sz align (u32 (e.addr + (align - e.addr % align))) t'

theorem carve_eq_ok {t t' : Table} {p : Nat × Nat} {e : Alcent} {sz align r : Nat}
    (he : t.ent p = some e) (hc : carve t p sz align = .ok (r, t')) :
    Carved t p e sz align r t' := by
  simp only [carve, Table.get_eq he] at hc
  split at hc
  · obtain ⟨rfl, rfl⟩ := Prod.mk.inj (Except.ok.inj hc)
    exact .whole ‹_›
  · rename_i hsize
    split at hc
    · rename_i hskip
      split at hc
      · rename_i htail
        obtain ⟨t₁, hrest, hc⟩ := Except.bind_eq_ok_iff.mp hc
        obtain ⟨t₂, hblock, hret⟩ := Except.bind_eq_ok_iff.mp hc
        obtain ⟨rfl, rfl⟩ := Prod.mk.inj (Except.ok.inj hret)
        exact .middle hsize hskip htail hrest hblock
      · rename_i hend
        obtain ⟨t₁, hmid, hc⟩ := Except.bind_eq_ok_iff.mp hc
        obtain ⟨t₂, hblock, hret⟩ := Except.bind_eq_ok_iff.mp hc
        obtain ⟨rfl, rfl⟩ := Prod.mk.inj (Except.ok.inj hret)
        obtain rfl := Except.ok.inj hmid
        exact .back hsize hskip (Nat.le_of_not_lt hend) hblock
    · rename_i haligned
      obtain ⟨t₁, hblock, hret⟩ := Except.bind_eq_ok_iff.mp hc
      obtain ⟨rfl, rfl⟩ := Prod.mk.inj (Except.ok.inj hret)
      exact .front hsize (not_not.mp haligned) hblock

/-! ## Growing the table -/

@[simp] theorem Table.length_upd (t : Table) (p : Nat × Nat) (f : Alcent → Alcent) :
    (t.upd p f).length = t.length :=
  List.length_modify ..

theorem addAlloc_length {t t' : Table} {al : Alcent} (hadd : addAlloc t al = .ok t') :
    t'.length = t.length := by
  obtain ⟨p, e, -, -, rfl⟩ := addAlloc_eq_ok hadd
  exact Table.length_upd ..

theorem addAlloc_shape {t t' : Table} {al : Alcent} (h : t.Shape) (hadd : addAlloc t al = .ok t') :
    t'.Shape := by
  obtain ⟨p, e, -, -, rfl⟩ := addAlloc_eq_ok hadd
  exact h.upd p _

theorem carve_shape {t t' : Table} (hs : t.Shape) {p : Nat × Nat} {e : Alcent}
    (he : t.ent p = some e) {sz align r : Nat} (hc : carve t p sz align = .ok (r, t')) :
    t'.Shape := by
  cases carve_eq_ok he hc with
  | whole hsize => exact hs.upd p _
  | front hsize haligned hblock => exact addAlloc_shape (hs.upd p _) hblock
  | middle hsize hskip htail hrest hblock =>
    exact addAlloc_shape ((addAlloc_shape hs hrest).upd p _) hblock
  | back hsize hskip hend hblock => exact addAlloc_shape (hs.upd p _) hblock

theorem kfree_shape {t t' : Table} (hs : t.Shape) {ptr : Nat} (hf : kfree t ptr = .ok t') :
    t'.Shape := by
  unfold kfree at hf
  split at hf
  · obtain rfl := Except.ok.inj hf
    unfold rmAlloc
    simp only
    split
    · exact (hs.upd _ _).upd _ _
    · exact hs.upd _ _
  · cases hf

/-- The entries that a bookkeeping block starts with. -/
def newBlock (mem : BlockMem) (addr : Nat) : List Alcent := (List.range allocBlock).map (mem addr)

theorem addBlock_eq_ok {mem : BlockMem} {t t' : Table} {addr : Nat}
    (hadd : addBlock mem t addr = .ok t') :
    t.length < allocBlocks ∧ t' = t ++ [newBlock mem addr] := by
  unfold addBlock at hadd
  split at hadd
  · exact ⟨‹_›, (Except.ok.inj hadd).symm⟩
  · cases hadd

theorem Table.Shape.append_block {t : Table} (h : t.Shape) (hroom : t.length < allocBlocks)
    (mem : BlockMem) (addr : Nat) : Table.Shape (t ++ [newBlock mem addr]) := by
  refine ⟨?_, ?_⟩
  · rw [List.length_append]
    exact hroom
  · intro blk hblk
    rcases List.mem_append.mp hblk with hblk | hblk
    · exact h.slots blk hblk
    · rw [List.mem_singleton.mp hblk, newBlock, List.length_map, List.length_range]

/-- The ways `_alloc_new_block` takes a bookkeeping block from the hole `e` at
`p`. -/
inductive NewBlock (mem : BlockMem) (t : Table) (p : Nat × Nat) (e : Alcent) : Table → Prop
  | whole (hsize : e.size = allocBlockSize) (hroom : t.length < allocBlocks) :
      NewBlock mem t p e ((t.upd p fun e => { e with used := true }) ++ [newBlock mem e.addr])
  | front {t₁ : Table} (hsize : e.size ≠ allocBlockSize)
      (hblock : addAlloc (t.upd p fun e =>
        { e with size := e.size - allocBlockSize, addr := u32 (e.addr + allocBlockSize) })
        ⟨true, true, e.addr, allocBlockSize⟩ = .ok t₁) (hroom : t.length < allocBlocks) :
      NewBlock mem t p e (t₁ ++ [newBlock mem e.addr])

theorem allocNewBlock_eq_ok {mem : BlockMem} {t t' : Table} (hs : t.Shape)
    (hnew : allocNewBlock mem t = .ok t') :
    ∃ e, Hole t allocBlockSize 1 (unpackIdx (findHole t allocBlockSize 1)) e ∧
      NewBlock mem t (unpackIdx (findHole t allocBlockSize 1)) e t' := by
  simp only [allocNewBlock] at hnew
  split at hnew
  · cases hnew
  · rename_i hfound
    obtain ⟨e, hhole⟩ := findHole_spec hs hfound
    refine ⟨e, hhole, ?_⟩
    rw [Table.get_eq hhole.1] at hnew
    split at hnew
    · obtain ⟨hroom, rfl⟩ := addBlock_eq_ok hnew
      rw [Table.length_upd] at hroom
      exact .whole ‹_› hroom
    · obtain ⟨t₁, hblock, hnew⟩ := Except.bind_eq_ok_iff.mp hnew
      obtain ⟨hroom, rfl⟩ := addBlock_eq_ok hnew
      rw [addAlloc_length hblock, Table.length_upd] at hroom
      exact .front ‹_› hblock hroom

theorem allocNewBlock_shape {mem : BlockMem} {t t' : Table} (hs : t.Shape)
    (hnew : allocNewBlock mem t = .ok t') : t'.Shape := by
  obtain ⟨e, -, hgrown⟩ := allocNewBlock_eq_ok hs hnew
  cases hgrown with
  | whole hsize hroom =>
    exact (hs.upd _ _).append_block (by rwa [Table.length_upd]) mem e.addr
  | front hsize hblock hroom =>
    exact (addAlloc_shape (hs.upd _ _) hblock).append_block
      (by rwa [addAlloc_length hblock, Table.length_upd]) mem e.addr

theorem growTable_eq_ok {mem : BlockMem} {t t' : Table} {idx : Nat}
    (hgrow : growTable mem t idx = .ok t') :
    (emptySlots t (idx >>> 16) = 4 ∧ allocNewBlock mem t = .ok t') ∨
      (emptySlots t (idx >>> 16) ≠ 4 ∧ t' = t) := by
  unfold growTable at hgrow
  split at hgrow
  · exact Or.inl ⟨‹_›, hgrow⟩
  · exact Or.inr ⟨‹_›, (Except.ok.inj hgrow).symm⟩

theorem growTable_shape {mem : BlockMem} {t t' : Table} (hs : t.Shape) {idx : Nat}
    (hgrow : growTable mem t idx = .ok t') : t'.Shape := by
  rcases growTable_eq_ok hgrow with ⟨-, hnew⟩ | ⟨-, rfl⟩
  · exact allocNewBlock_shape hs hnew
  · exact hs

/-- What a call of `kamalloc` does, if it does not panic: it returns `NULL`, or
what `carve` makes of a hole of the table, which may have grown. -/
theorem kamalloc_eq_ok {mem : BlockMem} {t t' : Table} (hs : t.Shape) {sz align r : Nat}
    (hc : kamalloc mem t sz align = .ok (r, t')) :
    (r = 0 ∧ t' = t) ∨ (sz ≠ 0 ∧ align ≠ 0 ∧ findHole t sz align ≠ noHole ∧
      ∃ t₁, growTable mem t (findHole t sz align) = .ok t₁ ∧ ((r = 0 ∧ t' = t₁) ∨
        ∃ e, Hole t₁ sz align (unpackIdx (findHole t₁ sz align)) e ∧
          carve t₁ (unpackIdx (findHole t₁ sz align)) sz align = .ok (r, t'))) := by
  unfold kamalloc at hc
  split at hc
  · obtain ⟨rfl, rfl⟩ := Prod.mk.inj (Except.ok.inj hc)
    exact Or.inl ⟨rfl, rfl⟩
  · rename_i hargs
    rw [not_or] at hargs
    split at hc
    · obtain ⟨rfl, rfl⟩ := Prod.mk.inj (Except.ok.inj hc)
      exact Or.inl ⟨rfl, rfl⟩
    · rename_i hfound
      obtain ⟨t₁, hgrow, hc⟩ := Except.bind_eq_ok_iff.mp hc
      refine Or.inr ⟨hargs.2, hargs.1, hfound, t₁, hgrow, ?_⟩
      split at hc
      · obtain ⟨rfl, rfl⟩ := Prod.mk.inj (Except.ok.inj hc)
        exact Or.inl ⟨rfl, rfl⟩
      · rename_i hfound₁
        obtain ⟨e, hhole⟩ := findHole_spec (growTable_shape hs hgrow) hfound₁
        exact Or.inr ⟨e, hhole, hc⟩

end LambdaOs
