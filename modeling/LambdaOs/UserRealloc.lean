import LambdaOs.UserAlloc

/-!
# The bytes of a reallocated block

`realloc` of `user/lib/src/stdlib/alloc.c` with the memory it copies in. The
new block is taken from the table that still records the old one, so the copy
is one between disjoint blocks. Nothing looks at whether there is a new block:
without one the bytes are copied to `NULL`.
-/

namespace LambdaOs

namespace UserHeap

/-- `memcpy`, from the first byte on. -/
def memcpy (dest src : Nat) : Nat → (Nat → UInt8) → Nat → UInt8
  | 0, bytes => bytes
  | n + 1, bytes => memcpy (dest + 1) (src + 1) n (Function.update bytes dest (bytes src))

/-- `realloc` with the bytes of memory; `none` is the fault of a copy to `NULL`. -/
def reallocBytes (mem : BlockMem) (t : Table) (bytes : Nat → UInt8) (ptr size : Nat) :
    Option (Nat × Table × (Nat → UInt8)) :=
  if ptr = 0 then
    if size = 0 then some (0, t, bytes)
    else
      let r := malloc mem t size
      some (r.1, r.2, bytes)
  else
    match findAddr t ptr with
    | none => some (0, t, bytes)
    | some p =>
        if size = 0 then some (0, free t ptr, bytes)
        else
          let r := malloc mem t size
          let sz := min (r.2.get p).size size
          if r.1 = 0 ∧ sz ≠ 0 then none
          else some (r.1, free r.2 ptr, memcpy r.1 ptr sz bytes)

/-- To the table it is `realloc`. -/
theorem reallocBytes_table (mem : BlockMem) (t : Table) (bytes : Nat → UInt8) (ptr size : Nat) :
    (reallocBytes mem t bytes ptr size).map (fun r => (r.1, r.2.1)) = realloc mem t ptr size := by
  unfold reallocBytes realloc
  split
  · split <;> rfl
  · cases findAddr t ptr with
    | none => rfl
    | some p =>
        simp only
        split
        · rfl
        · split <;> rfl

/-! ## What is asked of it -/

/-- A block of the heap, in its region and apart from the live blocks other than
the one at `ptr`. -/
def OwnBlock (lo hi : Nat) (t : Table) (live : List (Nat × Nat)) (ptr q n : Nat) : Prop :=
  (∃ i, t.ent i = some ⟨true, true, q, n⟩) ∧ lo ≤ q ∧ q + n ≤ hi ∧
    ∀ x ∈ live, x.1 ≠ ptr → Apart ⟨true, true, q, n⟩ ⟨true, true, x.1, x.2⟩

/-- Either a block with the data of the old one, which is freed, or `NULL` and
nothing has changed. The other live blocks are left alone. -/
def ReallocRight (lo hi : Nat) (mem : BlockMem) (t : Table) (live : List (Nat × Nat))
    (bytes : Nat → UInt8) (ptr s n : Nat) : Prop :=
  ∃ q t' bytes', reallocBytes mem t bytes ptr n = some (q, t', bytes') ∧
    (q ≠ 0 ∧ OwnBlock lo hi t' live ptr q n ∧
        (∀ i < min s n, bytes' (q + i) = bytes (ptr + i)) ∧
        (∀ i e, t'.ent i = some e → e.valid = true → e.used = true → e.addr ≠ ptr) ∧
        (∀ x ∈ live, x.1 ≠ ptr → (∃ i, t'.ent i = some ⟨true, true, x.1, x.2⟩) ∧
          ∀ a, x.1 ≤ a → a < x.1 + x.2 → bytes' a = bytes a) ∨
      q = 0 ∧ t' = t ∧ bytes' = bytes)

/-- The table in which `_alloc` looks for a hole the second time. -/
def grown (mem : BlockMem) (t : Table) (size : Nat) : Table :=
  if emptySlots t (findHole t size minAlign >>> 16) = 4 then allocNewBlock mem t else t

/-- `_find_hole` finds something both times. -/
def HoleFor (mem : BlockMem) (t : Table) (size : Nat) : Prop :=
  findHole t size minAlign ≠ noHole ∧ findHole (grown mem t size) size minAlign ≠ noHole

/-- A block of entries about to be set up reads as invalid entries. -/
def NewBlockClear (mem : BlockMem) (t : Table) (size : Nat) : Prop :=
  emptySlots t (findHole t size minAlign >>> 16) = 4 → findHole t pageSz minAlign ≠ noHole →
    t.length < allocBlocks → ∀ e ∈ newBlock mem (newBlockAddr t), e.valid = false

/-- There is a hole, the size does not wrap, and the entries split off have
slots. -/
def Served (mem : BlockMem) (t : Table) (size : Nat) : Prop :=
  HoleFor mem t size ∧ size + minAlign ≤ 18446744073709551616 ∧
    (emptySlots t (findHole t size minAlign >>> 16) ≠ 4 →
      slotsFor (t.get (unpackIdx (findHole t size minAlign))) size ≤ invalidSlots t)

theorem Served.mallocOk {mem : BlockMem} {t : Table} {size : Nat} (h : Served mem t size)
    (hclear : NewBlockClear mem t size) : MallocOk mem t size :=
  fun _ _ => ⟨h.2.1, hclear, h.2.2⟩

/-! ## The copy -/

theorem memcpy_other {dest src n : Nat} {bytes : Nat → UInt8} {a : Nat}
    (h : a < dest ∨ dest + n ≤ a) : memcpy dest src n bytes a = bytes a := by
  induction n generalizing dest src bytes with
  | zero => rfl
  | succ n ih =>
      rw [memcpy, ih (by omega), Function.update_of_ne (by omega)]

theorem memcpy_copied {dest src n : Nat} {bytes : Nat → UInt8}
    (h : dest + n ≤ src ∨ src + n ≤ dest) {i : Nat} (hi : i < n) :
    memcpy dest src n bytes (dest + i) = bytes (src + i) := by
  induction n generalizing dest src bytes i with
  | zero => omega
  | succ n ih =>
      rw [memcpy]
      cases i with
      | zero => rw [memcpy_other (by omega), Nat.add_zero, Function.update_self, Nat.add_zero]
      | succ i =>
          rw [show dest + (i + 1) = dest + 1 + i by omega,
            show src + (i + 1) = src + 1 + i by omega, ih (by omega) (by omega),
            Function.update_of_ne (by omega)]

/-! ## The table without the old block -/

section Free

variable {t : Table} {p : Nat × Nat} {u : Alcent}

/-- `_rm_alloc` takes no used entry but the one it is given. -/
theorem rmAlloc_ent (hu : t.ent p = some u) (i : Nat × Nat) {e : Alcent} (hev : e.valid = true)
    (heu : e.used = true) :
    (rmAlloc t p).ent i = some e ↔ t.ent i = some e ∧ i ≠ p := by
  unfold rmAlloc
  simp only
  cases hfind : t.scan.find? fun pe => mergeTest (t.get p).addr (u32 (t.get p).size) pe.2 with
  | none =>
      by_cases hip : i = p
      · subst hip
        rw [Table.ent_upd_self, hu]
        simp only [Option.map_some, Option.some.injEq, ne_eq, not_true_eq_false, and_false,
          iff_false]
        rintro rfl
        cases heu
      · simp [Table.ent_upd_ne _ _ hip, hip]
  | some qf =>
      obtain ⟨q, f⟩ := qf
      have hf := Table.mem_scan.mp (List.mem_of_find?_eq_some hfind)
      have hm := List.find?_some hfind
      simp only [mergeTest, Bool.and_eq_true, Bool.not_eq_true'] at hm
      obtain ⟨-, -, hfu⟩ := hm
      simp only
      by_cases hip : i = p
      · subst hip
        rw [Table.ent_upd_self]
        simp only [ne_eq, not_true_eq_false, and_false, iff_false, Option.map_eq_some_iff,
          not_exists, not_and]
        rintro g - rfl
        cases hev
      · rw [Table.ent_upd_ne _ _ hip]
        by_cases hiq : i = q
        · subst hiq
          rw [Table.ent_upd_self, hf]
          simp only [Option.map_some, Option.some.injEq]
          constructor
          · rintro rfl
            rw [hfu] at heu
            cases heu
          · rintro ⟨rfl, -⟩
            rw [hfu] at heu
            cases heu
        · simp [Table.ent_upd_ne _ _ hiq, hip]

end Free

/-! ## The table after `malloc` -/

section Malloc

variable {mem : BlockMem} {t : Table} {n : Nat} {p q : Nat × Nat} {e f al : Alcent}

theorem malloc_eq (hn : 0 < n) : malloc mem t n =
    if findHole t n minAlign = noHole then (0, t)
    else if findHole (grown mem t n) n minAlign = noHole then (0, grown mem t n)
    else carve (grown mem t n) (unpackIdx (findHole (grown mem t n) n minAlign)) n minAlign := by
  unfold malloc alloc
  rw [if_neg (by simp [minAlign]; omega), if_neg (by decide)]
  rfl

theorem addAlloc_full (h : invalidSlots t = 0) (hal : al.valid = true) : addAlloc t al = t := by
  rcases addAlloc_cases t al hal with ⟨-, herr⟩ | ⟨t', -, hone⟩
  · unfold LambdaOs.addAlloc at herr
    unfold addAlloc
    cases hfind : t.scan.find? fun pe => !pe.2.valid with
    | none => rfl
    | some pe =>
        rw [hfind] at herr
        cases herr
  · omega

theorem addAlloc_keeps_valid (al : Alcent) (hal : al.valid = true) (he : t.ent p = some e)
    (hev : e.valid = true) : (addAlloc t al).ent p = some e := by
  rcases addAlloc_cases t al hal with ⟨hfull, -⟩ | ⟨t', hadd, -⟩
  · rwa [addAlloc_full hfull hal]
  · rw [addAlloc_eq hadd]
    exact addAlloc_keeps hadd he hev

/-- A write to a free entry is not one to a used entry. -/
theorem upd_keeps_used (g : Alcent → Alcent) (hf : t.ent q = some f) (hfu : f.used = false)
    (he : t.ent p = some e) (heu : e.used = true) : (t.upd q g).ent p = some e := by
  rwa [Table.ent_upd_ne _ _ (Table.used_ne_free he heu hf hfu)]

theorem carve_keeps {sz align : Nat} (hf : t.ent q = some f) (hfv : f.valid = true)
    (hfu : f.used = false) (he : t.ent p = some e) (hev : e.valid = true) (heu : e.used = true) :
    (carve t q sz align).2.ent p = some e := by
  unfold carve
  simp only
  split
  · exact upd_keeps_used _ hf hfu he heu
  · split
    · refine addAlloc_keeps_valid _ rfl ?_ hev
      split
      · exact upd_keeps_used _ (addAlloc_keeps_valid _ rfl hf hfv) hfu
          (addAlloc_keeps_valid _ rfl he hev) heu
      · exact upd_keeps_used _ hf hfu he heu
    · exact addAlloc_keeps_valid _ rfl (upd_keeps_used _ hf hfu he heu) hev

theorem allocNewBlock_keeps (hs : SlotsOk t) (he : t.ent p = some e) (hev : e.valid = true)
    (heu : e.used = true) : (allocNewBlock mem t).ent p = some e := by
  unfold allocNewBlock
  simp only
  split
  · exact he
  · rename_i hfound
    obtain ⟨f, hf, -, hfu, -⟩ := findHole_spec hs hfound
    split
    · exact he
    · split
      · exact Table.ent_append_of_ent (upd_keeps_used _ hf hfu he heu) _
      · exact Table.ent_append_of_ent
          (addAlloc_keeps_valid _ rfl (upd_keeps_used _ hf hfu he heu) hev) _

theorem SlotsOk.allocNewBlock (hs : SlotsOk t) : SlotsOk (allocNewBlock mem t) := by
  unfold UserHeap.allocNewBlock
  simp only
  split
  · exact hs
  · split
    · exact hs
    · split
      · exact SlotsOk.append (Table.slots_upd hs _ _) _ _
      · exact SlotsOk.append (SlotsOk.addAlloc (Table.slots_upd hs _ _) _) _ _

theorem SlotsOk.grown (hs : SlotsOk t) : SlotsOk (grown mem t n) := by
  unfold UserHeap.grown
  split
  · exact hs.allocNewBlock
  · exact hs

/-- Whatever a new block of entries reads as, `malloc` leaves the used entries. -/
theorem malloc_keeps (hs : SlotsOk t) (hn : 0 < n) (he : t.ent p = some e) (hev : e.valid = true)
    (heu : e.used = true) : (malloc mem t n).2.ent p = some e := by
  have hgrown : (grown mem t n).ent p = some e := by
    unfold grown
    split
    · exact allocNewBlock_keeps hs he hev heu
    · exact he
  rw [malloc_eq hn]
  split
  · exact he
  · split
    · exact hgrown
    · rename_i hfound
      obtain ⟨f, hf, hfv, hfu, -⟩ := findHole_spec hs.grown hfound
      exact carve_keeps hf hfv hfu hgrown hev heu

/-- A free entry that is added, or dropped, leaves the used ones. -/
theorem addAlloc_free (hal : al.valid = true) (hfree : al.used = false)
    (he : (addAlloc t al).ent p = some e) (heu : e.used = true) : t.ent p = some e := by
  rcases addAlloc_cases t al hal with ⟨hfull, -⟩ | ⟨t', hadd, -⟩
  · rwa [addAlloc_full hfull hal] at he
  · rw [addAlloc_eq hadd] at he
    obtain ⟨q, f, hq, -, rfl⟩ := addAlloc_eq_ok hadd
    by_cases hpq : p = q
    · subst hpq
      rw [Table.ent_upd_self, hq] at he
      obtain rfl := Option.some.inj he
      rw [hfree] at heu
      cases heu
    · rwa [Table.ent_upd_ne _ _ hpq] at he

theorem addAlloc_slots (al : Alcent) (hal : al.valid = true) :
    invalidSlots (addAlloc t al) = invalidSlots t - 1 := by
  rcases addAlloc_cases t al hal with ⟨hfull, -⟩ | ⟨t', hadd, hone⟩
  · rw [addAlloc_full hfull hal, hfull]
  · rw [addAlloc_eq hadd]
    omega

/-- The block is part of the hole, recorded or not. -/
theorem carve_within (he : t.ent p = some e) (hle : n + holeOff e.addr minAlign ≤ e.size)
    (hhi : e.addr + e.size < 4294967296) :
    e.addr ≤ (carve t p n minAlign).1 ∧ (carve t p n minAlign).1 + n ≤ e.addr + e.size := by
  unfold carve
  simp only [Table.get_eq he]
  split
  · simp only
    omega
  · split
    · rename_i hskip
      obtain ⟨-, hoff⟩ := (holeOff_eq (by decide)).resolve_left fun h0 => hskip h0.1
      rw [hoff] at hle
      rw [u32_of_lt (by omega)]
      omega
    · simp only
      omega

/-- With too few slots the entry of the new block is dropped. -/
theorem carve_dropped (hwrap : n + minAlign < 18446744073709551616) (he : t.ent p = some e)
    (hev : e.valid = true) (heu : e.used = false) (hfew : invalidSlots t < slotsFor e n)
    {i : Nat × Nat} {u : Alcent} (hu : (carve t p n minAlign).2.ent i = some u)
    (huu : u.used = true) : t.ent i = some u := by
  -- what is written over the hole is free
  have hhole : ∀ (t₁ : Table) (g : Alcent → Alcent), t₁.ent p = some e → (g e).used = false →
      (t₁.upd p g).ent i = some u → t₁.ent i = some u := by
    intro t₁ g he₁ hg hi
    by_cases hip : i = p
    · subst hip
      rw [Table.ent_upd_self, he₁] at hi
      obtain rfl := Option.some.inj hi
      rw [hg] at huu
      cases huu
    · rwa [Table.ent_upd_ne _ _ hip] at hi
  unfold slotsFor at hfew
  unfold carve at hu
  simp only [Table.get_eq he] at hu
  by_cases hsize : e.size = n
  · rw [if_pos hsize] at hfew
    omega
  rw [if_neg hsize] at hu hfew
  by_cases haligned : e.addr % minAlign = 0
  · rw [if_neg (not_not.mpr haligned)] at hu
    rw [if_neg (fun h => h.1 haligned)] at hfew
    have hkeep := invalidSlots_upd
      (f := fun e => { e with size := e.size - n, addr := u32 (e.addr + n) }) he hev hev
    rw [addAlloc_full (by omega) rfl] at hu
    exact hhole _ _ he heu hu
  · rw [if_pos haligned] at hu
    have hcorr : u64 (n + (minAlign - e.addr % minAlign)) = n + (minAlign - e.addr % minAlign) :=
      Nat.mod_eq_of_lt (by omega)
    rw [hcorr] at hu
    by_cases htail : n + (minAlign - e.addr % minAlign) < e.size
    · rw [if_pos ⟨haligned, htail⟩] at hfew
      rw [if_pos htail] at hu
      have hslots := addAlloc_slots (t := t) ⟨true, false,
        u32 (e.addr + (n + (minAlign - e.addr % minAlign))),
        e.size - (n + (minAlign - e.addr % minAlign))⟩ rfl
      have he₁ := addAlloc_keeps_valid ⟨true, false,
        u32 (e.addr + (n + (minAlign - e.addr % minAlign))),
        e.size - (n + (minAlign - e.addr % minAlign))⟩ rfl he hev
      have hkeep := invalidSlots_upd
        (f := fun g => { g with size := minAlign - e.addr % minAlign }) he₁ hev hev
      rw [addAlloc_full (by omega) rfl] at hu
      exact addAlloc_free rfl rfl (hhole _ _ he₁ heu hu) huu
    · rw [if_neg fun h => htail h.2] at hfew
      rw [if_neg htail] at hu
      have hkeep := invalidSlots_upd
        (f := fun g => { g with size := minAlign - e.addr % minAlign }) he hev hev
      rw [addAlloc_full (by omega) rfl] at hu
      exact hhole _ _ he heu hu

/-- A `free` adds no used entry. -/
theorem free_used {ptr : Nat} (he : (free t ptr).ent p = some e) (hev : e.valid = true)
    (heu : e.used = true) : t.ent p = some e := by
  unfold free at he
  cases hfind : findAddr t ptr with
  | none => rwa [hfind] at he
  | some q =>
      rw [hfind] at he
      obtain ⟨⟨q', f⟩, hq, rfl⟩ := Option.map_eq_some_iff.mp hfind
      have hf := Table.mem_scan.mp (List.mem_of_find?_eq_some hq)
      exact ((rmAlloc_ent hf p hev heu).mp he).1

end Malloc

/-! ## One `realloc` of a live block -/

section Live

variable {lo hi : Nat} {mem : BlockMem} {t : Table} {live : List (Nat × Nat)}
  {bytes : Nat → UInt8} {ptr s n : Nat} {p : Nat × Nat}

/-- The call, for the entry `p` of the block. -/
theorem reallocBytes_live (h : HeapInv lo hi ⟨t, live⟩) (hlo : 0 < lo)
    (hp : t.ent p = some ⟨true, true, ptr, s⟩) (hn : 0 < n) :
    reallocBytes mem t bytes ptr n =
      if (malloc mem t n).1 = 0 then none
      else some ((malloc mem t n).1, free (malloc mem t n).2 ptr,
        memcpy (malloc mem t n).1 ptr (min s n) bytes) := by
  have hin := h.blocks.inside p _ hp rfl
  have hpos : 0 < s := h.blocks.used_pos hp rfl rfl
  have hkept : (malloc mem t n).2.ent p = some ⟨true, true, ptr, s⟩ :=
    malloc_keeps h.slots hn hp rfl rfl
  unfold reallocBytes
  rw [if_neg (by simp only at hin; omega), findAddr_eq h.blocks hp rfl rfl]
  simp only [Table.get_eq hkept]
  rw [if_neg (by omega)]
  have hsz : min s n ≠ 0 := by omega
  simp only [hsz, ne_eq, not_false_eq_true, and_true]

/-- **Without a block the data goes to `NULL`.** -/
theorem realloc_wrong_of_null (h : HeapInv lo hi ⟨t, live⟩) (hlo : 0 < lo)
    (hlive : (ptr, s) ∈ live) (hn : 0 < n) (hnull : (malloc mem t n).1 = 0) :
    ¬ ReallocRight lo hi mem t live bytes ptr s n := by
  obtain ⟨p, hp⟩ := h.recorded _ hlive
  rintro ⟨q, t', bytes', hcall, -⟩
  rw [reallocBytes_live h hlo hp hn, if_pos hnull] at hcall
  cases hcall

theorem malloc_null_of_no_hole (hn : 0 < n) (hhole : ¬ HoleFor mem t n) :
    (malloc mem t n).1 = 0 := by
  rw [malloc_eq hn]
  split
  · rfl
  · rename_i hfound
    split
    · rfl
    · rename_i hfound₁
      exact absurd ⟨hfound, hfound₁⟩ hhole

/-- The table in which the block is carved is sound. -/
theorem grown_blocks (h : HeapInv lo hi ⟨t, live⟩) (hhi : hi < 4294967296)
    (hfound : findHole t n minAlign ≠ noHole) (hclear : NewBlockClear mem t n) :
    BlocksOk lo hi (grown mem t n) := by
  unfold grown
  split
  · rename_i hfour
    have hfree := four_slots h.slots hfound hfour
    exact (allocNewBlock_spec h.slots h.blocks hhi (by omega) (hclear hfour)).2.1
  · exact h.blocks

/-- A call that is served returns a block of a hole. -/
theorem malloc_served (h : HeapInv lo hi ⟨t, live⟩) (hlo : 0 < lo) (hhi : hi < 4294967296)
    (hn : 0 < n) (hserved : Served mem t n) (hclear : NewBlockClear mem t n) :
    (malloc mem t n).1 ≠ 0 ∧ BlocksOk lo hi (malloc mem t n).2 ∧
      Takes t (malloc mem t n).2 ∧ Granted t (malloc mem t n).2 n minAlign (malloc mem t n).1 := by
  obtain ⟨-, hblocks, htakes, hret⟩ :=
    malloc_spec h.slots h.blocks hhi (hserved.mallocOk hclear)
  have hne : (malloc mem t n).1 ≠ 0 := by
    rw [malloc_eq hn, if_neg hserved.1.1, if_neg hserved.1.2]
    have hs : SlotsOk t := h.slots
    have hb := grown_blocks h hhi hserved.1.1 hclear
    obtain ⟨e, hhole, hle, -⟩ := findHole_fits hs.grown hb hhi hserved.2.1 hserved.1.2
    have hin := hb.inside _ e hhole.1 hhole.2.1
    have hwithin := carve_within hhole.1 hle (by omega)
    omega
  exact ⟨hne, hblocks, htakes, hret.resolve_left hne⟩

/-- **A call that is served moves the block.** -/
theorem realloc_right_of_served (h : HeapInv lo hi ⟨t, live⟩) (hlo : 0 < lo)
    (hhi : hi < 4294967296) (hlive : (ptr, s) ∈ live) (hn : 0 < n) (hserved : Served mem t n)
    (hclear : NewBlockClear mem t n) : ReallocRight lo hi mem t live bytes ptr s n := by
  obtain ⟨p, hp⟩ := h.recorded _ hlive
  have hcall := @reallocBytes_live lo hi mem t live bytes ptr s n p h hlo hp hn
  obtain ⟨hne, hblocks, htakes, hgr⟩ := malloc_served h hlo hhi hn hserved hclear
  rw [if_neg hne] at hcall
  generalize malloc mem t n = r at hcall hne hblocks htakes hgr
  -- the new block lies in a hole, apart from the live blocks
  obtain ⟨j, hj⟩ := hgr.entry
  obtain ⟨k, e, hk, hkv, hku, hwithin⟩ := hgr.hole
  have hapart : ∀ x ∈ live, Apart ⟨true, true, r.1, n⟩ ⟨true, true, x.1, x.2⟩ := by
    intro x hx
    obtain ⟨i, hi⟩ := h.recorded x hx
    have hik := (Table.used_ne_free hi rfl hk hku).symm
    exact (h.blocks.apart k i e _ hik hk hi hkv rfl).of_within hwithin
  have hpos : 0 < s := h.blocks.used_pos hp rfl rfl
  have hptr := hapart _ hlive
  simp only [Apart] at hptr
  have hp' := htakes.keeps p _ hp rfl rfl
  have hfree : free r.2 ptr = rmAlloc r.2 p := by
    unfold free
    rw [findAddr_eq hblocks hp' rfl rfl]
  have hent := fun i e => @rmAlloc_ent r.2 p _ hp' i e
  rw [hfree] at hcall
  refine ⟨r.1, rmAlloc r.2 p, _, hcall, Or.inl ⟨hne, ⟨⟨j, ?_⟩, ?_, ?_, ?_⟩, ?_, ?_, ?_⟩⟩
  · refine (hent j _ rfl rfl).mpr ⟨hj, ?_⟩
    rintro rfl
    rw [hp'] at hj
    have haddr := congrArg Alcent.addr (Option.some.inj hj)
    simp only at haddr
    omega
  · exact (hblocks.inside j _ hj rfl).1
  · exact (hblocks.inside j _ hj rfl).2
  · exact fun x hx _ => hapart x hx
  · exact fun i hi => memcpy_copied (by omega) hi
  · intro i e he hev heu haddr
    obtain ⟨hi, hip⟩ := (hent i e hev heu).mp he
    exact hip (used_unique hblocks hp' rfl rfl hi hev heu haddr)
  · intro x hx hxptr
    obtain ⟨i, hi⟩ := h.recorded x hx
    refine ⟨⟨i, (hent i _ rfl rfl).mpr ⟨htakes.keeps i _ hi rfl rfl, ?_⟩⟩, ?_⟩
    · rintro rfl
      rw [hp] at hi
      exact hxptr (congrArg Alcent.addr (Option.some.inj hi)).symm
    · intro a hlow hhigh
      have hx := hapart x hx
      simp only [Apart] at hx
      exact memcpy_other (by omega)

/-- The block that a right call returns is not one of a table that dropped its
entry. -/
theorem served_of_realloc_right (h : HeapInv lo hi ⟨t, live⟩) (hlo : 0 < lo)
    (hhi : hi < 4294967296) (hlive : (ptr, s) ∈ live) (hn : 0 < n)
    (hright : ReallocRight lo hi mem t live bytes ptr s n) : Served mem t n := by
  have hne : (malloc mem t n).1 ≠ 0 := fun hnull =>
    realloc_wrong_of_null h hlo hlive hn hnull hright
  have hhole : HoleFor mem t n := by
    by_contra hno
    exact hne (malloc_null_of_no_hole hn hno)
  obtain ⟨p, hp⟩ := h.recorded _ hlive
  obtain ⟨q, t', bytes', hcall, hcase⟩ := hright
  rw [reallocBytes_live h hlo hp hn, if_neg hne] at hcall
  obtain ⟨rfl, rfl, rfl⟩ := Prod.mk.inj (Option.some.inj hcall) |>.imp id Prod.mk.inj
  obtain ⟨-, ⟨⟨i, hent⟩, hlow, hhigh, -⟩, -⟩ := hcase.resolve_right fun hnull => hne hnull.1
  refine ⟨hhole, by simp only [minAlign]; omega, fun hfour => ?_⟩
  by_contra hfew
  have hgrown : grown mem t n = t := if_neg hfour
  have hent := free_used hent rfl rfl
  have hs : SlotsOk t := h.slots
  have hblocks : BlocksOk lo hi t := h.blocks
  obtain ⟨e, hfree, hle, -⟩ :=
    findHole_fits hs hblocks hhi (by simp only [minAlign]; omega) hhole.1
  rw [Table.get_eq hfree.1] at hfew
  rw [malloc_eq hn, if_neg (hgrown ▸ hhole.2), hgrown, if_neg hhole.1] at hent hlow hhigh
  have hold := carve_dropped (by simp only [minAlign]; omega) hfree.1 hfree.2.1 hfree.2.2.1
    (Nat.lt_of_not_le hfew) hent rfl
  -- but then it overlaps a block of the table
  have hin := hblocks.inside _ e hfree.1 hfree.2.1
  have hwithin := carve_within hfree.1 hle (by omega)
  have hne := Table.used_ne_free hold rfl hfree.1 hfree.2.2.1
  have hapart := hblocks.apart i _ _ e hne hold hfree.1 rfl hfree.2.1
  simp only [Apart] at hapart
  omega

end Live

/-- **`realloc` keeps the data exactly when its `malloc` is served.** Where a
block of entries is added, this is for one that reads as invalid entries; when
there is no hole the call is wrong whatever it reads as. -/
theorem realloc_right_iff {lo hi : Nat} {mem : BlockMem} {t : Table} {live : List (Nat × Nat)}
    {bytes : Nat → UInt8} {ptr s n : Nat} (h : HeapInv lo hi ⟨t, live⟩) (hlo : 0 < lo)
    (hhi : hi < 4294967296) (hlive : (ptr, s) ∈ live) (hn : 0 < n) :
    (NewBlockClear mem t n →
      (ReallocRight lo hi mem t live bytes ptr s n ↔ Served mem t n)) ∧
      (¬ HoleFor mem t n → ¬ ReallocRight lo hi mem t live bytes ptr s n) :=
  ⟨fun hclear => ⟨served_of_realloc_right h hlo hhi hlive hn, fun hserved =>
      realloc_right_of_served h hlo hhi hlive hn hserved hclear⟩,
    fun hhole => realloc_wrong_of_null h hlo hlive hn (malloc_null_of_no_hole hn hhole)⟩

/-- One block of 8 bytes at the start of the region. -/
def blockTable : Table := (malloc zeroMem bootTable 8).2

set_option maxRecDepth 100000 in
theorem blockTable_inv : HeapInv 0x8000000 0x8008000 ⟨blockTable, [(0x8000000, 8)]⟩ := by
  have hok : MallocOk zeroMem bootTable 8 := by decide +kernel
  have hret : (malloc zeroMem bootTable 8).1 = 0x8000000 := by decide +kernel
  have hinv := (libAllocInit_inv libAllocInit_boot).2.malloc (by decide) hok
  rwa [hret] at hinv

set_option maxRecDepth 100000 in
/-- The block enlarged to 24 bytes. -/
theorem realloc_right_block :
    ReallocRight 0x8000000 0x8008000 zeroMem blockTable [(0x8000000, 8)] UInt8.ofNat
      0x8000000 8 24 := by
  have hsame : emptySlots blockTable (findHole blockTable 24 minAlign >>> 16) ≠ 4 := by
    decide +kernel
  have hserved : Served zeroMem blockTable 24 :=
    ⟨⟨by decide +kernel, by decide +kernel⟩, by decide, fun _ => by decide +kernel⟩
  exact ((realloc_right_iff blockTable_inv (by decide) (by decide) (List.mem_singleton.mpr rfl)
    (by decide)).1 fun hfour => absurd hfour hsame).mpr hserved

set_option maxRecDepth 100000 in
/-- 40000 bytes are more than the region has. -/
theorem realloc_wrong_of_full :
    ¬ ∀ lo hi mem t live bytes ptr s n, HeapInv lo hi ⟨t, live⟩ → 0 < lo → hi < 4294967296 →
      (ptr, s) ∈ live → 0 < n → ReallocRight lo hi mem t live bytes ptr s n := by
  intro hall
  have hnull : (malloc zeroMem blockTable 40000).1 = 0 := by decide +kernel
  exact realloc_wrong_of_null blockTable_inv (by decide) (List.mem_singleton.mpr rfl) (by decide)
    hnull (hall _ _ zeroMem _ _ (fun _ => 0) 0x8000000 8 40000 blockTable_inv (by decide)
      (by decide) (List.mem_singleton.mpr rfl) (by decide))

end UserHeap

end LambdaOs
