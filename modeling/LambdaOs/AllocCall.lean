import Mathlib.Order.Interval.Set.Basic
import LambdaOs.AllocSum

/-!
# One call of `kamalloc`

What a call does to a table that is well formed, and only that: it returns a
block whenever some free entry can hold one (`kamalloc_call`), and the free
bytes it takes are those of the block.

A call may run out of slots. How many it needs depends on the hole it finds
(`slotsFor`), and two are always enough.
-/

namespace LambdaOs

/-! ## Slots -/

/-- The entries that `add_alloc` may overwrite. -/
def invalidSlots (t : Table) : Nat := t.sum fun e => if e.valid then 0 else 1

/-- What `carve` adds to the table when it takes from the hole `e`. -/
def slotsFor (e : Alcent) (sz align : Nat) : Nat :=
  if e.size = sz then 0
  else if e.addr % align ≠ 0 ∧ u32 (sz + (align - e.addr % align)) < e.size then 2
  else 1

section Slots

variable {t t' : Table} {sz align : Nat}

theorem addAlloc_cases (t : Table) (al : Alcent) (hal : al.valid = true) :
    (invalidSlots t = 0 ∧ addAlloc t al = .error .listFull) ∨
      ∃ t', addAlloc t al = .ok t' ∧ invalidSlots t' + 1 = invalidSlots t := by
  cases hadd : addAlloc t al with
  | error err =>
    refine Or.inl ⟨?_, ?_⟩
    · unfold addAlloc at hadd
      split at hadd
      · cases hadd
      · rename_i hnone
        unfold invalidSlots
        rw [Table.sum_eq_flatten, ← Table.map_snd_scan, List.map_map]
        refine List.sum_eq_zero ?_
        intro n hn
        obtain ⟨pe, hpe, rfl⟩ := List.mem_map.mp hn
        have hvalid := List.find?_eq_none.mp hnone pe hpe
        simpa using hvalid
    · unfold addAlloc at hadd
      split at hadd
      · cases hadd
      · exact hadd.symm
  | ok t' =>
    obtain ⟨p, e, he, hinv, rfl⟩ := addAlloc_eq_ok hadd
    have hsum := Table.sum_upd (w := fun e => if e.valid then 0 else 1) (f := fun _ => al) he
    refine Or.inr ⟨_, rfl, ?_⟩
    simpa [invalidSlots, hinv, hal] using hsum

/-- Writing a valid entry over a valid one takes no slot. -/
theorem invalidSlots_upd {p : Nat × Nat} {e : Alcent} {f : Alcent → Alcent}
    (he : t.ent p = some e) (hv : e.valid = true) (hfv : (f e).valid = true) :
    invalidSlots (t.upd p f) = invalidSlots t := by
  have hsum := Table.sum_upd (w := fun e => if e.valid then 0 else 1) (f := f) he
  simpa [invalidSlots, hv, hfv] using hsum

/-- A block of invalid entries adds its length. -/
theorem invalidSlots_append {blk : List Alcent} (h : ∀ e ∈ blk, e.valid = false) :
    invalidSlots (t ++ [blk]) = invalidSlots t + blk.length := by
  have hall : blk.map (fun e => if e.valid then 0 else 1) = List.replicate blk.length 1 := by
    refine List.eq_replicate_iff.mpr ⟨List.length_map .., ?_⟩
    intro n hn
    obtain ⟨e, he, rfl⟩ := List.mem_map.mp hn
    rw [h e he]
    rfl
  rw [invalidSlots, Table.sum_append_block, hall, List.sum_replicate_nat, Nat.mul_one]
  rfl

/-- `carve` panics exactly when there are too few slots. -/
theorem carve_slots {p : Nat × Nat} {e : Alcent} (he : t.ent p = some e) (hv : e.valid = true) :
    (invalidSlots t < slotsFor e sz align ∧ carve t p sz align = .error .listFull) ∨
      (slotsFor e sz align ≤ invalidSlots t ∧ ∃ r t', carve t p sz align = .ok (r, t')) := by
  unfold slotsFor
  simp only [carve, Table.get_eq he]
  split
  · exact Or.inr ⟨Nat.zero_le _, _, _, rfl⟩
  · by_cases hskip : e.addr % align = 0
    · rw [if_neg (by simp [hskip]), if_neg (by simp [hskip])]
      have hslots := invalidSlots_upd
        (f := fun e => { e with size := e.size - sz, addr := u32 (e.addr + sz) }) he hv hv
      rcases addAlloc_cases (t.upd p fun e =>
          { e with size := e.size - sz, addr := u32 (e.addr + sz) })
        ⟨true, true, e.addr, sz⟩ rfl with ⟨hnone, hadd⟩ | ⟨t', hadd, hone⟩
      · exact Or.inl ⟨by omega, by rw [hadd]; rfl⟩
      · exact Or.inr ⟨by omega, _, _, by rw [hadd]; rfl⟩
    · rw [if_pos hskip]
      by_cases htail : u32 (sz + (align - e.addr % align)) < e.size
      · rw [if_pos ⟨hskip, htail⟩, if_pos htail]
        rcases addAlloc_cases t ⟨true, false, u32 (e.addr + u32 (sz + (align - e.addr % align))),
          e.size - u32 (sz + (align - e.addr % align))⟩ rfl with ⟨hnone, hadd⟩ | ⟨t₁, hadd, hone⟩
        · exact Or.inl ⟨by omega, by rw [hadd]; rfl⟩
        · have hslots := invalidSlots_upd
            (f := fun h => { h with size := align - e.addr % align })
            (addAlloc_keeps hadd he hv) hv hv
          rcases addAlloc_cases (t₁.upd p fun h => { h with size := align - e.addr % align })
            ⟨true, true, u32 (e.addr + (align - e.addr % align)), sz⟩ rfl with
            ⟨hnone, hadd'⟩ | ⟨t', hadd', hone'⟩
          · exact Or.inl ⟨by omega, by simp only [hadd, bind, Except.bind, hadd']⟩
          · exact Or.inr ⟨by omega, _, _, by simp only [hadd, bind, Except.bind, hadd']; rfl⟩
      · rw [if_neg (fun h => htail h.2), if_neg htail]
        have hslots := invalidSlots_upd
          (f := fun h => { h with size := align - e.addr % align }) he hv hv
        rcases addAlloc_cases (t.upd p fun h => { h with size := align - e.addr % align })
          ⟨true, true, u32 (e.addr + (align - e.addr % align)), sz⟩ rfl with
          ⟨hnone, hadd'⟩ | ⟨t', hadd', hone'⟩
        · exact Or.inl ⟨by omega, by simp only [bind, Except.bind, hadd']⟩
        · exact Or.inr ⟨by omega, _, _, by simp only [bind, Except.bind, hadd']; rfl⟩

end Slots

/-! ## Finding a hole -/

/-- An index that was packed is not the one for "nothing found". -/
theorem packIdx_ne_noHole {t : Table} (hs : t.Shape) {p : Nat × Nat} {e : Alcent}
    (he : t.ent p = some e) : packIdx p ≠ noHole := by
  obtain ⟨hblock, hindex⟩ := hs.lt he
  rw [packIdx_eq hindex]
  simp only [allocBlocks, allocBlock, noHole] at *
  omega

/-- Once something was accepted, the loop ends with an index. -/
theorem foldl_findHoleStep_none {sz align : Nat} {l : List ((Nat × Nat) × Alcent)}
    {best : Nat × Nat} (hpack : ∀ pe ∈ l, packIdx pe.1 ≠ noHole)
    (h : (l.foldl (findHoleStep sz align) best).1 = noHole) :
    best.1 = noHole ∧ ∀ pe ∈ l, pe.2.valid = true → pe.2.used = false →
      u32 (sz + holeOff pe.2.addr align) ≤ pe.2.size → best.2 ≤ pe.2.size := by
  induction l generalizing best with
  | nil => exact ⟨h, fun pe hpe => absurd hpe List.not_mem_nil⟩
  | cons pe l ih =>
      obtain ⟨hfirst, hrest⟩ := List.forall_mem_cons.mp hpack
      rw [List.foldl_cons] at h
      obtain ⟨hnone, hall⟩ := ih hrest h
      have hsame : findHoleStep sz align best pe = best := by
        unfold findHoleStep at hnone ⊢
        split
        · split
          · rename_i hfree hfit
            rw [if_pos hfree, if_pos hfit] at hnone
            exact absurd hnone hfirst
          · rfl
        · rfl
      rw [hsame] at hnone hall
      refine ⟨hnone, List.forall_mem_cons.mpr ⟨?_, hall⟩⟩
      intro hv hu hfit
      by_contra hlt
      have hnew : findHoleStep sz align best pe = (packIdx pe.1, pe.2.size) := by
        unfold findHoleStep
        rw [if_pos (by simp [hv, hu]), if_pos ⟨hfit, Nat.lt_of_not_le hlt⟩]
      rw [hsame] at hnew
      rw [hnew] at hnone
      exact hfirst hnone

/-- `_find_hole` finds nothing only if there is nothing it accepts. -/
theorem findHole_eq_noHole {t : Table} (hs : t.Shape) {sz align : Nat}
    (h : findHole t sz align = noHole) {p : Nat × Nat} {e : Alcent} (hhole : Hole t sz align p e) :
    0xFFFFFFFF ≤ e.size := by
  obtain ⟨he, hv, hu, hfit⟩ := hhole
  have hpack : ∀ pe ∈ t.scan, packIdx pe.1 ≠ noHole := fun pe hpe =>
    packIdx_ne_noHole hs (Table.mem_scan.mp hpe)
  exact (foldl_findHoleStep_none hpack h).2 (p, e) (Table.mem_scan.mpr he) hv hu hfit

/-! ## Free bytes -/

/-- The byte `x` is in a free entry. -/
def FreeAt (t : Table) (x : Nat) : Prop :=
  ∃ p e, t.ent p = some e ∧ e.valid = true ∧ e.used = false ∧ e.addr ≤ x ∧ x < e.addr + e.size

def freeBytes (t : Table) : Set Nat := {x | FreeAt t x}

section Free

variable {t t' : Table} {x : Nat}

theorem FreeAt.addAlloc {al : Alcent} (h : FreeAt t x) (hadd : addAlloc t al = .ok t') :
    FreeAt t' x := by
  obtain ⟨p, e, he, hv, hu, hx⟩ := h
  exact ⟨p, e, addAlloc_keeps hadd he hv, hv, hu, hx⟩

/-- Writing over the entry `e` leaves a byte free that is not in `e`, or is in
what is written. -/
theorem FreeAt.upd (h : FreeAt t x) {p : Nat × Nat} {e : Alcent} {f : Alcent → Alcent}
    (he : t.ent p = some e)
    (hf : e.addr ≤ x → x < e.addr + e.size →
      (f e).valid = true ∧ (f e).used = false ∧ (f e).addr ≤ x ∧ x < (f e).addr + (f e).size) :
    FreeAt (t.upd p f) x := by
  obtain ⟨q, g, hg, hv, hu, hx, hx'⟩ := h
  by_cases hqp : q = p
  · subst hqp
    obtain rfl : e = g := Option.some.inj (he.symm.trans hg)
    exact ⟨q, f e, by rw [Table.ent_upd_self, he]; rfl, hf hx hx'⟩
  · exact ⟨q, g, by rw [Table.ent_upd_ne t f hqp]; exact hg, hv, hu, hx, hx'⟩

end Free

/-! ## The call -/

/-- Valid entries are blocks of the address space, apart and not empty. -/
structure TableWf (t : Table) : Prop where
  shape : t.Shape
  apart : ∀ p q e f, p ≠ q → t.ent p = some e → t.ent q = some f →
    e.valid = true → f.valid = true → Apart e f
  entry : ∀ p e, t.ent p = some e → e.valid = true →
    0 < e.size ∧ e.size < 0xFFFFFFFF ∧ e.addr + e.size ≤ 4294967296

/-- There is room in `e` for an aligned block. -/
def CanHold (e : Alcent) (sz align : Nat) : Prop :=
  ∃ a, a % align = 0 ∧ e.addr ≤ a ∧ a + sz ≤ e.addr + e.size

section Call

variable {t t' : Table} {sz align : Nat}

theorem TableWf.ok (h : TableWf t) : TableOk 0 4294967296 t :=
  ⟨h.shape, h.apart, fun p e he hv => ⟨Nat.zero_le _, (h.entry p e he hv).2.2⟩,
    fun p e he hv => .inl (h.entry p e he hv).1⟩

/-- The first aligned address is the best one. -/
theorem canHold_iff {e : Alcent} (hal : 0 < align) :
    CanHold e sz align ↔ sz + holeOff e.addr align ≤ e.size := by
  have hlt := Nat.mod_lt e.addr hal
  constructor
  · rintro ⟨a, ha, hle, hend⟩
    rcases @holeOff_eq e.addr align hal with ⟨-, hoff⟩ | ⟨hmis, hoff⟩
    · omega
    · -- an aligned address below the first one would be `e.addr` rounded down
      have hnext : e.addr + (align - e.addr % align) ≤ a := by
        have hdiv := Nat.div_add_mod e.addr align
        have hadiv := Nat.div_add_mod a align
        have hquot : e.addr / align < a / align := by
          by_contra hle'
          have := Nat.mul_le_mul_left align (Nat.le_of_not_lt hle')
          omega
        have := Nat.mul_le_mul_left align hquot
        rw [Nat.mul_succ] at this
        omega
      omega
  · intro hfit
    rcases @holeOff_eq e.addr align hal with ⟨haligned, hoff⟩ | ⟨-, hoff⟩
    · exact ⟨e.addr, haligned, Nat.le_refl _, by omega⟩
    · exact ⟨e.addr + (align - e.addr % align), aligned_of_skip hal, by omega, by omega⟩

/-- What is written is smaller than `n`. -/
theorem sizes_upd {n : Nat} (h : ∀ q g, t.ent q = some g → g.valid = true → g.size < n)
    {p : Nat × Nat} {e : Alcent} {f : Alcent → Alcent} (he : t.ent p = some e)
    (hf : (f e).size < n) :
    ∀ q g, (t.upd p f).ent q = some g → g.valid = true → g.size < n := by
  intro q g hg hv
  by_cases hqp : q = p
  · subst hqp
    rw [Table.ent_upd_self, he] at hg
    obtain rfl := Option.some.inj hg
    exact hf
  · rw [Table.ent_upd_ne t f hqp] at hg
    exact h q g hg hv

theorem sizes_addAlloc {n : Nat} (h : ∀ q g, t.ent q = some g → g.valid = true → g.size < n)
    {al : Alcent} (hal : al.size < n) (hadd : addAlloc t al = .ok t') :
    ∀ q g, t'.ent q = some g → g.valid = true → g.size < n := by
  intro q g hg hv
  rcases (addAlloc_ent hadd).2 q g hg with rfl | hold
  · exact hal
  · exact h q g hold hv

/-- The parts of a hole are no bigger than the hole. -/
theorem carve_sizes {p : Nat × Nat} {e : Alcent} (hhole : Hole t sz align p e) (hal : 0 < align)
    (hwrap : sz + holeOff e.addr align < 4294967296) {n : Nat}
    (hsizes : ∀ q g, t.ent q = some g → g.valid = true → g.size < n) {r : Nat}
    (hc : carve t p sz align = .ok (r, t')) :
    ∀ q g, t'.ent q = some g → g.valid = true → g.size < n := by
  obtain ⟨he, hv, hu, hfit⟩ := hhole
  rw [u32_of_lt hwrap] at hfit
  have hlt := hsizes p e he hv
  cases carve_eq_ok he hc with
  | whole hsize => exact sizes_upd hsizes he hlt
  | front hsize haligned hblock =>
    exact sizes_addAlloc (sizes_upd hsizes he (by simp only; omega)) (by simp only; omega) hblock
  | middle hsize hskip htail hrest hblock =>
    obtain ⟨-, hoff⟩ := (holeOff_eq hal).resolve_left fun h0 => hskip h0.1
    rw [hoff] at hfit hwrap
    exact sizes_addAlloc (sizes_upd (sizes_addAlloc hsizes (by simp only; omega) hrest)
      (addAlloc_keeps hrest he hv) (by simp only; omega)) (by simp only; omega) hblock
  | back hsize hskip hend hblock =>
    obtain ⟨-, hoff⟩ := (holeOff_eq hal).resolve_left fun h0 => hskip h0.1
    rw [hoff] at hfit hwrap
    exact sizes_addAlloc (sizes_upd hsizes he (by simp only; omega)) (by simp only; omega) hblock

/-- The bytes of the hole that are not in the block stay free. -/
theorem carve_free {p : Nat × Nat} {e : Alcent} (hhole : Hole t sz align p e) (hsz : 0 < sz)
    (hal : 0 < align)
    (hwrap : sz + holeOff e.addr align < 4294967296) (hend : e.addr + e.size ≤ 4294967296) {r : Nat}
    (hc : carve t p sz align = .ok (r, t')) {x : Nat} (hx : FreeAt t x)
    (hout : x < r ∨ r + sz ≤ x) : FreeAt t' x := by
  obtain ⟨he, hv, hu, hfit⟩ := hhole
  rw [u32_of_lt hwrap] at hfit
  have hmod := Nat.mod_lt e.addr hal
  cases carve_eq_ok he hc with
  | whole hsize => exact hx.upd he fun _ _ => by omega
  | front hsize haligned hblock =>
    have haddr : u32 (e.addr + sz) = e.addr + sz := u32_of_lt (by omega)
    exact (hx.upd he fun _ _ => ⟨hv, hu, by simp only [haddr]; omega,
      by simp only [haddr]; omega⟩).addAlloc hblock
  | @middle t₁ _ hsize hskip htail hrest hblock =>
    obtain ⟨-, hoff⟩ := (holeOff_eq hal).resolve_left fun h0 => hskip h0.1
    rw [hoff] at hfit hwrap
    have hpos : 0 < align - e.addr % align := by omega
    generalize align - e.addr % align = c at *
    rw [u32_of_lt hwrap] at htail hrest
    rw [u32_of_lt (by omega)] at hrest hout
    have he₁ := addAlloc_keeps hrest he hv
    by_cases hlow : x < e.addr + c
    · exact ((hx.addAlloc hrest).upd he₁ fun _ _ => ⟨hv, hu, by omega, by omega⟩).addAlloc hblock
    · by_cases hin : x < e.addr + e.size
      · -- in the tail, which has an entry of its own
        obtain ⟨q, hq⟩ := (addAlloc_ent hrest).1
        have hqp : q ≠ p := by
          rintro rfl
          have hsame := congrArg Alcent.addr (Option.some.inj (hq.symm.trans he₁))
          simp only at hsame
          omega
        exact FreeAt.addAlloc ⟨q, _, by rw [Table.ent_upd_ne _ _ hqp]; exact hq, rfl, rfl,
          by simp only; omega, by simp only; omega⟩ hblock
      · exact ((hx.addAlloc hrest).upd he₁ fun _ h => absurd h hin).addAlloc hblock
  | back hsize hskip hend' hblock =>
    obtain ⟨-, hoff⟩ := (holeOff_eq hal).resolve_left fun h0 => hskip h0.1
    rw [hoff] at hfit hwrap
    generalize align - e.addr % align = c at *
    rw [u32_of_lt hwrap] at hend'
    by_cases hin : e.addr ≤ x ∧ x < e.addr + e.size
    · rw [u32_of_lt (by omega)] at hout
      exact (hx.upd he fun _ _ =>
        ⟨hv, hu, by simp only; omega, by simp only; omega⟩).addAlloc hblock
    · exact (hx.upd he fun h h' => absurd ⟨h, h'⟩ hin).addAlloc hblock

/-- What a call that grants `[r, r + sz)` has done. -/
structure GrantedCall (t t' : Table) (sz align r : Nat) : Prop where
  aligned : r % align = 0
  wf : TableWf t'
  entry : ∃ p, t'.ent p = some ⟨true, true, r, sz⟩
  keeps : ∀ p e, t.ent p = some e → e.valid = true → e.used = true → t'.ent p = some e
  free : freeBytes t' = freeBytes t \ Set.Ico r (r + sz)
  hole : ∃ p e, t.ent p = some e ∧ e.valid = true ∧ e.used = false ∧
    Within ⟨true, true, r, sz⟩ e

theorem carve_granted (h : TableWf t) {p : Nat × Nat} {e : Alcent} (hhole : Hole t sz align p e)
    (hsz : 0 < sz) (hal : 0 < align) (hwrap : sz + holeOff e.addr align < 4294967296) {r : Nat}
    (hc : carve t p sz align = .ok (r, t')) : GrantedCall t t' sz align r := by
  obtain ⟨hok, htakes, haligned, ⟨q, hq⟩, hhole'⟩ :=
    carve_spec h.ok (Nat.le_refl _) hhole hsz hal hwrap hc
  have hentry := h.entry p e hhole.1 hhole.2.1
  have hsizes := carve_sizes hhole hal hwrap (fun q g hg hgv => (h.entry q g hg hgv).2.1) hc
  refine ⟨haligned, ⟨hok.shape, hok.apart, ?_⟩, ⟨q, hq⟩, htakes.keeps, ?_,
    hhole'⟩
  · intro q g hg hgv
    refine ⟨(hok.pos q g hg hgv).resolve_right fun h0 => by omega, hsizes q g hg hgv,
      (hok.inside q g hg hgv).2⟩
  · refine Set.Subset.antisymm ?_ ?_
    · intro x hx
      obtain ⟨s, g, hg, hgv, hgu, hlow, hhigh⟩ := hx
      obtain ⟨s', f, hf, hfv, hfu, hwith⟩ := htakes.holes s g hg hgv hgu
      refine ⟨⟨s', f, hf, hfv, hfu, Nat.le_trans hwith.1 hlow, Nat.lt_of_lt_of_le hhigh hwith.2⟩,
        ?_⟩
      intro hin
      have hsq := (Table.used_ne_free hq rfl hg hgu).symm
      have hap := hok.apart s q g _ hsq hg hq hgv rfl
      simp only [Apart, Set.mem_Ico] at hap hin
      omega
    · intro x hx
      have hout : x < r ∨ r + sz ≤ x := by
        have hin := hx.2
        simp only [Set.mem_Ico] at hin
        omega
      exact carve_free hhole hsz hal hwrap hentry.2.2 hc hx.1 hout

end Call

/-- **One call of `kamalloc`**: if no free entry can hold the block it returns
`NULL` and changes nothing; otherwise it takes the block, and just that, from one
free entry. -/
theorem kamalloc_call {t : Table} (h : TableWf t) (hslots : 2 ≤ invalidSlots t) {sz align : Nat}
    (hsz : 0 < sz) (hal : 0 < align) (hfit : sz + align ≤ 4294967296) (mem : BlockMem)
    (hsame : findHole t sz align ≠ noHole → emptySlots t (findHole t sz align >>> 16) ≠ 4) :
    ((∀ p e, t.ent p = some e → e.valid = true → e.used = false → ¬ CanHold e sz align) ∧
        kamalloc mem t sz align = .ok (0, t)) ∨
      ((∃ p e, t.ent p = some e ∧ e.valid = true ∧ e.used = false ∧ CanHold e sz align) ∧
        ∃ r t', kamalloc mem t sz align = .ok (r, t') ∧ GrantedCall t t' sz align r) := by
  have hwrap : ∀ e : Alcent, sz + holeOff e.addr align < 4294967296 := fun e => by
    have hoff := @holeOff_lt e.addr align hal
    omega
  have hcall : kamalloc mem t sz align =
      if findHole t sz align = noHole then .ok (0, t)
      else carve t (unpackIdx (findHole t sz align)) sz align := by
    unfold kamalloc
    rw [if_neg (by omega)]
    split
    · rfl
    · rename_i hfound
      unfold growTable
      rw [if_neg (hsame hfound)]
      simp only [bind, Except.bind, if_neg hfound]
  rw [hcall]
  by_cases hnone : findHole t sz align = noHole
  · refine Or.inl ⟨?_, if_pos hnone⟩
    intro p e he hv hu hhold
    have hbig := findHole_eq_noHole h.shape hnone ⟨he, hv, hu, by
      rw [u32_of_lt (hwrap e)]
      exact (canHold_iff hal).mp hhold⟩
    exact Nat.not_le_of_lt (h.entry p e he hv).2.1 hbig
  · obtain ⟨e, hhole⟩ := findHole_spec h.shape hnone
    rw [if_neg hnone]
    refine Or.inr ⟨⟨_, e, hhole.1, hhole.2.1, hhole.2.2.1, ?_⟩, ?_⟩
    · have hsize := hhole.2.2.2
      rw [u32_of_lt (hwrap e)] at hsize
      exact (canHold_iff hal).mpr hsize
    · rcases carve_slots hhole.1 hhole.2.1 with ⟨hfew, -⟩ | ⟨-, r, t', hc⟩
      · unfold slotsFor at hfew
        split at hfew <;> [skip; split at hfew] <;> omega
      · exact ⟨r, t', hc, carve_granted h hhole hsz hal (hwrap e) hc⟩

theorem initAlloc_wf {base size : Nat} (hpos : 0 < size) (hsize : size < 0xFFFFFFFF)
    (hend : base + size ≤ 4294967296) {t : Table} (hinit : initAlloc base size = .ok t) :
    TableWf t := by
  have hok := (initAlloc_inv hinit).table
  refine ⟨hok.shape, hok.apart, ?_⟩
  intro p e he hv
  have hin := hok.inside p e he hv
  have hnonempty := (hok.pos p e he hv).resolve_right fun h0 => by omega
  omega

theorem bootHeap_wf : TableWf bootHeap :=
  initAlloc_wf (by decide) (by decide) (by decide)
    (by decide +kernel : initAlloc 0x400000 0x10000 = .ok bootHeap)

/-- A block that an alignment of 3 puts into the middle of the boot heap. -/
theorem kamalloc_call_boot :
    ∃ r t', kamalloc zeroMem bootHeap 8 3 = .ok (r, t') ∧ GrantedCall bootHeap t' 8 3 r := by
  have hsame : emptySlots bootHeap (findHole bootHeap 8 3 >>> 16) ≠ 4 := by decide +kernel
  have hslots : 2 ≤ invalidSlots bootHeap := by decide +kernel
  have hsome : ∃ r t', kamalloc zeroMem bootHeap 8 3 = .ok (r, t') ∧ r ≠ 0 := by
    have hok : (kamalloc zeroMem bootHeap 8 3).toOption.any (fun rt => rt.1 ≠ 0) = true := by
      decide +kernel
    obtain ⟨rt, hrt, hne⟩ := (Option.any_eq_true _ _).mp hok
    exact ⟨rt.1, rt.2, toOption_eq_some.mp hrt, of_decide_eq_true hne⟩
  rcases kamalloc_call bootHeap_wf hslots (by decide) (by decide) (by decide) zeroMem
    fun _ => hsame with ⟨-, hnull⟩ | ⟨-, hgranted⟩
  · obtain ⟨r, t', hcall, hne⟩ := hsome
    rw [hnull] at hcall
    exact absurd (Prod.mk.inj (Except.ok.inj hcall)).1.symm hne
  · exact hgranted

end LambdaOs
