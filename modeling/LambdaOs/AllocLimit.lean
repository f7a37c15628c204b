import LambdaOs.AllocCall

/-!
# What a returned block is backed by

A request for `n` bytes is compared with the size of a hole after 32-bit
additions: `kmamalloc` rounds it up, `_find_hole` adds the bytes to skip. When one
of them wraps, a block is returned that no free entry could hold.

The block is a part of the hole it was taken from exactly when the hole is big
enough for the skipped bytes and `n` more as natural numbers.
-/

namespace LambdaOs

/-- `n` bytes at `r` are in one free entry. -/
def Backed (t : Table) (n r : Nat) : Prop :=
  ∃ p e, t.ent p = some e ∧ e.valid = true ∧ e.used = false ∧ n ≤ e.size ∧
    e.addr ≤ r ∧ r + n ≤ e.addr + e.size

/-- The hole that `kamalloc` takes its block from: in the table as it is after it
has grown, if it does. -/
def takenHole (mem : BlockMem) (t : Table) (sz align : Nat) : Option ((Nat × Nat) × Alcent) :=
  match growTable mem t (findHole t sz align) with
  | .ok t₁ => (t₁.ent (unpackIdx (findHole t₁ sz align))).map (unpackIdx (findHole t₁ sz align), ·)
  | .error _ => none

/-- Where in the hole the block starts. -/
def holeSkip (e : Alcent) (sz align : Nat) : Nat := if e.size = sz then 0 else holeOff e.addr align

/-- The address that is returned. -/
def blockAddr (e : Alcent) (sz align : Nat) : Nat :=
  if holeSkip e sz align = 0 then e.addr else u32 (e.addr + holeSkip e sz align)

/-- The block does not start in a hole of the table: the hole is what a new
bookkeeping block happened to hold, or ends before. -/
def Astray (t : Table) (sz align : Nat) (pe : (Nat × Nat) × Alcent) : Prop :=
  t.length ≤ pe.1.1 ∨ pe.2.size ≤ holeSkip pe.2 sz align

/-- The block that is taken is astray. -/
def TakenAstray (mem : BlockMem) (t : Table) (sz align : Nat) : Prop :=
  ∃ pe, takenHole mem t sz align = some pe ∧ Astray t sz align pe

/-- The hole is one of the table and as big as the skipped bytes and `n` more. -/
def HoleFits (mem : BlockMem) (t : Table) (n sz align : Nat) : Prop :=
  ∃ pe, takenHole mem t sz align = some pe ∧ pe.1.1 < t.length ∧
    holeSkip pe.2 sz align + n ≤ pe.2.size

section Limit

variable {t t' t₁ : Table} {mem : BlockMem} {sz align n r : Nat}

/-- What `carve` returns. -/
theorem carve_addr {p : Nat × Nat} {e : Alcent} (he : t.ent p = some e) (hal : 0 < align)
    (hc : carve t p sz align = .ok (r, t')) : r = blockAddr e sz align := by
  have hmod := Nat.mod_lt e.addr hal
  unfold blockAddr holeSkip
  cases carve_eq_ok he hc with
  | whole hsize => rw [if_pos hsize, if_pos rfl]
  | front hsize haligned hblock =>
    obtain ⟨-, hoff⟩ := (@holeOff_eq e.addr align hal).resolve_right fun h => h.1 haligned
    rw [if_neg hsize, if_pos hoff]
  | middle hsize hskip htail hrest hblock =>
    obtain ⟨-, hoff⟩ := (@holeOff_eq e.addr align hal).resolve_left fun h => hskip h.1
    rw [if_neg hsize, hoff, if_neg (by omega)]
  | back hsize hskip hend hblock =>
    obtain ⟨-, hoff⟩ := (@holeOff_eq e.addr align hal).resolve_left fun h => hskip h.1
    rw [if_neg hsize, hoff, if_neg (by omega)]

/-- A call that returns a block has taken it from the hole. -/
theorem kamalloc_taken (hs : t.Shape) (hc : kamalloc mem t sz align = .ok (r, t')) (hr : r ≠ 0) :
    0 < align ∧ ∃ t₁ p e, growTable mem t (findHole t sz align) = .ok t₁ ∧
      takenHole mem t sz align = some (p, e) ∧ Hole t₁ sz align p e ∧
      r = blockAddr e sz align := by
  rcases kamalloc_eq_ok hs hc with ⟨hnull, -⟩ | ⟨-, hal, -, t₁, hgrow, hnull | ⟨e, hhole, hcarve⟩⟩
  · exact absurd hnull hr
  · exact absurd hnull.1 hr
  · refine ⟨Nat.pos_of_ne_zero hal, t₁, _, e, hgrow, ?_, hhole,
      carve_addr hhole.1 (Nat.pos_of_ne_zero hal) hcarve⟩
    unfold takenHole
    rw [hgrow]
    simp only [hhole.1, Option.map_some]

/-- A hole in the old blocks of a table that has grown ends where one of the
table ended. -/
theorem growTable_hole (h : TableWf t) {idx : Nat} (hgrow : growTable mem t idx = .ok t₁)
    {p : Nat × Nat} {e : Alcent} (hold : p.1 < t.length) (he : t₁.ent p = some e)
    (hv : e.valid = true) (hu : e.used = false) :
    ∃ f, t.ent p = some f ∧ f.valid = true ∧ f.used = false ∧ f.addr ≤ e.addr ∧
      e.addr + e.size = f.addr + f.size := by
  unfold growTable at hgrow
  split at hgrow
  · obtain ⟨g, ⟨hg, hgv, hgu, hfit⟩, hnew⟩ := allocNewBlock_eq_ok h.shape hgrow
    have hentry := h.entry _ g hg hgv
    rw [holeOff_one, Nat.add_zero, u32_of_lt (by decide)] at hfit
    generalize unpackIdx (findHole t allocBlockSize 1) = q at *
    cases hnew with
    | whole hsize hroom =>
      rw [Table.ent_append_left (by rwa [Table.length_upd])] at he
      by_cases hpq : p = q
      · subst hpq
        rw [Table.ent_upd_self, hg] at he
        obtain rfl := Option.some.inj he
        cases hu
      · rw [Table.ent_upd_ne t _ hpq] at he
        exact ⟨e, he, hv, hu, Nat.le_refl _, rfl⟩
    | front hsize hblock hroom =>
      rw [Table.ent_append_left (by rwa [addAlloc_length hblock, Table.length_upd])] at he
      rcases (addAlloc_ent hblock).2 p e he with rfl | he
      · cases hu
      · by_cases hpq : p = q
        · subst hpq
          rw [Table.ent_upd_self, hg] at he
          obtain rfl := Option.some.inj he
          generalize allocBlockSize = asz at *
          have hsum : u32 (g.addr + asz) = g.addr + asz := u32_of_lt (by omega)
          refine ⟨g, hg, hgv, hgu, ?_, ?_⟩
          · simp only [hsum]
            omega
          · simp only [hsum]
            omega
        · rw [Table.ent_upd_ne t _ hpq] at he
          exact ⟨e, he, hv, hu, Nat.le_refl _, rfl⟩
  · obtain rfl := Except.ok.inj hgrow
    exact ⟨e, he, hv, hu, Nat.le_refl _, rfl⟩

/-- The block is backed if the hole fits it, and unless it is astray only then. -/
theorem backed_iff (h : TableWf t) (hn : 0 < n) (hc : kamalloc mem t sz align = .ok (r, t'))
    (hr : r ≠ 0) : (HoleFits mem t n sz align → Backed t n r) ∧
      (¬ TakenAstray mem t sz align → (Backed t n r ↔ HoleFits mem t n sz align)) := by
  obtain ⟨-, t₁, p, e, hgrow, htaken, ⟨he, hv, hu, -⟩, rfl⟩ := kamalloc_taken h.shape hc hr
  -- only the hole that was taken is in question
  have hcond : HoleFits mem t n sz align ↔ p.1 < t.length ∧ holeSkip e sz align + n ≤ e.size := by
    refine ⟨fun ⟨pe, hpe, hfits⟩ => ?_, fun hfits => ⟨(p, e), htaken, hfits⟩⟩
    obtain rfl := Option.some.inj (htaken.symm.trans hpe)
    exact hfits
  rw [hcond]
  have hiff : ¬ Astray t sz align (p, e) → (Backed t n (blockAddr e sz align) ↔
      p.1 < t.length ∧ holeSkip e sz align + n ≤ e.size) := by
    intro hastray
    simp only [Astray, not_or, Nat.not_le] at hastray
    obtain ⟨hold, hskip⟩ := hastray
    rw [and_iff_right hold]
    obtain ⟨f, hf, hfv, hfu, hlow, hend⟩ := growTable_hole h hgrow hold he hv hu
    have hfend := (h.entry p f hf hfv).2.2
    have haddr : blockAddr e sz align = e.addr + holeSkip e sz align := by
      unfold blockAddr
      split
      · omega
      · exact u32_of_lt (by omega)
    rw [haddr]
    constructor
    · rintro ⟨q, g, hg, hgv, hgu, hsize, hglow, hgend⟩
      -- the block starts in `f`, and no other entry has this byte
      have hqp : q = p := by
        by_contra hne
        have hap := h.apart q p g f hne hg hf hgv hfv
        simp only [Apart] at hap
        omega
      subst hqp
      obtain rfl := Option.some.inj (hf.symm.trans hg)
      omega
    · intro hfits
      exact ⟨p, f, hf, hfv, hfu, by omega, by omega, by omega⟩
  refine ⟨fun hfits => (hiff ?_).mpr hfits, fun hnot => hiff fun ha => hnot ⟨_, htaken, ha⟩⟩
  simp only [Astray]
  omega

end Limit

/-- **What is returned is backed by free memory** when the hole that was found is
big enough for the request as natural numbers, whatever the additions on the way
came to, and only then unless the block does not start in a hole of the table. -/
theorem returned_backed_iff {t : Table} (h : TableWf t) (mem : BlockMem) (n align : Nat) :
    (∀ r t', kamalloc mem t n align = .ok (r, t') → r ≠ 0 →
        (HoleFits mem t n n align → Backed t n r) ∧
          (¬ TakenAstray mem t n align → (Backed t n r ↔ HoleFits mem t n n align))) ∧
      ∀ r t', kmamalloc mem t n align = .ok (r, t') → r ≠ 0 →
        (HoleFits mem t n (roundSize n align) align → Backed t n r) ∧
          (¬ TakenAstray mem t (roundSize n align) align →
            (Backed t n r ↔ HoleFits mem t n (roundSize n align) align)) := by
  constructor
  · intro r t' hc hr
    have hn : 0 < n := by
      refine Nat.pos_of_ne_zero fun hzero => hr ?_
      rw [kamalloc, if_pos (.inr hzero)] at hc
      exact (Prod.mk.inj (Except.ok.inj hc)).1.symm
    exact backed_iff h hn hc hr
  · intro r t' hc hr
    unfold kmamalloc at hc
    split at hc
    · cases hc
    · have hn : 0 < n := by
        refine Nat.pos_of_ne_zero fun hzero => hr ?_
        rw [kamalloc, if_pos (.inr (by simp [hzero, roundSize]))] at hc
        exact (Prod.mk.inj (Except.ok.inj hc)).1.symm
      exact backed_iff h hn hc hr

/-- A request that is rounded up, on the boot heap. -/
theorem returned_backed_iff_boot :
    ∃ r t', kmamalloc zeroMem bootHeap 0x1001 0x1000 = .ok (r, t') ∧ Backed bootHeap 0x1001 r := by
  have hok : ((kmamalloc zeroMem bootHeap 0x1001 0x1000).toOption.any fun rt => rt.1 ≠ 0) =
      true := by decide +kernel
  obtain ⟨⟨r, t'⟩, hrt, hne⟩ := (Option.any_eq_true _ _).mp hok
  have hc := toOption_eq_some.mp hrt
  refine ⟨r, t', hc, ((returned_backed_iff bootHeap_wf zeroMem 0x1001 0x1000).2 r t' hc
    (of_decide_eq_true hne)).1 ?_⟩
  refine ⟨((0, 0), ⟨true, false, 0x400000, 0x10000⟩), ?_, ?_, ?_⟩
  · decide +kernel
  · decide +kernel
  · decide +kernel

/-- A heap of 64 KiB that starts two bytes behind a multiple of four grants a
request for all but one of the bytes there are. -/
theorem kmalloc_beyond_memory :
    ¬ ∀ t, TableWf t → ∀ mem n r t', n < 4294967296 → kmalloc mem t n = .ok (r, t') → r ≠ 0 →
      Backed t n r := by
  intro hall
  obtain ⟨t, hinit⟩ : ∃ t, initAlloc 0x400002 0x10000 = .ok t :=
    ⟨(initAlloc 0x400002 0x10000).toOption.getD [], by decide +kernel⟩
  have hok : ((initAlloc 0x400002 0x10000).toOption.any fun t =>
      (kmalloc zeroMem t 0xFFFFFFFF).toOption.any fun rt => rt.1 = 0x400004) = true := by
    decide +kernel
  rw [toOption_eq_some.mpr hinit, Option.any_some] at hok
  obtain ⟨⟨r, t'⟩, hrt, hr⟩ := (Option.any_eq_true _ _).mp hok
  obtain rfl : r = 0x400004 := of_decide_eq_true hr
  have hwf := initAlloc_wf (by decide) (by decide) (by decide) hinit
  obtain ⟨p, e, he, hv, -, hsize, -⟩ := hall t hwf zeroMem 0xFFFFFFFF _ t' (by decide)
    (toOption_eq_some.mp hrt) (by decide)
  have hlt := (hwf.entry p e he hv).2.1
  omega

end LambdaOs
