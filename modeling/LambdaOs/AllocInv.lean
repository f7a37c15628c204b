import LambdaOs.AllocTable

/-!
# The invariant of the kernel heap

`TableOk`: the valid entries are pairwise disjoint blocks inside the heap's
region. Each call is proved once against it: `carve` and the growth of the
table only replace a hole by blocks inside it (`Takes`), and `rm_alloc` joins
two entries that touch.

Three things in the code break the invariant, and they are the side
conditions `KamallocOk` and `KfreeOk` of the two calls:

- `rm_alloc` looks for a *preceding* neighbour with the size of the block
  being freed, not with the size of the neighbour, so it can join blocks
  that do not touch;
- `_find_hole` adds the alignment skip to the size in 32 bits, so a huge
  request can wrap and be granted from a small hole;
- a new bookkeeping block is used with whatever bytes its memory held.
-/

namespace LambdaOs

/-! ## Blocks -/

/-- Two blocks have no byte in common. -/
def Apart (e f : Alcent) : Prop := e.addr + e.size ≤ f.addr ∨ f.addr + f.size ≤ e.addr

/-- The block `a` is part of the block `e`. -/
def Within (a e : Alcent) : Prop := e.addr ≤ a.addr ∧ a.addr + a.size ≤ e.addr + e.size

theorem Apart.symm {e f : Alcent} (h : Apart e f) : Apart f e := Or.symm h

theorem Apart.of_within {a e f : Alcent} (h : Apart e f) (ha : Within a e) : Apart a f := by
  simp only [Apart, Within] at *
  omega

theorem Within.trans {a b c : Alcent} (h₁ : Within a b) (h₂ : Within b c) : Within a c := by
  simp only [Within] at *
  omega

/-- The valid entries are pairwise disjoint blocks inside `[lo, hi)`. -/
structure TableOk (lo hi : Nat) (t : Table) : Prop where
  shape : t.Shape
  apart : ∀ p q e f, p ≠ q → t.ent p = some e → t.ent q = some f →
    e.valid = true → f.valid = true → Apart e f
  inside : ∀ p e, t.ent p = some e → e.valid = true → lo ≤ e.addr ∧ e.addr + e.size ≤ hi
  pos : ∀ p e, t.ent p = some e → e.valid = true →
    0 < e.size ∨ (lo = hi ∧ e.used = false)

/-- The part of it that does not depend on the shape of the table. -/
structure BlocksOk (lo hi : Nat) (t : Table) : Prop where
  apart : ∀ p q e f, p ≠ q → t.ent p = some e → t.ent q = some f →
    e.valid = true → f.valid = true → Apart e f
  inside : ∀ p e, t.ent p = some e → e.valid = true → lo ≤ e.addr ∧ e.addr + e.size ≤ hi
  pos : ∀ p e, t.ent p = some e → e.valid = true →
    0 < e.size ∨ (lo = hi ∧ e.used = false)

theorem TableOk.blocks {lo hi : Nat} {t : Table} (h : TableOk lo hi t) : BlocksOk lo hi t :=
  ⟨h.apart, h.inside, h.pos⟩

theorem BlocksOk.tableOk {lo hi : Nat} {t : Table} (h : BlocksOk lo hi t) (hs : t.Shape) :
    TableOk lo hi t :=
  ⟨hs, h.apart, h.inside, h.pos⟩

/-- The invariant reads the table only through its entries. -/
theorem BlocksOk.congr {lo hi : Nat} {t t' : Table} (h : BlocksOk lo hi t)
    (hent : ∀ p, t'.ent p = t.ent p) : BlocksOk lo hi t' :=
  ⟨fun p q e f hpq he hf => h.apart p q e f hpq (hent p ▸ he) (hent q ▸ hf),
    fun p e he => h.inside p e (hent p ▸ he),
    fun p e he => h.pos p e (hent p ▸ he)⟩

/-- A used block has a byte. -/
theorem BlocksOk.used_pos {lo hi : Nat} {t : Table} (h : BlocksOk lo hi t) {p : Nat × Nat}
    {u : Alcent} (hu : t.ent p = some u) (huv : u.valid = true) (huu : u.used = true) :
    0 < u.size := by
  rcases h.pos p u hu huv with hpos | ⟨-, hf⟩
  · exact hpos
  · simp [huu] at hf

/-! ## Writing one entry -/

section Writes

variable {lo hi : Nat} {t t' : Table}

/-- Writing an entry keeps the invariant when the new entry, if valid, is
apart from every other one. -/
theorem BlocksOk.put (h : BlocksOk lo hi t) {p : Nat × Nat} {e : Alcent} {f : Alcent → Alcent}
    (he : t.ent p = some e)
    (hap : (f e).valid = true → ∀ q g, q ≠ p → t.ent q = some g → g.valid = true →
      Apart (f e) g)
    (hin : (f e).valid = true → lo ≤ (f e).addr ∧ (f e).addr + (f e).size ≤ hi)
    (hpos : (f e).valid = true → 0 < (f e).size ∨ (lo = hi ∧ (f e).used = false)) :
    BlocksOk lo hi (t.upd p f) := by
  have hself : (t.upd p f).ent p = some (f e) := by rw [Table.ent_upd_self, he]; rfl
  -- an entry of the new table is the new one at `p`, or an old one elsewhere
  have hlook : ∀ {q g}, (t.upd p f).ent q = some g →
      (q = p ∧ g = f e) ∨ (q ≠ p ∧ t.ent q = some g) := by
    intro q g hq
    by_cases hqp : q = p
    · subst hqp
      rw [hself] at hq
      exact Or.inl ⟨rfl, (Option.some.inj hq).symm⟩
    · rw [Table.ent_upd_ne t f hqp] at hq
      exact Or.inr ⟨hqp, hq⟩
  refine ⟨?_, ?_, ?_⟩
  · intro q r g k hqr hg hk hgv hkv
    rcases hlook hg with ⟨rfl, rfl⟩ | ⟨hqp, hg'⟩
    · rcases hlook hk with ⟨rfl, rfl⟩ | ⟨hrp, hk'⟩
      · exact absurd rfl hqr
      · exact hap hgv r k hrp hk' hkv
    · rcases hlook hk with ⟨rfl, rfl⟩ | ⟨hrp, hk'⟩
      · exact (hap hkv q g hqp hg' hgv).symm
      · exact h.apart q r g k hqr hg' hk' hgv hkv
  · intro q g hg hgv
    rcases hlook hg with ⟨rfl, rfl⟩ | ⟨-, hg⟩
    · exact hin hgv
    · exact h.inside q g hg hgv
  · intro q g hg hgv
    rcases hlook hg with ⟨rfl, rfl⟩ | ⟨-, hg⟩
    · exact hpos hgv
    · exact h.pos q g hg hgv

/-- Shrinking a valid entry keeps the invariant. -/
theorem BlocksOk.shrink (h : BlocksOk lo hi t) {p : Nat × Nat} {e : Alcent}
    {f : Alcent → Alcent} (he : t.ent p = some e) (hv : e.valid = true)
    (hw : Within (f e) e) (hpos : 0 < (f e).size) : BlocksOk lo hi (t.upd p f) := by
  have hin := h.inside p e he hv
  refine h.put he ?_ (fun _ => ?_) (fun _ => Or.inl hpos)
  · intro _ q g hqp hg hgv
    exact (h.apart p q e g (Ne.symm hqp) he hg hv hgv).of_within hw
  · simp only [Within] at hw
    omega

/-- `add_alloc` keeps the invariant when the new entry is apart from every
valid one. -/
theorem BlocksOk.addAlloc (h : BlocksOk lo hi t) {al : Alcent}
    (hadd : addAlloc t al = .ok t')
    (hap : ∀ q g, t.ent q = some g → g.valid = true → Apart al g)
    (hin : lo ≤ al.addr ∧ al.addr + al.size ≤ hi) (hpos : 0 < al.size) :
    BlocksOk lo hi t' := by
  obtain ⟨p, e, he, -, rfl⟩ := addAlloc_eq_ok hadd
  exact h.put he (fun _ q g _ hg hgv => hap q g hg hgv) (fun _ => hin) (fun _ => Or.inl hpos)

/-- A blank block with one free entry. -/
theorem BlocksOk.single {n base size : Nat} {p : Nat × Nat} {e : Alcent} {f : Alcent → Alcent}
    (he : Table.ent [List.replicate n default] p = some e)
    (hf : f e = ⟨true, false, base, size⟩) :
    BlocksOk base (base + size) (Table.upd [List.replicate n default] p f) := by
  have hblank : ∀ {q g}, Table.ent [List.replicate n default] q = some g → g.valid = true →
      False := by
    intro q g hg hv
    obtain ⟨blk, hblk, hg⟩ := Option.bind_eq_some_iff.mp hg
    obtain rfl := List.mem_singleton.mp (List.mem_of_getElem? hblk)
    rw [List.eq_of_mem_replicate (List.mem_of_getElem? hg)] at hv
    cases hv
  have hok : BlocksOk base (base + size) [List.replicate n default] :=
    ⟨fun _ _ _ _ _ he _ hev _ => (hblank he hev).elim, fun _ _ he hv => (hblank he hv).elim,
      fun _ _ he hv => (hblank he hv).elim⟩
  refine hok.put he (fun _ _ _ _ hg hgv => (hblank hg hgv).elim) (fun _ => ?_) fun _ => ?_
  · rw [hf]
    exact ⟨Nat.le_refl _, Nat.le_refl _⟩
  · rw [hf]
    rcases Nat.eq_zero_or_pos size with hzero | hpos
    · exact Or.inr ⟨by simp [hzero], rfl⟩
    · exact Or.inl hpos

/-- `add_alloc` keeps every valid entry. -/
theorem addAlloc_keeps {al : Alcent} (hadd : addAlloc t al = .ok t') {q : Nat × Nat}
    {g : Alcent} (hg : t.ent q = some g) (hv : g.valid = true) : t'.ent q = some g := by
  obtain ⟨p, e, he, hinv, rfl⟩ := addAlloc_eq_ok hadd
  have hqp : q ≠ p := by
    rintro rfl
    rw [he] at hg
    obtain rfl := Option.some.inj hg
    simp [hinv] at hv
  rw [Table.ent_upd_ne t _ hqp]
  exact hg

/-- `add_alloc` adds its entry and nothing else. -/
theorem addAlloc_ent {al : Alcent} (hadd : addAlloc t al = .ok t') :
    (∃ p, t'.ent p = some al) ∧
      ∀ q g, t'.ent q = some g → g = al ∨ t.ent q = some g := by
  obtain ⟨p, e, he, -, rfl⟩ := addAlloc_eq_ok hadd
  refine ⟨⟨p, by rw [Table.ent_upd_self, he]; rfl⟩, ?_⟩
  intro q g hg
  by_cases hqp : q = p
  · subst hqp
    rw [Table.ent_upd_self, he] at hg
    exact Or.inl (Option.some.inj hg).symm
  · rw [Table.ent_upd_ne t _ hqp] at hg
    exact Or.inr hg

end Writes

/-! ## Taking from a hole

`Takes t t'` is what every allocation does to the entries it does not hand
out: used entries stay where they are, and every hole of the new table is
part of a hole of the old one. -/

structure Takes (t t' : Table) : Prop where
  keeps : ∀ p e, t.ent p = some e → e.valid = true → e.used = true → t'.ent p = some e
  holes : ∀ q g, t'.ent q = some g → g.valid = true → g.used = false →
    ∃ p e, t.ent p = some e ∧ e.valid = true ∧ e.used = false ∧ Within g e

theorem Takes.refl (t : Table) : Takes t t :=
  ⟨fun _ _ he _ _ => he, fun q g hg hv hu => ⟨q, g, hg, hv, hu, by simp [Within]⟩⟩

theorem Takes.trans {t t' t'' : Table} (h₁ : Takes t t') (h₂ : Takes t' t'') :
    Takes t t'' := by
  refine ⟨fun p e he hv hu => h₂.keeps p e (h₁.keeps p e he hv hu) hv hu, ?_⟩
  intro q g hg hv hu
  obtain ⟨p, e, he, hev, heu, hge⟩ := h₂.holes q g hg hv hu
  obtain ⟨r, k, hk, hkv, hku, hek⟩ := h₁.holes p e he hev heu
  exact ⟨r, k, hk, hkv, hku, hge.trans hek⟩

/-- Replacing a hole by an entry inside it takes from it. -/
theorem Takes.upd {t : Table} {p : Nat × Nat} {e : Alcent} {f : Alcent → Alcent}
    (he : t.ent p = some e) (hv : e.valid = true) (hu : e.used = false)
    (hw : Within (f e) e) : Takes t (t.upd p f) := by
  constructor
  · intro q g hg hgv hgu
    rw [Table.ent_upd_ne t f (Table.used_ne_free hg hgu he hu)]
    exact hg
  · intro q g hg hgv hgu
    by_cases hqp : q = p
    · subst hqp
      rw [Table.ent_upd_self, he] at hg
      obtain rfl := Option.some.inj hg
      exact ⟨q, e, he, hv, hu, hw⟩
    · rw [Table.ent_upd_ne t f hqp] at hg
      exact ⟨q, g, hg, hgv, hgu, by simp [Within]⟩

/-- Adding a used entry, or one inside a hole, takes nothing else. -/
theorem Takes.addAlloc {t t' : Table} {al : Alcent} (hadd : addAlloc t al = .ok t')
    (hal : al.used = false →
      ∃ p e, t.ent p = some e ∧ e.valid = true ∧ e.used = false ∧ Within al e) :
    Takes t t' := by
  refine ⟨fun p e he hv _ => addAlloc_keeps hadd he hv, ?_⟩
  intro q g hg hv hu
  rcases (addAlloc_ent hadd).2 q g hg with rfl | hold
  · exact hal hu
  · exact ⟨q, g, hold, hv, hu, by simp [Within]⟩

/-! ## `kamalloc` -/

theorem holeOff_eq {addr align : Nat} (hal : 0 < align) :
    (addr % align = 0 ∧ holeOff addr align = 0)
      ∨ (addr % align ≠ 0 ∧ holeOff addr align = align - addr % align) := by
  have hlt := Nat.mod_lt addr hal
  simp only [holeOff]
  split <;> omega

theorem holeOff_lt {addr align : Nat} (hal : 0 < align) : holeOff addr align < align := by
  have hlt := Nat.mod_lt addr hal
  rcases @holeOff_eq addr align hal with ⟨-, h⟩ | ⟨hne, h⟩ <;> omega

theorem aligned_of_skip {addr align : Nat} (hal : 0 < align) :
    (addr + (align - addr % align)) % align = 0 := by
  have hlt := Nat.mod_lt addr hal
  have hdiv := Nat.div_add_mod addr align
  have heq : addr + (align - addr % align) = align * (addr / align + 1) := by
    rw [Nat.mul_add, Nat.mul_one]
    omega
  rw [heq]
  exact Nat.mul_mod_right ..

section Kamalloc

variable {lo hi : Nat} {t t' : Table} {sz align : Nat}

/-- What an allocation that returns a block has done: the block is aligned,
recorded by a used entry, and part of a hole of the old table. -/
structure Granted (t t' : Table) (sz align r : Nat) : Prop where
  aligned : r % align = 0
  entry : ∃ p, t'.ent p = some ⟨true, true, r, sz⟩
  hole : ∃ p e, t.ent p = some e ∧ e.valid = true ∧ e.used = false
    ∧ Within ⟨true, true, r, sz⟩ e

/-- What was taken from a hole of a table is part of a hole of the table before. -/
theorem Granted.of_takes {t₁ : Table} {r : Nat} (h : Granted t₁ t' sz align r)
    (htk : Takes t t₁) : Granted t t' sz align r := by
  obtain ⟨p, e, he, hv, hu, hw⟩ := h.hole
  obtain ⟨p', e', he', hv', hu', hw'⟩ := htk.holes p e he hv hu
  exact ⟨h.aligned, h.entry, p', e', he', hv', hu', hw.trans hw'⟩

/-- Splitting a hole in two: the entry at `p` shrinks, and `al` is added in
the rest of it. -/
theorem split_hole (h : BlocksOk lo hi t) {p : Nat × Nat} {e al : Alcent}
    {f : Alcent → Alcent}
    (he : t.ent p = some e) (hv : e.valid = true) (hu : e.used = false)
    (hk : Within (f e) e) (hkpos : 0 < (f e).size)
    (hal : Within al e) (halpos : 0 < al.size) (hap : Apart al (f e))
    (hadd : addAlloc (t.upd p f) al = .ok t') :
    BlocksOk lo hi t' ∧ Takes t t' := by
  have hin := h.inside p e he hv
  have hshrunk : BlocksOk lo hi (t.upd p f) := h.shrink he hv hk hkpos
  have htakes : Takes t (t.upd p f) := Takes.upd he hv hu hk
  have hself : (t.upd p f).ent p = some (f e) := by rw [Table.ent_upd_self, he]; rfl
  constructor
  · refine hshrunk.addAlloc hadd ?_ ?_ halpos
    · intro q g hg hgv
      by_cases hqp : q = p
      · subst hqp
        rw [hself] at hg
        obtain rfl := Option.some.inj hg
        exact hap
      · rw [Table.ent_upd_ne t _ hqp] at hg
        exact (h.apart p q e g (Ne.symm hqp) he hg hv hgv).of_within hal
    · simp only [Within] at hal
      omega
  · refine ⟨fun q g hg hgv hgu => addAlloc_keeps hadd (htakes.keeps q g hg hgv hgu) hgv, ?_⟩
    intro q g hg hgv hgu
    rcases (addAlloc_ent hadd).2 q g hg with rfl | hold
    · exact ⟨p, e, he, hv, hu, hal⟩
    · exact htakes.holes q g hold hgv hgu

/-- The three-way split: the code adds the tail `fe` of the hole before it
shrinks the entry at `p`, so the table is the one where `p` was shrunk first
and `fe` added in the rest. -/
theorem split_hole_tail (h : BlocksOk lo hi t) {p : Nat × Nat} {e fe : Alcent}
    {f : Alcent → Alcent}
    (he : t.ent p = some e) (hv : e.valid = true) (hu : e.used = false)
    (hk : Within (f e) e) (hkpos : 0 < (f e).size)
    (hfe : Within fe e) (hfepos : 0 < fe.size) (hap : Apart fe (f e))
    (hadd : addAlloc t fe = .ok t') :
    BlocksOk lo hi (t'.upd p f) ∧ Takes t (t'.upd p f)
      ∧ (t'.upd p f).ent p = some (f e)
      ∧ ∀ q g, (t'.upd p f).ent q = some g → q ≠ p → g = fe ∨ t.ent q = some g := by
  obtain ⟨q, e', he', hinv, rfl⟩ := addAlloc_eq_ok hadd
  have hpq : p ≠ q := by
    rintro rfl
    rw [he] at he'
    obtain rfl := Option.some.inj he'
    simp [hv] at hinv
  have hcomm := Table.ent_upd_comm t f (fun _ => fe) hpq
  have hin := h.inside p e he hv
  have hshrunk : BlocksOk lo hi (t.upd p f) := h.shrink he hv hk hkpos
  have htakes : Takes t (t.upd p f) := Takes.upd he hv hu hk
  have hself : (t.upd p f).ent p = some (f e) := by rw [Table.ent_upd_self, he]; rfl
  have hq : (t.upd p f).ent q = some e' := by rw [Table.ent_upd_ne t f hpq.symm]; exact he'
  -- an entry of the three-way split other than `fe` is one of the shrunk table
  have hlook : ∀ r g, ((t.upd q fun _ => fe).upd p f).ent r = some g →
      (r = q ∧ g = fe) ∨ (t.upd p f).ent r = some g := by
    intro r g hr
    rw [hcomm r] at hr
    by_cases hrq : r = q
    · subst hrq
      rw [Table.ent_upd_self, hq] at hr
      exact Or.inl ⟨rfl, (Option.some.inj hr).symm⟩
    · rw [Table.ent_upd_ne _ _ hrq] at hr
      exact Or.inr hr
  refine ⟨?_, ⟨?_, ?_⟩, ?_, ?_⟩
  · refine BlocksOk.congr (hshrunk.put hq ?_ (fun _ => ?_)
      (fun _ => Or.inl hfepos)) hcomm
    · intro _ r g hrq hg hgv
      by_cases hrp : r = p
      · subst hrp
        rw [hself] at hg
        obtain rfl := Option.some.inj hg
        exact hap
      · rw [Table.ent_upd_ne t f hrp] at hg
        exact (h.apart p r e g (Ne.symm hrp) he hg hv hgv).of_within hfe
    · simp only [Within] at hfe
      omega
  · intro r g hg hgv hgu
    have hrq : r ≠ q := by
      rintro rfl
      rw [he'] at hg
      obtain rfl := Option.some.inj hg
      simp [hinv] at hgv
    rw [hcomm r, Table.ent_upd_ne _ _ hrq]
    exact htakes.keeps r g hg hgv hgu
  · intro r g hg hgv hgu
    rcases hlook r g hg with ⟨-, rfl⟩ | hold
    · exact ⟨p, e, he, hv, hu, hfe⟩
    · exact htakes.holes r g hold hgv hgu
  · rw [hcomm p, Table.ent_upd_ne _ _ hpq]
    exact hself
  · intro r g hg hrp
    rcases hlook r g hg with ⟨-, rfl⟩ | hold
    · exact Or.inl rfl
    · rw [Table.ent_upd_ne t f hrp] at hold
      exact Or.inr hold

/-- `carve` on a hole whose alignment skip does not wrap. -/
theorem carve_blocks (h : BlocksOk lo hi t) (hhi : hi ≤ 4294967296)
    {p : Nat × Nat} {e : Alcent} (hhole : Hole t sz align p e)
    (hsz : 0 < sz) (hal : 0 < align) (hwrap : sz + holeOff e.addr align < 4294967296)
    {r : Nat} (hc : carve t p sz align = .ok (r, t')) :
    BlocksOk lo hi t' ∧ Takes t t' ∧ Granted t t' sz align r := by
  obtain ⟨he, hv, hu, hfit⟩ := hhole
  have hin := h.inside p e he hv
  rw [u32_of_lt hwrap] at hfit
  have hlt := Nat.mod_lt e.addr hal
  have hral := @aligned_of_skip e.addr align hal
  cases carve_eq_ok he hc with
  | whole hsize =>
    have hal0 : e.addr % align = 0 := by
      rcases holeOff_eq hal with ⟨h0, -⟩ | ⟨-, h1⟩
      · exact h0
      · omega
    have hself : (t.upd p fun e => { e with used := true }).ent p
        = some ⟨true, true, e.addr, sz⟩ := by
      rw [Table.ent_upd_self, he]
      simp [hv, hsize]
    exact ⟨h.shrink he hv (by simp [Within]) (by simpa [hsize] using hsz),
      Takes.upd he hv hu (by simp [Within]),
      ⟨hal0, ⟨p, hself⟩, p, e, he, hv, hu, by simp [Within, hsize]⟩⟩
  | front hsize haligned hblock =>
    have hle : sz ≤ e.size := Nat.le_trans (Nat.le_add_right ..) hfit
    have hu32 : u32 (e.addr + sz) = e.addr + sz := u32_of_lt (by omega)
    obtain ⟨hok, htk⟩ := split_hole h he hv hu
      (by simp only [Within, hu32]; omega) (by simp; omega)
      (by simp only [Within]; omega) hsz (by simp only [Apart, hu32]; omega) hblock
    exact ⟨hok, htk, haligned, (addAlloc_ent hblock).1, p, e, he, hv, hu,
      by simp only [Within]; omega⟩
  | @middle t₁ _ hsize hskip htail hrest hblock =>
    obtain ⟨-, hoff⟩ := (holeOff_eq hal).resolve_left fun h0 => hskip h0.1
    rw [hoff] at hfit hwrap
    have hcpos : 0 < align - e.addr % align := by omega
    generalize align - e.addr % align = c at *
    rw [u32_of_lt hwrap] at htail hrest
    have hae : u32 (e.addr + c) = e.addr + c := u32_of_lt (by omega)
    have hfe : u32 (e.addr + (sz + c)) = e.addr + (sz + c) := u32_of_lt (by omega)
    rw [hae] at hblock ⊢
    rw [hfe] at hrest
    have hwith : Within ⟨true, true, e.addr + c, sz⟩ e := by simp only [Within]; omega
    obtain ⟨hok₁, htk₁, hself, hothers⟩ := split_hole_tail h he hv hu
      (f := fun e => { e with size := c })
      (by simp only [Within]; omega) (by simpa using hcpos)
      (by simp only [Within]; omega) (by simp; omega) (by simp only [Apart]; omega) hrest
    have hap : ∀ q g, (t₁.upd p fun e => { e with size := c }).ent q = some g →
        g.valid = true → Apart ⟨true, true, e.addr + c, sz⟩ g := by
      intro q g hg hgv
      by_cases hqp : q = p
      · subst hqp
        rw [hself] at hg
        obtain rfl := Option.some.inj hg
        simp only [Apart]
        omega
      · rcases hothers q g hg hqp with rfl | hold
        · simp only [Apart]
          omega
        · exact (h.apart p q e g (Ne.symm hqp) he hold hv hgv).of_within hwith
    exact ⟨hok₁.addAlloc hblock hap (by simp only; omega) hsz,
      htk₁.trans (Takes.addAlloc hblock (by simp)),
      hral, (addAlloc_ent hblock).1, p, e, he, hv, hu, hwith⟩
  | back hsize hskip hend hblock =>
    obtain ⟨-, hoff⟩ := (holeOff_eq hal).resolve_left fun h0 => hskip h0.1
    rw [hoff] at hfit hwrap
    have hcpos : 0 < align - e.addr % align := by omega
    generalize align - e.addr % align = c at *
    have hae : u32 (e.addr + c) = e.addr + c := u32_of_lt (by omega)
    rw [hae] at hblock ⊢
    have hwith : Within ⟨true, true, e.addr + c, sz⟩ e := by simp only [Within]; omega
    obtain ⟨hok, htk⟩ := split_hole h he hv hu (by simp only [Within]; omega)
      (by simpa using hcpos) hwith hsz (by simp only [Apart]; omega) hblock
    exact ⟨hok, htk, hral, (addAlloc_ent hblock).1, p, e, he, hv, hu, hwith⟩

theorem carve_spec (h : TableOk lo hi t) (hhi : hi ≤ 4294967296)
    {p : Nat × Nat} {e : Alcent} (hhole : Hole t sz align p e)
    (hsz : 0 < sz) (hal : 0 < align) (hwrap : sz + holeOff e.addr align < 4294967296)
    {r : Nat} (hc : carve t p sz align = .ok (r, t')) :
    TableOk lo hi t' ∧ Takes t t' ∧ Granted t t' sz align r := by
  obtain ⟨hok, htk, hgr⟩ := carve_blocks h.blocks hhi hhole hsz hal hwrap hc
  exact ⟨hok.tableOk (carve_shape h.shape hhole.1 hc), htk, hgr⟩

/-- The memory a bookkeeping block is placed in reads as invalid entries. -/
def ReadsInvalid (mem : BlockMem) (addr : Nat) : Prop :=
  ∀ i < allocBlock, (mem addr i).valid = false

theorem ReadsInvalid.newBlock {mem : BlockMem} {addr : Nat} (h : ReadsInvalid mem addr) :
    ∀ e ∈ newBlock mem addr, e.valid = false := fun e he => by
  obtain ⟨i, hi, rfl⟩ := List.mem_map.mp he
  exact h i (List.mem_range.mp hi)

/-- A bookkeeping block of invalid entries adds no valid entry. -/
theorem ent_append_invalid {blk : List Alcent} (hblk : ∀ e ∈ blk, e.valid = false)
    {p : Nat × Nat} {e : Alcent} (he : Table.ent (t ++ [blk]) p = some e) (hv : e.valid = true) :
    t.ent p = some e :=
  (Table.ent_append_block he).resolve_right fun hmem => by simp [hblk e hmem] at hv

/-- It changes no block of memory. -/
theorem BlocksOk.append_block (h : BlocksOk lo hi t) {blk : List Alcent}
    (hblk : ∀ e ∈ blk, e.valid = false) : BlocksOk lo hi (t ++ [blk]) ∧ Takes t (t ++ [blk]) := by
  have hold {p : Nat × Nat} {e : Alcent} (he : Table.ent (t ++ [blk]) p = some e)
      (hv : e.valid = true) : t.ent p = some e := ent_append_invalid hblk he hv
  refine ⟨⟨?_, ?_, ?_⟩, ?_, ?_⟩
  · intro p q e f hpq he hf hev hfv
    exact h.apart p q e f hpq (hold he hev) (hold hf hfv) hev hfv
  · intro p e he hv
    exact h.inside p e (hold he hv) hv
  · intro p e he hv
    exact h.pos p e (hold he hv) hv
  · intro p e he _ _
    exact Table.ent_append_of_ent he _
  · intro q g hg hv hu
    exact ⟨q, g, hold hg hv, hv, hu, by simp [Within]⟩

/-- The address a new bookkeeping block would be placed at. -/
def newBlockAddr (t : Table) : Nat :=
  (t.get (unpackIdx (findHole t allocBlockSize 1))).addr

theorem holeOff_one (addr : Nat) : holeOff addr 1 = 0 := by
  simp [holeOff, Nat.mod_one]

theorem allocNewBlock_spec (h : TableOk lo hi t) (hhi : hi < 4294967296) {mem : BlockMem}
    (hmem : ReadsInvalid mem (newBlockAddr t)) (hnew : allocNewBlock mem t = .ok t') :
    TableOk lo hi t' ∧ Takes t t' := by
  have hshape := allocNewBlock_shape h.shape hnew
  obtain ⟨e, ⟨he, hv, hu, hfit⟩, hgrown⟩ := allocNewBlock_eq_ok h.shape hnew
  have hin := h.inside _ e he hv
  have hbpos : 0 < allocBlockSize := by decide
  rw [newBlockAddr, Table.get_eq he] at hmem
  rw [holeOff_one, Nat.add_zero, u32_of_lt (by decide)] at hfit
  cases hgrown with
  | whole hsize hroom =>
    obtain ⟨hok, htk⟩ := BlocksOk.append_block
      (h.blocks.shrink (f := fun e => { e with used := true }) he hv (by simp [Within])
        (by simpa [hsize] using hbpos)) hmem.newBlock
    exact ⟨hok.tableOk hshape, (Takes.upd he hv hu (by simp [Within])).trans htk⟩
  | front hsize hblock hroom =>
    generalize allocBlockSize = asz at *
    have hu32 : u32 (e.addr + asz) = e.addr + asz := u32_of_lt (by omega)
    obtain ⟨hok₁, htk₁⟩ := split_hole h.blocks he hv hu
      (by simp only [Within, hu32]; omega) (by simp; omega)
      (by simp only [Within]; omega) hbpos (by simp only [Apart, hu32]; omega) hblock
    obtain ⟨hok₂, htk₂⟩ := hok₁.append_block hmem.newBlock
    exact ⟨hok₂.tableOk hshape, htk₁.trans htk₂⟩

/-- The holes of a grown table are the old ones, but for one that may have
moved up by the size of the bookkeeping block. -/
theorem growTable_holes (hs : t.Shape) {mem : BlockMem} {idx : Nat}
    (hmem : emptySlots t (idx >>> 16) = 4 → ReadsInvalid mem (newBlockAddr t))
    (hgrow : growTable mem t idx = .ok t') {q : Nat × Nat} {g : Alcent}
    (hg : t'.ent q = some g) (hv : g.valid = true) (hu : g.used = false) :
    ∃ p e, t.ent p = some e ∧ e.valid = true ∧ e.used = false ∧
      (g.addr = e.addr ∨
        emptySlots t (idx >>> 16) = 4 ∧ g.addr = u32 (e.addr + allocBlockSize)) := by
  rcases growTable_eq_ok hgrow with ⟨hfour, hnew⟩ | ⟨-, rfl⟩
  · obtain ⟨e, ⟨he, hev, heu, -⟩, hgrown⟩ := allocNewBlock_eq_ok hs hnew
    have hmem := hmem hfour
    rw [newBlockAddr, Table.get_eq he] at hmem
    generalize unpackIdx (findHole t allocBlockSize 1) = p at *
    cases hgrown with
    | whole hsize hroom =>
      have hg := ent_append_invalid hmem.newBlock hg hv
      by_cases hqp : q = p
      · subst hqp
        rw [Table.ent_upd_self, he] at hg
        obtain rfl := Option.some.inj hg
        simp at hu
      · rw [Table.ent_upd_ne t _ hqp] at hg
        exact ⟨q, g, hg, hv, hu, Or.inl rfl⟩
    | front hsize hblock hroom =>
      rcases (addAlloc_ent hblock).2 q g (ent_append_invalid hmem.newBlock hg hv) with rfl | hg
      · simp at hu
      · by_cases hqp : q = p
        · subst hqp
          rw [Table.ent_upd_self, he] at hg
          obtain rfl := Option.some.inj hg
          exact ⟨q, e, he, hev, heu, Or.inr ⟨hfour, rfl⟩⟩
        · rw [Table.ent_upd_ne t _ hqp] at hg
          exact ⟨q, g, hg, hv, hu, Or.inl rfl⟩
  · exact ⟨q, g, hg, hv, hu, Or.inl rfl⟩

/-- No hole's alignment skip wraps around when added to the size, at the
hole's address or, when a bookkeeping block is about to be added, past it. -/
def SkipFits (t : Table) (sz align : Nat) : Prop :=
  ∀ p e, t.ent p = some e → e.valid = true → e.used = false →
    sz + holeOff e.addr align < 4294967296 ∧
    (emptySlots t (findHole t sz align >>> 16) = 4 →
      sz + holeOff (u32 (e.addr + allocBlockSize)) align < 4294967296)

/-- The side conditions of one allocation of `sz` bytes. A new bookkeeping
block, which is added when the block of entries of the first hole found has
four free slots, finds a free slot of `allocs` and memory that reads as
invalid entries; and no alignment skip wraps around. -/
def KamallocOk (mem : BlockMem) (t : Table) (sz align : Nat) : Prop :=
  sz ≠ 0 → align ≠ 0 → findHole t sz align ≠ noHole →
    (emptySlots t (findHole t sz align >>> 16) = 4 →
      t.length < allocBlocks ∧ ReadsInvalid mem (newBlockAddr t)) ∧
    SkipFits t sz align

/-- **One allocation.** Under its side conditions `kamalloc` keeps the
invariant, and returns `NULL` or a block taken from a hole. -/
theorem kamalloc_spec (h : TableOk lo hi t) (hhi : hi < 4294967296) {mem : BlockMem}
    (hok : sz ≠ 0 → align ≠ 0 → findHole t sz align ≠ noHole →
      (emptySlots t (findHole t sz align >>> 16) = 4 → ReadsInvalid mem (newBlockAddr t)) ∧
      SkipFits t sz align)
    {r : Nat} (hc : kamalloc mem t sz align = .ok (r, t')) :
    TableOk lo hi t' ∧ Takes t t' ∧ (r = 0 ∨ Granted t t' sz align r) := by
  rcases kamalloc_eq_ok h.shape hc with
    ⟨rfl, rfl⟩ | ⟨hsz, hal, hfound, t₁, hg, hend⟩
  · exact ⟨h, Takes.refl _, Or.inl rfl⟩
  · obtain ⟨hgrow, hwrap⟩ := hok hsz hal hfound
    have hgrown : TableOk lo hi t₁ ∧ Takes t t₁ := by
      rcases growTable_eq_ok hg with ⟨hfour, hnew⟩ | ⟨-, rfl⟩
      · exact allocNewBlock_spec h hhi (hgrow hfour) hnew
      · exact ⟨h, Takes.refl _⟩
    obtain ⟨hok₁, htk₁⟩ := hgrown
    rcases hend with ⟨rfl, rfl⟩ | ⟨e, hhole, hcarve⟩
    · exact ⟨hok₁, htk₁, Or.inl rfl⟩
    · have hskip : sz + holeOff e.addr align < 4294967296 := by
        obtain ⟨p, k, hk, hkv, hku, haddr⟩ :=
          growTable_holes h.shape hgrow hg hhole.1 hhole.2.1 hhole.2.2.1
        rcases haddr with heq | ⟨hfour, heq⟩
        · rw [heq]
          exact (hwrap p k hk hkv hku).1
        · rw [heq]
          exact (hwrap p k hk hkv hku).2 hfour
      obtain ⟨hok₂, htk₂, hgr⟩ := carve_spec hok₁ (Nat.le_of_lt hhi) hhole
        (Nat.pos_of_ne_zero hsz) (Nat.pos_of_ne_zero hal) hskip hcarve
      exact ⟨hok₂, htk₁.trans htk₂, Or.inr (hgr.of_takes htk₁)⟩

end Kamalloc

/-! ## `kfree` -/

section Kfree

variable {lo hi : Nat} {t t' : Table}

/-- The side condition of one `kfree`: whatever free entry `rm_alloc` takes
for a neighbour below the freed block does end where the block starts (or is
its neighbour above). -/
def KfreeOk (t : Table) (ptr : Nat) : Prop :=
  ∀ p u, t.ent p = some u → u.valid = true → u.used = true → u.addr = ptr →
    ∀ q e, t.ent q = some e → e.valid = true → e.used = false →
      u32 (e.addr + u.size) = u.addr →
      e.addr + e.size = u.addr ∨ e.addr = u.addr + u.size

/-- Joining the block `u` being freed with a free entry that touches it. -/
theorem join_spec (h : BlocksOk lo hi t) (hhi : hi < 4294967296) {p q : Nat × Nat}
    {u e : Alcent} (hu : t.ent p = some u) (huv : u.valid = true) (huu : u.used = true)
    (he : t.ent q = some e) (hev : e.valid = true) (heu : e.used = false)
    (htouch : e.addr + e.size = u.addr ∨ e.addr = u.addr + u.size) :
    BlocksOk lo hi ((t.upd q fun e =>
        { e with
          size := u32 (e.size + u.size)
          addr := if e.addr > u.addr then u.addr else e.addr }).upd p
      fun e => { e with valid := false }) := by
  have hpq := Table.used_ne_free hu huu he heu
  have hupos := h.used_pos hu huv huu
  have huin := h.inside p u hu huv
  have hein := h.inside q e he hev
  have hgpos : ∀ r g, t.ent r = some g → g.valid = true → 0 < g.size := by
    intro r g hg hgv
    rcases h.pos r g hg hgv with hpos | ⟨hlohi, -⟩
    · exact hpos
    · omega
  have hepos := hgpos q e he hev
  have hsum : u32 (e.size + u.size) = e.size + u.size := u32_of_lt (by omega)
  -- invalidate the freed entry first: the two writes commute
  have hcomm := Table.ent_upd_comm t (fun e => { e with valid := false })
    (fun e => { e with
      size := u32 (e.size + u.size)
      addr := if e.addr > u.addr then u.addr else e.addr }) hpq
  have hdead : BlocksOk lo hi (t.upd p fun e => { e with valid := false }) :=
    h.put hu (by simp) (by simp) (by simp)
  have heq : (t.upd p fun e => { e with valid := false }).ent q = some e := by
    rw [Table.ent_upd_ne t _ hpq.symm]
    exact he
  refine BlocksOk.congr (hdead.put heq ?_ ?_ ?_) hcomm
  · intro _ r g hrq hg hgv
    have hrp : r ≠ p := by
      rintro rfl
      rw [Table.ent_upd_self, hu] at hg
      obtain rfl := Option.some.inj hg
      simp at hgv
    rw [Table.ent_upd_ne t _ hrp] at hg
    -- a third block is apart from both parts, and too big to fit between them
    have h1 := h.apart p r u g (Ne.symm hrp) hu hg huv hgv
    have h2 := h.apart q r e g (Ne.symm hrq) he hg hev hgv
    have h3 := hgpos r g hg hgv
    simp only [Apart, hsum] at *
    split <;> omega
  · intro _
    simp only [hsum]
    split <;> omega
  · intro _
    exact Or.inl (by simp only [hsum]; omega)

/-- The first entry at the address of a live block is the block: two blocks of
positive size do not share their address. -/
theorem find_live (h : BlocksOk lo hi t) {p p' : Nat × Nat} {u e : Alcent}
    (hu : t.ent p = some u) (huv : u.valid = true) (huu : u.used = true)
    (hfind : t.scan.find? (fun pe => pe.2.valid && pe.2.addr == u.addr) = some (p', e)) :
    p' = p := by
  have hupos := h.used_pos hu huv huu
  have huin := h.inside p u hu huv
  have he := Table.mem_scan.mp (List.mem_of_find?_eq_some hfind)
  have htest := List.find?_some hfind
  simp only [Bool.and_eq_true, beq_iff_eq] at htest
  by_contra hne
  have hpos : 0 < e.size := by
    rcases h.pos p' e he htest.1 with hpos | ⟨hlohi, -⟩
    · exact hpos
    · omega
  have hap := h.apart p' p e u hne he hu htest.1 huv
  simp only [Apart] at hap
  omega

/-- `rm_alloc` on the entry of a live block. -/
theorem rmAlloc_spec (h : BlocksOk lo hi t) (hhi : hi < 4294967296) {p : Nat × Nat} {u : Alcent}
    (hu : t.ent p = some u) (huv : u.valid = true) (huu : u.used = true)
    (hok : ∀ q e, t.scan.find? (fun pe => mergeTest u.addr u.size pe.2) = some (q, e) →
      u32 (e.addr + u.size) = u.addr → e.addr + e.size = u.addr ∨ e.addr = u.addr + u.size) :
    BlocksOk lo hi (rmAlloc t p) ∧ ∀ q g, t.ent q = some g → g.valid = true → g.used = true →
      q ≠ p → (rmAlloc t p).ent q = some g := by
  have hupos := h.used_pos hu huv huu
  have huin := h.inside p u hu huv
  unfold rmAlloc
  simp only [Table.get_eq hu]
  split
  · rename_i q e hmerge
    have he := Table.mem_scan.mp (List.mem_of_find?_eq_some hmerge)
    have hm := List.find?_some hmerge
    simp only [mergeTest, Bool.and_eq_true, Bool.or_eq_true, beq_iff_eq,
      Bool.not_eq_true'] at hm
    obtain ⟨hev, hadj, heu⟩ := hm
    have htouch : e.addr + e.size = u.addr ∨ e.addr = u.addr + u.size := by
      rcases hadj with hbelow | habove
      · exact hok q e hmerge hbelow
      · rw [u32_of_lt (by omega)] at habove
        exact Or.inr habove
    refine ⟨join_spec h hhi hu huv huu he hev heu htouch, ?_⟩
    intro r g hg hgv hgu hrp
    have hrq := Table.used_ne_free hg hgu he heu
    rw [Table.ent_upd_ne _ _ hrp, Table.ent_upd_ne _ _ hrq]
    exact hg
  · refine ⟨h.shrink hu huv (by simp [Within]) (by simpa using hupos), ?_⟩
    intro r g hg _ _ hrp
    rw [Table.ent_upd_ne _ _ hrp]
    exact hg

/-- **One free of a live block.** -/
theorem kfree_spec (h : TableOk lo hi t) (hhi : hi < 4294967296) {ptr : Nat}
    (hlive : ∃ p u, t.ent p = some u ∧ u.valid = true ∧ u.used = true ∧ u.addr = ptr)
    (hok : KfreeOk t ptr) (hf : kfree t ptr = .ok t') :
    TableOk lo hi t' ∧ ∀ p e, t.ent p = some e → e.valid = true → e.used = true →
      e.addr ≠ ptr → t'.ent p = some e := by
  obtain ⟨p, u, hu, huv, huu, rfl⟩ := hlive
  have hshape := kfree_shape h.shape hf
  unfold kfree at hf
  split at hf
  · rename_i p' e' hfind
    obtain rfl := find_live h.blocks hu huv huu hfind
    obtain rfl := Except.ok.inj hf
    obtain ⟨hblocks, hkeep⟩ := rmAlloc_spec h.blocks hhi hu huv huu fun q e hmerge hbelow => by
      have hm := List.find?_some hmerge
      simp only [mergeTest, Bool.and_eq_true, Bool.not_eq_true'] at hm
      exact hok p' u hu huv huu rfl q e (Table.mem_scan.mp (List.mem_of_find?_eq_some hmerge))
        hm.1 hm.2.2 hbelow
    refine ⟨hblocks.tableOk hshape, fun q g hg hgv hgu hga => hkeep q g hg hgv hgu ?_⟩
    rintro rfl
    rw [hu] at hg
    exact hga (congrArg Alcent.addr (Option.some.inj hg)).symm
  · cases hf

end Kfree

end LambdaOs
