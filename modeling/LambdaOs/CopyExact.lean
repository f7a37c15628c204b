import LambdaOs.CopyData

/-!
# When a copy between address spaces is exact

`mmu_copy_data` takes the place in the page from the source address for both
frames, and with strict checks it refuses addresses of different pages, where
its header asks for equal places in the pages only. Here is exactly when it
does what is asked of it (`CopiesOrRefuses`), for addresses that may wrap
around and ranges that may overlap: `mmuCopyData_exact_iff`.

The bytes it moves are copies done one after the other (`SeqCopy`), one pair
of physical addresses for each byte of the range (`copyPairs`), as long as
both addresses have the same place in their page. If they do not, every copy
still keeps the place in the page, so bytes that depend on that place only
are not changed at all. The frames of both ranges are no page tables; the
other bytes of the memory may be any (`fill`).
-/

namespace LambdaOs

section Exact

variable {H : Type} {A : PageHeap H} {kernel : Nat} {tabs : List Nat}
  {current dmmu dvirt smmu svirt size : Nat}

/-! ## The loop returns -/

/-- The bytes the loop looks up, from `off` on: its first, and the first of
every later page of the source. -/
def LookedUp (svirt size off k : Nat) : Prop :=
  off ≤ k ∧ k < size ∧ (k = off ∨ (svirt + k) % 4096 = 0)

/-- The loop from `off` on returns `0` exactly if all its lookups succeed. -/
theorem copyLoop_total (hnull : A.NeverNull) (hcur : current ∈ tabs) (hdmmu : dmmu ∈ tabs)
    (hsmmu : smmu ∈ tabs) {rounds : Nat} {s : Mmu H} {off : Nat} (ht : Tables A kernel tabs s)
    (hsup : EnoughPages A current s) (hrounds : size ≤ off + rounds)
    (hd : TouchesData A tabs s dmmu dvirt size) (hs : TouchesData A tabs s smmu svirt size) :
    ∃ ret s', copyLoop A kernel current dmmu dvirt smmu svirt size rounds s off = some (ret, s') ∧
      (ret = 0 ↔ ∀ k, LookedUp svirt size off k → CanCopy s.mem dmmu dvirt smmu svirt k) := by
  have hnone : ∀ off, size ≤ off →
      ((0 : Int) = 0 ↔ ∀ k, LookedUp svirt size off k → CanCopy s.mem dmmu dvirt smmu svirt k) := by
    refine fun off hle => iff_of_true rfl fun k hk => ?_
    have := hk.1
    have := hk.2.1
    omega
  induction rounds generalizing s off with
  | zero => exact ⟨0, s, by rw [copyLoop, if_neg (by omega)], hnone off (by omega)⟩
  | succ rounds ih =>
    by_cases hoff : off < size
    · have hn := chunkSize_eq (u32 (svirt + off)) (size - off)
      rw [u32_mod] at hn
      rw [copyLoop, if_pos hoff]
      dsimp only
      generalize chunkSize (u32 (svirt + off)) (size - off) = n at hn
      have hround : (¬ CanCopy s.mem dmmu dvirt smmu svirt off ∧
          copyRound A kernel current dmmu smmu s (u32 (dvirt + off)) (u32 (svirt + off)) n =
            some (.error (-EUNSPEC))) ∨
          ∃ s₁, copyRound A kernel current dmmu smmu s (u32 (dvirt + off)) (u32 (svirt + off)) n =
            some (.ok s₁) ∧ EnoughPages A current s₁ := by
        rcases @copyRound_cases _ A kernel _ _ current _ _ _ _ _ _ n hoff (by omega) hd hs with
          hfail | ⟨-, sphys, dphys, -, -, ⟨-, hround⟩ | ⟨hr, hround⟩⟩
        · exact .inl hfail
        · exact .inr ⟨s, hround, hsup⟩
        · obtain ⟨s₁, hcopy, hsup₁⟩ := copyFrames_total hnull ht hcur hr hsup
          exact .inr ⟨s₁, by rw [hround, hcopy, Option.map_some], hsup₁⟩
      rcases hround with ⟨hcan, hround⟩ | ⟨s₁, hround, hsup₁⟩
      · simp only [hround, Option.bind_eq_bind, Option.bind_some]
        have hne : (-EUNSPEC : Int) ≠ 0 := by decide
        refine ⟨-EUNSPEC, s, rfl, iff_of_false hne fun h => ?_⟩
        exact hcan (h off ⟨Nat.le_refl _, hoff, .inl rfl⟩)
      · obtain ⟨hcan, ps, hcopied⟩ := copyRound_spec hnull ht hcur hoff (by omega) hd hs hround
        have hun := hcopied.moved.unmoved
        have hgrown := hcopied.moved.grown
        obtain ⟨ret, s', hloop, hret⟩ := ih hun.tables hsup₁
          (show size ≤ off + n + rounds by omega) (hd.kept hun hgrown hdmmu)
          (hs.kept hun hgrown hsmmu) fun off hle => by
            refine iff_of_true rfl fun k hk => ?_
            have := hk.1
            have := hk.2.1
            omega
        simp only [hround, Option.bind_eq_bind, Option.bind_some, hloop]
        refine ⟨ret, s', rfl, hret.trans ⟨fun h k hk => ?_, fun h k hk => ?_⟩⟩
        · -- between `off` and the next lookup no page of the source begins
          obtain ⟨hle, hlt, hwhere⟩ := hk
          by_cases heq : k = off
          · rw [heq]
            exact hcan
          · exact (canCopy_congr hun hdmmu hsmmu k).mp (h k ⟨by omega, hlt, by omega⟩)
        · obtain ⟨hle, hlt, hwhere⟩ := hk
          exact (canCopy_congr hun hdmmu hsmmu k).mpr (h k ⟨by omega, hlt, by omega⟩)
    · exact ⟨0, s, by rw [copyLoop, if_neg hoff], hnone off (by omega)⟩

/-! ## What a call should do, and when it does -/

/-- The call returned `ret`: `0` only if the bytes of the destination are
those the source had, nothing else changed outside of the page tables, and
every table answers as before; and always if the places in the page are equal
and all pages are there. -/
structure CopiesOrRefuses (tabs : List Nat) (dmmu dvirt smmu svirt size : Nat) (ret : Int)
    (s s' : Mmu H) : Prop where
  copied : ret = 0 → ∀ k < size, ∃ ca pa, translate s'.mem dmmu (u32 (dvirt + k)) = some ca ∧
    translate s.mem smmu (u32 (svirt + k)) = some pa ∧ s'.mem.byte ca = s.mem.byte pa
  others : ret = 0 → ∀ x, ¬ TablePage tabs s'.mem (pageBase x) →
    (∀ k < size, translate s.mem dmmu (u32 (dvirt + k)) ≠ some x) → s'.mem.byte x = s.mem.byte x
  answers : ret = 0 → ∀ U ∈ tabs, ∀ v < 4294967296,
    mmuMapGetTable s'.mem U v = mmuMapGetTable s.mem U v
  served : dvirt % 4096 = svirt % 4096 → (∀ k < size, CanCopy s.mem dmmu dvirt smmu svirt k) →
    ret = 0

/-- No byte of the destination is wanted from two places, and none that the
copy changes is read later on. -/
structure NoClobber (m : PageMem) (dmmu dvirt smmu svirt size : Nat) : Prop where
  once : ∀ i < size, ∀ j < size,
    translate m dmmu (u32 (dvirt + i)) = translate m dmmu (u32 (dvirt + j)) →
    translate m smmu (u32 (svirt + i)) = translate m smmu (u32 (svirt + j))
  before : ∀ i j, i < j → j < size →
    translate m dmmu (u32 (dvirt + i)) = translate m smmu (u32 (svirt + j)) →
    translate m dmmu (u32 (dvirt + i)) = translate m smmu (u32 (svirt + i))

/-- When the call does what it should: refused for its pages, only if the
places in them differ or a page is missing; else, unless a lookup fails, only
if the places in the pages are equal and nothing is clobbered. -/
def CopyOk (strict : Bool) (m : PageMem) (dmmu dvirt smmu svirt size : Nat) : Prop :=
  if strict ∧ pageMask dvirt ≠ pageMask svirt then
    ¬ (dvirt % 4096 = svirt % 4096 ∧ ∀ k < size, CanCopy m dmmu dvirt smmu svirt k)
  else (∀ k, LookedUp svirt size 0 k → CanCopy m dmmu dvirt smmu svirt k) →
    size = 0 ∨ dvirt % 4096 = svirt % 4096 ∧ NoClobber m dmmu dvirt smmu svirt size

/-- At equal places in the page, the lookups stand for all the bytes. -/
theorem canCopy_all {m : PageMem} (hoff : dvirt % 4096 = svirt % 4096)
    (h : ∀ k, LookedUp svirt size 0 k → CanCopy m dmmu dvirt smmu svirt k) :
    ∀ k < size, CanCopy m dmmu dvirt smmu svirt k := by
  intro k hk
  obtain ⟨l, hl, hls, hld⟩ : ∃ l, LookedUp svirt size 0 l ∧
      u32 (svirt + l) / 4096 = u32 (svirt + k) / 4096 ∧
      u32 (dvirt + l) / 4096 = u32 (dvirt + k) / 4096 := by
    by_cases hfirst : svirt % 4096 + k < 4096
    · exact ⟨0, ⟨by omega, by omega, .inl rfl⟩, by unfold u32; omega, by unfold u32; omega⟩
    · refine ⟨k - (svirt + k) % 4096, ⟨by omega, by omega, .inr (by omega)⟩, ?_, ?_⟩ <;>
        unfold u32 <;> omega
  obtain ⟨⟨sf, sp, hs, hsf⟩, df, dp, hd, hdf⟩ := h l hl
  exact ⟨⟨sf, sp, mmuMapGetTable_page m smmu hls ▸ hs, hsf⟩, df, dp,
    mmuMapGetTable_page m dmmu hld ▸ hd, hdf⟩

theorem noClobber_iff {m : PageMem} (h : ∀ k < size, CanCopy m dmmu dvirt smmu svirt k) :
    NoClobber m dmmu dvirt smmu svirt size ↔
      OneSource (copyPairs m dmmu dvirt smmu svirt 0 size) ∧
        ReadsFirst (copyPairs m dmmu dvirt smmu svirt 0 size) := by
  have hpair := fun k hk => (h k hk).pair
  constructor
  · rintro ⟨honce, hbefore⟩
    constructor
    · simp only [OneSource, copyPairs, List.forall_mem_map, List.mem_range'_1]
      intro i hi j hj heq
      have := honce i (by omega) j (by omega)
      rw [(hpair i (by omega)).1, (hpair i (by omega)).2, (hpair j (by omega)).1,
        (hpair j (by omega)).2, Option.some.injEq, Option.some.injEq] at this
      exact this heq
    · rw [ReadsFirst, copyPairs, List.pairwise_map, List.pairwise_iff_getElem]
      intro i j hi hj hlt heq
      rw [List.length_range'] at hi hj
      simp only [List.getElem_range', Nat.zero_add, Nat.one_mul] at heq ⊢
      have := hbefore i j hlt hj
      rw [(hpair i hi).1, (hpair i hi).2, (hpair j hj).2, Option.some.injEq,
        Option.some.injEq] at this
      exact this heq
  · rintro ⟨hone, hfirst⟩
    constructor
    · intro i hi j hj
      rw [(hpair i hi).1, (hpair i hi).2, (hpair j hj).1, (hpair j hj).2, Option.some.injEq,
        Option.some.injEq]
      exact hone _ (List.mem_map_of_mem (List.mem_range'_1.mpr (by omega))) _
        (List.mem_map_of_mem (List.mem_range'_1.mpr (by omega)))
    · intro i j hlt hj
      rw [ReadsFirst, copyPairs, List.pairwise_map, List.pairwise_iff_getElem] at hfirst
      have := hfirst i j (by rw [List.length_range']; omega) (by rw [List.length_range']; omega) hlt
      simp only [List.getElem_range', Nat.zero_add, Nat.one_mul] at this
      rw [(hpair i (by omega)).1, (hpair i (by omega)).2, (hpair j hj).2, Option.some.injEq,
        Option.some.injEq]
      exact this

/-! ## Any bytes -/

section Same

variable {s : Mmu H} {m : PageMem} (h : ∀ p, TablePage tabs s.mem p → m p = s.mem p)
include h

theorem translate_same {T v : Nat} (hT : T ∈ tabs) (hv : v < 4294967296) :
    translate m T v = translate s.mem T v := by
  rw [translate, translate, mmuMapGetTable_congr h hT hv]

theorem TouchesData.same {T virt : Nat} (hdata : TouchesData A tabs s T virt size) (hT : T ∈ tabs) :
    TouchesData A tabs { s with mem := m } T virt size := by
  intro k hk flags frame hget
  rw [mmuMapGetTable_congr h hT (u32_lt _)] at hget
  refine (hdata k hk flags frame hget).imp_right fun hdata => ⟨hdata.1, ?_⟩
  rw [TablePage.congr h]
  exact hdata.2

theorem canCopy_same (hdmmu : dmmu ∈ tabs) (hsmmu : smmu ∈ tabs) (k : Nat) :
    CanCopy m dmmu dvirt smmu svirt k ↔ CanCopy s.mem dmmu dvirt smmu svirt k := by
  simp only [CanCopy, Allows, mmuMapGetTable_congr h hdmmu (u32_lt _),
    mmuMapGetTable_congr h hsmmu (u32_lt _)]

theorem copyPair_same (hdmmu : dmmu ∈ tabs) (hsmmu : smmu ∈ tabs) (k : Nat) :
    copyPair m dmmu dvirt smmu svirt k = copyPair s.mem dmmu dvirt smmu svirt k := by
  simp only [copyPair, translate_same h hdmmu (u32_lt _), translate_same h hsmmu (u32_lt _)]

theorem Copied.pairs_same {ps : List (Nat × Nat)} {off n : Nat} {s' : Mmu H} (hdmmu : dmmu ∈ tabs)
    (hsmmu : smmu ∈ tabs) (hoff : dvirt % 4096 = svirt % 4096)
    (hcopied : Copied A kernel tabs dmmu dvirt smmu svirt off n ps { s with mem := m } s') :
    ps = copyPairs s.mem dmmu dvirt smmu svirt off n :=
  (hcopied.pairs hoff).trans
    (List.map_congr_left fun k _ => copyPair_same h hdmmu hsmmu k)

theorem NoClobber.same (hno : NoClobber s.mem dmmu dvirt smmu svirt size) (hdmmu : dmmu ∈ tabs)
    (hsmmu : smmu ∈ tabs) : NoClobber m dmmu dvirt smmu svirt size := by
  have hdest := fun k => translate_same h hdmmu (u32_lt (dvirt + k))
  have hsrc := fun k => translate_same h hsmmu (u32_lt (svirt + k))
  refine ⟨fun i hi j hj => ?_, fun i j hij hj => ?_⟩
  · rw [hdest, hdest, hsrc, hsrc]
    exact hno.once i hi j hj
  · rw [hdest, hsrc, hsrc]
    exact hno.before i j hij hj

end Same

open Classical in
/-- The memory with the bytes `f` on the pages that are no tables. -/
noncomputable def fill (tabs : List Nat) (m : PageMem) (f : Nat → Nat) : PageMem := fun p i =>
  if TablePage tabs m p then m p i
  else f (p + 4 * i) + 256 * f (p + 4 * i + 1) + 65536 * f (p + 4 * i + 2) +
    16777216 * f (p + 4 * i + 3)

section Fill

variable {m : PageMem} {f : Nat → Nat}

theorem fill_table {p : Nat} (h : TablePage tabs m p) : fill tabs m f p = m p := by
  funext i
  exact if_pos h

theorem byte_fill (hf : ∀ x, f x < 256) {x : Nat} (h : ¬ TablePage tabs m (pageBase x)) :
    (fill tabs m f).byte x = f x := by
  have h0 := hf (pageBase x + 4 * (x % 4096 / 4))
  have h1 := hf (pageBase x + 4 * (x % 4096 / 4) + 1)
  have h2 := hf (pageBase x + 4 * (x % 4096 / 4) + 2)
  have h3 := hf (pageBase x + 4 * (x % 4096 / 4) + 3)
  have hx : pageBase x + 4 * (x % 4096 / 4) + x % 4 = x := by
    unfold pageBase
    omega
  rw [PageMem.byte, fill, if_neg h, wordByte]
  generalize pageBase x + 4 * (x % 4096 / 4) = a at *
  have hk := Nat.mod_lt x (show 4 > 0 by decide)
  generalize x % 4 = k at *
  subst hx
  interval_cases k <;> simp <;> omega

end Fill

/-! ## The loop does it exactly then -/

section Necessary

variable {s s' : Mmu H} {ps : List (Nat × Nat)} {f : Nat → Nat}

/-- An exact copy of the bytes `f`: each byte of the destination ends with a
byte that is equal to its source. -/
theorem Copied.origin_fill (hf : ∀ x, f x < 256) (hdmmu : dmmu ∈ tabs) (hsmmu : smmu ∈ tabs)
    (hd : TouchesData A tabs s dmmu dvirt size) (hs : TouchesData A tabs s smmu svirt size)
    (h : Copied A kernel tabs dmmu dvirt smmu svirt 0 size ps
      { s with mem := fill tabs s.mem f } s') {k : Nat} (hk : k < size)
    (hexact : ∃ ca pa, translate s'.mem dmmu (u32 (dvirt + k)) = some ca ∧
      translate (fill tabs s.mem f) smmu (u32 (svirt + k)) = some pa ∧
      s'.mem.byte ca = (fill tabs s.mem f).byte pa) :
    ∃ ca pa, translate s.mem dmmu (u32 (dvirt + k)) = some ca ∧
      translate s.mem smmu (u32 (svirt + k)) = some pa ∧ f (origin ps ca) = f pa := by
  obtain ⟨ca, pa, hca, hpa, heq⟩ := hexact
  have hun := h.moved.unmoved
  have hgrown := h.moved.grown
  have hsame : ∀ p, TablePage tabs s.mem p → fill tabs s.mem f p = s.mem p := fun _ => fill_table
  have hdest := translate_same hsame hdmmu (u32_lt (dvirt + k))
  rw [hun.translate hdmmu (u32_lt _), hdest] at hca
  rw [translate_same hsame hsmmu (u32_lt _)] at hpa
  have hcadata := hgrown.dataPage ((hd.same hsame hdmmu).dataPage hk (hdest.trans hca)).2
  refine ⟨ca, pa, hca, hpa, ?_⟩
  have horigin : ¬ TablePage tabs s.mem (pageBase (origin ps ca)) := by
    intro hin
    have hin' := hgrown.grows _ ((TablePage.congr fun _ => fill_table).mpr hin)
    rcases origin_cases ps ca with hself | ⟨p, hp, hsource⟩
    · rw [hself] at hin'
      exact hcadata.2 hin'
    · rw [hsource] at hin'
      exact (h.data p hp).2 hin'
  rw [h.moved.bytes _ hcadata.2, byte_fill hf horigin,
    byte_fill hf (hs.dataPage hk hpa).2.2] at heq
  exact heq

/-- A cell and its origin are at the same place in their pages. -/
theorem origin_place (h : ∀ p ∈ ps, p.1 % 4096 = p.2 % 4096) (x : Nat) :
    origin ps x % 4096 = x % 4096 := by
  induction ps with
  | nil => rfl
  | cons p ps ih =>
    have ih := ih fun q hq => h q (List.mem_cons_of_mem _ hq)
    rw [origin_cons, copySource]
    split
    · rename_i heq
      rw [← h p List.mem_cons_self, ← heq, ih]
    · exact ih

end Necessary

theorem copied_exact {s s' : Mmu H} {ps : List (Nat × Nat)} (hdmmu : dmmu ∈ tabs)
    (hd : TouchesData A tabs s dmmu dvirt size)
    (hall : ∀ k < size, CanCopy s.mem dmmu dvirt smmu svirt k)
    (hoff : dvirt % 4096 = svirt % 4096) (hno : NoClobber s.mem dmmu dvirt smmu svirt size)
    (h : Copied A kernel tabs dmmu dvirt smmu svirt 0 size ps s s') :
    CopiesOrRefuses tabs dmmu dvirt smmu svirt size 0 s s' := by
  have hun := h.moved.unmoved
  have horigin := origin_eq_iff.mpr ((noClobber_iff hall).mp hno)
  rw [← h.pairs hoff] at horigin
  refine ⟨fun _ k hk => ?_, fun _ x hx hnot => ?_, fun _ => hun.same, fun _ _ => rfl⟩
  · obtain ⟨hca, hpa⟩ := (hall k hk).pair
    have hdata := h.moved.grown.dataPage (hd.dataPage hk hca).2
    refine ⟨_, _, (hun.translate hdmmu (u32_lt _)).trans hca, hpa, ?_⟩
    have hmem : copyPair s.mem dmmu dvirt smmu svirt k ∈ ps := by
      rw [h.pairs hoff]
      exact List.mem_map_of_mem (List.mem_range'_1.mpr (by omega))
    rw [h.moved.bytes _ hdata.2, horigin _ hmem]
  · rw [h.moved.bytes x hx, origin_of_notMem]
    rw [h.pairs hoff]
    simp only [copyPairs, List.forall_mem_map, List.mem_range'_1]
    intro k hk heq
    refine hnot k (by omega) ?_
    rw [(hall k (by omega)).pair.1, heq]

/-- What `CopyOk` asks, from exact copies of all bytes. -/
theorem copyOk_of_exact {s : Mmu H} (hdmmu : dmmu ∈ tabs) (hsmmu : smmu ∈ tabs) (hpos : 0 < size)
    (hd : TouchesData A tabs s dmmu dvirt size) (hs : TouchesData A tabs s smmu svirt size)
    (hlook : ∀ k, LookedUp svirt size 0 k → CanCopy s.mem dmmu dvirt smmu svirt k)
    (h : ∀ f : Nat → Nat, (∀ x, f x < 256) → ∃ ps s', Copied A kernel tabs dmmu dvirt smmu svirt 0
      size ps { s with mem := fill tabs s.mem f } s' ∧
      ∀ k < size, ∃ ca pa, translate s'.mem dmmu (u32 (dvirt + k)) = some ca ∧
        translate (fill tabs s.mem f) smmu (u32 (svirt + k)) = some pa ∧
        s'.mem.byte ca = (fill tabs s.mem f).byte pa) :
    dvirt % 4096 = svirt % 4096 ∧ NoClobber s.mem dmmu dvirt smmu svirt size := by
  have hoff : dvirt % 4096 = svirt % 4096 := by
    -- bytes that depend on the place in the page are not changed
    obtain ⟨ps, s', hcopied, hexact⟩ := h (fun x => if x % 4096 = svirt % 4096 then 1 else 0)
      fun x => by split <;> omega
    obtain ⟨ca, pa, hca, hpa, heq⟩ := hcopied.origin_fill (fun x => by split <;> omega)
      hdmmu hsmmu hd hs hpos (hexact 0 hpos)
    have hcan := hlook 0 ⟨Nat.le_refl _, hpos, .inl rfl⟩
    obtain ⟨x, hx, hxmod⟩ := hcan.2.translate
    obtain ⟨y, hy, hymod⟩ := hcan.1.translate
    obtain rfl := Option.some.inj (hx.symm.trans hca)
    obtain rfl := Option.some.inj (hy.symm.trans hpa)
    rw [u32_mod, Nat.add_zero] at hxmod hymod
    by_contra hne
    simp only [origin_place hcopied.place, hxmod, hymod, if_neg hne, if_true] at heq
    exact absurd heq (by decide)
  have hall := canCopy_all hoff hlook
  refine ⟨hoff, (noClobber_iff hall).mpr (origin_eq_iff.mp fun p hp => ?_)⟩
  obtain ⟨k, hk, rfl⟩ := List.mem_map.mp hp
  have hk : k < size := by
    have := List.mem_range'_1.mp hk
    omega
  -- a byte that no other has
  obtain ⟨ps, s', hcopied, hexact⟩ :=
    h (fun x => if x = (copyPair s.mem dmmu dvirt smmu svirt k).2 then 1 else 0)
      fun x => by split <;> omega
  obtain ⟨ca, pa, hca, hpa, heq⟩ := hcopied.origin_fill (fun x => by split <;> omega)
    hdmmu hsmmu hd hs hk (hexact k hk)
  rw [(hall k hk).pair.1] at hca
  rw [(hall k hk).pair.2] at hpa
  obtain rfl := Option.some.inj hca
  obtain rfl := Option.some.inj hpa
  have hpairs := hcopied.pairs_same (fun _ => fill_table) hdmmu hsmmu hoff
  rw [hpairs] at heq
  by_contra hne
  simp only [if_neg hne, if_true] at heq
  exact absurd heq (by decide)

/-- **A copy does what it should exactly if `CopyOk` holds**: for all bytes in
the frames that are no tables it copies or refuses as it should, if and only
if the addresses and the tables are as that condition says. -/
theorem mmuCopyData_exact_iff (strict : Bool) (hnull : A.NeverNull) {s : Mmu H}
    (ht : Tables A kernel tabs s) (hcur : current ∈ tabs) (hdmmu : dmmu ∈ tabs)
    (hsmmu : smmu ∈ tabs) (hsup : EnoughPages A current s)
    (hd : TouchesData A tabs s dmmu dvirt size) (hs : TouchesData A tabs s smmu svirt size) :
    (∀ m, (∀ p, TablePage tabs s.mem p → m p = s.mem p) → ∃ ret s',
      mmuCopyData A kernel strict current dmmu dvirt smmu svirt size { s with mem := m } =
        some (ret, s') ∧
      CopiesOrRefuses tabs dmmu dvirt smmu svirt size ret { s with mem := m } s') ↔
    CopyOk strict s.mem dmmu dvirt smmu svirt size := by
  have hcan := fun m (hm : ∀ p, TablePage tabs s.mem p → m p = s.mem p) k =>
    @canCopy_same _ _ dmmu dvirt smmu svirt s m hm hdmmu hsmmu k
  have hrun : ∀ m, (∀ p, TablePage tabs s.mem p → m p = s.mem p) → ∃ ret s',
      copyLoop A kernel current dmmu dvirt smmu svirt size size { s with mem := m } 0 =
        some (ret, s') ∧
      (ret = 0 ↔ ∀ k, LookedUp svirt size 0 k → CanCopy s.mem dmmu dvirt smmu svirt k) ∧
      (ret = 0 → ∃ ps, Copied A kernel tabs dmmu dvirt smmu svirt 0 size ps
        { s with mem := m } s') := by
    intro m hm
    have htm : Tables A kernel tabs { s with mem := m } := ht.congr hm
    have hsupm : EnoughPages A current { s with mem := m } :=
      hsup.congr rfl fun i => congrFun (hm current (.inl hcur)) i
    have hdm := hd.same hm hdmmu
    have hsm := hs.same hm hsmmu
    obtain ⟨ret, s', hloop, hret⟩ := @copyLoop_total _ _ _ _ _ _ dvirt _ svirt _ hnull hcur hdmmu
      hsmmu size _ 0 htm hsupm (by omega) hdm hsm
    simp only [hcan m hm] at hret
    refine ⟨ret, s', hloop, hret, fun hzero => ?_⟩
    obtain ⟨n, -, hall, hcopied⟩ := copyLoop_spec hnull hcur hdmmu hsmmu htm hdm hsm hloop
    obtain rfl : n = size := hall hzero
    exact hcopied
  rw [CopyOk]
  simp only [mmuCopyData]
  by_cases hrefused : strict ∧ pageMask dvirt ≠ pageMask svirt
  · have hne : (-EINVAL : Int) ≠ 0 := by decide
    simp only [if_pos hrefused]
    constructor
    · rintro h ⟨hoff, hall⟩
      obtain ⟨ret, s', hret, hright⟩ := h s.mem fun _ _ => rfl
      obtain ⟨rfl, -⟩ := Prod.mk.inj (Option.some.inj hret)
      exact hne (hright.served hoff hall)
    · intro h m hm
      refine ⟨_, _, rfl, fun h0 => absurd h0 hne, fun h0 => absurd h0 hne,
        fun h0 => absurd h0 hne, fun hoff hall => ?_⟩
      exact absurd ⟨hoff, fun k hk => (hcan m hm k).mp (hall k hk)⟩ h
  · simp only [if_neg hrefused]
    constructor
    · intro h hlook
      rw [or_iff_not_imp_left]
      intro hsize
      refine @copyOk_of_exact _ A kernel _ _ _ _ _ _ _ hdmmu hsmmu (Nat.pos_of_ne_zero hsize) hd hs
        hlook fun f hf => ?_
      have hm : ∀ p, TablePage tabs s.mem p → fill tabs s.mem f p = s.mem p := fun _ => fill_table
      obtain ⟨ret, s', hret, hright⟩ := h _ hm
      obtain ⟨ret', s'', hloop, hzero, hcopied⟩ := hrun _ hm
      obtain ⟨rfl, rfl⟩ := Prod.mk.inj (Option.some.inj (hloop.symm.trans hret))
      obtain ⟨ps, hcopied⟩ := hcopied (hzero.mpr hlook)
      exact ⟨ps, _, hcopied, hright.copied (hzero.mpr hlook)⟩
    · intro h m hm
      obtain ⟨ret, s', hloop, hzero, hcopied⟩ := hrun m hm
      refine ⟨ret, s', hloop, ?_⟩
      by_cases hret : ret = 0
      · subst hret
        obtain ⟨ps, hcopied⟩ := hcopied rfl
        rcases h (hzero.mp rfl) with hsize | ⟨hoff, hno⟩
        · subst hsize
          cases hloop
          exact ⟨fun _ k hk => absurd hk (Nat.not_lt_zero k), fun _ _ _ _ => rfl,
            fun _ _ _ _ _ => rfl, fun _ _ => rfl⟩
        · exact copied_exact hdmmu (hd.same hm hdmmu)
            (fun k hk => (hcan m hm k).mpr (canCopy_all hoff (hzero.mp rfl) k hk)) hoff
            (hno.same hm hdmmu hsmmu) hcopied
      · refine ⟨fun h0 => absurd h0 hret, fun h0 => absurd h0 hret, fun h0 => absurd h0 hret,
          fun hoff hall => ?_⟩
        exact hzero.mpr fun k hk => (hcan m hm k).mp (hall k hk.2.1)

end Exact

/-! ## Two small tables -/

theorem twoMmu_touches {T : Nat} (hT : T ∈ [0x1000, 0x3000]) :
    TouchesData bootPages [0x1000, 0x3000] twoMmu T 0x1010 4 := by
  have hframes : ∀ T ∈ [0x1000, 0x3000], ∀ k < 4, ∀ ans ∈
      (mmuMapGetTable twoMmu.mem T (u32 (0x1010 + k))).toOption,
      0x410000 ≤ ans.2 ∧ ans.2 < 0x700000 := by decide
  intro k hk flags frame hget
  obtain ⟨hlo, hhi⟩ := hframes T hT k hk (flags, frame) (by rw [hget]; rfl)
  refine ⟨Nat.lt_trans hhi (by decide), ⟨frame, Nat.le_refl _, by omega,
    ByteHeld.outside bootTable.2 (.inr (by omega))⟩, fun hp => ?_⟩
  have := twoMmu_page hp
  omega

/-- Equal addresses, within a page: the content is copied. -/
theorem mmuCopyData_exact_same_address :
    ∃ ret s',
      mmuCopyData bootPages 0x2000 true 0x1000 0x3000 0x1010 0x1000 0x1010 4 filledMmu =
        some (ret, s') ∧
      CopiesOrRefuses [0x1000, 0x3000] 0x3000 0x1010 0x1000 0x1010 4 ret filledMmu s' := by
  refine (mmuCopyData_exact_iff true (PageHeap.served_neverNull _) twoMmu_tables (by simp) (by simp)
    (by simp) twoMmu_enough (twoMmu_touches (by simp)) (twoMmu_touches (by simp))).mpr ?_
      filledMmu.mem filledMmu_same
  rw [CopyOk, if_neg (by simp)]
  refine fun _ => .inr ⟨rfl, by decide, ?_⟩
  have : ∀ j < 4, ∀ i < j, translate twoMmu.mem 0x3000 (u32 (0x1010 + i)) ≠
      translate twoMmu.mem 0x1000 (u32 (0x1010 + j)) := by decide
  exact fun i j hij hj heq => absurd heq (this j hj i hij)

/-- Equal places in two pages: refused by the strict check. Different places
in one page: the first byte comes from the wrong place. -/
theorem copy_refused_or_misplaced :
    (¬ ∃ ret s',
      mmuCopyData bootPages 0x2000 true 0x1000 0x3000 0x1000 0x1000 0x2000 4 filledMmu =
        some (ret, s') ∧
      CopiesOrRefuses [0x1000, 0x3000] 0x3000 0x1000 0x1000 0x2000 4 ret filledMmu s') ∧
    (¬ ∃ ret s',
      mmuCopyData bootPages 0x2000 true 0x1000 0x3000 0x1000 0x1000 0x1010 4 filledMmu =
        some (ret, s') ∧
      CopiesOrRefuses [0x1000, 0x3000] 0x3000 0x1000 0x1000 0x1010 4 ret filledMmu s') := by
  constructor
  · rintro ⟨ret, s', hret, hright⟩
    obtain ⟨rfl, -⟩ := Prod.mk.inj (Option.some.inj hret)
    exact absurd (hright.served rfl (by decide +kernel)) (by decide)
  · rintro ⟨ret, s', hret, hright⟩
    have hrun : ((mmuCopyData bootPages 0x2000 true 0x1000 0x3000 0x1000 0x1000 0x1010 4
        filledMmu).all fun r => r.1 = 0 ∧ translate r.2.mem 0x3000 0x1000 = some 0x601000 ∧
          r.2.mem.byte 0x601000 = 0) = true := by
      decide +kernel
    obtain ⟨hzero, hdest, hbyte⟩ := of_decide_eq_true ((Option.all_eq_true _ _).mp hrun _ hret)
    obtain ⟨ca, pa, hca, hpa, heq⟩ := hright.copied hzero 0 (by decide)
    obtain rfl := Option.some.inj (hca.symm.trans hdest)
    obtain rfl := Option.some.inj (hpa.symm.trans (show _ = some 0x501010 by decide +kernel))
    rw [hbyte, show filledMmu.mem.byte 0x501010 = 4 by decide +kernel] at heq
    exact absurd heq (by decide)

end LambdaOs
