import LambdaOs.MmuData

/-!
# Copying between address spaces

`mm/mmu.c`: `mmu_copy_data` copies page by page between two MMU tables. For
each page it looks up the two frames, maps both at their own address in the
current table, copies, and puts back what was mapped there. `mmu_write_data`
is here once more for a variable of the kernel, which is given by its bytes.

The frames are in the memory that also holds the page tables, and are copied
through the current table. As long as they are no tables (`TouchesData`), a
call changes bytes as single copies do, one for each byte of the range
(`copyPairs`), and no table's answers: `copyLoop_spec`, by induction on the
rounds. The copies keep the place in the page also where the two addresses
have different ones.
-/

namespace LambdaOs

/-! ## The model -/

section Copy

variable {H : Type} (A : PageHeap H) (kernel : Nat)

/-- The copy of one page or part of a page, between frames that differ. -/
def copyFrames (current : Nat) (s : Mmu H) (sphys dphys toCopy : Nat) : Option (Mmu H) := do
  let sent := mmuMapSave s.mem current sphys
  let dent := mmuMapSave s.mem current dphys
  let s ← mmuMapTable A kernel s current sphys sphys 1 mmuFlagRead
  let s ← mmuMapTable A kernel s current dphys dphys 1 mmuFlagWrite
  let mem ← memcpyVirt current dphys sphys toCopy s.mem
  let s ← putBack A kernel current { s with mem := mem } sent sphys
  putBack A kernel current s dent dphys

/-- One round of `mmu_copy_data`: the error, or the state to go on with. -/
def copyRound (current dmmu smmu : Nat) (s : Mmu H) (dest src toCopy : Nat) :
    Option (Except Int (Mmu H)) :=
  match mmuMapGetTable s.mem smmu src, mmuMapGetTable s.mem dmmu dest with
  | .ok (sflag, sphys), .ok (dflag, dphys) =>
      if sflag &&& mmuFlagRead = 0 ∨ dflag &&& mmuFlagWrite = 0 then some (.error (-EUNSPEC))
      else if sphys = dphys then some (.ok s)
      else (copyFrames A kernel current s (sphys + (src &&& 0xFFF)) (dphys + (src &&& 0xFFF))
        toCopy).map .ok
  | _, _ => some (.error (-EUNSPEC))

/-- The loop from `off` on. Every round copies at least one byte, so `size`
rounds are enough. -/
def copyLoop (current dmmu dvirt smmu svirt size : Nat) : Nat → Mmu H → Nat → Option (Int × Mmu H)
  | 0, s, off => if off < size then none else some (0, s)
  | rounds + 1, s, off =>
      if off < size then do
        let src := u32 (svirt + off)
        let dest := u32 (dvirt + off)
        match ← copyRound A kernel current dmmu smmu s dest src (chunkSize src (size - off)) with
        | .error err => return (err, s)
        | .ok s =>
            copyLoop current dmmu dvirt smmu svirt size rounds s
              (off + chunkSize src (size - off))
      else some (0, s)

/-- `strict` is the build option that adds the first check. -/
def mmuCopyData (strict : Bool) (current dmmu dvirt smmu svirt size : Nat) (s : Mmu H) :
    Option (Int × Mmu H) :=
  if strict ∧ pageMask dvirt ≠ pageMask svirt then some (-EINVAL, s)
  else copyLoop A kernel current dmmu dvirt smmu svirt size size s 0

/-! ## Writing a variable -/

/-- Some bytes of a variable, written to a frame. -/
def writeFrame (current : Nat) (s : Mmu H) (dphys : Nat) (bs : List Nat) : Option (Mmu H) := do
  let dent := mmuMapSave s.mem current dphys
  let s ← mmuMapTable A kernel s current dphys dphys 1 mmuFlagWrite
  let mem ← storeVirt current dphys bs s.mem
  putBack A kernel current { s with mem := mem } dent dphys

/-- The loop of `mmu_write_data` from `off` on. -/
def writeLoop (current table virt : Nat) (bs : List Nat) : Nat → Mmu H → Nat → Option (Int × Mmu H)
  | 0, s, off => if off < bs.length then none else some (0, s)
  | rounds + 1, s, off =>
      if off < bs.length then
        let daddr := u32 (virt + off)
        let toCopy := chunkSize daddr (bs.length - off)
        match mmuMapGetTable s.mem table daddr with
        | .error _ => some (-EUNSPEC, s)
        | .ok (dflag, dphys) =>
            if dflag &&& mmuFlagWrite = 0 then some (-EUNSPEC, s)
            else do
              let s ← writeFrame A kernel current s (dphys + (daddr &&& 0xFFF))
                ((bs.drop off).take toCopy)
              writeLoop current table virt bs rounds s (off + toCopy)
      else some (0, s)

def mmuWriteData (current table virt : Nat) (bs : List Nat) (s : Mmu H) : Option (Int × Mmu H) :=
  writeLoop A kernel current table virt bs bs.length s 0

end Copy

/-! ## A copy as single copies -/

section Pairs

variable (m : PageMem) (dmmu dvirt smmu svirt : Nat)

/-- Byte `k` of the range can be read at the source and written at the
destination. -/
def CanCopy (k : Nat) : Prop :=
  Allows m smmu (u32 (svirt + k)) mmuFlagRead ∧ Allows m dmmu (u32 (dvirt + k)) mmuFlagWrite

instance (k : Nat) : Decidable (CanCopy m dmmu dvirt smmu svirt k) :=
  inferInstanceAs (Decidable (_ ∧ _))

/-- Where byte `k` goes, and where it comes from. -/
def copyPair (k : Nat) : Nat × Nat :=
  ((translate m dmmu (u32 (dvirt + k))).getD 0, (translate m smmu (u32 (svirt + k))).getD 0)

def copyPairs (off n : Nat) : List (Nat × Nat) :=
  (List.range' off n).map (copyPair m dmmu dvirt smmu svirt)

end Pairs

/-- The pages of `size` bytes from `virt` on are below the kernel, and are no
tables. -/
def TouchesData {H : Type} (A : PageHeap H) (tabs : List Nat) (s : Mmu H)
    (table virt size : Nat) : Prop :=
  ∀ k < size, ∀ flags frame, mmuMapGetTable s.mem table (u32 (virt + k)) = .ok (flags, frame) →
    frame < kernelOffset ∧ DataPage A tabs s frame

theorem CanCopy.pair {m : PageMem} {dmmu dvirt smmu svirt k : Nat}
    (h : CanCopy m dmmu dvirt smmu svirt k) :
    translate m dmmu (u32 (dvirt + k)) = some (copyPair m dmmu dvirt smmu svirt k).1 ∧
      translate m smmu (u32 (svirt + k)) = some (copyPair m dmmu dvirt smmu svirt k).2 := by
  obtain ⟨x, hx, -⟩ := h.2.translate
  obtain ⟨y, hy, -⟩ := h.1.translate
  rw [copyPair, hx, hy]
  exact ⟨rfl, rfl⟩

section Page

variable {m : PageMem} {dmmu dvirt smmu svirt off sflag sphys dflag dphys : Nat}

/-- The bytes of a page, one after the other. -/
theorem copyPairs_page
    (hs : mmuMapGetTable m smmu (u32 (svirt + off)) = .ok (sflag, sphys))
    (hd : mmuMapGetTable m dmmu (u32 (dvirt + off)) = .ok (dflag, dphys))
    (hoff : dvirt % 4096 = svirt % 4096) {n : Nat} (hn : (svirt + off) % 4096 + n ≤ 4096) :
    copyPairs m dmmu dvirt smmu svirt off n = (List.range n).map fun i =>
      (dphys + (svirt + off) % 4096 + i, sphys + (svirt + off) % 4096 + i) := by
  rw [copyPairs, List.range'_eq_map_range, List.map_map]
  refine List.map_congr_left fun i hi => ?_
  rw [List.mem_range] at hi
  have hdmod : (dvirt + off) % 4096 = (svirt + off) % 4096 := by omega
  have hsi := translate_page hs (i := i) (by rw [u32_mod]; omega)
  have hdi := translate_page hd (i := i) (by rw [u32_mod]; omega)
  rw [u32_mod] at hsi hdi
  rw [Function.comp_apply, copyPair, ← Nat.add_assoc, ← Nat.add_assoc,
    u32_page (a := dvirt + off) (by omega), u32_page (a := svirt + off) (by omega), hsi, hdi, hdmod]
  rfl

/-- A page allows what its first byte allows. -/
theorem CanCopy.page (h : CanCopy m dmmu dvirt smmu svirt off) (hoff : dvirt % 4096 = svirt % 4096)
    {i : Nat} (hi : (svirt + off) % 4096 + i < 4096) :
    CanCopy m dmmu dvirt smmu svirt (off + i) := by
  have hdiv : ∀ v, v % 4096 + i < 4096 → (u32 v + i) / 4096 = u32 v / 4096 := by
    intro v hv
    have := u32_mod v
    omega
  rw [CanCopy, ← Nat.add_assoc, ← Nat.add_assoc, u32_page (a := svirt + off) (by omega),
    u32_page (a := dvirt + off) (by omega)]
  exact ⟨h.1.page (hdiv _ hi), h.2.page (hdiv _ (by omega))⟩

end Page

section Spec

variable {H : Type} {A : PageHeap H} {kernel : Nat} {tabs : List Nat}

/-! ## The copy of a page -/

/-- Parts of two frames that can be copied, at the same place in each. -/
structure FramesReady (A : PageHeap H) (tabs : List Nat) (sphys dphys n : Nat) (s : Mmu H) :
    Prop where
  srcLow : sphys < kernelOffset
  destLow : dphys < kernelOffset
  place : dphys % 4096 = sphys % 4096
  page : sphys % 4096 + n ≤ 4096
  apart : pageBase dphys ≠ pageBase sphys
  src : DataPage A tabs s (pageBase sphys)
  dest : DataPage A tabs s (pageBase dphys)

section Frames

variable {s s₁ s₂ s' : Mmu H} {current sphys dphys n : Nat}

/-- The answers of the current table with both frames mapped. -/
def bothMapped (m : PageMem) (current sphys dphys v : Nat) : Except Int (Nat × Nat) :=
  if pageMask v = pageMask dphys then
    .ok (mmuFlagRead ||| (mmuFlagWrite &&& mmuFlagWrite) ||| (mmuFlagWrite &&& mmuFlagKernel),
      pageMask dphys)
  else if pageMask v = pageMask sphys then
    .ok (mmuFlagRead ||| (mmuFlagRead &&& mmuFlagWrite) ||| (mmuFlagRead &&& mmuFlagKernel),
      pageMask sphys)
  else mmuMapGetTable m current v

/-- With the frames mapped at their addresses the copy goes through. -/
theorem FramesReady.copy (hr : FramesReady A tabs sphys dphys n s) (hcur : current ∈ tabs)
    (hgrown : Grown A tabs s s₂)
    (hself : ∀ v < 4294967296, mmuMapGetTable s₂.mem current v =
      bothMapped s.mem current sphys dphys v) :
    ∃ m', memcpyVirt current dphys sphys n s₂.mem = some m' ∧
      (∀ p, TablePage tabs s₂.mem p → m' p = s₂.mem p) ∧
      ∀ x, m'.byte x =
        s₂.mem.byte (origin ((List.range n).map fun j => (dphys + j, sphys + j)) x) := by
  have hslow := hr.srcLow
  have hdlow := hr.destLow
  have hplace := hr.place
  have hpage := hr.page
  have hK : kernelOffset = 3221225472 := rfl
  have hmask : ∀ phys j, phys < kernelOffset → phys % 4096 + j < 4096 →
      pageMask (phys + j) = pageMask phys ∧ pageMask phys + (phys + j) % 4096 = phys + j := by
    intro phys j hlow hj
    rw [pageMask_eq_iff (by omega) (by omega), pageMask_eq (by omega)]
    omega
  refine memcpyVirt_spec hcur (fun j hj => ?_) (fun j hj => ?_) fun j hj => ?_
  · obtain ⟨hsame, hsum⟩ := hmask dphys j hdlow (by omega)
    rw [u32_of_lt (by omega), access, hself _ (by omega), bothMapped, if_pos hsame]
    dsimp only
    rw [if_neg (by simp [mmuFlagRead, mmuFlagWrite, mmuFlagKernel]), hsum]
  · obtain ⟨hsame, hsum⟩ := hmask sphys j hslow (by omega)
    have hne : pageMask (sphys + j) ≠ pageMask dphys := by
      rw [hsame, Ne, pageMask_eq_iff (by omega) (by omega), ← pageBase_eq_iff]
      exact hr.apart.symm
    rw [u32_of_lt (by omega), access, hself _ (by omega), bothMapped, if_neg hne, if_pos hsame]
    dsimp only
    rw [if_neg (by simp [mmuFlagRead, mmuFlagWrite, mmuFlagKernel]), hsum]
  · have hbase : pageBase (dphys + j) = pageBase dphys := by
      rw [pageBase_eq_iff]
      omega
    rw [hbase]
    exact (hgrown.dataPage hr.dest).2

/-- Mapping the two frames. -/
theorem mapBoth (hnull : A.NeverNull) (ht : Tables A kernel tabs s) (hcur : current ∈ tabs)
    (hr : FramesReady A tabs sphys dphys n s)
    (h₁ : mmuMapTable A kernel s current sphys sphys 1 mmuFlagRead = some s₁)
    (h₂ : mmuMapTable A kernel s₁ current dphys dphys 1 mmuFlagWrite = some s₂) :
    Remaps A kernel tabs current (bothMapped s.mem current sphys dphys) s s₂ ∧
      OnlyTables A tabs s s₂ := by
  have r₁ := mapPage_remaps hnull ht hcur hr.srcLow Nat.one_pos (by omega) h₁
  have r₂ := mapPage_remaps hnull r₁.tables hcur hr.destLow Nat.one_pos (by omega) h₂
  refine ⟨⟨r₂.tables, fun x hx => r₂.keeps x (r₁.keeps x hx), fun v hv => ?_,
    fun U hU hne v hv => (r₂.others U hU hne v hv).trans (r₁.others U hU hne v hv)⟩,
    (mapPage_grown ht hnull hcur hr.srcLow (by omega) h₁).trans
      (mapPage_grown r₁.tables hnull hcur hr.destLow (by omega) h₂)⟩
  rw [r₂.self v hv, r₁.self v hv]
  rfl

theorem copyFrames_spec (hnull : A.NeverNull) (ht : Tables A kernel tabs s) (hcur : current ∈ tabs)
    (hr : FramesReady A tabs sphys dphys n s)
    (h : copyFrames A kernel current s sphys dphys n = some s') :
    MovedOver A kernel tabs ((List.range n).map fun j => (dphys + j, sphys + j)) s s' := by
  obtain ⟨s₁, h₁, hrest⟩ := Option.bind_eq_some_iff.mp h
  obtain ⟨s₂, h₂, hrest⟩ := Option.bind_eq_some_iff.mp hrest
  obtain ⟨m₃, h₃, hrest⟩ := Option.bind_eq_some_iff.mp hrest
  obtain ⟨s₄, h₄, h₅⟩ := Option.bind_eq_some_iff.mp hrest
  obtain ⟨r₂, o₂⟩ := mapBoth hnull ht hcur hr h₁ h₂
  obtain ⟨m', h₃', htables, hbytes⟩ := hr.copy hcur o₂.toGrown r₂.self
  obtain rfl : m' = m₃ := Option.some.inj (h₃'.symm.trans h₃)
  have hget : ∀ U ∈ tabs, ∀ v < 4294967296, mmuMapGetTable m' U v = mmuMapGetTable s₂.mem U v :=
    fun U hU v hv => mmuMapGetTable_congr htables hU hv
  have ht₃ : Tables A kernel tabs { s₂ with mem := m' } := r₂.tables.congr htables
  have r₄ := putBack_remaps hnull ht₃ hcur hr.srcLow h₄
  have r₅ := putBack_remaps hnull r₄.tables hcur hr.destLow h₅
  refine .of_mapped o₂ htables hbytes ((putBack_grown ht₃ hnull hcur hr.srcLow h₄).trans
      (putBack_grown r₄.tables hnull hcur hr.destLow h₅))
    ⟨r₅.tables, fun x hx => r₅.keeps x (r₄.keeps x (r₂.keeps x hx)), fun U hU v hv => ?_⟩
    fun p hp => ?_
  · by_cases hUc : U = current
    · -- the page of each frame was saved, the others were not touched
      subst hUc
      rw [r₅.self v hv]
      by_cases hvd : pageMask v = pageMask dphys
      · rw [if_pos hvd]
      · rw [if_neg hvd, r₄.self v hv]
        by_cases hvs : pageMask v = pageMask sphys
        · rw [if_pos hvs]
        · rw [if_neg hvs, hget U hU v hv, r₂.self v hv, bothMapped, if_neg hvd, if_neg hvs]
    · rw [r₅.others U hU hUc v hv, r₄.others U hU hUc v hv, hget U hU v hv,
        r₂.others U hU hUc v hv]
  · obtain ⟨j, hj, rfl⟩ := List.mem_map.mp hp
    rw [List.mem_range] at hj
    have hpage := hr.page
    have hbase : pageBase (sphys + j) = pageBase sphys := by
      rw [pageBase_eq_iff]
      omega
    dsimp only
    rw [hbase]
    exact hr.src

theorem copyFrames_total (hnull : A.NeverNull) (ht : Tables A kernel tabs s) (hcur : current ∈ tabs)
    (hr : FramesReady A tabs sphys dphys n s) (hsup : EnoughPages A current s) :
    ∃ s', copyFrames A kernel current s sphys dphys n = some s' ∧ EnoughPages A current s' := by
  obtain ⟨s₁, h₁, e₁⟩ := mapPage_total sphys mmuFlagRead hnull ht hcur hsup hr.srcLow Nat.one_pos
    (by omega)
  have r₁ := mapPage_remaps hnull ht hcur hr.srcLow Nat.one_pos (by omega) h₁
  obtain ⟨s₂, h₂, e₂⟩ := mapPage_total dphys mmuFlagWrite hnull r₁.tables hcur e₁ hr.destLow
    Nat.one_pos (by omega)
  obtain ⟨r₂, o₂⟩ := mapBoth hnull ht hcur hr h₁ h₂
  obtain ⟨m₃, h₃, htables, -⟩ := hr.copy hcur o₂.toGrown r₂.self
  have ht₃ : Tables A kernel tabs { s₂ with mem := m₃ } := r₂.tables.congr htables
  have e₃ : EnoughPages A current { s₂ with mem := m₃ } :=
    e₂.congr rfl fun i => congrFun (htables current (.inl hcur)) i
  obtain ⟨s₄, h₄, e₄⟩ := putBack_total s.mem hnull ht₃ hcur e₃ hr.srcLow
  have r₄ := putBack_remaps hnull ht₃ hcur hr.srcLow h₄
  obtain ⟨s₅, h₅, e₅⟩ := putBack_total s.mem hnull r₄.tables hcur e₄ hr.destLow
  refine ⟨s₅, ?_, e₅⟩
  simp only [copyFrames, Option.bind_eq_bind, h₁, h₂, h₃, h₄, h₅, Option.bind_some]

end Frames

/-! ## The loop -/

section Loop

variable {s s₁ s' : Mmu H} {current dmmu dvirt smmu svirt size off n : Nat}

theorem pageBase_add {x i : Nat} (hi : x % 4096 = 0) (hlt : i < 4096) : pageBase (x + i) = x := by
  unfold pageBase
  omega

theorem TouchesData.dataPage {T virt k x : Nat} (h : TouchesData A tabs s T virt size)
    (hk : k < size) (hx : translate s.mem T (u32 (virt + k)) = some x) :
    x < kernelOffset ∧ DataPage A tabs s (pageBase x) := by
  rw [translate] at hx
  split at hx
  · rename_i flags frame hget
    obtain ⟨hlow, hdata⟩ := h k hk flags frame hget
    obtain ⟨hlt, hal⟩ := frame_lt hget hlow (u32 (virt + k))
    obtain rfl := Option.some.inj hx
    rw [pageBase_add hal (Nat.mod_lt _ (by decide))]
    exact ⟨hlt, hdata⟩
  · cases hx

/-- A round is refused because one of its two pages is not there, or there is
nothing to do, or two frames are copied. -/
theorem copyRound_cases (hoff : off < size) (hn : (svirt + off) % 4096 + n ≤ 4096)
    (hd : TouchesData A tabs s dmmu dvirt size) (hs : TouchesData A tabs s smmu svirt size) :
    (¬ CanCopy s.mem dmmu dvirt smmu svirt off ∧
      copyRound A kernel current dmmu smmu s (u32 (dvirt + off)) (u32 (svirt + off)) n =
        some (.error (-EUNSPEC))) ∨
    CanCopy s.mem dmmu dvirt smmu svirt off ∧ ∃ sphys dphys,
      (dphys % 4096 = sphys % 4096 ∧ sphys % 4096 + n ≤ 4096 ∧
        DataPage A tabs s (pageBase sphys)) ∧
      (dvirt % 4096 = svirt % 4096 → copyPairs s.mem dmmu dvirt smmu svirt off n =
        (List.range n).map fun i => (dphys + i, sphys + i)) ∧
      (dphys = sphys ∧ copyRound A kernel current dmmu smmu s (u32 (dvirt + off))
          (u32 (svirt + off)) n = some (.ok s) ∨
        FramesReady A tabs sphys dphys n s ∧
          copyRound A kernel current dmmu smmu s (u32 (dvirt + off)) (u32 (svirt + off)) n =
            (copyFrames A kernel current s sphys dphys n).map .ok) := by
  unfold copyRound
  split
  · rename_i sflag sphys dflag dphys hsget hdget
    split
    · rename_i hflags
      refine .inl ⟨?_, rfl⟩
      rintro ⟨⟨sf, sp, hs, hsf⟩, df, dp, hd, hdf⟩
      rw [hsget] at hs
      rw [hdget] at hd
      obtain ⟨rfl, rfl⟩ := Prod.mk.inj (Except.ok.inj hs)
      obtain ⟨rfl, rfl⟩ := Prod.mk.inj (Except.ok.inj hd)
      exact hflags.elim hsf hdf
    · rename_i hflags
      obtain ⟨hsf, hdf⟩ := not_or.mp hflags
      obtain ⟨hslow, hsdata⟩ := hs off hoff _ _ hsget
      obtain ⟨hdlow, hddata⟩ := hd off hoff _ _ hdget
      have hslt := frame_lt hsget hslow (svirt + off)
      have hdlt := frame_lt hdget hdlow (svirt + off)
      have hmod := Nat.mod_lt (svirt + off) (show 4096 > 0 by decide)
      have hsbase := pageBase_add hslt.2 hmod
      have hdbase := pageBase_add hdlt.2 hmod
      refine .inr ⟨⟨⟨_, _, hsget, hsf⟩, _, _, hdget, hdf⟩, sphys + (svirt + off) % 4096,
        dphys + (svirt + off) % 4096, ⟨by omega, by omega, by rw [hsbase]; exact hsdata⟩,
        fun heq => copyPairs_page hsget hdget heq hn, ?_⟩
      split
      · rename_i hshared
        exact .inl ⟨by rw [hshared], rfl⟩
      · rename_i hne
        refine .inr ⟨⟨hslt.1, hdlt.1, by omega, by omega, ?_, by rw [hsbase]; exact hsdata,
          by rw [hdbase]; exact hddata⟩, ?_⟩
        · rw [hsbase, hdbase]
          exact fun heq => hne heq.symm
        · rw [and_low, u32_mod]
  · rename_i hnot
    refine .inl ⟨?_, rfl⟩
    rintro ⟨⟨sf, sp, hs, -⟩, df, dp, hd, -⟩
    exact hnot _ _ _ _ hs hd

/-- The copies `ps` that were done for the `n` bytes from `off` on: at equal
places in the page they are those of the range. -/
structure Copied (A : PageHeap H) (kernel : Nat) (tabs : List Nat)
    (dmmu dvirt smmu svirt off n : Nat) (ps : List (Nat × Nat)) (s s' : Mmu H) : Prop where
  moved : MovedOver A kernel tabs ps s s'
  place : ∀ p ∈ ps, p.1 % 4096 = p.2 % 4096
  data : ∀ p ∈ ps, DataPage A tabs s' (pageBase p.2)
  pairs : dvirt % 4096 = svirt % 4096 → ps = copyPairs s.mem dmmu dvirt smmu svirt off n
  can : dvirt % 4096 = svirt % 4096 → ∀ k, off ≤ k → k < off + n →
    CanCopy s.mem dmmu dvirt smmu svirt k

theorem Copied.none (ht : Tables A kernel tabs s) :
    Copied A kernel tabs dmmu dvirt smmu svirt off 0 [] s s :=
  ⟨MovedOver.refl ht, fun _ hp => absurd hp List.not_mem_nil, fun _ hp => absurd hp
    List.not_mem_nil, fun _ => rfl, fun _ k hk hlt => by omega⟩

theorem copyPair_congr (hun : Unmoved A kernel tabs s s') (hd : dmmu ∈ tabs) (hs : smmu ∈ tabs)
    (k : Nat) :
    copyPair s'.mem dmmu dvirt smmu svirt k = copyPair s.mem dmmu dvirt smmu svirt k := by
  rw [copyPair, copyPair, hun.translate hd (u32_lt _), hun.translate hs (u32_lt _)]

theorem canCopy_congr (hun : Unmoved A kernel tabs s s') (hd : dmmu ∈ tabs) (hs : smmu ∈ tabs)
    (k : Nat) :
    CanCopy s'.mem dmmu dvirt smmu svirt k ↔ CanCopy s.mem dmmu dvirt smmu svirt k := by
  simp only [CanCopy, Allows, hun.same dmmu hd _ (u32_lt _), hun.same smmu hs _ (u32_lt _)]

theorem TouchesData.kept {T virt : Nat} (hdata : TouchesData A tabs s T virt size)
    (hun : Unmoved A kernel tabs s s') (hgrown : Grown A tabs s s') (hT : T ∈ tabs) :
    TouchesData A tabs s' T virt size := by
  intro k hk flags frame hget
  rw [hun.same T hT _ (u32_lt _)] at hget
  exact (hdata k hk flags frame hget).imp_right hgrown.dataPage

theorem Copied.trans {l : Nat} {ps qs : List (Nat × Nat)} (hd : dmmu ∈ tabs) (hs : smmu ∈ tabs)
    (h₁ : Copied A kernel tabs dmmu dvirt smmu svirt off n ps s s₁)
    (h₂ : Copied A kernel tabs dmmu dvirt smmu svirt (off + n) l qs s₁ s') :
    Copied A kernel tabs dmmu dvirt smmu svirt off (n + l) (ps ++ qs) s s' := by
  have hun := h₁.moved.unmoved
  refine ⟨h₁.moved.trans h₂.moved fun q hq hin => ?_, fun p hp => ?_, fun p hp => ?_,
    fun heq => ?_, fun heq k hk hlt => ?_⟩
  · exact (h₂.data q hq).2 (h₂.moved.grown.grows _ hin)
  · exact (List.mem_append.mp hp).elim (h₁.place p) (h₂.place p)
  · exact (List.mem_append.mp hp).elim (fun hp => h₂.moved.grown.dataPage (h₁.data p hp))
      (h₂.data p)
  · have hpairs : copyPairs s₁.mem dmmu dvirt smmu svirt (off + n) l =
        copyPairs s.mem dmmu dvirt smmu svirt (off + n) l :=
      List.map_congr_left fun k _ => copyPair_congr hun hd hs k
    rw [h₁.pairs heq, h₂.pairs heq, hpairs, copyPairs, copyPairs, copyPairs, ← List.map_append,
      List.range'_append_1]
  · by_cases hfirst : k < off + n
    · exact h₁.can heq k hk hfirst
    · exact (canCopy_congr hun hd hs k).mp (h₂.can heq k (by omega) (by omega))

/-- What a round has done when it did not fail. -/
theorem copyRound_spec (hnull : A.NeverNull) (ht : Tables A kernel tabs s) (hcur : current ∈ tabs)
    (hoff : off < size) (hn : (svirt + off) % 4096 + n ≤ 4096)
    (hd : TouchesData A tabs s dmmu dvirt size) (hs : TouchesData A tabs s smmu svirt size)
    (h : copyRound A kernel current dmmu smmu s (u32 (dvirt + off)) (u32 (svirt + off)) n =
      some (.ok s')) :
    CanCopy s.mem dmmu dvirt smmu svirt off ∧
      ∃ ps, Copied A kernel tabs dmmu dvirt smmu svirt off n ps s s' := by
  rcases @copyRound_cases _ A kernel _ _ current _ _ _ _ _ _ _ hoff hn hd hs with
    ⟨-, hround⟩ | ⟨hcan, sphys, dphys, ⟨hplace, hpage, hsrc⟩, hpairs, hround⟩
  · rw [hround] at h
    cases h
  · have hmoved : MovedOver A kernel tabs ((List.range n).map fun i => (dphys + i, sphys + i))
        s s' := by
      rcases hround with ⟨rfl, hround⟩ | ⟨hr, hround⟩
      · rw [hround] at h
        cases h
        refine ⟨Unmoved.refl ht, Grown.refl s, fun x _ => congrArg s.mem.byte ?_⟩
        refine (origin_of_same ?_ x).symm
        simp only [List.forall_mem_map, implies_true]
      · rw [hround] at h
        obtain ⟨s₁, hcopy, heq⟩ := Option.map_eq_some_iff.mp h
        cases heq
        exact copyFrames_spec hnull ht hcur hr hcopy
    refine ⟨hcan, _, hmoved, ?_, ?_, fun heq => (hpairs heq).symm, fun heq k hk hlt => ?_⟩
    · simp only [List.forall_mem_map, List.mem_range]
      intro i hi
      omega
    · simp only [List.forall_mem_map, List.mem_range]
      intro i hi
      have hbase : pageBase (sphys + i) = pageBase sphys := by
        rw [pageBase_eq_iff]
        omega
      rw [hbase]
      exact hmoved.grown.dataPage hsrc
    · obtain ⟨i, rfl⟩ := Nat.exists_eq_add_of_le hk
      exact hcan.page heq (by omega)

/-- The loop from `off` on copies some of the bytes, and all of them when it
returns `0`. -/
theorem copyLoop_spec (hnull : A.NeverNull) (hcur : current ∈ tabs) (hdmmu : dmmu ∈ tabs)
    (hsmmu : smmu ∈ tabs) {rounds : Nat} {ret : Int} (ht : Tables A kernel tabs s)
    (hd : TouchesData A tabs s dmmu dvirt size) (hs : TouchesData A tabs s smmu svirt size)
    (h : copyLoop A kernel current dmmu dvirt smmu svirt size rounds s off = some (ret, s')) :
    ∃ n ≤ size - off, (ret = 0 → n = size - off) ∧
      ∃ ps, Copied A kernel tabs dmmu dvirt smmu svirt off n ps s s' := by
  have hdone : ∀ s : Mmu H, Tables A kernel tabs s → ∀ off, size ≤ off → ∃ n ≤ size - off,
      ((0 : Int) = 0 → n = size - off) ∧
        ∃ ps, Copied A kernel tabs dmmu dvirt smmu svirt off n ps s s :=
    fun s ht off hle => ⟨0, by omega, fun _ => by omega, [], .none ht⟩
  induction rounds generalizing s off with
  | zero =>
    rw [copyLoop] at h
    split at h
    · cases h
    · cases h
      exact hdone _ ht off (by omega)
  | succ rounds ih =>
    rw [copyLoop] at h
    split at h
    · rename_i hoff
      have hn := chunkSize_eq (u32 (svirt + off)) (size - off)
      rw [u32_mod] at hn
      dsimp only at h
      generalize chunkSize (u32 (svirt + off)) (size - off) = n at h hn
      obtain ⟨r, hround, hrest⟩ := Option.bind_eq_some_iff.mp h
      have hcases := @copyRound_cases _ A kernel _ _ current _ _ _ _ _ _ n hoff (by omega) hd hs
      cases r with
      | error err =>
        have herr : err = -EUNSPEC := by
          rcases hcases with ⟨-, hfail⟩ | ⟨-, sphys, dphys, -, -, ⟨-, hok⟩ | ⟨-, hok⟩⟩
          · rw [hfail] at hround
            cases hround
            rfl
          · rw [hok] at hround
            cases hround
          · rw [hok] at hround
            obtain ⟨_, -, heq⟩ := Option.map_eq_some_iff.mp hround
            cases heq
        cases hrest
        subst herr
        exact ⟨0, Nat.zero_le _, fun h0 => absurd h0 (by decide), [], .none ht⟩
      | ok s₁ =>
        obtain ⟨-, ps, hcopied⟩ := copyRound_spec hnull ht hcur hoff (by omega) hd hs hround
        have hun := hcopied.moved.unmoved
        have hgrown := hcopied.moved.grown
        obtain ⟨l, hl, hall, qs, hrest'⟩ := ih hun.tables (hd.kept hun hgrown hdmmu)
          (hs.kept hun hgrown hsmmu) hrest
        exact ⟨n + l, by omega, fun h0 => by have := hall h0; omega, ps ++ qs,
          hcopied.trans hdmmu hsmmu hrest'⟩
    · cases h
      exact hdone _ ht off (by omega)

end Loop

/-! ## A variable -/

section Write

variable {s s' : Mmu H} {current table virt dphys : Nat} {bs : List Nat}

/-- Every byte is as it was, or is one of the variable's at its place. -/
theorem writeFrame_spec (hnull : A.NeverNull) (ht : Tables A kernel tabs s)
    (hcur : current ∈ tabs) (hlow : dphys < kernelOffset) (hpage : dphys % 4096 + bs.length ≤ 4096)
    (hdata : DataPage A tabs s (pageBase dphys))
    (h : writeFrame A kernel current s dphys bs = some s') :
    Unmoved A kernel tabs s s' ∧ Grown A tabs s s' ∧
      ∀ x, ¬ TablePage tabs s'.mem (pageBase x) →
        s'.mem.byte x = s.mem.byte x ∧ (∀ j < bs.length, dphys + j ≠ x) ∨
          ∃ j, ∃ h : j < bs.length, dphys + j = x ∧ s'.mem.byte x = bs[j] % 256 := by
  have hK : kernelOffset = 3221225472 := rfl
  obtain ⟨s₁, h₁, hrest⟩ := Option.bind_eq_some_iff.mp h
  obtain ⟨m₂, h₂, h₃⟩ := Option.bind_eq_some_iff.mp hrest
  have r₁ := mapPage_remaps hnull ht hcur hlow Nat.one_pos (by omega) h₁
  have o₁ := mapPage_grown ht hnull hcur hlow (by omega) h₁
  have hto : ∀ j < bs.length, access s₁.mem current (u32 (dphys + j)) mmuFlagWrite =
      some (dphys + j) := by
    intro j hj
    have hmask : pageMask (dphys + j) = pageMask dphys := by
      rw [pageMask_eq_iff (by omega) (by omega)]
      omega
    rw [u32_of_lt (by omega), access, r₁.self _ (by omega), if_pos hmask]
    dsimp only
    rw [if_neg (by simp [mmuFlagRead, mmuFlagWrite, mmuFlagKernel]), pageMask_eq (by omega)]
    exact congrArg some (by omega)
  have hnot : ∀ j < bs.length, ¬ TablePage tabs s₁.mem (pageBase (dphys + j)) := by
    intro j hj
    have hbase : pageBase (dphys + j) = pageBase dphys := by
      rw [pageBase_eq_iff]
      omega
    rw [hbase]
    exact (o₁.dataPage hdata).2
  obtain ⟨m₂', h₂', htables, hbytes⟩ := storeVirt_spec hcur hto hnot
  obtain rfl : m₂' = m₂ := Option.some.inj (h₂'.symm.trans h₂)
  have ht₂ : Tables A kernel tabs { s₁ with mem := m₂' } := r₁.tables.congr htables
  have r₃ := putBack_remaps hnull ht₂ hcur hlow h₃
  have o₃ := putBack_grown ht₂ hnull hcur hlow h₃
  have g₂ : Grown A tabs s₁ { s₁ with mem := m₂' } :=
    Grown.of_same fun p => (TablePage.congr htables).symm
  have hget : ∀ U ∈ tabs, ∀ v < 4294967296, mmuMapGetTable m₂' U v = mmuMapGetTable s₁.mem U v :=
    fun U hU v hv => mmuMapGetTable_congr htables hU hv
  refine ⟨⟨r₃.tables, fun x hx => r₃.keeps x (r₁.keeps x hx), fun U hU v hv => ?_⟩,
    (o₁.toGrown.trans g₂).trans o₃.toGrown, fun x hx => ?_⟩
  · by_cases hUc : U = current
    · subst hUc
      rw [r₃.self v hv, hget U hU v hv, r₁.self v hv]
      by_cases hvp : pageMask v = pageMask dphys
      · rw [if_pos hvp]
      · rw [if_neg hvp, if_neg hvp]
    · rw [r₃.others U hU hUc v hv, hget U hU v hv, r₁.others U hU hUc v hv]
  · have hafter : s'.mem.byte x = m₂'.byte x := PageMem.byte_congr (o₃.same _ hx)
    have hbefore : s₁.mem.byte x = s.mem.byte x :=
      PageMem.byte_congr (o₁.same _ fun hin => hx (o₃.grows _ (g₂.grows _ hin)))
    rw [hafter, ← hbefore]
    exact hbytes x

/-- The loop from `off` on: every byte is as it was, or one of the variable's
at its place, and all are stored if the table allows it. -/
theorem writeLoop_spec (hnull : A.NeverNull) (hcur : current ∈ tabs) (htable : table ∈ tabs)
    {rounds off : Nat} {ret : Int} (ht : Tables A kernel tabs s)
    (hdata : TouchesData A tabs s table virt bs.length)
    (h : writeLoop A kernel current table virt bs rounds s off = some (ret, s')) :
    Unmoved A kernel tabs s s' ∧ Grown A tabs s s' ∧
      ∀ x, ¬ TablePage tabs s'.mem (pageBase x) →
        (∃ k, off ≤ k ∧ ∃ h : k < bs.length, translate s.mem table (u32 (virt + k)) = some x ∧
          s'.mem.byte x = bs[k] % 256) ∨
        s'.mem.byte x = s.mem.byte x ∧
          ((∀ k < bs.length, Allows s.mem table (u32 (virt + k)) mmuFlagWrite) →
            ∀ k, off ≤ k → k < bs.length → translate s.mem table (u32 (virt + k)) ≠ some x) := by
  induction rounds generalizing s off with
  | zero =>
    rw [writeLoop] at h
    split at h
    · cases h
    · cases h
      exact ⟨Unmoved.refl ht, Grown.refl _, fun x _ => .inr ⟨rfl, fun _ k _ _ => by omega⟩⟩
  | succ rounds ih =>
    rw [writeLoop] at h
    split at h
    · rename_i hoff
      have hn := chunkSize_eq (u32 (virt + off)) (bs.length - off)
      rw [u32_mod] at hn
      simp only [and_low, u32_mod] at h
      generalize chunkSize (u32 (virt + off)) (bs.length - off) = n at h hn
      split at h
      · rename_i err hget
        cases h
        refine ⟨Unmoved.refl ht, Grown.refl _, fun x _ => .inr ⟨rfl, fun hall _ _ _ => ?_⟩⟩
        obtain ⟨flags, frame, hok, -⟩ := hall off hoff
        rw [hget] at hok
        cases hok
      · rename_i flags frame hget
        split at h
        · rename_i hflags
          cases h
          refine ⟨Unmoved.refl ht, Grown.refl _, fun x _ => .inr ⟨rfl, fun hall _ _ _ => ?_⟩⟩
          obtain ⟨flags', frame', hok, hne⟩ := hall off hoff
          rw [hget] at hok
          cases hok
          exact absurd hflags hne
        · obtain ⟨s₁, hwrite, hrest⟩ := Option.bind_eq_some_iff.mp h
          obtain ⟨hlow, hframe⟩ := hdata off hoff _ _ hget
          have hlt := frame_lt hget hlow (virt + off)
          have hmod := Nat.mod_lt (virt + off) (show 4096 > 0 by decide)
          have hlen : ((bs.drop off).take n).length = n := by
            rw [List.length_take, List.length_drop]
            omega
          obtain ⟨hun, hgrown, hround⟩ := writeFrame_spec hnull ht hcur hlt.1
            (by rw [hlen]; omega) (by rw [pageBase_add hlt.2 hmod]; exact hframe) hwrite
          obtain ⟨hun', hgrown', hlater⟩ := ih hun.tables (hdata.kept hun hgrown htable) hrest
          have hat : ∀ j < n, translate s.mem table (u32 (virt + (off + j))) =
              some (frame + (virt + off) % 4096 + j) := by
            intro j hj
            have htr := translate_page hget (i := j) (by rw [u32_mod]; omega)
            rw [← Nat.add_assoc, u32_page (a := virt + off) (by omega), htr, u32_mod]
          have hsame : ∀ k, translate s₁.mem table (u32 (virt + k)) =
              translate s.mem table (u32 (virt + k)) := fun k => hun.translate htable (u32_lt _)
          have hallows : (∀ k < bs.length, Allows s.mem table (u32 (virt + k)) mmuFlagWrite) →
              ∀ k < bs.length, Allows s₁.mem table (u32 (virt + k)) mmuFlagWrite :=
            fun hall k hk => (allows_congr _ (hun.same table htable _ (u32_lt _))).mpr (hall k hk)
          refine ⟨hun.trans hun', hgrown.trans hgrown', fun x hx => ?_⟩
          rcases hlater x hx with ⟨k, hk, hklt, hplace, hval⟩ | ⟨hkept, hnot⟩
          · rw [hsame] at hplace
            exact .inl ⟨k, by omega, hklt, hplace, hval⟩
          · simp only [hlen] at hround
            rcases hround x fun hin => hx (hgrown'.grows _ hin) with ⟨hkept₁, hnot₁⟩ |
              ⟨j, hj, hplace, hval⟩
            · refine .inr ⟨hkept.trans hkept₁, fun hall k hk hklt hplace => ?_⟩
              by_cases hchunk : k < off + n
              · obtain ⟨j, rfl⟩ := Nat.exists_eq_add_of_le hk
                rw [hat j (by omega)] at hplace
                exact hnot₁ j (by omega) (Option.some.inj hplace)
              · rw [← hsame] at hplace
                exact hnot (hallows hall) k (by omega) hklt hplace
            · refine .inl ⟨off + j, by omega, by omega, ?_, ?_⟩
              · rw [hat j hj, hplace]
              · rw [hkept, hval, List.getElem_take, List.getElem_drop]
    · cases h
      exact ⟨Unmoved.refl ht, Grown.refl _, fun x _ => .inr ⟨rfl, fun _ k _ _ => by omega⟩⟩

end Write

end Spec

end LambdaOs
