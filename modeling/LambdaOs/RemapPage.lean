import LambdaOs.PagingClone

/-!
# Changing the mapping of a page for a while

`mm/mmu.c` reaches frames of other address spaces by mapping them at their own
address in the current table, and puts back what was mapped there. Here are
the pieces: saving a mapping, putting it back, and what mapping and unmapping
one page does to the answers of all tables (`Remaps`). Stale TLB entries are
not modelled.

When all is put back, every table answers as before (`Unmoved`).
-/

namespace LambdaOs

/-- The physical address of `v`. -/
def translate (m : PageMem) (table v : Nat) : Option Nat :=
  match mmuMapGetTable m table v with
  | .ok (_, frame) => some (frame + v % 4096)
  | .error _ => none

/-! ## Saving a mapping -/

structure MmuMapEntry where
  virt : Nat
  phys : Nat
  flags : Nat

/-- `none` is the error return. -/
def mmuMapSave (m : PageMem) (current virt : Nat) : Option MmuMapEntry :=
  match mmuMapGetTable m current virt with
  | .ok (flags, phys) => some ⟨virt, phys, flags⟩
  | .error _ => none

/-- Put back what was saved for `virt`, or unmap it again. -/
def putBack {H : Type} (A : PageHeap H) (kernel current : Nat) (s : Mmu H)
    (saved : Option MmuMapEntry) (virt : Nat) : Option (Mmu H) :=
  match saved with
  | some ent => mmuMapTable A kernel s current ent.virt ent.phys pageSz ent.flags
  | none => (mmuUnmapTable s.mem current virt 1).map fun m => { s with mem := m }

/-! ## Parts of a page -/

/-- `to_copy`: at most to the end of the source page. -/
def chunkSize (src left : Nat) : Nat :=
  let toCopy := if left > pageSz then pageSz else left
  if toCopy + (src &&& 0xFFF) > pageSz then pageSz - (src &&& 0xFFF) else toCopy

theorem and_low (v : Nat) : v &&& 0xFFF = v % 4096 := Nat.and_two_pow_sub_one_eq_mod v 12

/-- A round stays within the page of `src`. -/
theorem chunkSize_spec {src left : Nat} (h : 0 < left) :
    0 < chunkSize src left ∧ chunkSize src left ≤ left ∧
      src % 4096 + chunkSize src left ≤ 4096 := by
  have hmod := Nat.mod_lt src (show 4096 > 0 by decide)
  simp only [chunkSize, and_low, pageSz]
  by_cases hleft : left > 4096
  · simp only [hleft, if_true]
    split <;> omega
  · simp only [hleft, if_false]
    split <;> omega

theorem chunkSize_eq (src left : Nat) : chunkSize src left = min left (4096 - src % 4096) := by
  have hmod := Nat.mod_lt src (show 4096 > 0 by omega)
  simp only [chunkSize, and_low, pageSz]
  by_cases hleft : left > 4096
  · simp only [hleft, if_true]
    split <;> omega
  · simp only [hleft, if_false]
    split <;> omega

/-! ## Addresses -/

/-- `table` maps `v` and allows `flag`. -/
def Allows (m : PageMem) (table v flag : Nat) : Prop :=
  ∃ flags frame, mmuMapGetTable m table v = .ok (flags, frame) ∧ flags &&& flag ≠ 0

instance (m : PageMem) (table v flag : Nat) : Decidable (Allows m table v flag) :=
  decidable_of_iff (∃ ans ∈ (mmuMapGetTable m table v).toOption, ans.1 &&& flag ≠ 0) <| by
    rw [Allows]
    cases mmuMapGetTable m table v <;> simp [Except.toOption, Prod.ext_iff]

theorem u32_page {a i : Nat} (hi : a % 4096 + i < 4096) : u32 (a + i) = u32 a + i := by
  unfold u32
  omega

theorem u32_mod (a : Nat) : u32 a % 4096 = a % 4096 := by
  unfold u32
  omega

theorem pageMask_div {v : Nat} (hv : v < 4294967296) : pageMask v / 4096 = v / 4096 := by
  rw [pageMask_eq hv]
  omega

theorem lt_pageMask {v : Nat} (hv : v < 4294967296) : v < pageMask v + 4096 := by
  rw [pageMask_eq hv]
  omega

theorem pageMask_eq_iff {v w : Nat} (hv : v < 4294967296) (hw : w < 4294967296) :
    pageMask v = pageMask w ↔ v / 4096 = w / 4096 := by
  rw [pageMask_eq hv, pageMask_eq hw]
  omega

/-- The page of `a` below the kernel. -/
theorem pageMask_low {a : Nat} (ha : a < kernelOffset) : pageMask a + 4096 ≤ kernelOffset := by
  have hlt : a < 4294967296 := Nat.lt_trans ha (by decide)
  have hmask := pageMask_eq hlt
  simp only [kernelOffset] at ha ⊢
  omega

/-- The flags and the frame of an answer: what mapping them gives again. -/
theorem entryAnswer_ok {w flags frame : Nat} (h : entryAnswer w = .ok (flags, frame)) :
    mmuFlagRead ||| (flags &&& mmuFlagWrite) ||| (flags &&& mmuFlagKernel) = flags ∧
      pageMask frame = frame := by
  unfold entryAnswer at h
  split at h
  · obtain ⟨rfl, rfl⟩ := Prod.mk.inj (Except.ok.inj h)
    refine ⟨?_, pageMask_pageMask w⟩
    by_cases hw : w &&& pageFlagWritable = 0 <;> by_cases hu : w &&& pageFlagUser = 0 <;>
      simp [hw, hu, mmuFlagRead, mmuFlagWrite, mmuFlagKernel]
  · cases h

/-- A translated address and those after it on the same page. -/
theorem translate_page {m : PageMem} {T v flags frame : Nat}
    (h : mmuMapGetTable m T v = .ok (flags, frame)) {i : Nat} (hi : v % 4096 + i < 4096) :
    translate m T (v + i) = some (frame + v % 4096 + i) := by
  have hpage : (v + i) / 4096 = v / 4096 := by omega
  have hoff : (v + i) % 4096 = v % 4096 + i := by omega
  rw [translate, mmuMapGetTable_page m T hpage, h]
  simp only [hoff, Nat.add_assoc]

theorem frame_aligned {m : PageMem} {T v flags frame : Nat}
    (h : mmuMapGetTable m T v = .ok (flags, frame)) : frame % 4096 = 0 := by
  rw [← (entryAnswer_ok h).2]
  exact pageMask_aligned frame

theorem Allows.translate {m : PageMem} {T v flag : Nat} (h : Allows m T v flag) :
    ∃ x, translate m T v = some x ∧ x % 4096 = v % 4096 := by
  obtain ⟨flags, frame, hget, -⟩ := h
  have hal := frame_aligned hget
  exact ⟨frame + v % 4096, by rw [LambdaOs.translate, hget], by omega⟩

theorem frame_lt {m : PageMem} {T v flags frame : Nat}
    (h : mmuMapGetTable m T v = .ok (flags, frame)) (hlow : frame < kernelOffset) (i : Nat) :
    frame + i % 4096 < kernelOffset ∧ frame % 4096 = 0 := by
  have hal := frame_aligned h
  simp only [kernelOffset] at hlow ⊢
  omega

section Remap

variable {H : Type} {A : PageHeap H} {kernel : Nat} {tabs : List Nat}

/-! ## One table changes -/

theorem pgdirMapPage_keeps {s s' : Mmu H} {T phys virt flags : Nat}
    (h : pgdirMapPage A kernel s T phys virt flags = some s') {x : Nat}
    (hx : A.held s.heap x) : A.held s'.heap x := by
  obtain ⟨s₁, hadd, hret⟩ := Option.bind_eq_some_iff.mp h
  obtain rfl := Option.some.inj hret
  rcases addPageTable_cases hadd with ⟨-, rfl⟩ | ⟨-, page, hk, -⟩
  · exact hx
  · exact A.keeps hk hx

theorem mmuMapTable_keeps {s s' : Mmu H} {T virt phys size flags : Nat}
    (h : mmuMapTable A kernel s T virt phys size flags = some s') {x : Nat}
    (hx : A.held s.heap x) : A.held s'.heap x := by
  obtain ⟨offs, -, hrun⟩ := Option.bind_eq_some_iff.mp h
  clear h
  induction offs generalizing s with
  | nil =>
    obtain rfl := Option.some.inj hrun
    exact hx
  | cons off offs ih =>
    rw [List.foldlM_cons] at hrun
    obtain ⟨s₁, hstep, hrest⟩ := Option.bind_eq_some_iff.mp hrun
    exact ih (pgdirMapPage_keeps hstep hx) hrest

theorem mmuStep_keeps {s s' : Mmu H} {T : Nat} {op : MmuOp}
    (h : mmuStep A kernel T s op = some s') {x : Nat} (hx : A.held s.heap x) :
    A.held s'.heap x := by
  cases op with
  | map virt phys size flags => exact mmuMapTable_keeps h hx
  | unmap virt size =>
    obtain ⟨m, -, rfl⟩ := Option.map_eq_some_iff.mp h
    exact hx

/-- Table `T` answers as `answer` says, the other tables as before. -/
structure Remaps (A : PageHeap H) (kernel : Nat) (tabs : List Nat) (T : Nat)
    (answer : Nat → Except Int (Nat × Nat)) (s s' : Mmu H) : Prop where
  tables : Tables A kernel tabs s'
  keeps : ∀ x, A.held s.heap x → A.held s'.heap x
  self : ∀ v < 4294967296, mmuMapGetTable s'.mem T v = answer v
  others : ∀ U ∈ tabs, U ≠ T → ∀ v < 4294967296,
    mmuMapGetTable s'.mem U v = mmuMapGetTable s.mem U v

theorem mmuStep_remaps {s s' : Mmu H} {T : Nat} (hnull : A.NeverNull)
    (ht : Tables A kernel tabs s) (hT : T ∈ tabs) {op : MmuOp} (hop : op.Valid)
    (h : mmuStep A kernel T s op = some s') :
    Remaps A kernel tabs T
      (fun v => if op.Covers v then op.answer v else mmuMapGetTable s.mem T v) s s' := by
  obtain ⟨ht', offs, hoffs, hrange⟩ := mmuStep_low hnull ht hT hop.low h
  refine ⟨ht', fun x => mmuStep_keeps h, ?_, ?_⟩
  · intro v hv
    rw [mmuMapGetTable, hrange.self v hv, hop.base_eq, lastWrite_range hop hoffs _ _ hv]
    split
    · exact op.entryAnswer_word hop hv
    · rfl
  · intro U hU hne v hv
    rw [mmuMapGetTable, mmuMapGetTable, hrange.others U hU hne v hv]

/-! ## One page changes -/

theorem mmuMapTable_pageMask (s : Mmu H) (T virt phys size flags : Nat) :
    mmuMapTable A kernel s T (pageMask virt) phys size flags =
      mmuMapTable A kernel s T virt phys size flags := by
  simp only [mmuMapTable, pageMask_pageMask]

theorem mmuUnmapTable_one (m : PageMem) (T : Nat) {a : Nat} (ha : a < 4294967296) :
    mmuUnmapTable m T a 1 = mmuUnmapTable m T (pageMask a) 1 := by
  have hmask := pageMask_le a
  obtain ⟨hpd, hpt⟩ := index_eq_iff.mpr (pageMask_div ha)
  have hoffs : pageOffs 1 = some [0] := rfl
  simp only [mmuUnmapTable, hoffs, Option.bind_eq_bind, Option.bind_some, List.foldl_cons,
    List.foldl_nil, Nat.add_zero, u32_of_lt ha, u32_of_lt (show pageMask a < 4294967296 by omega),
    unmapPage, hpd, hpt]

theorem covers_page (op : MmuOp) {a : Nat} (hvirt : op.virt = pageMask a) (hpos : 0 < op.size)
    (hsize : op.size ≤ 4096) (v : Nat) : op.Covers v ↔ pageMask v = pageMask a := by
  have h1 := pageMask_aligned v
  have h2 := pageMask_aligned a
  rw [MmuOp.Covers, hvirt]
  omega

/-- The range of a mapping below the kernel, for any start address. -/
theorem mapRange_remaps {s s' : Mmu H} {T virt phys size flags : Nat} (hnull : A.NeverNull)
    (ht : Tables A kernel tabs s) (hT : T ∈ tabs) (hlow : pageMask virt + size ≤ kernelOffset)
    (h : mmuMapTable A kernel s T virt phys size flags = some s') :
    Remaps A kernel tabs T (fun v =>
      if pageMask virt ≤ pageMask v ∧ pageMask v < pageMask virt + size then
        .ok (mmuFlagRead ||| (flags &&& mmuFlagWrite) ||| (flags &&& mmuFlagKernel),
          u32 (pageMask phys + (pageMask v - pageMask virt)))
      else mmuMapGetTable s.mem T v) s s' := by
  rcases Nat.eq_zero_or_pos size with rfl | hpos
  · -- nothing is mapped
    obtain rfl : s = s' := Option.some.inj h
    refine ⟨ht, fun _ hx => hx, ?_, fun _ _ _ _ _ => rfl⟩
    intro v _
    rw [if_neg (by omega)]
  · have hop : (MmuOp.map (pageMask virt) phys size flags).Valid :=
      ⟨pageMask_aligned virt, hpos, hlow⟩
    rw [← mmuMapTable_pageMask] at h
    exact mmuStep_remaps hnull ht hT hop h

theorem mapPage_remaps {s s' : Mmu H} {T a phys size flags : Nat} (hnull : A.NeverNull)
    (ht : Tables A kernel tabs s) (hT : T ∈ tabs) (ha : a < kernelOffset) (hpos : 0 < size)
    (hsize : size ≤ 4096) (h : mmuMapTable A kernel s T a phys size flags = some s') :
    Remaps A kernel tabs T (fun v => if pageMask v = pageMask a then
        .ok (mmuFlagRead ||| (flags &&& mmuFlagWrite) ||| (flags &&& mmuFlagKernel), pageMask phys)
      else mmuMapGetTable s.mem T v) s s' := by
  have hop : (MmuOp.map (pageMask a) phys size flags).Valid := by
    have := pageMask_low ha
    exact ⟨pageMask_aligned a, hpos, by simp only [MmuOp.virt, MmuOp.size]; omega⟩
  rw [← mmuMapTable_pageMask] at h
  have hr := mmuStep_remaps hnull ht hT hop h
  refine ⟨hr.tables, hr.keeps, ?_, hr.others⟩
  intro v hv
  have hcov := covers_page (.map (pageMask a) phys size flags) rfl hpos hsize v
  rw [hr.self v hv]
  simp only [hcov]
  split
  · rename_i heq
    have := pageMask_le phys
    simp only [MmuOp.answer, heq, Nat.sub_self, Nat.add_zero]
    rw [u32_of_lt (by omega)]
  · rfl

theorem unmapPage_remaps {s : Mmu H} {T a : Nat} {m : PageMem} (hnull : A.NeverNull)
    (ht : Tables A kernel tabs s) (hT : T ∈ tabs) (ha : a < kernelOffset)
    (h : mmuUnmapTable s.mem T a 1 = some m) :
    Remaps A kernel tabs T (fun v => if pageMask v = pageMask a then .error (-EUNSPEC)
      else mmuMapGetTable s.mem T v) s { s with mem := m } := by
  have hop : (MmuOp.unmap (pageMask a) 1).Valid := by
    have := pageMask_low ha
    exact ⟨pageMask_aligned a, Nat.one_pos, by simp only [MmuOp.virt, MmuOp.size]; omega⟩
  rw [mmuUnmapTable_one _ _ (Nat.lt_trans ha (by decide))] at h
  have hstep : mmuStep A kernel T s (.unmap (pageMask a) 1) = some { s with mem := m } := by
    rw [mmuStep, h, Option.map_some]
  have hr := mmuStep_remaps hnull ht hT hop hstep
  refine ⟨hr.tables, hr.keeps, ?_, hr.others⟩
  intro v hv
  have hcov := covers_page (.unmap (pageMask a) 1) rfl Nat.one_pos (Nat.le_of_ble_eq_true rfl) v
  rw [hr.self v hv]
  simp only [hcov, MmuOp.answer]

theorem putBack_remaps {s s' : Mmu H} {current a : Nat} {m₀ : PageMem} (hnull : A.NeverNull)
    (ht : Tables A kernel tabs s) (hcur : current ∈ tabs) (ha : a < kernelOffset)
    (h : putBack A kernel current s (mmuMapSave m₀ current a) a = some s') :
    Remaps A kernel tabs current (fun v => if pageMask v = pageMask a then
      mmuMapGetTable m₀ current v else mmuMapGetTable s.mem current v) s s' := by
  have hlt : a < 4294967296 := Nat.lt_trans ha (by decide)
  have hpage : ∀ v < 4294967296, pageMask v = pageMask a →
      mmuMapGetTable m₀ current v = mmuMapGetTable m₀ current a := fun v hv heq =>
    mmuMapGetTable_page _ _ ((pageMask_eq_iff hv hlt).mp heq)
  unfold mmuMapSave at h
  cases hget : mmuMapGetTable m₀ current a with
  | ok ans =>
    obtain ⟨flags, phys⟩ := ans
    rw [hget] at h
    obtain ⟨hflags, hphys⟩ := entryAnswer_ok hget
    have hr := mapPage_remaps hnull ht hcur ha (by decide) (Nat.le_refl _) h
    refine ⟨hr.tables, hr.keeps, ?_, hr.others⟩
    intro v hv
    rw [hr.self v hv, hflags, hphys]
    split
    · rename_i heq
      rw [hpage v hv heq, hget]
    · rfl
  | error err =>
    rw [hget, putBack] at h
    obtain ⟨m, hm, rfl⟩ := Option.map_eq_some_iff.mp h
    have hr := unmapPage_remaps hnull ht hcur ha hm
    refine ⟨hr.tables, hr.keeps, ?_, hr.others⟩
    intro v hv
    rw [hr.self v hv]
    split
    · rename_i heq
      have herr : err = -EUNSPEC := by
        unfold mmuMapGetTable entryAnswer at hget
        split at hget
        · cases hget
        · exact (Except.error.inj hget).symm
      rw [hpage v hv heq, hget, herr]
    · rfl

/-! ## Mapping a page does not fail -/

theorem Tables.single {s : Mmu H} (ht : Tables A kernel tabs s) {T : Nat} (hT : T ∈ tabs) :
    Tables A kernel [T] s where
  aligned U hU := ht.aligned U (List.mem_singleton.mp hU ▸ hT)
  dirHeld U hU := ht.dirHeld U (List.mem_singleton.mp hU ▸ hT)
  pageHeld U hU := ht.pageHeld U (List.mem_singleton.mp hU ▸ hT)
  notDir U hU i hi hp hmem := by
    rw [List.mem_singleton] at hU hmem
    refine ht.notDir U (hU ▸ hT) i hi hp ?_
    rw [hmem]
    exact hT
  shared U hU V hV i hi j hj hp hq heq := by
    rw [List.mem_singleton] at hU hV
    subst hU hV
    exact ⟨(ht.shared V hT V hT i hi j hj hp hq heq).1, .inl rfl⟩

theorem mapPage_total {s : Mmu H} {T a size : Nat} (phys flags : Nat) (hnull : A.NeverNull)
    (ht : Tables A kernel tabs s) (hT : T ∈ tabs) (hsup : EnoughPages A T s)
    (ha : a < kernelOffset) (hpos : 0 < size) (hsize : size ≤ 4096) :
    ∃ s', mmuMapTable A kernel s T a phys size flags = some s' ∧ EnoughPages A T s' := by
  have hop : (MmuOp.map (pageMask a) phys size flags).Valid := by
    have := pageMask_low ha
    exact ⟨pageMask_aligned a, hpos, by simp only [MmuOp.virt, MmuOp.size]; omega⟩
  rw [← mmuMapTable_pageMask]
  exact mmuStep_total hnull (ht.single hT) hsup hop

theorem putBack_total {s : Mmu H} {T a : Nat} (m₀ : PageMem) (hnull : A.NeverNull)
    (ht : Tables A kernel tabs s) (hT : T ∈ tabs) (hsup : EnoughPages A T s)
    (ha : a < kernelOffset) :
    ∃ s', putBack A kernel T s (mmuMapSave m₀ T a) a = some s' ∧ EnoughPages A T s' := by
  unfold mmuMapSave
  cases mmuMapGetTable m₀ T a with
  | ok ans => exact mapPage_total _ _ hnull ht hT hsup ha (by decide) (Nat.le_refl _)
  | error err =>
    have hop : (MmuOp.unmap (pageMask a) 1).Valid := by
      have := pageMask_low ha
      exact ⟨pageMask_aligned a, Nat.one_pos, by simp only [MmuOp.virt, MmuOp.size]; omega⟩
    rw [putBack, mmuUnmapTable_one _ _ (Nat.lt_trans ha (by decide))]
    exact mmuStep_total hnull (ht.single hT) hsup hop

/-! ## All is put back -/

/-- Every table of the set answers as before. -/
structure Unmoved (A : PageHeap H) (kernel : Nat) (tabs : List Nat) (s s' : Mmu H) : Prop where
  tables : Tables A kernel tabs s'
  keeps : ∀ x, A.held s.heap x → A.held s'.heap x
  same : ∀ U ∈ tabs, ∀ v < 4294967296, mmuMapGetTable s'.mem U v = mmuMapGetTable s.mem U v

theorem Unmoved.refl {s : Mmu H} (ht : Tables A kernel tabs s) : Unmoved A kernel tabs s s :=
  ⟨ht, fun _ h => h, fun _ _ _ _ => rfl⟩

theorem Unmoved.trans {s s₁ s' : Mmu H} (h₁ : Unmoved A kernel tabs s s₁)
    (h₂ : Unmoved A kernel tabs s₁ s') : Unmoved A kernel tabs s s' :=
  ⟨h₂.tables, fun x hx => h₂.keeps x (h₁.keeps x hx),
    fun U hU v hv => (h₂.same U hU v hv).trans (h₁.same U hU v hv)⟩

theorem Unmoved.translate {s s' : Mmu H} (h : Unmoved A kernel tabs s s') {U v : Nat}
    (hU : U ∈ tabs) (hv : v < 4294967296) : translate s'.mem U v = translate s.mem U v := by
  rw [LambdaOs.translate, LambdaOs.translate, h.same U hU v hv]

end Remap

end LambdaOs
