import LambdaOs.PhysMem

/-!
# Writing to and reading from another address space

`mmu_write_data` and `mmu_read_data` of `mm/mmu.c`: for each page of the range
the frame is looked up in the other table and mapped at its own address in the
current one, a part of the buffer is copied, and what was mapped there is put
back. The buffer is in the current address space.

Both functions are one loop (`dataLoop`), over the memory of `PhysMem`. A page
table that the heap has no memory for would be cleared at `NULL`, which the
kernel may not write to: the calls are over the heap's served requests.

A round changes bytes as single copies do, and no table's answers
(`moveFrame_spec`); by induction on the rounds so does the loop, up to the
first page it may not use (`dataLoop_spec`).
-/

namespace LambdaOs

/-! ## The model -/

/-- The two functions. -/
inductive Transfer where
  | write
  | read
deriving Repr, DecidableEq

namespace Transfer

/-- What the page of the other table must allow. -/
def flag : Transfer → Nat
  | write => mmuFlagWrite
  | read => mmuFlagRead

/-- What the buffer must allow. -/
def buffFlag : Transfer → Nat
  | write => mmuFlagRead
  | read => mmuFlagWrite

/-- The arguments of `memcpy`, `(dest, src)`. -/
def ends (t : Transfer) (phys buff : Nat) : Nat × Nat :=
  match t with
  | write => (phys, buff)
  | read => (buff, phys)

end Transfer

section Calls

variable {H : Type} (A : PageHeap H) (kernel : Nat) (t : Transfer)

/-- The part of a round after the lookup. -/
def moveFrame (current : Nat) (s : Mmu H) (phys buff toCopy : Nat) : Option (Mmu H) := do
  let ent := mmuMapSave s.mem current phys
  let s ← mmuMapTable A.served kernel s current phys phys 1 mmuFlagWrite
  let mem ← memcpyVirt current (t.ends phys buff).1 (t.ends phys buff).2 toCopy s.mem
  putBack A.served kernel current { s with mem := mem } ent phys

/-- The loop of both functions from `off` on. -/
def dataLoop (current table virt buff size : Nat) : Nat → Mmu H → Nat → Option (Int × Mmu H)
  | 0, s, off => if off < size then none else some (0, s)
  | rounds + 1, s, off =>
      if off < size then
        let addr := u32 (virt + off)
        let toCopy := chunkSize addr (size - off)
        match mmuMapGetTable s.mem table addr with
        | .error _ => some (-EUNSPEC, s)
        | .ok (flags, phys) =>
            if flags &&& t.flag = 0 then some (-EUNSPEC, s)
            else do
              let s ← moveFrame A kernel t current s (phys + (addr &&& 0xFFF)) (u32 (buff + off))
                toCopy
              dataLoop current table virt buff size rounds s (off + toCopy)
      else some (0, s)

end Calls

namespace Phys

/-- `mmu_write_data`. Every round copies at least one byte. -/
def mmuWriteData {H : Type} (A : PageHeap H) (kernel current table virt buff size : Nat)
    (s : Mmu H) : Option (Int × Mmu H) :=
  dataLoop A kernel .write current table virt buff size size s 0

/-- `mmu_read_data`. -/
def mmuReadData {H : Type} (A : PageHeap H) (kernel current table virt buff size : Nat)
    (s : Mmu H) : Option (Int × Mmu H) :=
  dataLoop A kernel .read current table virt buff size size s 0

end Phys

/-! ## What they should do -/

/-- The bytes of a range before the first page that `table` does not map, or
not with `flag`. -/
def movable (m : PageMem) (table flag : Nat) : Nat → Nat → Nat
  | _, 0 => 0
  | virt, size + 1 =>
      if Allows m table virt flag then movable m table flag (virt + 1) size + 1 else 0

namespace Transfer

variable (t : Transfer) (m : PageMem) (current table virt buff : Nat)

/-- The physical address that byte `k` goes to. -/
def dest (k : Nat) : Option Nat :=
  match t with
  | write => translate m table (virt + k)
  | read => translate m current (buff + k)

/-- The physical address that byte `k` comes from. -/
def src (k : Nat) : Option Nat :=
  match t with
  | write => translate m current (buff + k)
  | read => translate m table (virt + k)

end Transfer

/-- The first `n` bytes of the range can be moved: their frames are below
`KERNEL_OFFSET`, are no tables, are not behind the buffer, and have not the
numbers of the buffer's pages; and the buffer is there, and is no table. -/
structure CanMove {H : Type} (A : PageHeap H) (tabs : List Nat) (t : Transfer)
    (current table virt buff n : Nat) (s : Mmu H) : Prop where
  low : ∀ k < n, ∀ pa, translate s.mem table (virt + k) = some pa → pa < kernelOffset
  data : ∀ k < n, ∀ pa, translate s.mem table (virt + k) = some pa →
    DataPage A tabs s (pageBase pa)
  notBehind : ∀ k < n, ∀ pa, translate s.mem table (virt + k) = some pa → ∀ l < n, ∀ ba,
    translate s.mem current (buff + l) = some ba → pageBase ba ≠ pageBase pa
  notUnder : ∀ k < n, ∀ pa, translate s.mem table (virt + k) = some pa → ∀ l < n,
    pageBase (buff + l) ≠ pageBase pa
  buffer : ∀ k < n, ∃ ba, access s.mem current (buff + k) t.buffFlag = some ba ∧
    DataPage A tabs s (pageBase ba)

/-- The first `n` bytes were moved, and nothing else was done: every table
answers as before, and no other byte changed outside of the page tables. -/
structure MovedFirst (tabs : List Nat) (t : Transfer) (current table virt buff n : Nat)
    {H : Type} (s s' : Mmu H) : Prop where
  answers : ∀ U ∈ tabs, ∀ v < 4294967296, mmuMapGetTable s'.mem U v = mmuMapGetTable s.mem U v
  placed : ∀ k < n, ∃ x y, t.dest s.mem current table virt buff k = some x ∧
    t.src s.mem current table virt buff k = some y ∧
    ((∀ l, k < l → l < n → t.dest s.mem current table virt buff l ≠ some x) →
      s'.mem.byte x = s.mem.byte y)
  frame : ∀ x, ¬ TablePage tabs s'.mem (pageBase x) →
    (∀ k < n, t.dest s.mem current table virt buff k ≠ some x) → s'.mem.byte x = s.mem.byte x

/-- A call moves the bytes before the first page it may not use, and fails if
there is one. It returns when the heap can serve the page tables that may be
missing. -/
structure MovesExactly {H : Type} (A : PageHeap H) (tabs : List Nat) (t : Transfer)
    (current table virt buff size : Nat) (call : Mmu H → Option (Int × Mmu H)) (s : Mmu H) :
    Prop where
  exact : ∀ ret s', call s = some (ret, s') →
    (ret = if movable s.mem table t.flag virt size = size then 0 else -EUNSPEC) ∧
      MovedFirst tabs t current table virt buff (movable s.mem table t.flag virt size) s s'
  returns : EnoughPages A.served current s → ∃ ret s', call s = some (ret, s')

/-- The pages of `n` bytes from `virt` on have frames of their own. -/
def OwnFrames (m : PageMem) (table virt n : Nat) : Prop :=
  ∀ k < n, ∀ l < n, ∀ x y, translate m table (virt + k) = some x →
    translate m table (virt + l) = some y → pageBase x = pageBase y →
    pageBase (virt + k) = pageBase (virt + l)

/-! ## The range -/

section Range

variable {m : PageMem} {table flag : Nat}

theorem movable_le (virt size : Nat) : movable m table flag virt size ≤ size := by
  induction size generalizing virt with
  | zero => exact Nat.le_refl 0
  | succ size ih =>
    rw [movable]
    split
    · exact Nat.succ_le_succ (ih (virt + 1))
    · exact Nat.zero_le _

theorem movable_allows {virt size k : Nat} (hk : k < movable m table flag virt size) :
    Allows m table (virt + k) flag := by
  induction size generalizing virt k with
  | zero => exact absurd hk (Nat.not_lt_zero k)
  | succ size ih =>
    rw [movable] at hk
    split at hk
    · rename_i hfirst
      cases k with
      | zero => exact hfirst
      | succ k =>
        rw [Nat.add_comm k 1, ← Nat.add_assoc]
        exact ih (Nat.lt_of_succ_lt_succ hk)
    · exact absurd hk (Nat.not_lt_zero k)

theorem movable_stops {virt size : Nat} (h : movable m table flag virt size < size) :
    ¬ Allows m table (virt + movable m table flag virt size) flag := by
  induction size generalizing virt with
  | zero => exact absurd h (Nat.not_lt_zero _)
  | succ size ih =>
    rw [movable] at h ⊢
    split at h
    · rename_i hfirst
      rw [if_pos hfirst, Nat.add_comm _ 1, ← Nat.add_assoc]
      exact ih (Nat.lt_of_succ_lt_succ h)
    · rename_i hfirst
      rwa [if_neg hfirst]

/-- What can be written can be read. -/
theorem movable_le_read (virt size : Nat) :
    movable m table flag virt size ≤ movable m table mmuFlagRead virt size := by
  by_contra hlt
  have hlt := Nat.not_le.mp hlt
  exact movable_stops (Nat.lt_of_lt_of_le hlt (movable_le virt size)) (movable_allows hlt).read

theorem Allows.page {v w : Nat} (h : Allows m table v flag) (hpage : w / 4096 = v / 4096) :
    Allows m table w flag := by
  obtain ⟨flags, frame, hget, hflag⟩ := h
  exact ⟨flags, frame, (mmuMapGetTable_page m table hpage).trans hget, hflag⟩

/-- A byte is at the same place in its frame as in its page. -/
theorem translate_offset {v x : Nat} (h : translate m table v = some x) : x % 4096 = v % 4096 := by
  rw [translate] at h
  split at h
  · rename_i flags frame hget
    have hal : frame % 4096 = 0 := by
      rw [← (entryAnswer_ok hget).2]
      exact pageMask_aligned frame
    obtain rfl := Option.some.inj h
    omega
  · cases h

/-- Bytes of pages with frames of their own have addresses of their own. -/
theorem OwnFrames.inj {virt n k l x : Nat} (h : OwnFrames m table virt n) (hk : k < n) (hl : l < n)
    (hkx : translate m table (virt + k) = some x) (hlx : translate m table (virt + l) = some x) :
    k = l := by
  have hpage := h k hk l hl x x hkx hlx rfl
  have hoff := (translate_offset hkx).symm.trans (translate_offset hlx)
  unfold pageBase at hpage
  omega

end Range

/-! ## One round -/

section Moves

variable {H : Type} {A : PageHeap H} {kernel : Nat} {tabs : List Nat}

section Round

variable {t : Transfer} {s s₁ : Mmu H} {current phys buff n : Nat} {ba : Nat → Nat}

/-- The parts of a frame and of the buffer that a round copies. -/
structure RoundReady (A : PageHeap H) (tabs : List Nat) (t : Transfer) (current phys buff n : Nat)
    (ba : Nat → Nat) (s : Mmu H) : Prop where
  low : phys < kernelOffset
  page : phys % 4096 + n ≤ 4096
  frame : DataPage A tabs s (pageBase phys)
  buffer : ∀ j < n, access s.mem current (u32 (buff + j)) t.buffFlag = some (ba j)
  data : ∀ j < n, DataPage A tabs s (pageBase (ba j))
  apart : ∀ j < n, pageBase (u32 (buff + j)) ≠ pageBase phys

/-- With the frame mapped at its address the copy goes through. -/
theorem RoundReady.copy (hr : RoundReady A tabs t current phys buff n ba s) (hcur : current ∈ tabs)
    (hgrown : Grown A tabs s s₁)
    (hself : ∀ v < 4294967296, mmuMapGetTable s₁.mem current v =
      if pageMask v = pageMask phys then .ok (mmuFlagRead ||| (mmuFlagWrite &&& mmuFlagWrite) |||
        (mmuFlagWrite &&& mmuFlagKernel), pageMask phys)
      else mmuMapGetTable s.mem current v) :
    ∃ m', memcpyVirt current (t.ends phys buff).1 (t.ends phys buff).2 n s₁.mem = some m' ∧
      (∀ p, TablePage tabs s₁.mem p → m' p = s₁.mem p) ∧
      ∀ x, m'.byte x =
        s₁.mem.byte (origin ((List.range n).map fun j => t.ends (phys + j) (ba j)) x) := by
  have hlow := hr.low
  have hpage := hr.page
  have hK : kernelOffset = 3221225472 := rfl
  have hframe : ∀ j < n, ∀ flag, flag = mmuFlagRead ∨ flag = mmuFlagWrite →
      access s₁.mem current (u32 (phys + j)) flag = some (phys + j) := by
    intro j hj flag hflag
    have hlt : phys + j < 4294967296 := by omega
    have hmask : pageMask (phys + j) = pageMask phys := by
      rw [pageMask_eq_iff hlt (by omega)]
      omega
    rw [u32_of_lt hlt, access, hself _ hlt, if_pos hmask]
    have hne : ¬ (mmuFlagRead ||| (mmuFlagWrite &&& mmuFlagWrite) |||
        (mmuFlagWrite &&& mmuFlagKernel)) &&& flag = 0 := by
      rcases hflag with rfl | rfl <;> simp [mmuFlagRead, mmuFlagWrite, mmuFlagKernel]
    dsimp only
    rw [if_neg hne, pageMask_eq (by omega)]
    exact congrArg some (by omega)
  have hbuff : ∀ j < n, access s₁.mem current (u32 (buff + j)) t.buffFlag = some (ba j) := by
    intro j hj
    have hne : pageMask (u32 (buff + j)) ≠ pageMask phys := by
      rw [Ne, pageMask_eq_iff (u32_lt _) (by omega), ← pageBase_eq_iff]
      exact hr.apart j hj
    rw [access, hself _ (u32_lt _), if_neg hne]
    exact hr.buffer j hj
  have hdata : ∀ j < n, ¬ TablePage tabs s₁.mem (pageBase (phys + j)) := by
    intro j hj
    rw [show pageBase (phys + j) = pageBase phys by
      rw [pageBase_eq_iff]
      omega]
    exact (hgrown.dataPage hr.frame).2
  cases t with
  | write => exact memcpyVirt_spec hcur (fun j hj => hframe j hj _ (.inr rfl)) hbuff hdata
  | read =>
    exact memcpyVirt_spec hcur hbuff (fun j hj => hframe j hj _ (.inl rfl)) fun j hj =>
      (hgrown.dataPage (hr.data j hj)).2

theorem moveFrame_spec {s' : Mmu H} (ht : Tables A.served kernel tabs s) (hcur : current ∈ tabs)
    (hr : RoundReady A.served tabs t current phys buff n ba s)
    (h : moveFrame A kernel t current s phys buff n = some s') :
    MovedOver A.served kernel tabs ((List.range n).map fun j => t.ends (phys + j) (ba j)) s s' := by
  have hnull := @PageHeap.served_neverNull H A
  obtain ⟨s₁, h₁, hrest⟩ := Option.bind_eq_some_iff.mp h
  obtain ⟨m₂, h₂, h₃⟩ := Option.bind_eq_some_iff.mp hrest
  have r₁ := mapPage_remaps hnull ht hcur hr.low Nat.one_pos (by omega) h₁
  have g₁ := mapPage_grown ht hnull hcur hr.low (by omega) h₁
  obtain ⟨m₂', h₂', htables, hbytes⟩ := hr.copy hcur g₁.toGrown r₁.self
  obtain rfl : m₂' = m₂ := Option.some.inj (h₂'.symm.trans h₂)
  have ht₂ : Tables A.served kernel tabs { s₁ with mem := m₂' } := r₁.tables.congr htables
  have r₃ := putBack_remaps hnull ht₂ hcur hr.low h₃
  have hget : ∀ U ∈ tabs, ∀ v < 4294967296, mmuMapGetTable m₂' U v = mmuMapGetTable s₁.mem U v :=
    fun U hU v hv => mmuMapGetTable_congr htables hU hv
  refine .of_mapped g₁ htables hbytes (putBack_grown ht₂ hnull hcur hr.low h₃)
    ⟨r₃.tables, fun x hx => r₃.keeps x (r₁.keeps x hx), fun U hU v hv => ?_⟩ fun p hp => ?_
  · by_cases hUc : U = current
    · subst hUc
      rw [r₃.self v hv, hget U hU v hv, r₁.self v hv]
      by_cases hvp : pageMask v = pageMask phys
      · rw [if_pos hvp]
      · rw [if_neg hvp, if_neg hvp]
    · rw [r₃.others U hU hUc v hv, hget U hU v hv, r₁.others U hU hUc v hv]
  · obtain ⟨j, hj, rfl⟩ := List.mem_map.mp hp
    rw [List.mem_range] at hj
    cases t with
    | write => exact hr.data j hj
    | read =>
      have hpage := hr.page
      have hbase : pageBase (phys + j) = pageBase phys := by
        rw [pageBase_eq_iff]
        omega
      show DataPage A.served tabs s (pageBase (phys + j))
      rw [hbase]
      exact hr.frame

theorem moveFrame_total (ht : Tables A.served kernel tabs s) (hcur : current ∈ tabs)
    (hr : RoundReady A.served tabs t current phys buff n ba s)
    (hsup : EnoughPages A.served current s) :
    ∃ s', moveFrame A kernel t current s phys buff n = some s' ∧
      EnoughPages A.served current s' := by
  have hnull := @PageHeap.served_neverNull H A
  obtain ⟨s₁, h₁, e₁⟩ := mapPage_total phys mmuFlagWrite hnull ht hcur hsup hr.low Nat.one_pos
    (by omega)
  have r₁ := mapPage_remaps hnull ht hcur hr.low Nat.one_pos (by omega) h₁
  have g₁ := (mapPage_grown ht hnull hcur hr.low (by omega) h₁).toGrown
  obtain ⟨m₂, h₂, htables, -⟩ := hr.copy hcur g₁ r₁.self
  have e₂ : EnoughPages A.served current { s₁ with mem := m₂ } :=
    e₁.congr rfl fun i => congrFun (htables current (.inl hcur)) i
  obtain ⟨s₃, h₃, e₃⟩ := putBack_total s.mem hnull (r₁.tables.congr htables) hcur e₂ hr.low
  refine ⟨s₃, ?_, e₃⟩
  simp only [moveFrame, Option.bind_eq_bind, h₁, h₂, h₃, Option.bind_some]

end Round

/-! ## The loop -/

section Loop

variable {t : Transfer} {s s' : Mmu H} {current table virt buff size n : Nat}

/-- The copy of byte `k`. -/
def Transfer.pair (t : Transfer) (m : PageMem) (current table virt buff k : Nat) : Nat × Nat :=
  t.ends ((translate m table (virt + k)).getD 0) ((translate m current (buff + k)).getD 0)

def Transfer.pairs (t : Transfer) (m : PageMem) (current table virt buff off n : Nat) :
    List (Nat × Nat) :=
  (List.range' off n).map (t.pair m current table virt buff)

/-- The first `n` of the bytes can be moved, and the next one may not be. -/
structure MovesUpTo (A : PageHeap H) (tabs : List Nat) (t : Transfer)
    (current table virt buff size n : Nat) (s : Mmu H) : Prop where
  le : n ≤ size
  virtFits : virt + size ≤ 4294967296
  buffFits : buff + size ≤ 4294967296
  allows : ∀ k < n, Allows s.mem table (virt + k) t.flag
  stops : n < size → ¬ Allows s.mem table (virt + n) t.flag
  can : CanMove A tabs t current table virt buff n s

theorem allows_congr {m m' : PageMem} {table v : Nat} (flag : Nat)
    (h : mmuMapGetTable m' table v = mmuMapGetTable m table v) :
    Allows m' table v flag ↔ Allows m table v flag := by
  rw [Allows, Allows, h]

namespace MovesUpTo

variable (hup : MovesUpTo A tabs t current table virt buff size n s)
include hup

theorem tableAt {k : Nat} (hk : k < n) : ∃ pa, translate s.mem table (virt + k) = some pa :=
  (hup.allows k hk).translate.imp fun _ h => h.1

theorem buffAt {k : Nat} (hk : k < n) : ∃ ba, translate s.mem current (buff + k) = some ba ∧
    access s.mem current (buff + k) t.buffFlag = some ba ∧ DataPage A tabs s (pageBase ba) := by
  obtain ⟨ba, hba, hdata⟩ := hup.can.buffer k hk
  exact ⟨ba, (access_eq_some_iff.mp hba).2, hba, hdata⟩

/-- The two addresses of a byte, on pages that are no tables. -/
theorem pair_spec {k : Nat} (hk : k < n) :
    t.dest s.mem current table virt buff k = some (t.pair s.mem current table virt buff k).1 ∧
      t.src s.mem current table virt buff k = some (t.pair s.mem current table virt buff k).2 ∧
      DataPage A tabs s (pageBase (t.pair s.mem current table virt buff k).1) ∧
      DataPage A tabs s (pageBase (t.pair s.mem current table virt buff k).2) := by
  obtain ⟨pa, hpa⟩ := hup.tableAt hk
  obtain ⟨ba, hba, -, hdata⟩ := hup.buffAt hk
  have hframe := hup.can.data k hk pa hpa
  rw [Transfer.pair, hpa, hba, Option.getD_some, Option.getD_some]
  cases t with
  | write => exact ⟨hpa, hba, hframe, hdata⟩
  | read => exact ⟨hba, hpa, hdata, hframe⟩

/-- No byte that is read is written. -/
theorem pair_apart {k l : Nat} (hk : k < n) (hl : l < n) :
    (t.pair s.mem current table virt buff l).1 ≠ (t.pair s.mem current table virt buff k).2 := by
  have hapart : ∀ i < n, ∀ j < n, ∀ pa ba, translate s.mem table (virt + i) = some pa →
      translate s.mem current (buff + j) = some ba → ba ≠ pa := fun i hi j hj pa ba hpa hba heq =>
    hup.can.notBehind i hi pa hpa j hj ba hba (heq ▸ rfl)
  obtain ⟨hdest, -⟩ := hup.pair_spec hl
  obtain ⟨-, hsrc, -⟩ := hup.pair_spec hk
  cases t with
  | write => exact (hapart l hl k hk _ _ hdest hsrc).symm
  | read => exact hapart k hk l hl _ _ hsrc hdest

/-- They stay movable. -/
theorem kept {B : PageHeap H} (hcur : current ∈ tabs) (htable : table ∈ tabs)
    (hun : Unmoved B kernel tabs s s') (hgrown : Grown A tabs s s') :
    MovesUpTo A tabs t current table virt buff size n s' ∧
      ∀ k < n,
        t.pair s'.mem current table virt buff k = t.pair s.mem current table virt buff k := by
  have hle := hup.le
  have hvirt := hup.virtFits
  have hbuff := hup.buffFits
  have hat : ∀ k < n, translate s'.mem table (virt + k) = translate s.mem table (virt + k) :=
    fun k hk => hun.translate htable (by omega)
  have hbat : ∀ k < n, translate s'.mem current (buff + k) = translate s.mem current (buff + k) :=
    fun k hk => hun.translate hcur (by omega)
  refine ⟨⟨hle, hvirt, hbuff, fun k hk => ?_, fun hlt => ?_, ⟨?_, ?_, ?_, ?_, ?_⟩⟩, fun k hk => ?_⟩
  · exact (allows_congr _ (hun.same table htable _ (by omega))).mpr (hup.allows k hk)
  · rw [allows_congr _ (hun.same table htable _ (by omega))]
    exact hup.stops hlt
  · intro k hk pa hpa
    exact hup.can.low k hk pa ((hat k hk).symm.trans hpa)
  · intro k hk pa hpa
    exact hgrown.dataPage (hup.can.data k hk pa ((hat k hk).symm.trans hpa))
  · intro k hk pa hpa l hl ba hba
    exact hup.can.notBehind k hk pa ((hat k hk).symm.trans hpa) l hl ba ((hbat l hl).symm.trans hba)
  · intro k hk pa hpa
    exact hup.can.notUnder k hk pa ((hat k hk).symm.trans hpa)
  · intro k hk
    obtain ⟨ba, hba, hdata⟩ := hup.can.buffer k hk
    refine ⟨ba, ?_, hgrown.dataPage hdata⟩
    rw [access, hun.same current hcur _ (by omega)]
    exact hba
  · rw [Transfer.pair, Transfer.pair, hat k hk, hbat k hk]

end MovesUpTo

/-- A round before byte `n` moves some of the bytes before it. -/
theorem dataLoop_round {rounds off : Nat} (hup : MovesUpTo A.served tabs t current table virt buff
    size n s) (hoff : off < n) :
    ∃ phys c ba, 0 < c ∧ off + c ≤ n ∧
      dataLoop A kernel t current table virt buff size (rounds + 1) s off =
        (moveFrame A kernel t current s phys (buff + off) c).bind (fun s =>
          dataLoop A kernel t current table virt buff size rounds s (off + c)) ∧
      RoundReady A.served tabs t current phys (buff + off) c ba s ∧
      (List.range c).map (fun j => t.ends (phys + j) (ba j)) =
        t.pairs s.mem current table virt buff off c := by
  have hle := hup.le
  have hvirt := hup.virtFits
  have hbuff := hup.buffFits
  obtain ⟨flags, frame, hget, hflag⟩ := hup.allows off hoff
  obtain ⟨hpos, hleft, hpage⟩ := @chunkSize_spec (virt + off) (size - off) (by omega)
  -- the page allows it, so it ends before the first byte that stops
  have hchunk : off + chunkSize (virt + off) (size - off) ≤ n := by
    by_contra hlt
    refine hup.stops (by omega) (Allows.page ⟨flags, frame, hget, hflag⟩ ?_)
    omega
  have hrun : dataLoop A kernel t current table virt buff size (rounds + 1) s off =
      (moveFrame A kernel t current s (frame + (virt + off) % 4096) (buff + off)
        (chunkSize (virt + off) (size - off))).bind (fun s =>
          dataLoop A kernel t current table virt buff size rounds s
            (off + chunkSize (virt + off) (size - off))) := by
    rw [dataLoop, if_pos (by omega), u32_of_lt (by omega), u32_of_lt (by omega)]
    simp only [and_low, hget, if_neg hflag]
    rfl
  generalize chunkSize (virt + off) (size - off) = c at *
  have hat : ∀ j < c, translate s.mem table (virt + (off + j)) =
      some (frame + (virt + off) % 4096 + j) := fun j hj => by
    rw [← Nat.add_assoc]
    exact translate_page hget (by omega)
  have h0 := hat 0 hpos
  rw [Nat.add_zero, Nat.add_zero] at h0
  have hbat : ∀ j < c, buff + off + j = buff + (off + j) ∧
      u32 (buff + off + j) = buff + (off + j) := fun j hj =>
    ⟨Nat.add_assoc .., (u32_of_lt (by omega)).trans (Nat.add_assoc ..)⟩
  refine ⟨frame + (virt + off) % 4096, c,
    fun j => (translate s.mem current (buff + (off + j))).getD 0, hpos, hchunk, hrun,
    ⟨hup.can.low off hoff _ h0, ?_, hup.can.data off hoff _ h0, fun j hj => ?_, fun j hj => ?_,
      fun j hj => ?_⟩, ?_⟩
  · rw [translate_offset h0]
    exact hpage
  · obtain ⟨ba, hba, haccess, -⟩ := hup.buffAt (show off + j < n by omega)
    rw [(hbat j hj).2, haccess, hba, Option.getD_some]
  · obtain ⟨ba, hba, -, hdata⟩ := hup.buffAt (show off + j < n by omega)
    rw [hba, Option.getD_some]
    exact hdata
  · rw [(hbat j hj).2]
    exact hup.can.notUnder off hoff _ h0 (off + j) (by omega)
  · rw [Transfer.pairs, List.range'_eq_map_range, List.map_map]
    refine List.map_congr_left fun j hj => ?_
    rw [List.mem_range] at hj
    rw [Function.comp_apply, Transfer.pair, hat j hj, Option.getD_some]

/-- At byte `n` the loop ends. -/
theorem dataLoop_end (hup : MovesUpTo A.served tabs t current table virt buff size n s)
    (rounds : Nat) :
    dataLoop A kernel t current table virt buff size (rounds + 1) s n =
      some (if n = size then 0 else -EUNSPEC, s) := by
  have hle := hup.le
  have hvirt := hup.virtFits
  rw [dataLoop]
  split
  · rename_i hsize
    rw [u32_of_lt (by omega), if_neg (show n ≠ size by omega)]
    dsimp only
    split
    · rfl
    · rename_i flags phys hget
      exact if_pos (not_not.mp fun hne => hup.stops hsize ⟨flags, phys, hget, hne⟩)
  · rw [if_pos (show n = size by omega)]

/-- The loop from `off` on moves the bytes before byte `n`, and fails there. -/
theorem dataLoop_spec {rounds off : Nat} {ret : Int} (ht : Tables A.served kernel tabs s)
    (hcur : current ∈ tabs) (htable : table ∈ tabs)
    (hup : MovesUpTo A.served tabs t current table virt buff size n s) (hoff : off ≤ n)
    (h : dataLoop A kernel t current table virt buff size rounds s off = some (ret, s')) :
    (ret = if n = size then 0 else -EUNSPEC) ∧
      MovedOver A.served kernel tabs (t.pairs s.mem current table virt buff off (n - off))
        s s' := by
  have hle := hup.le
  have hvirt := hup.virtFits
  have hnone : ∀ off, t.pairs s.mem current table virt buff off (off - off) = [] := fun off => by
    rw [Nat.sub_self]
    rfl
  induction rounds generalizing s off with
  | zero =>
    rw [dataLoop] at h
    split at h
    · cases h
    · cases h
      obtain rfl : off = n := by omega
      rw [hnone]
      exact ⟨(if_pos (by omega)).symm, MovedOver.refl ht⟩
  | succ rounds ih =>
    by_cases hlt : off < n
    · obtain ⟨phys, c, ba, hpos, hchunk, hrun, hr, hpairs⟩ :=
        @dataLoop_round _ A kernel _ _ _ _ _ _ _ _ _ rounds _ hup hlt
      rw [hrun] at h
      obtain ⟨s₁, hmove, hrest⟩ := Option.bind_eq_some_iff.mp h
      have hmoved := moveFrame_spec ht hcur hr hmove
      rw [hpairs] at hmoved
      obtain ⟨hup₁, hsame⟩ := hup.kept hcur htable hmoved.unmoved hmoved.grown
      obtain ⟨hret, hmoved'⟩ := ih hmoved.unmoved.tables hup₁ hchunk hrest
        (fun off => by rw [Nat.sub_self]; rfl)
      refine ⟨hret, ?_⟩
      have hlater : t.pairs s₁.mem current table virt buff (off + c) (n - (off + c)) =
          t.pairs s.mem current table virt buff (off + c) (n - (off + c)) :=
        List.map_congr_left fun k hk => hsame k (by
          have := List.mem_range'_1.mp hk
          omega)
      have hsplit : t.pairs s.mem current table virt buff off (n - off) =
          t.pairs s.mem current table virt buff off c ++
            t.pairs s.mem current table virt buff (off + c) (n - (off + c)) := by
        rw [Transfer.pairs, Transfer.pairs, Transfer.pairs, ← List.map_append,
          List.range'_append_1, show c + (n - (off + c)) = n - off by omega]
      rw [hlater] at hmoved'
      rw [hsplit]
      refine hmoved.trans hmoved' fun q hq => ?_
      obtain ⟨k, hk, rfl⟩ := List.mem_map.mp hq
      have hk := List.mem_range'_1.mp hk
      exact (hmoved.grown.dataPage (hup.pair_spec (show k < n by omega)).2.2.2).2
    · obtain rfl : off = n := by omega
      rw [dataLoop_end hup] at h
      cases h
      rw [hnone]
      exact ⟨rfl, MovedOver.refl ht⟩

theorem dataLoop_total {rounds off : Nat} (ht : Tables A.served kernel tabs s)
    (hcur : current ∈ tabs) (htable : table ∈ tabs)
    (hup : MovesUpTo A.served tabs t current table virt buff size n s) (hoff : off ≤ n)
    (hsup : EnoughPages A.served current s) (hrounds : size ≤ off + rounds) :
    ∃ ret s', dataLoop A kernel t current table virt buff size rounds s off = some (ret, s') := by
  have hle := hup.le
  have hvirt := hup.virtFits
  induction rounds generalizing s off with
  | zero => exact ⟨0, s, by rw [dataLoop, if_neg (by omega)]⟩
  | succ rounds ih =>
    by_cases hlt : off < n
    · obtain ⟨phys, c, ba, hpos, hchunk, hrun, hr, -⟩ := @dataLoop_round _ A kernel _ _ _ _ _ _ _
        _ _ rounds _ hup hlt
      obtain ⟨s₁, hmove, hsup₁⟩ := moveFrame_total ht hcur hr hsup
      have hmoved := moveFrame_spec ht hcur hr hmove
      obtain ⟨ret, s', hrest⟩ := ih hmoved.unmoved.tables
        (hup.kept hcur htable hmoved.unmoved hmoved.grown).1 hchunk hsup₁ (by omega)
      exact ⟨ret, s', by rw [hrun, hmove, Option.bind_some, hrest]⟩
    · obtain rfl : off = n := by omega
      exact ⟨_, _, dataLoop_end hup rounds⟩

/-! ## The calls -/

theorem CanMove.upTo (hvirt : virt + size ≤ 4294967296) (hbuff : buff + size ≤ 4294967296)
    (hcan : CanMove A tabs t current table virt buff (movable s.mem table t.flag virt size) s) :
    MovesUpTo A.served tabs t current table virt buff size
      (movable s.mem table t.flag virt size) s :=
  ⟨movable_le virt size, hvirt, hbuff, fun _ hk => movable_allows hk, movable_stops,
    ⟨hcan.low, hcan.data, hcan.notBehind, hcan.notUnder, hcan.buffer⟩⟩

theorem MovedOver.first (hup : MovesUpTo A.served tabs t current table virt buff size n s)
    (hmoved : MovedOver A.served kernel tabs (t.pairs s.mem current table virt buff 0 n) s s') :
    MovedFirst tabs t current table virt buff n s s' := by
  refine ⟨hmoved.unmoved.same, fun k hk => ?_, fun x hx hnot => ?_⟩
  · obtain ⟨hdest, hsrc, hdata, -⟩ := hup.pair_spec hk
    refine ⟨_, _, hdest, hsrc, fun hlast => ?_⟩
    rw [hmoved.bytes _ (hmoved.grown.dataPage hdata).2]
    have hsplit : t.pairs s.mem current table virt buff 0 n =
        t.pairs s.mem current table virt buff 0 k ++ t.pair s.mem current table virt buff k ::
          t.pairs s.mem current table virt buff (k + 1) (n - (k + 1)) := by
      have hrange := @List.range'_append_1 0 k (n - (k + 1) + 1)
      rw [Nat.zero_add, show k + (n - (k + 1) + 1) = n by omega] at hrange
      rw [Transfer.pairs, Transfer.pairs, Transfer.pairs, ← List.map_cons, ← List.range'_succ,
        ← List.map_append, hrange]
    rw [hsplit]
    refine congrArg s.mem.byte (origin_of_last ?_ ?_)
    · intro q hq heq
      obtain ⟨l, hl, rfl⟩ := List.mem_map.mp hq
      have hl := List.mem_range'_1.mp hl
      refine hlast l (by omega) (by omega) ?_
      rw [(hup.pair_spec (show l < n by omega)).1, heq]
    · intro q hq
      obtain ⟨l, hl, rfl⟩ := List.mem_map.mp hq
      have hl := List.mem_range'_1.mp hl
      exact hup.pair_apart hk (by omega)
  · rw [hmoved.bytes x hx, origin_of_notMem]
    intro q hq heq
    obtain ⟨k, hk, rfl⟩ := List.mem_map.mp hq
    have hk := List.mem_range'_1.mp hk
    refine hnot k (by omega) ?_
    rw [(hup.pair_spec (show k < n by omega)).1, heq]

theorem movesExactly (ht : Tables A kernel tabs s) (hcur : current ∈ tabs) (htable : table ∈ tabs)
    (hup : MovesUpTo A.served tabs t current table virt buff size
      (movable s.mem table t.flag virt size) s) :
    MovesExactly A tabs t current table virt buff size
      (fun s => dataLoop A kernel t current table virt buff size size s 0) s := by
  refine ⟨fun ret s' h => ?_, fun hsup => ?_⟩
  · obtain ⟨hret, hmoved⟩ := dataLoop_spec ht.served hcur htable hup (Nat.zero_le _) h
    exact ⟨hret, hmoved.first hup⟩
  · exact dataLoop_total ht.served hcur htable hup (Nat.zero_le _) hsup (Nat.zero_add size).ge

/-- What was written is read back. -/
theorem write_then_read {buff' : Nat} {s₁ : Mmu H} {ret ret' : Int} (ht : Tables A kernel tabs s)
    (hcur : current ∈ tabs) (htable : table ∈ tabs)
    (hw : MovesUpTo A.served tabs .write current table virt buff size
      (movable s.mem table mmuFlagWrite virt size) s)
    (hr : MovesUpTo A.served tabs .read current table virt buff' size
      (movable s.mem table mmuFlagRead virt size) s)
    (hown : OwnFrames s.mem table virt size) (hown' : OwnFrames s.mem current buff' size)
    (hwrite : Phys.mmuWriteData A kernel current table virt buff size s = some (ret, s₁))
    (hread : Phys.mmuReadData A kernel current table virt buff' size s₁ = some (ret', s')) :
    (ret = 0 → ret' = 0) ∧ ∀ k < movable s.mem table mmuFlagWrite virt size,
      ∃ x y, translate s.mem current (buff' + k) = some x ∧
        translate s.mem current (buff + k) = some y ∧ s'.mem.byte x = s.mem.byte y := by
  have hle : movable s.mem table mmuFlagWrite virt size ≤
      movable s.mem table mmuFlagRead virt size := movable_le_read virt size
  have hsize := hr.le
  obtain ⟨hret, hmoved⟩ := dataLoop_spec ht.served hcur htable hw (Nat.zero_le _) hwrite
  obtain ⟨hr₁, hsame⟩ := hr.kept hcur htable hmoved.unmoved hmoved.grown
  obtain ⟨hret', hmoved'⟩ := dataLoop_spec hmoved.unmoved.tables hcur htable hr₁ (Nat.zero_le _)
    hread
  refine ⟨fun h0 => ?_, fun k hk => ?_⟩
  · rw [h0] at hret
    rw [hret', if_pos]
    by_contra hne
    rw [if_neg (by omega)] at hret
    exact absurd hret (by decide)
  · -- byte `k` goes to its frame and from there to the other buffer
    obtain ⟨z, y, hz, hy, hbyte⟩ := (hmoved.first hw).placed k hk
    obtain ⟨x, z', hx, hz', hbyte'⟩ := (hmoved'.first hr₁).placed k (Nat.lt_of_lt_of_le hk hle)
    have hat := fun l (hl : l < movable s.mem table mmuFlagRead virt size) =>
      hmoved.unmoved.translate hcur (v := buff' + l) (by have := hr.buffFits; omega)
    have hx : translate s.mem current (buff' + k) = some x := (hat k (by omega)).symm.trans hx
    obtain rfl : z' = z := by
      have hkeep := hmoved.unmoved.translate htable (v := virt + k) (by have := hr.virtFits; omega)
      exact Option.some.inj (hz'.symm.trans (hkeep.trans hz))
    refine ⟨x, y, hx, hy, (hbyte' fun l hkl hl hdest => ?_).trans (hbyte fun l hkl hl hdest => ?_)⟩
    · have := hown'.inj (by omega) (by omega) hx ((hat l hl).symm.trans hdest)
      omega
    · have := hown.inj (by omega) (by omega) hz hdest
      omega

end Loop

/-- **Writing and reading are exact.** Each call moves the bytes before the
first page it may not use and nothing else, and what was written to frames
that differ is read back. -/
theorem mmu_data_exact {s : Mmu H} {current table virt size : Nat} (ht : Tables A kernel tabs s)
    (hcur : current ∈ tabs) (htable : table ∈ tabs) (hvirt : virt + size ≤ 4294967296) :
    (∀ buff, buff + size ≤ 4294967296 →
      CanMove A tabs .write current table virt buff (movable s.mem table mmuFlagWrite virt size) s →
      MovesExactly A tabs .write current table virt buff size
        (Phys.mmuWriteData A kernel current table virt buff size) s) ∧
    (∀ buff, buff + size ≤ 4294967296 →
      CanMove A tabs .read current table virt buff (movable s.mem table mmuFlagRead virt size) s →
      MovesExactly A tabs .read current table virt buff size
        (Phys.mmuReadData A kernel current table virt buff size) s) ∧
    ∀ buff buff', buff + size ≤ 4294967296 → buff' + size ≤ 4294967296 →
      CanMove A tabs .write current table virt buff (movable s.mem table mmuFlagWrite virt size) s →
      CanMove A tabs .read current table virt buff' (movable s.mem table mmuFlagRead virt size) s →
      OwnFrames s.mem table virt size → OwnFrames s.mem current buff' size →
      ∀ ret s₁ ret' s',
        Phys.mmuWriteData A kernel current table virt buff size s = some (ret, s₁) →
        Phys.mmuReadData A kernel current table virt buff' size s₁ = some (ret', s') →
        (ret = 0 → ret' = 0) ∧ ∀ k < movable s.mem table mmuFlagWrite virt size,
          ∃ x y, translate s.mem current (buff' + k) = some x ∧
            translate s.mem current (buff + k) = some y ∧ s'.mem.byte x = s.mem.byte y := by
  refine ⟨fun buff hbuff hcan => movesExactly ht hcur htable (hcan.upTo hvirt hbuff),
    fun buff hbuff hcan => movesExactly ht hcur htable (hcan.upTo hvirt hbuff), ?_⟩
  intro buff buff' hbuff hbuff' hw hr hown hown' ret s₁ ret' s' hwrite hread
  exact write_then_read ht hcur htable (hw.upTo hvirt hbuff) (hr.upTo hvirt hbuff') hown hown'
    hwrite hread

end Moves

/-! ## Two small tables with data -/

/-- A table at `0x1000` with all its page tables, from `0x800000` on, and one
at `0x3000` with a single page table. Each maps the pages `1` and `2`. -/
def twoTables : PageMem := fun page i =>
  match page with
  | 0x1000 => if i < kernelSlot then 0x800007 + 4096 * i else 0
  | 0x3000 => if i = 0 then 0x700007 else 0
  | 0x800000 => if i = 1 then 0x501007 else if i = 2 then 0x502007 else 0
  | 0x700000 => if i = 1 then 0x601007 else if i = 2 then 0x602007 else 0
  | _ => 0

def twoMmu : Mmu { t : Table // TableOk 0x400000 0x410000 t } := ⟨twoTables, bootTable⟩

theorem twoTables_present {T i : Nat} (hT : T ∈ [0x1000, 0x3000]) (h : Present (twoTables T i)) :
    T = 0x1000 ∧ i < kernelSlot ∧ pageMask (twoTables T i) = 0x800000 + 4096 * i ∨
      T = 0x3000 ∧ i = 0 ∧ pageMask (twoTables T i) = 0x700000 := by
  simp only [List.mem_cons, List.not_mem_nil, or_false] at hT
  rcases hT with rfl | rfl
  · by_cases hi : i < kernelSlot
    · refine .inl ⟨rfl, hi, ?_⟩
      simp only [twoTables, if_pos hi]
      simp only [kernelSlot] at hi
      rw [pageMask_eq (by omega)]
      omega
    · simp [twoTables, if_neg hi, Present] at h
  · by_cases hi : i = 0
    · subst hi
      exact .inr ⟨rfl, rfl, rfl⟩
    · simp [twoTables, if_neg hi, Present] at h

theorem twoMmu_tables : Tables bootPages 0x2000 [0x1000, 0x3000] twoMmu := by
  have hheld : ∀ x, x < 0x400000 ∨ 0x410000 ≤ x → bootPages.held twoMmu.heap x := fun _ hx =>
    ByteHeld.outside bootTable.2 hx
  have hpage := fun T hT i => @twoTables_present T i hT
  refine ⟨by simp, fun T hT x hx hx' => hheld x ?_, fun T hT i _ hp x hx hx' => hheld x ?_,
    fun T hT i _ hp hmem => ?_, fun T hT U hU i _ j _ hp hq heq => ?_⟩
  · simp only [List.mem_cons, List.not_mem_nil, or_false] at hT
    omega
  · rcases hpage T hT i hp with ⟨-, -, h⟩ | ⟨-, -, h⟩ <;> simp only [twoMmu] at hx <;> omega
  · simp only [List.mem_cons, List.not_mem_nil, or_false, twoMmu] at hmem
    rcases hpage T hT i hp with ⟨-, -, h⟩ | ⟨-, -, h⟩ <;> omega
  · simp only [twoMmu] at heq
    rcases hpage T hT i hp with ⟨rfl, hi, h⟩ | ⟨rfl, rfl, h⟩ <;>
      rcases hpage U hU j hq with ⟨rfl, hj, h'⟩ | ⟨rfl, rfl, h'⟩ <;>
      have hsame := h.symm.trans (heq.trans h') <;> exact ⟨by omega, .inl (by omega)⟩

theorem twoMmu_enough : EnoughPages bootPages 0x1000 twoMmu := by
  have hnone : absentSlots twoMmu.mem 0x1000 = ∅ := by
    rw [Finset.eq_empty_iff_forall_notMem]
    intro i hi
    obtain ⟨hlt, habs⟩ := mem_absentSlots.mp hi
    refine habs ?_
    simp only [twoMmu, twoTables, if_pos hlt, Present, pageFlagPresent, Nat.and_one_is_mod]
    omega
  rw [EnoughPages, hnone]
  exact .zero _

/-- `twoMmu` with words on page `1` of the first table. -/
def filledMmu : Mmu { t : Table // TableOk 0x400000 0x410000 t } :=
  { twoMmu with mem := fun p i => if p = 0x501000 then 0x04030201 * i else twoTables p i }

theorem twoMmu_page {p : Nat} (h : TablePage [0x1000, 0x3000] twoMmu.mem p) :
    p < 0x4000 ∨ 0x700000 ≤ p := by
  rcases h with hdir | ⟨T, hT, i, -, hpres, rfl⟩
  · simp only [List.mem_cons, List.not_mem_nil, or_false] at hdir
    omega
  · rcases twoTables_present hT hpres with ⟨-, -, h⟩ | ⟨-, -, h⟩ <;> simp only [twoMmu] <;> omega

theorem filledMmu_same : ∀ p, TablePage [0x1000, 0x3000] twoMmu.mem p →
    filledMmu.mem p = twoMmu.mem p := by
  intro p hp
  have hne : p ≠ 0x501000 := by
    have := twoMmu_page hp
    omega
  funext i
  exact if_neg hne

theorem filledMmu_tables : Tables bootKernelHeap 0x2000 [0x1000, 0x3000] filledMmu :=
  have ht := twoMmu_tables.congr filledMmu_same
  ⟨ht.aligned, ht.dirHeld, ht.pageHeld, ht.notDir, ht.shared⟩

theorem filledMmu_data {p : Nat} (hlo : 0x410000 ≤ p) (hhi : p < 0x700000) :
    DataPage bootKernelHeap [0x1000, 0x3000] filledMmu p := by
  refine ⟨⟨p, Nat.le_refl p, by omega, ByteHeld.outside bootTable.2 (.inr (by omega))⟩,
    fun hp => ?_⟩
  have := twoMmu_page ((TablePage.congr filledMmu_same).mp hp)
  omega

/-- Where the bytes of the range and of the buffers are. -/
theorem filledMmu_at : ∀ k < 4,
    translate filledMmu.mem 0x3000 (0x1FFE + k) = some (0x601FFE + k) ∧
      ∀ buff ∈ [0x1004, 0x2008], ∀ flag ∈ [mmuFlagRead, mmuFlagWrite],
        access filledMmu.mem 0x1000 (buff + k) flag = some (0x500000 + buff + k) := by
  decide +kernel

theorem filledMmu_canMove (t : Transfer) {buff : Nat} (hbuff : buff ∈ [0x1004, 0x2008]) {n : Nat}
    (hn : n ≤ 4) :
    CanMove bootKernelHeap [0x1000, 0x3000] t 0x1000 0x3000 0x1FFE buff n filledMmu := by
  have hat : ∀ k < n, ∀ pa, translate filledMmu.mem 0x3000 (0x1FFE + k) = some pa →
      pa = 0x601FFE + k := fun k hk pa hpa =>
    Option.some.inj (hpa.symm.trans (filledMmu_at k (by omega)).1)
  have hbat : ∀ k < n, access filledMmu.mem 0x1000 (buff + k) t.buffFlag =
      some (0x500000 + buff + k) := fun k hk =>
    (filledMmu_at k (by omega)).2 buff hbuff t.buffFlag (by cases t <;> simp [Transfer.buffFlag])
  simp only [List.mem_cons, List.not_mem_nil, or_false] at hbuff
  refine ⟨fun k hk pa hpa => ?_, fun k hk pa hpa => ?_, fun k hk pa hpa l hl ba hba => ?_,
    fun k hk pa hpa l hl => ?_, fun k hk => ⟨_, hbat k hk, ?_⟩⟩
  · have := hat k hk pa hpa
    simp only [kernelOffset]
    omega
  · have := hat k hk pa hpa
    exact filledMmu_data (by unfold pageBase; omega) (by unfold pageBase; omega)
  · have := hat k hk pa hpa
    have := (access_eq_some_iff.mp (hbat l hl)).2.symm.trans hba
    have := Option.some.inj this
    unfold pageBase
    omega
  · have := hat k hk pa hpa
    unfold pageBase
    omega
  · exact filledMmu_data (by unfold pageBase; omega) (by unfold pageBase; omega)

set_option maxRecDepth 100000 in
/-- Four bytes, written across a page boundary and read back to another buffer. -/
theorem mmu_data_exact_across_pages : ∃ s₁ s',
    Phys.mmuWriteData bootKernelHeap 0x2000 0x1000 0x3000 0x1FFE 0x1004 4 filledMmu =
      some (0, s₁) ∧
    Phys.mmuReadData bootKernelHeap 0x2000 0x1000 0x3000 0x1FFE 0x2008 4 s₁ = some (0, s') ∧
    ∀ k < 4, s'.mem.byte (0x502008 + k) = filledMmu.mem.byte (0x501004 + k) := by
  have hsome : ((Phys.mmuWriteData bootKernelHeap 0x2000 0x1000 0x3000 0x1FFE 0x1004 4
      filledMmu).any fun r => r.1 = 0 ∧ ((Phys.mmuReadData bootKernelHeap 0x2000 0x1000 0x3000
        0x1FFE 0x2008 4 r.2).isSome)) = true := by decide +kernel
  obtain ⟨⟨ret, s₁⟩, hwrite, hr⟩ := (Option.any_eq_true _ _).mp hsome
  obtain ⟨hret, hread⟩ := of_decide_eq_true hr
  obtain ⟨⟨ret', s'⟩, hread⟩ := Option.isSome_iff_exists.mp hread
  obtain rfl : ret = 0 := hret
  have hmovable : movable filledMmu.mem 0x3000 mmuFlagWrite 0x1FFE 4 = 4 := by decide +kernel
  have hown : ∀ (table virt base : Nat), (∀ k < 4, translate filledMmu.mem table (virt + k) =
      some (base + virt + k)) → base % 4096 = 0 → OwnFrames filledMmu.mem table virt 4 := by
    intro table virt base hat hbase k hk l hl x y hx hy heq
    have hx := Option.some.inj (hx.symm.trans (hat k hk))
    have hy := Option.some.inj (hy.symm.trans (hat l hl))
    unfold pageBase at heq ⊢
    omega
  obtain ⟨hzero, hbytes⟩ := (mmu_data_exact filledMmu_tables (by simp) (by simp) (by decide)).2.2
    0x1004 0x2008 (by decide) (by decide)
    (filledMmu_canMove .write (by simp) (movable_le ..))
    (filledMmu_canMove .read (by simp) (movable_le ..))
    (hown 0x3000 0x1FFE 0x600000 (fun k hk => (filledMmu_at k hk).1) rfl)
    (hown 0x1000 0x2008 0x500000 (fun k hk => (access_eq_some_iff.mp
      ((filledMmu_at k hk).2 0x2008 (by simp) mmuFlagRead (by simp))).2) rfl)
    0 s₁ ret' s' hwrite hread
  obtain rfl : ret' = 0 := hzero rfl
  refine ⟨s₁, s', hwrite, hread, fun k hk => ?_⟩
  obtain ⟨x, y, hx, hy, hbyte⟩ := hbytes k (by rw [hmovable]; exact hk)
  have hxk :=
    (access_eq_some_iff.mp ((filledMmu_at k hk).2 0x2008 (by simp) mmuFlagRead (by simp))).2
  have hyk :=
    (access_eq_some_iff.mp ((filledMmu_at k hk).2 0x1004 (by simp) mmuFlagRead (by simp))).2
  obtain rfl := Option.some.inj (hx.symm.trans hxk)
  obtain rfl := Option.some.inj (hy.symm.trans hyk)
  exact hbyte

end LambdaOs
