import Mathlib.Tactic.IntervalCases
import LambdaOs.RemapPage
import LambdaOs.SeqCopy

/-!
# One memory for bytes and page tables

A byte is a part of a word of a page: loads and stores go through the page
tables in the memory, and a store may hit one of them.

- Stores to pages that are no tables leave every table as it is
  (`Tables.congr`), so a `memcpy` to such pages does what its single copies
  do (`memcpyVirt_spec`).
- Mapping and unmapping a page may add a page table, on a page that nothing
  held, and changes no page but page tables (`mapPage_grown`,
  `putBack_grown`).
-/

namespace LambdaOs

/-! ## Bytes -/

/-- Byte `k` of a word. -/
def wordByte (w k : Nat) : Nat := w / 256 ^ k % 256

/-- The word with byte `k` replaced. -/
def setWordByte (w k b : Nat) : Nat :=
  w / 256 ^ (k + 1) * 256 ^ (k + 1) + b % 256 * 256 ^ k + w % 256 ^ k

theorem wordByte_setWordByte (w b : Nat) {k j : Nat} (hk : k < 4) (hj : j < 4) :
    wordByte (setWordByte w k b) j = if j = k then b % 256 else wordByte w j := by
  unfold wordByte setWordByte
  interval_cases k <;> interval_cases j <;> simp <;> omega

/-- The page an address is on. -/
def pageBase (x : Nat) : Nat := x - x % 4096

theorem pageBase_le (x : Nat) : pageBase x ≤ x := Nat.sub_le ..

theorem lt_pageBase (x : Nat) : x < pageBase x + 4096 := by
  unfold pageBase
  omega

theorem pageBase_eq_iff {x y : Nat} : pageBase x = pageBase y ↔ x / 4096 = y / 4096 := by
  unfold pageBase
  omega

namespace PageMem

/-- The byte at a physical address. -/
def byte (m : PageMem) (x : Nat) : Nat := wordByte (m (pageBase x) (x % 4096 / 4)) (x % 4)

def setByte (m : PageMem) (x b : Nat) : PageMem :=
  m.setWord (pageBase x) (x % 4096 / 4)
    (setWordByte (m (pageBase x) (x % 4096 / 4)) (x % 4) b)

theorem byte_lt (m : PageMem) (x : Nat) : m.byte x < 256 := Nat.mod_lt _ (by omega)

theorem byte_setByte (m : PageMem) (x b y : Nat) :
    (m.setByte x b).byte y = if y = x then b % 256 else m.byte y := by
  by_cases hword : pageBase y = pageBase x ∧ y % 4096 / 4 = x % 4096 / 4
  · have hmod : y = x ↔ y % 4 = x % 4 := by
      unfold pageBase at hword
      omega
    rw [byte, setByte, setWord, if_pos hword,
      wordByte_setWordByte _ _ (Nat.mod_lt x (by omega)) (Nat.mod_lt y (by omega)), byte,
      hword.1, hword.2]
    simp only [hmod]
  · have hne : y ≠ x := by
      rintro rfl
      exact hword ⟨rfl, rfl⟩
    rw [byte, setByte, setWord, if_neg hword, if_neg hne, byte]

theorem setByte_of_ne (m : PageMem) {x p : Nat} (b : Nat) (h : p ≠ pageBase x) :
    m.setByte x b p = m p := by
  funext i
  exact if_neg fun hin => h hin.1

theorem byte_congr {m m' : PageMem} {x : Nat} (h : m' (pageBase x) = m (pageBase x)) :
    m'.byte x = m.byte x := by
  rw [byte, byte, h]

end PageMem

/-! ## Loads and stores -/

/-- Where an access through `table` goes. One that its page does not allow
faults: the kernel may not write to pages that are not writable. -/
def access (m : PageMem) (table v flag : Nat) : Option Nat :=
  match mmuMapGetTable m table v with
  | .ok (flags, frame) => if flags &&& flag = 0 then none else some (frame + v % 4096)
  | .error _ => none

/-- What is free in the heap can be written at its own address through `table`. -/
def DirectHeap {H : Type} (A : PageHeap H) (table : Nat) (s : Mmu H) : Prop :=
  ∀ x, ¬ A.held s.heap x → access s.mem table x mmuFlagWrite = some x

/-- The same of what is granted between two states. -/
def GrantsDirect {H : Type} (A : PageHeap H) (table : Nat) (s s' : Mmu H) : Prop :=
  ∀ x, ¬ A.held s.heap x → A.held s'.heap x → access s'.mem table x mmuFlagWrite = some x

/-- `memcpy`, through the table `current`. -/
def memcpyVirt (current : Nat) : Nat → Nat → Nat → PageMem → Option PageMem
  | _, _, 0, m => some m
  | dest, src, n + 1, m => do
      let sp ← access m current (u32 src) mmuFlagRead
      let dp ← access m current (u32 dest) mmuFlagWrite
      memcpyVirt current (dest + 1) (src + 1) n (m.setByte dp (m.byte sp))

/-- The stores of the bytes of a variable, through the table `current`. -/
def storeVirt (current : Nat) : Nat → List Nat → PageMem → Option PageMem
  | _, [], m => some m
  | dest, b :: bs, m => do
      let dp ← access m current (u32 dest) mmuFlagWrite
      storeVirt current (dest + 1) bs (m.setByte dp b)

theorem access_eq_some_iff {m : PageMem} {table v flag x : Nat} :
    access m table v flag = some x ↔ Allows m table v flag ∧ translate m table v = some x := by
  unfold access Allows translate
  cases mmuMapGetTable m table v with
  | error err => simp
  | ok ans => by_cases hflag : ans.1 &&& flag = 0 <;> simp [hflag, Prod.ext_iff]

theorem access_self {m : PageMem} {table v flag flags : Nat} (hv : v < 4294967296)
    (h : mmuMapGetTable m table v = .ok (flags, pageMask v)) (hflag : flags &&& flag ≠ 0) :
    access m table v flag = some v := by
  have hmask := pageMask_eq hv
  rw [access, h]
  dsimp only
  rw [if_neg hflag]
  exact congrArg some (by omega)

/-- The rest of the page. -/
theorem access_page {m : PageMem} {table v flag x : Nat} (h : access m table v flag = some x)
    {i : Nat} (hi : v % 4096 + i < 4096) : access m table (v + i) flag = some (x + i) := by
  obtain ⟨⟨flags, frame, hget, hflag⟩, htrans⟩ := access_eq_some_iff.mp h
  have hrest := translate_page hget hi
  rw [translate, hget] at htrans
  obtain rfl := Option.some.inj htrans
  refine access_eq_some_iff.mpr ⟨⟨flags, frame, ?_, hflag⟩, hrest⟩
  rw [← hget]
  exact mmuMapGetTable_page m table (by omega)

/-- Every page that is mapped can be read. -/
theorem Allows.read {m : PageMem} {table v flag : Nat} (h : Allows m table v flag) :
    Allows m table v mmuFlagRead := by
  obtain ⟨flags, frame, hget, -⟩ := h
  refine ⟨flags, frame, hget, ?_⟩
  rw [← (entryAnswer_ok hget).1]
  simp [mmuFlagRead, mmuFlagWrite, mmuFlagKernel]

/-! ## Pages of tables -/

section Pages

variable {tabs : List Nat} {m m' : PageMem}

theorem TablePage.congr (h : ∀ p, TablePage tabs m p → m' p = m p) {p : Nat} :
    TablePage tabs m' p ↔ TablePage tabs m p := by
  refine or_congr_right (exists_congr fun T => and_congr_right fun hT => ?_)
  rw [h T (.inl hT)]

theorem mmuMapGetTable_congr (h : ∀ p, TablePage tabs m p → m' p = m p) {U v : Nat}
    (hU : U ∈ tabs) (hv : v < 4294967296) : mmuMapGetTable m' U v = mmuMapGetTable m U v := by
  rw [mmuMapGetTable, mmuMapGetTable, pgdirGetPageEntry, pgdirGetPageEntry, h U (.inl hU)]
  split
  · rename_i hp
    rw [h _ (.inr ⟨U, hU, pdindex v, pdindex_lt hv, hp, rfl⟩)]
  · rfl

theorem access_congr (h : ∀ p, TablePage tabs m p → m' p = m p) {U v : Nat} (hU : U ∈ tabs)
    (hv : v < 4294967296) (flag : Nat) : access m' U v flag = access m U v flag := by
  rw [access, access, mmuMapGetTable_congr h hU hv]

theorem Tables.congr {H : Type} {A : PageHeap H} {kernel : Nat} {s : Mmu H}
    (ht : Tables A kernel tabs s) (h : ∀ p, TablePage tabs s.mem p → m' p = s.mem p) :
    Tables A kernel tabs { s with mem := m' } := by
  have hdirs : ∀ T ∈ tabs, m' T = s.mem T := fun T hT => h T (.inl hT)
  refine ⟨ht.aligned, ht.dirHeld, ?_, ?_, ?_⟩
  · intro T hT i hi
    simp only [hdirs T hT]
    exact ht.pageHeld T hT i hi
  · intro T hT i hi
    simp only [hdirs T hT]
    exact ht.notDir T hT i hi
  · intro T hT U hU i hi j hj
    simp only [hdirs T hT, hdirs U hU]
    intro hTi hUj heq
    obtain ⟨hij, hcase⟩ := ht.shared T hT U hU i hi j hj hTi hUj heq
    refine ⟨hij, hcase.imp_right ?_⟩
    rintro ⟨hks, hkt, hown⟩
    refine ⟨hks, hkt, ?_⟩
    simp only [hdirs kernel hkt]
    exact hown

/-- A copy to pages that are no tables, byte by byte. -/
theorem memcpyVirt_spec {current dest src n : Nat} {place source : Nat → Nat}
    (hcur : current ∈ tabs)
    (hto : ∀ j < n, access m current (u32 (dest + j)) mmuFlagWrite = some (place j))
    (hsource : ∀ j < n, access m current (u32 (src + j)) mmuFlagRead = some (source j))
    (hdata : ∀ j < n, ¬ TablePage tabs m (pageBase (place j))) :
    ∃ m', memcpyVirt current dest src n m = some m' ∧
      (∀ p, TablePage tabs m p → m' p = m p) ∧
      ∀ x, m'.byte x = m.byte (origin ((List.range n).map fun j => (place j, source j)) x) := by
  induction n generalizing m dest src place source with
  | zero => exact ⟨m, rfl, fun _ _ => rfl, fun _ => rfl⟩
  | succ n ih =>
    have hstep : ∀ p, TablePage tabs m p → m.setByte (place 0) (m.byte (source 0)) p = m p := by
      intro p hp
      refine m.setByte_of_ne _ ?_
      rintro rfl
      exact hdata 0 (Nat.succ_pos n) hp
    have hshift : ∀ a j, a + 1 + j = a + (j + 1) := by omega
    obtain ⟨m', hrun, htables, hbytes⟩ := @ih (m.setByte (place 0) (m.byte (source 0))) (dest + 1)
      (src + 1) (fun j => place (j + 1)) (fun j => source (j + 1))
      (fun j hj => by
        rw [access_congr hstep hcur (u32_lt _), hshift]
        exact hto (j + 1) (Nat.succ_lt_succ hj))
      (fun j hj => by
        rw [access_congr hstep hcur (u32_lt _), hshift]
        exact hsource (j + 1) (Nat.succ_lt_succ hj))
      (fun j hj => by
        rw [TablePage.congr hstep]
        exact hdata (j + 1) (Nat.succ_lt_succ hj))
    refine ⟨m', ?_, fun p hp => ?_, fun x => ?_⟩
    · have h0 := hto 0 (Nat.succ_pos n)
      have h0' := hsource 0 (Nat.succ_pos n)
      rw [Nat.add_zero] at h0 h0'
      rw [memcpyVirt, h0', Option.bind_eq_bind, Option.bind_some, h0, Option.bind_some, hrun]
    · rw [htables p ((TablePage.congr hstep).mpr hp), hstep p hp]
    · rw [hbytes, List.range_succ_eq_map, List.map_cons, origin_cons, List.map_map, m.byte_setByte,
        Nat.mod_eq_of_lt (m.byte_lt _), copySource]
      exact (apply_ite m.byte ..).symm

/-- Stores to pages that are no tables, byte by byte. -/
theorem storeVirt_spec {current dest : Nat} {bs : List Nat} {place : Nat → Nat}
    (hcur : current ∈ tabs)
    (hto : ∀ j < bs.length, access m current (u32 (dest + j)) mmuFlagWrite = some (place j))
    (hdata : ∀ j < bs.length, ¬ TablePage tabs m (pageBase (place j))) :
    ∃ m', storeVirt current dest bs m = some m' ∧ (∀ p, TablePage tabs m p → m' p = m p) ∧
      ∀ x, m'.byte x = m.byte x ∧ (∀ j < bs.length, place j ≠ x) ∨
        ∃ j, ∃ h : j < bs.length, place j = x ∧ m'.byte x = bs[j] % 256 := by
  induction bs generalizing m dest place with
  | nil =>
    exact ⟨m, rfl, fun _ _ => rfl, fun _ => .inl ⟨rfl, fun _ hj => absurd hj (Nat.not_lt_zero _)⟩⟩
  | cons b bs ih =>
    have h0 := hto 0 (Nat.succ_pos _)
    rw [Nat.add_zero] at h0
    have hstep : ∀ p, TablePage tabs m p → m.setByte (place 0) b p = m p := by
      intro p hp
      refine m.setByte_of_ne _ ?_
      rintro rfl
      exact hdata 0 (Nat.succ_pos _) hp
    obtain ⟨m', hrun, htables, hbytes⟩ := @ih (m.setByte (place 0) b) (dest + 1)
      (fun j => place (j + 1))
      (fun j hj => by
        rw [access_congr hstep hcur (u32_lt _), show dest + 1 + j = dest + (j + 1) by omega]
        exact hto (j + 1) (Nat.succ_lt_succ hj))
      (fun j hj => by
        rw [TablePage.congr hstep]
        exact hdata (j + 1) (Nat.succ_lt_succ hj))
    refine ⟨m', ?_, fun p hp => ?_, fun x => ?_⟩
    · rw [storeVirt, h0, Option.bind_eq_bind, Option.bind_some, hrun]
    · rw [htables p ((TablePage.congr hstep).mpr hp), hstep p hp]
    · rcases hbytes x with ⟨hsame, hnot⟩ | ⟨j, hj, hplace, hval⟩
      · rw [m.byte_setByte] at hsame
        by_cases hx : x = place 0
        · rw [if_pos hx] at hsame
          exact .inr ⟨0, Nat.succ_pos _, hx.symm, hsame⟩
        · rw [if_neg hx] at hsame
          refine .inl ⟨hsame, fun j hj heq => ?_⟩
          cases j with
          | zero => exact hx heq.symm
          | succ j => exact hnot j (Nat.lt_of_succ_lt_succ hj) heq
      · exact .inr ⟨j + 1, Nat.succ_lt_succ hj, hplace, hval⟩

end Pages

/-! ## More page tables -/

section Grown

variable {H : Type} {A : PageHeap H} {kernel : Nat} {tabs : List Nat}

/-- Page tables were added, on pages of which nothing was held. -/
structure Grown (A : PageHeap H) (tabs : List Nat) (s s' : Mmu H) : Prop where
  keeps : ∀ x, A.held s.heap x → A.held s'.heap x
  grows : ∀ p, TablePage tabs s.mem p → TablePage tabs s'.mem p
  fresh : ∀ p, TablePage tabs s'.mem p → TablePage tabs s.mem p ∨
    ∀ x, p ≤ x → x < p + 4096 → ¬ A.held s.heap x

theorem Grown.refl (s : Mmu H) : Grown A tabs s s :=
  ⟨fun _ h => h, fun _ h => h, fun _ h => .inl h⟩

theorem Grown.trans {s s₁ s' : Mmu H} (h₁ : Grown A tabs s s₁) (h₂ : Grown A tabs s₁ s') :
    Grown A tabs s s' := by
  refine ⟨fun x hx => h₂.keeps x (h₁.keeps x hx), fun p hp => h₂.grows p (h₁.grows p hp),
    fun p hp => ?_⟩
  rcases h₂.fresh p hp with hold | hfree
  · exact h₁.fresh p hold
  · exact .inr fun x hx hx' hheld => hfree x hx hx' (h₁.keeps x hheld)

theorem Grown.of_same {s : Mmu H} {m' : PageMem}
    (h : ∀ p, TablePage tabs s.mem p ↔ TablePage tabs m' p) :
    Grown A tabs s { s with mem := m' } :=
  ⟨fun _ hx => hx, fun p hp => (h p).mp hp, fun p hp => .inl ((h p).mpr hp)⟩

/-- A page that is no table, with a byte that is held: it stays one. -/
def DataPage (A : PageHeap H) (tabs : List Nat) (s : Mmu H) (p : Nat) : Prop :=
  (∃ x, p ≤ x ∧ x < p + 4096 ∧ A.held s.heap x) ∧ ¬ TablePage tabs s.mem p

theorem Grown.dataPage {s s' : Mmu H} (h : Grown A tabs s s') {p : Nat}
    (hp : DataPage A tabs s p) : DataPage A tabs s' p := by
  obtain ⟨⟨x, hx, hx', hheld⟩, hnot⟩ := hp
  refine ⟨⟨x, hx, hx', h.keeps x hheld⟩, fun hin => ?_⟩
  rcases h.fresh p hin with hold | hfree
  · exact hnot hold
  · exact hfree x hx hx' hheld

/-- And no other page changed. -/
structure OnlyTables (A : PageHeap H) (tabs : List Nat) (s s' : Mmu H) : Prop
    extends Grown A tabs s s' where
  same : ∀ p, ¬ TablePage tabs s'.mem p → s'.mem p = s.mem p

theorem OnlyTables.trans {s s₁ s' : Mmu H} (h₁ : OnlyTables A tabs s s₁)
    (h₂ : OnlyTables A tabs s₁ s') : OnlyTables A tabs s s' :=
  ⟨h₁.toGrown.trans h₂.toGrown, fun p hp =>
    (h₂.same p hp).trans (h₁.same p fun hin => hp (h₂.grows p hin))⟩

/-- A new page table is on a page of which nothing was held, and changes no
other page but the directory. -/
theorem addPageTable_newPage {s s' : Mmu H} {dir pd : Nat} (ht : Tables A kernel tabs s)
    (hnull : A.NeverNull) (hdir : dir ∈ tabs) (h : addPageTable A s dir pd = some s') :
    s' = s ∨
      (∀ x, pageMask (s'.mem dir pd) ≤ x → x < pageMask (s'.mem dir pd) + 4096 →
        ¬ A.held s.heap x) ∧
      ∀ p, p ∉ tabs → p ≠ pageMask (s'.mem dir pd) → s'.mem p = s.mem p := by
  rcases addPageTable_cases h with ⟨-, rfl⟩ | ⟨-, page, hk, hmem⟩
  · exact .inl rfl
  obtain ⟨hal, hlt, hblock⟩ := A.fresh_pages hk (hnull hk) rfl
  have hmask : pageMask page = page := pageMask_of_aligned (by omega) hal
  have hne : dir ≠ page := by
    rintro rfl
    exact (hblock dir hal (Nat.le_refl _) (by omega)).1 (ht.dirHeld dir hdir)
  have hword : pageMask (s'.mem dir pd) = page := by
    have hword : s'.mem dir pd = page ||| pageFlagPresent ||| pageFlagWritable := by
      simp [hmem, hmask, PageMem.zeroPage, PageMem.setWord, hne]
    rw [hword, (newTable_word page).2, hmask]
  rw [hword]
  refine .inr ⟨fun x hx hx' => ((A.fresh hk (hnull hk)).2.2 x hx hx').1, fun p hp hpage => ?_⟩
  have hpdir : p ≠ dir := fun heq => hp (heq ▸ hdir)
  funext i
  simp [hmem, hmask, PageMem.zeroPage, PageMem.setWord, hpage, hpdir]

/-- A mapping below the kernel. -/
theorem pgdirMapPage_grown {s s' : Mmu H} {T phys virt flags : Nat} (ht : Tables A kernel tabs s)
    (hnull : A.NeverNull) (hT : T ∈ tabs) (hlow : pageMask virt < kernelOffset)
    (h : pgdirMapPage A kernel s T phys virt flags = some s') :
    OnlyTables A tabs s s' := by
  have hk : kernelOffset ≤ pageMask virt → kernel ∈ tabs := fun hk =>
    absurd hk (Nat.not_le.mpr hlow)
  have hdir : mapDir kernel T (pageMask virt) = T := if_neg fun hcon => Nat.not_le.mpr hlow hcon.1
  have hstep := (pgdirMapPage_spec ht hnull hT hk h).2
  rw [hdir] at hstep
  have hkeeps : ∀ x, A.held s.heap x → A.held s'.heap x := fun x => pgdirMapPage_keeps h
  have hpd : pdindex (pageMask virt) < pgdirEntries := pdindex_lt (Nat.lt_trans hlow (by decide))
  obtain ⟨s₁, hadd, hret⟩ := Option.bind_eq_some_iff.mp h
  obtain rfl := Option.some.inj hret
  rw [hdir] at hadd
  simp only [hdir] at hstep ⊢
  obtain ⟨ht₁, hpres, -, hwords, -⟩ := addPageTable_spec ht hnull hT hpd hadd
  have hnotDir := ht₁.notDir T hT _ hpd hpres
  have hnew := addPageTable_newPage ht hnull hT hadd
  refine ⟨⟨hkeeps, fun p hp => hp.imp_right ?_, fun p hp => ?_⟩, ?_⟩
  · rintro ⟨U, hU, i, hi, hpres, hmask⟩
    exact ⟨U, hU, i, hi, (hstep.present U hU i hi).mpr (.inl hpres),
      (hstep.page U hU i hi hpres fun _ _ => rfl).trans hmask⟩
  · rcases hp with hp | ⟨U, hU, i, hi, hpresU, rfl⟩
    · exact .inl (.inl hp)
    have hslot := storeEntry_slot hnotDir hT hpres hU T (ptindex (pageMask virt))
      (pageMask phys) flags i
    by_cases hown : U = T ∧ i = pdindex (pageMask virt)
    · -- the slot of the new page table
      obtain ⟨rfl, rfl⟩ := hown
      have hmask := (hslot.resolve_right fun hnot => hnot.1 ⟨.inl rfl, rfl⟩).2.2.2
      rcases hnew with rfl | ⟨hfree, -⟩
      · exact .inl (.inr ⟨U, hU, _, hi, hpres, hmask.symm⟩)
      · rw [hmask]
        exact .inr hfree
    · have hsame : storeEntry s₁.mem T T (pdindex (pageMask virt)) (ptindex (pageMask virt))
          (pageMask phys) flags U i = s₁.mem U i :=
        (hslot.resolve_left fun hin => hown ⟨hin.1.elim id id, hin.2.1⟩).2
      dsimp only at hpresU ⊢
      rw [hsame, hwords U hU i hi (not_and_or.mp hown)] at hpresU ⊢
      exact .inl (.inr ⟨U, hU, i, hi, hpresU, rfl⟩)
  · intro p hp
    obtain ⟨hptabs, hpslots⟩ := not_or.mp hp
    have hpage : p ≠ pageMask (s₁.mem T (pdindex (pageMask virt))) := by
      rintro rfl
      refine hpslots ⟨T, hT, _, hpd, ?_⟩
      rcases storeEntry_slot hnotDir hT hpres hT T (ptindex (pageMask virt))
        (pageMask phys) flags (pdindex (pageMask virt)) with ⟨-, -, hpres', hmask⟩ | ⟨hnot, -⟩
      · exact ⟨hpres', hmask⟩
      · exact absurd ⟨.inl rfl, rfl⟩ hnot
    have hsame : s₁.mem p = s.mem p := by
      rcases hnew with rfl | ⟨-, hsame⟩
      · rfl
      · exact hsame p hptabs hpage
    rw [← hsame]
    funext j
    dsimp only
    rw [storeEntry_page hT hT hptabs, if_neg fun hin => hpage hin.1]

/-- A mapping of a range below the kernel. -/
theorem mapRange_grown {s s' : Mmu H} {T virt phys size flags : Nat} (ht : Tables A kernel tabs s)
    (hnull : A.NeverNull) (hT : T ∈ tabs) (hlow : pageMask virt + size ≤ kernelOffset)
    (h : mmuMapTable A kernel s T virt phys size flags = some s') : OnlyTables A tabs s s' := by
  obtain ⟨offs, hoffs, hrun⟩ := Option.bind_eq_some_iff.mp h
  have hlows : ∀ off ∈ offs, pageMask (u32 (pageMask virt + off)) < kernelOffset := by
    intro off hoff
    obtain ⟨hal, hlt⟩ := (mem_pageOffs hoffs).mp hoff
    have hK : kernelOffset = 3221225472 := rfl
    have hvirt := pageMask_aligned virt
    rw [u32_of_lt (by omega), pageMask_of_aligned (by omega) (by omega)]
    omega
  clear h hoffs
  induction offs generalizing s with
  | nil =>
    obtain rfl := Option.some.inj hrun
    exact ⟨Grown.refl s, fun _ _ => rfl⟩
  | cons off offs ih =>
    rw [List.foldlM_cons] at hrun
    obtain ⟨s₁, hstep, hrest⟩ := Option.bind_eq_some_iff.mp hrun
    have hoff := hlows off List.mem_cons_self
    have ht₁ := (pgdirMapPage_spec ht hnull hT (fun hk => absurd hk (Nat.not_le.mpr hoff)) hstep).1
    exact (pgdirMapPage_grown ht hnull hT hoff hstep).trans
      (ih ht₁ hrest fun off' h => hlows off' (List.mem_cons_of_mem off h))

theorem mapPage_grown {s s' : Mmu H} {T a phys size flags : Nat} (ht : Tables A kernel tabs s)
    (hnull : A.NeverNull) (hT : T ∈ tabs) (ha : a < kernelOffset) (hsize : size ≤ 4096)
    (h : mmuMapTable A kernel s T a phys size flags = some s') : OnlyTables A tabs s s' :=
  mapRange_grown ht hnull hT (by have := pageMask_low ha; omega) h

theorem unmapPage_grown {s : Mmu H} {T a : Nat} (ht : Tables A kernel tabs s) (hT : T ∈ tabs)
    (ha : a < kernelOffset) :
    OnlyTables A tabs s { s with mem := unmapPage s.mem T a } := by
  have hpd : pdindex a < pgdirEntries := pdindex_lt (Nat.lt_trans ha (by decide))
  unfold unmapPage
  split
  · rename_i hp
    -- the page table is no directory
    have hdirs : ∀ U ∈ tabs, s.mem.setWord (pageMask (s.mem T (pdindex a))) (ptindex a) 0 U =
        s.mem U := by
      intro U hU
      funext i
      refine if_neg fun hin => ht.notDir T hT _ hpd hp ?_
      rw [← hin.1]
      exact hU
    have hiff : ∀ p, TablePage tabs s.mem p ↔
        TablePage tabs (s.mem.setWord (pageMask (s.mem T (pdindex a))) (ptindex a) 0) p := fun p =>
      or_congr_right (exists_congr fun U => and_congr_right fun hU => by rw [hdirs U hU])
    refine ⟨Grown.of_same hiff, fun p hnot => ?_⟩
    funext i
    refine if_neg fun hin => hnot ((hiff p).mp (.inr ⟨T, hT, _, hpd, hp, hin.1.symm⟩))
  · exact ⟨Grown.refl _, fun _ _ => rfl⟩

theorem putBack_grown {s s' : Mmu H} {current a : Nat} {m₀ : PageMem} (ht : Tables A kernel tabs s)
    (hnull : A.NeverNull) (hcur : current ∈ tabs) (ha : a < kernelOffset)
    (h : putBack A kernel current s (mmuMapSave m₀ current a) a = some s') :
    OnlyTables A tabs s s' := by
  unfold mmuMapSave at h
  cases hget : mmuMapGetTable m₀ current a with
  | ok ans =>
    rw [hget] at h
    exact mapPage_grown ht hnull hcur ha (Nat.le_refl _) h
  | error err =>
    rw [hget, putBack] at h
    obtain ⟨m, hm, rfl⟩ := Option.map_eq_some_iff.mp h
    obtain rfl : unmapPage s.mem current a = m := by
      have hlt : a < 4294967296 := Nat.lt_trans ha (by decide)
      have hone : mmuUnmapTable s.mem current a 1 =
          some (unmapPage s.mem current (u32 (a + 0))) := rfl
      rw [hone, Nat.add_zero, u32_of_lt hlt] at hm
      exact Option.some.inj hm
    exact unmapPage_grown ht hcur ha

/-! ## Copies over mapped frames -/

/-- The copies `ps` were made, and no table answers differently. -/
structure MovedOver (A : PageHeap H) (kernel : Nat) (tabs : List Nat) (ps : List (Nat × Nat))
    (s s' : Mmu H) : Prop where
  unmoved : Unmoved A kernel tabs s s'
  grown : Grown A tabs s s'
  bytes : ∀ x, ¬ TablePage tabs s'.mem (pageBase x) →
    s'.mem.byte x = s.mem.byte (origin ps x)

theorem MovedOver.refl {s : Mmu H} (ht : Tables A kernel tabs s) : MovedOver A kernel tabs [] s s :=
  ⟨Unmoved.refl ht, Grown.refl s, fun _ _ => rfl⟩

theorem MovedOver.trans {s s₁ s' : Mmu H} {ps qs : List (Nat × Nat)}
    (h₁ : MovedOver A kernel tabs ps s s₁) (h₂ : MovedOver A kernel tabs qs s₁ s')
    (hqs : ∀ q ∈ qs, ¬ TablePage tabs s₁.mem (pageBase q.2)) :
    MovedOver A kernel tabs (ps ++ qs) s s' := by
  refine ⟨h₁.unmoved.trans h₂.unmoved, h₁.grown.trans h₂.grown, fun x hx => ?_⟩
  rw [h₂.bytes x hx, origin_append]
  refine h₁.bytes _ ?_
  rcases origin_cases qs x with hself | ⟨q, hq, heq⟩
  · rw [hself]
    exact fun hin => hx (h₂.grown.grows _ hin)
  · rw [heq]
    exact hqs q hq

/-- Pages were mapped, the copies made, and the mappings put back. -/
theorem MovedOver.of_mapped {s s₁ s' : Mmu H} {m₂ : PageMem} {ps : List (Nat × Nat)}
    (h₁ : OnlyTables A tabs s s₁) (htables : ∀ p, TablePage tabs s₁.mem p → m₂ p = s₁.mem p)
    (hbytes : ∀ x, m₂.byte x = s₁.mem.byte (origin ps x))
    (h₃ : OnlyTables A tabs { s₁ with mem := m₂ } s') (hun : Unmoved A kernel tabs s s')
    (hps : ∀ p ∈ ps, DataPage A tabs s (pageBase p.2)) : MovedOver A kernel tabs ps s s' := by
  have h₂ : Grown A tabs s₁ { s₁ with mem := m₂ } :=
    Grown.of_same fun p => (TablePage.congr htables).symm
  refine ⟨hun, (h₁.toGrown.trans h₂).trans h₃.toGrown, fun x hx => ?_⟩
  rw [PageMem.byte_congr (h₃.same _ hx), hbytes]
  refine PageMem.byte_congr (h₁.same _ ?_)
  -- the byte and the sources are on no table
  rcases origin_cases ps x with hself | ⟨p, hp, heq⟩
  · rw [hself]
    exact fun hin => hx (h₃.grows _ (h₂.grows _ hin))
  · rw [heq]
    exact (h₁.dataPage (hps p hp)).2

end Grown

end LambdaOs
