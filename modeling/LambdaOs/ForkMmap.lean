import LambdaOs.ForkCopy

/-!
# The memory map of a forked process

The memory map of a process is a list of `struct kproc_mem_map_ent`, linked by
`next`. `proc_copy_data` of `proc/fork.c` puts the child's entries into one
array, and links an entry to the one behind it when the parent's entry has a
next one. It never stores the `next` of the last entry, which is what the
array's memory held before; and for an empty list it asks for an array of no
bytes, which is answered like a request that cannot be met.

Entries are in a memory of their own, by their addresses. `copyMmapLoop` makes
the same calls as `copyEntries`, which copies what the entries are about
(`copyMmapLoop_spec`), and `fork_mmap_iff` says when the list is the parent's.
-/

namespace LambdaOs

/-! ## Lists in memory -/

/-- `struct kproc_mem_map_ent` with its link. -/
structure MapEnt where
  virtAddress : Nat
  physAddress : Nat
  length : Nat
  next : Nat
deriving Repr, DecidableEq

def MapEnt.ent (x : MapEnt) : MemMapEnt := ⟨x.virtAddress, x.physAddress, x.length⟩

/-- The entries by their addresses. -/
abbrev MapMem := Nat → MapEnt

/-- From `p` on the list has its entries at these addresses, and ends. -/
def EntsAt (e : MapMem) : Nat → List Nat → Prop
  | p, [] => p = 0
  | p, q :: qs => p = q ∧ q ≠ 0 ∧ EntsAt e (e q).next qs

instance EntsAt.decidable (e : MapMem) : (p : Nat) → (qs : List Nat) → Decidable (EntsAt e p qs)
  | p, [] => inferInstanceAs (Decidable (p = 0))
  | p, q :: qs =>
      have := EntsAt.decidable e (e q).next qs
      inferInstanceAs (Decidable (p = q ∧ q ≠ 0 ∧ _))

/-- The virtual addresses and lengths of the entries. -/
def mapPairs (e : MapMem) (qs : List Nat) : List (Nat × Nat) :=
  qs.map fun q => ((e q).virtAddress, (e q).length)

/-- A walk over the list. -/
def walkEnts (e : MapMem) : Nat → Nat → Option (List Nat)
  | 0, _ => none
  | fuel + 1, p => if p = 0 then some [] else (walkEnts e fuel (e p).next).map (p :: ·)

section Calls

variable {H : Type} (A : PageHeap H) (kernel : Nat) (strict : Bool)

/-- What `proc_copy_data` and `mm_proc_mmap_add` leave: the return value, the
`mmap` of the process and the entries. -/
structure MmapState where
  ret : Int
  mmap : Nat
  ents : MapMem

/-- `mm_proc_mmap_add`. The new entry is linked behind the last one. -/
def mmapAddEnt (fuel : Nat) (heap : H) (e : MapMem) (mmap phys virt sz : Nat) :
    Option (MmapState × H) := do
  let (ent, heap) ← A.kamalloc heap memMapEntSize minAlign
  if ent = 0 then return (⟨-ENOMEM, mmap, e⟩, heap)
  let e := Function.update e ent ⟨virt, phys, sz, 0⟩
  let qs ← walkEnts e fuel mmap
  match qs.getLast? with
  | none => return (⟨0, ent, e⟩, heap)
  | some last => return (⟨0, mmap, Function.update e last { e last with next := ent }⟩, heap)

/-- What a round stores to the child's entry before it asks for memory. -/
def storeEnt (e : MapMem) (pent cent : Nat) : MapMem :=
  let e :=
    if (e pent).next ≠ 0 then
      Function.update e cent { e cent with next := u32 (cent + memMapEntSize) }
    else e
  let e := Function.update e cent { e cent with virtAddress := (e pent).virtAddress }
  Function.update e cent { e cent with length := (e pent).length }

/-- The loop of `proc_copy_data`, with the parent's entry and the child's. -/
def copyMmapLoop (child parent : Nat) :
    Nat → Nat → Nat → Mmu H → MapMem → Option (Int × Mmu H × MapMem)
  | 0, _, _, _, _ => none
  | fuel + 1, pent, cent, s, e =>
      if pent = 0 then some (0, s, e)
      else do
        let e := storeEnt e pent cent
        let (ret, copied, s) ← copyEntry A kernel strict child parent s (e pent).ent
        let e := Function.update e cent { e cent with physAddress := copied.ent.physAddress }
        if ret ≠ 0 then return (ret, s, e)
        copyMmapLoop child parent fuel (e pent).next (e cent).next s e

/-- `proc_copy_data`, with the parent's `mmap`. -/
def procCopyMmap (fuel child parent mmap : Nat) (s : Mmu H) (e : MapMem) :
    Option (MmapState × Mmu H) := do
  let ents ← walkEnts e fuel mmap
  let (list, heap) ← A.kamalloc s.heap (u32 (memMapEntSize * ents.length)) minAlign
  let s := { s with heap := heap }
  if list = 0 then return (⟨-ENOMEM, 0, e⟩, s)
  let (ret, s, e) ← copyMmapLoop A kernel strict child parent fuel mmap list s e
  return (⟨ret, list, e⟩, s)

end Calls

/-! ## Walks -/

section Walk

variable {e e' : MapMem} {p : Nat} {qs : List Nat}

theorem EntsAt.unique {qs' : List Nat} (h : EntsAt e p qs) (h' : EntsAt e p qs') : qs = qs' := by
  induction qs generalizing p qs' with
  | nil =>
    cases qs' with
    | nil => rfl
    | cons q' qs' => exact absurd (h'.1.symm.trans h) h'.2.1
  | cons q qs ih =>
    cases qs' with
    | nil => exact absurd (h.1.symm.trans h') h.2.1
    | cons q' qs' =>
      obtain rfl : q = q' := h.1.symm.trans h'.1
      rw [ih h.2.2 h'.2.2]

theorem EntsAt.nonnull (h : EntsAt e p qs) : 0 ∉ qs := by
  induction qs generalizing p with
  | nil => exact List.not_mem_nil
  | cons q qs ih =>
    rw [List.mem_cons, not_or]
    exact ⟨h.2.1.symm, ih h.2.2⟩

theorem EntsAt.frame (h : EntsAt e p qs) (hsame : ∀ q ∈ qs, (e' q).next = (e q).next) :
    EntsAt e' p qs := by
  induction qs generalizing p with
  | nil => exact h
  | cons q qs ih =>
    refine ⟨h.1, h.2.1, ?_⟩
    rw [hsame q List.mem_cons_self]
    exact ih h.2.2 fun q' hq' => hsame q' (List.mem_cons_of_mem q hq')

/-- A walk over a list that ends finds its entries. -/
theorem walkEnts_eq (h : EntsAt e p qs) {fuel : Nat} (hfuel : qs.length < fuel) :
    walkEnts e fuel p = some qs := by
  induction qs generalizing p fuel with
  | nil =>
    obtain ⟨fuel, rfl⟩ : ∃ n, fuel = n + 1 := ⟨fuel - 1, by omega⟩
    have hp : p = 0 := h
    rw [walkEnts, if_pos hp]
  | cons q qs ih =>
    obtain ⟨fuel, rfl⟩ : ∃ n, fuel = n + 1 := ⟨fuel - 1, by omega⟩
    obtain ⟨rfl, hq, hrest⟩ := h
    rw [walkEnts, if_neg hq, ih hrest (Nat.lt_of_succ_lt_succ hfuel), Option.map_some]

/-- What a walk finds is the list. -/
theorem walkEnts_some {fuel : Nat} (h : walkEnts e fuel p = some qs) : EntsAt e p qs := by
  induction fuel generalizing p qs with
  | zero => cases h
  | succ fuel ih =>
    rw [walkEnts] at h
    split at h
    · rename_i hp
      cases h
      exact hp
    · rename_i hp
      obtain ⟨qs', hwalk, rfl⟩ := Option.map_eq_some_iff.mp h
      exact ⟨rfl, hp, ih hwalk⟩

/-- An entry behind the last one. -/
theorem EntsAt.snoc {last ent : Nat} (h : EntsAt e p (qs ++ [last])) (hnodup : (qs ++ [last]).Nodup)
    (hent : ent ≠ 0) (hnew : ent ∉ qs ++ [last]) (hend : (e ent).next = 0) :
    EntsAt (Function.update e last { e last with next := ent }) p (qs ++ [last] ++ [ent]) := by
  induction qs generalizing p with
  | nil =>
    obtain ⟨rfl, hp, -⟩ := h
    have hne : ent ≠ p := fun he => hnew (he ▸ List.mem_singleton_self p)
    refine ⟨rfl, hp, ?_, hent, ?_⟩
    · rw [Function.update_self]
    · rw [Function.update_of_ne hne]
      exact hend
  | cons q qs ih =>
    obtain ⟨rfl, hp, hrest⟩ := h
    obtain ⟨hq, hnodup⟩ := List.nodup_cons.mp hnodup
    have hne : p ≠ last := by
      rintro rfl
      exact hq (List.mem_append_right qs (List.mem_singleton_self p))
    refine ⟨rfl, hp, ?_⟩
    rw [Function.update_of_ne hne]
    exact ih hrest hnodup fun hin => hnew (List.mem_cons_of_mem _ hin)

end Walk

/-! ## The loop -/

/-- The array at `cent` in `e'` has the entries `ps` of `e`, each linked to the
one behind it, and the last one to what was there. -/
def CopiedEnts (e e' : MapMem) : Nat → List Nat → Prop
  | _, [] => True
  | cent, p :: ps =>
      (e' cent).virtAddress = (e p).virtAddress ∧ (e' cent).length = (e p).length ∧
        (e' cent).next = (if ps = [] then (e cent).next else cent + memMapEntSize) ∧
        CopiedEnts e e' (cent + memMapEntSize) ps

theorem CopiedEnts.congr {e e₁ e' : MapMem} {cent : Nat} {ps : List Nat}
    (h : CopiedEnts e₁ e' cent ps) (hps : ∀ q ∈ ps, e₁ q = e q)
    (harray : ∀ i < ps.length, e₁ (cent + memMapEntSize * i) = e (cent + memMapEntSize * i)) :
    CopiedEnts e e' cent ps := by
  induction ps generalizing cent with
  | nil => trivial
  | cons p ps ih =>
    obtain ⟨hvirt, hlength, hnext, hrest⟩ := h
    have h0 := harray 0 (Nat.succ_pos _)
    rw [Nat.mul_zero, Nat.add_zero] at h0
    rw [hps p List.mem_cons_self] at hvirt hlength
    rw [h0] at hnext
    refine ⟨hvirt, hlength, hnext, ih hrest (fun q hq => hps q (List.mem_cons_of_mem p hq)) ?_⟩
    intro i hi
    have hi' := harray (i + 1) (Nat.succ_lt_succ hi)
    rwa [show cent + memMapEntSize * (i + 1) = cent + memMapEntSize + memMapEntSize * i by
      rw [Nat.mul_succ]; omega] at hi'

theorem storeEnt_eq {e : MapMem} {pent cent : Nat} (hne : pent ≠ cent) :
    storeEnt e pent cent = Function.update e cent ⟨(e pent).virtAddress, (e cent).physAddress,
      (e pent).length,
      if (e pent).next ≠ 0 then u32 (cent + memMapEntSize) else (e cent).next⟩ := by
  unfold storeEnt
  by_cases hnext : (e pent).next ≠ 0
  · simp only [if_pos hnext, Function.update_self, Function.update_of_ne hne, Function.update_idem]
  · simp only [if_neg hnext, Function.update_self, Function.update_of_ne hne, Function.update_idem]

section Loop

variable {H : Type} {A : PageHeap H} {kernel : Nat} {strict : Bool} {child parent : Nat}

theorem copyMmapLoop_spec {fuel pent cent : Nat} {ps : List Nat} {s s' : Mmu H}
    {e e' : MapMem} {ret : Int} (hlist : EntsAt e pent ps)
    (hapart : ∀ q ∈ ps, ∀ i < ps.length, q ≠ cent + memMapEntSize * i)
    (hfits : ∀ i < ps.length, cent + memMapEntSize * (i + 1) ≤ 4294967296)
    (hrun : copyMmapLoop A kernel strict child parent fuel pent cent s e = some (ret, s', e')) :
    (∃ cents, copyEntries A kernel strict child parent (ps.map fun q => (e q).ent) s =
      some (ret, cents, s')) ∧
      (∀ q, (∀ i < ps.length, q ≠ cent + memMapEntSize * i) → e' q = e q) ∧
      (ret = 0 → CopiedEnts e e' cent ps) := by
  induction ps generalizing fuel pent cent s e with
  | nil =>
    cases fuel with
    | zero => cases hrun
    | succ fuel =>
      have hpent : pent = 0 := hlist
      rw [copyMmapLoop, if_pos hpent] at hrun
      cases hrun
      exact ⟨⟨[], rfl⟩, fun _ _ => rfl, fun _ => trivial⟩
  | cons p ps ih =>
    obtain ⟨rfl, hp, hrest⟩ := hlist
    cases fuel with
    | zero => cases hrun
    | succ fuel =>
      have hne : pent ≠ cent := by
        have := hapart pent List.mem_cons_self 0 (Nat.succ_pos _)
        rwa [Nat.mul_zero, Nat.add_zero] at this
      rw [copyMmapLoop, if_neg hp] at hrun
      dsimp only at hrun
      obtain ⟨⟨ret₁, copied, s₁⟩, hentry, hrun⟩ := Option.bind_eq_some_iff.mp hrun
      rw [storeEnt_eq hne, Function.update_of_ne hne] at hentry
      dsimp only at hrun
      rw [storeEnt_eq hne, Function.update_self, Function.update_idem] at hrun
      dsimp only at hrun
      generalize he₁ : Function.update e cent _ = e₁ at hrun
      have hold : ∀ q, q ≠ cent → e₁ q = e q := fun q hq => by
        rw [← he₁, Function.update_of_ne hq]
      have hself := congrFun he₁ cent
      rw [Function.update_self] at hself
      have hps : ∀ q ∈ ps, e₁ q = e q := fun q hq => hold q <| by
        have := hapart q (List.mem_cons_of_mem pent hq) 0 (Nat.succ_pos _)
        rwa [Nat.mul_zero, Nat.add_zero] at this
      have hfirst : ∀ q, (∀ i < (pent :: ps).length, q ≠ cent + memMapEntSize * i) → q ≠ cent := by
        intro q hq
        have := hq 0 (Nat.succ_pos _)
        rwa [Nat.mul_zero, Nat.add_zero] at this
      by_cases hret : ret₁ ≠ 0
      · rw [if_pos hret] at hrun
        cases hrun
        refine ⟨⟨[copied], ?_⟩, fun q hq => hold q (hfirst q hq), fun h0 => absurd h0 hret⟩
        rw [List.map_cons, copyEntries, hentry, Option.bind_eq_bind, Option.bind_some]
        exact if_pos hret
      · rw [if_neg hret, hold pent hne] at hrun
        obtain rfl : ret₁ = 0 := not_not.mp hret
        -- the link is read back where there is a next entry
        have hlink : ps ≠ [] → (e₁ cent).next = cent + memMapEntSize := by
          intro hne'
          have hnext : (e pent).next ≠ 0 := by
            cases ps with
            | nil => exact absurd rfl hne'
            | cons q qs => exact hrest.1 ▸ hrest.2.1
          have hlast := hfits 1 (by
            have := List.length_pos_of_ne_nil hne'
            rw [List.length_cons]
            omega)
          rw [← hself, if_pos hnext, u32_of_lt]
          simp only [memMapEntSize] at hlast ⊢
          omega
        have hshift : ∀ i, cent + memMapEntSize + memMapEntSize * i =
            cent + memMapEntSize * (i + 1) := fun i => by
          rw [Nat.mul_succ]
          omega
        have hin : ∀ i < ps.length, ps ≠ [] := fun i hi he => by
          rw [he] at hi
          exact Nat.not_lt_zero i hi
        obtain ⟨⟨cents, hcopy⟩, hframe, hcopied⟩ := ih
          (hrest.frame fun q hq => congrArg MapEnt.next (hps q hq))
          (fun q hq i hi => by
            rw [hlink (hin i hi), hshift]
            exact hapart q (List.mem_cons_of_mem pent hq) (i + 1) (Nat.succ_lt_succ hi))
          (fun i hi => by
            rw [hlink (hin i hi), hshift]
            exact hfits (i + 1) (Nat.succ_lt_succ hi)) hrun
        have htail : ∀ q, (∀ i < (pent :: ps).length, q ≠ cent + memMapEntSize * i) ∨ q = cent →
            e' q = e₁ q := fun q hq => hframe q fun i hi => by
          rw [hlink (hin i hi), hshift]
          rcases hq with hq | rfl
          · exact hq (i + 1) (Nat.succ_lt_succ hi)
          · simp only [memMapEntSize]
            omega
        refine ⟨⟨copied :: cents, ?_⟩, fun q hq => ?_, fun h0 => ?_⟩
        · have hmap : (ps.map fun q => (e₁ q).ent) = ps.map fun q => (e q).ent :=
            List.map_congr_left fun q hq => by rw [hps q hq]
          rw [hmap] at hcopy
          rw [List.map_cons, copyEntries, hentry, Option.bind_eq_bind, Option.bind_some]
          dsimp only
          rw [if_neg hret, hcopy]
          rfl
        · exact (htail q (.inl hq)).trans (hold q (hfirst q hq))
        · have hcent := htail cent (.inr rfl)
          rw [← hself] at hcent
          refine ⟨by rw [hcent], by rw [hcent], ?_, ?_⟩
          · rw [hcent]
            by_cases hnil : ps = []
            · subst hnil
              have hend : (e pent).next = 0 := hrest
              rw [if_pos rfl, if_neg (not_not.mpr hend)]
            · rw [if_neg hnil]
              have hval := hlink hnil
              rw [← hself] at hval
              exact hval
          · by_cases hnil : ps = []
            · rw [hnil]
              trivial
            · have hrest' := hcopied h0
              rw [hlink hnil] at hrest'
              refine hrest'.congr hps fun i _ => hold _ ?_
              simp only [memMapEntSize]
              omega

/-! ## What stays allocated -/

theorem putBack_keeps {s s' : Mmu H} {current virt x : Nat} {saved : Option MmuMapEntry}
    (h : putBack A kernel current s saved virt = some s') (hx : A.held s.heap x) :
    A.held s'.heap x := by
  cases saved with
  | some ent => exact mmuMapTable_keeps h hx
  | none =>
    rw [putBack] at h
    obtain ⟨m, -, rfl⟩ := Option.map_eq_some_iff.mp h
    exact hx

theorem copyRound_keeps {s s' : Mmu H} {current dmmu smmu dest src n x : Nat}
    (h : copyRound A kernel current dmmu smmu s dest src n = some (.ok s'))
    (hx : A.held s.heap x) : A.held s'.heap x := by
  unfold copyRound at h
  split at h
  · split at h
    · cases h
    · split at h
      · cases h
        exact hx
      · obtain ⟨s', hcopy, heq⟩ := Option.map_eq_some_iff.mp h
        cases heq
        obtain ⟨s₁, h₁, hcopy⟩ := Option.bind_eq_some_iff.mp hcopy
        obtain ⟨s₂, h₂, hcopy⟩ := Option.bind_eq_some_iff.mp hcopy
        obtain ⟨mem, -, hcopy⟩ := Option.bind_eq_some_iff.mp hcopy
        obtain ⟨s₃, h₃, h₄⟩ := Option.bind_eq_some_iff.mp hcopy
        exact putBack_keeps h₄ (putBack_keeps h₃ (mmuMapTable_keeps h₂ (mmuMapTable_keeps h₁ hx)))
  · cases h

theorem copyLoop_keeps {current dmmu dvirt smmu svirt size rounds off x : Nat} {s s' : Mmu H}
    {ret : Int}
    (h : copyLoop A kernel current dmmu dvirt smmu svirt size rounds s off = some (ret, s'))
    (hx : A.held s.heap x) : A.held s'.heap x := by
  induction rounds generalizing s off with
  | zero =>
    rw [copyLoop] at h
    split at h
    · cases h
    · cases h
      exact hx
  | succ rounds ih =>
    rw [copyLoop] at h
    split at h
    · obtain ⟨r, hround, h⟩ := Option.bind_eq_some_iff.mp h
      cases r with
      | error err =>
        cases h
        exact hx
      | ok s₁ => exact ih h (copyRound_keeps hround hx)
    · cases h
      exact hx

theorem copyEntry_keeps {s s' : Mmu H} {pent : MemMapEnt} {ret : Int} {c : CopiedEnt} {x : Nat}
    (h : copyEntry A kernel strict child parent s pent = some (ret, c, s'))
    (hx : A.held s.heap x) : A.held s'.heap x := by
  obtain ⟨⟨block, heap⟩, hk, h⟩ := Option.bind_eq_some_iff.mp h
  dsimp only at h
  have hx₁ := A.keeps hk hx
  split at h
  · cases h
    exact hx₁
  · obtain ⟨mmu, hmap, h⟩ := Option.bind_eq_some_iff.mp h
    obtain ⟨⟨ret', s₁⟩, hcopy, h⟩ := Option.bind_eq_some_iff.mp h
    cases h
    have hx₂ := mmuMapTable_keeps hmap hx₁
    unfold mmuCopyData at hcopy
    split at hcopy
    · cases hcopy
      exact hx₂
    · exact copyLoop_keeps hcopy hx₂

theorem copyEntries_keeps {ents : List MemMapEnt} {s s' : Mmu H} {ret : Int}
    {cents : List CopiedEnt} {x : Nat}
    (h : copyEntries A kernel strict child parent ents s = some (ret, cents, s'))
    (hx : A.held s.heap x) : A.held s'.heap x := by
  induction ents generalizing s cents with
  | nil =>
    cases h
    exact hx
  | cons pent ents ih =>
    obtain ⟨⟨ret₁, c, s₁⟩, hentry, h⟩ := Option.bind_eq_some_iff.mp h
    dsimp only at h
    split at h
    · cases h
      exact copyEntry_keeps hentry hx
    · obtain ⟨⟨ret₂, cs, s₂⟩, hrest, h⟩ := Option.bind_eq_some_iff.mp h
      cases h
      exact ih hrest (copyEntry_keeps hentry hx)

end Loop

/-! ## Where the copies go -/

/-- `x` is in an entry of the parent's list or in the child's array. -/
def InLists (ps : List Nat) (list x : Nat) : Prop :=
  (∃ q ∈ ps, q ≤ x ∧ x < q + memMapEntSize) ∨ (list ≤ x ∧ x < list + memMapEntSize * ps.length)

instance (ps : List Nat) (list x : Nat) : Decidable (InLists ps list x) :=
  inferInstanceAs (Decidable ((∃ q ∈ ps, q ≤ x ∧ x < q + memMapEntSize) ∨ _))

section Stores

variable {H : Type} {A : PageHeap H} {kernel : Nat} {strict : Bool} {child parent : Nat}

/-- No successful round stores to `P`, where the copy of an entry goes to what
the child's table maps its addresses to (`copyEntry_bytes`). -/
def StoresApart (A : PageHeap H) (kernel : Nat) (strict : Bool) (child parent : Nat)
    (P : Nat → Prop) : List MemMapEnt → Mmu H → Prop
  | [], _ => True
  | pent :: pents, s => ∀ c s', copyEntry A kernel strict child parent s pent = some (0, c, s') →
      (∀ k < pent.length, ∀ x,
        translate s'.mem child (u32 (pent.virtAddress + k)) = some x → ¬ P x) ∧
      StoresApart A kernel strict child parent P pents s'

variable {tabs : List Nat} {V P : Nat → Prop} {ents : List MemMapEnt} {s s' : Mmu H}
  {cents : List CopiedEnt}

/-- The copies leave `P` alone, so the lists can be in a memory of their own. -/
theorem StoresApart.kept (hnull : A.NeverNull) (hst : ForkState A kernel tabs V parent child s)
    (hparent : parent ∈ tabs) (hchild : child ∈ tabs) (hne : parent ≠ child)
    (hents : ∀ e ∈ ents, e.Low) (hV : EntsIn V ents)
    (hP : ∀ x, P x → DataByte A tabs s x)
    (h : StoresApart A kernel strict child parent P ents s)
    (hrun : copyEntries A kernel strict child parent ents s = some (0, cents, s')) :
    ∀ x, P x → s'.mem.byte x = s.mem.byte x := by
  induction ents generalizing s cents with
  | nil =>
    cases hrun
    exact fun _ _ => rfl
  | cons e ents ih =>
    obtain ⟨c, s₁, cs, rfl, hstep, hloop⟩ := copyEntries_cons hrun
    have he := hents e List.mem_cons_self
    have hVe := hV e List.mem_cons_self
    obtain ⟨hst₁, hfr₁, -⟩ := copyEntry_low hnull hst hparent hchild hne he hVe hstep
    obtain ⟨hout, hrest⟩ := h c s₁ hstep
    intro x hx
    rw [ih hst₁ (fun e' he' => hents e' (List.mem_cons_of_mem _ he')) hV.tail
      (fun y hy => hfr₁.grown.dataByte (hP y hy)) hrest hloop x hx]
    exact copyEntry_bytes hnull hst hparent hchild hne he hVe hstep (hP x hx)
      fun k hk hread => hout k hk x hread hx

/-- Entries that fit are copied to blocks that were not in use. -/
theorem storesApart_of_fits (hnull : A.NeverNull)
    (hst : ForkState A kernel tabs V parent child s) (hparent : parent ∈ tabs)
    (hchild : child ∈ tabs) (hne : parent ≠ child) (hents : ∀ e ∈ ents, e.Fits)
    (hV : EntsIn V ents) (hsrc : ∀ e ∈ ents, SourceHeld A tabs parent s e)
    (hP : ∀ x, P x → A.held s.heap x) : StoresApart A kernel strict child parent P ents s := by
  induction ents generalizing s with
  | nil => trivial
  | cons e ents ih =>
    intro c s₁ hstep
    have he := hents e List.mem_cons_self
    have hVe := hV e List.mem_cons_self
    have hents' : ∀ e' ∈ ents, e'.Fits := fun e' he' => hents e' (List.mem_cons_of_mem _ he')
    obtain ⟨hst₁, hfr₁, -, hfresh, -⟩ :=
      copyEntry_low hnull hst hparent hchild hne he.low hVe hstep
    obtain ⟨-, hcopied⟩ := copyEntry_fits hnull hst hparent hchild hne he hVe
      (hsrc e List.mem_cons_self) hstep
    refine ⟨fun k hk x hread hx => ?_, ih hst₁ hents' hV.tail (fun e' he' =>
      (hsrc e' (List.mem_cons_of_mem _ he')).frame hfr₁ hparent hne (hents' e' he').low)
      fun x hx => hfr₁.grown.keeps x (hP x hx)⟩
    obtain ⟨-, ca, -, hca, -, hin, -⟩ := hcopied.bytes k hk
    rw [u32_of_lt (he.low.lt (Nat.le_of_lt hk)), hca] at hread
    obtain rfl := Option.some.inj hread
    exact hfresh ca hin (hP ca hx)

end Stores

/-! ## The array as a list -/

/-- The entries of an array. -/
def arrayEnts : Nat → Nat → List Nat
  | _, 0 => []
  | cent, n + 1 => cent :: arrayEnts (cent + memMapEntSize) n

theorem arrayEnts_bounds {cent n q : Nat} (h : q ∈ arrayEnts cent n) :
    cent ≤ q ∧ q + memMapEntSize ≤ cent + memMapEntSize * n := by
  induction n generalizing cent with
  | zero => cases h
  | succ n ih =>
    rw [Nat.mul_succ]
    rcases List.mem_cons.mp h with rfl | h
    · omega
    · have := ih h
      omega

theorem arrayEnts_nodup (cent n : Nat) : (arrayEnts cent n).Nodup := by
  induction n generalizing cent with
  | zero => exact List.nodup_nil
  | succ n ih =>
    refine List.nodup_cons.mpr ⟨fun h => ?_, ih _⟩
    have := arrayEnts_bounds h
    simp only [memMapEntSize] at this
    omega

section Array

variable {e e' : MapMem} {cent : Nat} {ps : List Nat}

/-- The array is the list of the entries, if its last link is null. -/
theorem CopiedEnts.entsAt (h : CopiedEnts e e' cent ps) (hne : ps ≠ []) (hcent : cent ≠ 0)
    (hlast : (e (cent + memMapEntSize * (ps.length - 1))).next = 0) :
    EntsAt e' cent (arrayEnts cent ps.length) ∧
      mapPairs e' (arrayEnts cent ps.length) = mapPairs e ps := by
  induction ps generalizing cent with
  | nil => exact absurd rfl hne
  | cons p ps ih =>
    obtain ⟨hvirt, hlength, hnext, hrest⟩ := h
    rw [List.length_cons, arrayEnts]
    rw [List.length_cons, Nat.add_sub_cancel] at hlast
    by_cases hnil : ps = []
    · subst hnil
      rw [if_pos rfl] at hnext
      rw [List.length_nil, Nat.mul_zero, Nat.add_zero] at hlast
      refine ⟨⟨rfl, hcent, ?_⟩, ?_⟩
      · rw [hnext, hlast]
        rfl
      · simp only [mapPairs, List.map_cons, hvirt, hlength]
        rfl
    · rw [if_neg hnil] at hnext
      have hpos := List.length_pos_of_ne_nil hnil
      have hshift : cent + memMapEntSize + memMapEntSize * (ps.length - 1) =
          cent + memMapEntSize * ps.length := by
        simp only [memMapEntSize]
        omega
      obtain ⟨hents, hpairs⟩ := ih hrest hnil (by simp only [memMapEntSize]; omega)
        (by rw [hshift]; exact hlast)
      refine ⟨⟨rfl, hcent, hnext ▸ hents⟩, ?_⟩
      rw [mapPairs, List.map_cons, hvirt, hlength, ← mapPairs, hpairs]
      rfl

/-- A list as long as the array is the array, and ends behind it. -/
theorem CopiedEnts.last_null (h : CopiedEnts e e' cent ps) (hne : ps ≠ []) {cs : List Nat}
    (hents : EntsAt e' cent cs) (hlen : cs.length = ps.length) :
    (e (cent + memMapEntSize * (ps.length - 1))).next = 0 := by
  induction ps generalizing cent cs with
  | nil => exact absurd rfl hne
  | cons p ps ih =>
    obtain ⟨-, -, hnext, hrest⟩ := h
    cases cs with
    | nil => cases hlen
    | cons c cs =>
      obtain ⟨rfl, -, htail⟩ := hents
      have hlen' : cs.length = ps.length := Nat.succ.inj hlen
      rw [List.length_cons, Nat.add_sub_cancel]
      by_cases hnil : ps = []
      · subst hnil
        rw [if_pos rfl] at hnext
        rw [List.eq_nil_of_length_eq_zero hlen'] at htail
        have hend : (e' cent).next = 0 := htail
        rw [List.length_nil, Nat.mul_zero, Nat.add_zero, ← hnext, hend]
      · rw [if_neg hnil] at hnext
        rw [hnext] at htail
        have hlast := ih hrest hnil htail hlen'
        have hpos := List.length_pos_of_ne_nil hnil
        rwa [show cent + memMapEntSize + memMapEntSize * (ps.length - 1) =
          cent + memMapEntSize * ps.length by simp only [memMapEntSize]; omega] at hlast

end Array

/-! ## The child's list -/

section Fork

variable {H : Type} {A : PageHeap H} {kernel : Nat} {strict : Bool} {child parent : Nat}

/-- A successful call leaves a list with the parent's entries `ps`, which ends:
walks find it, and `mm_proc_mmap_add` puts its entry behind them. A call for an
empty list succeeds. -/
structure MmapForked (A : PageHeap H) (e : MapMem) (ps : List Nat) (r : MmapState) (heap : H) :
    Prop where
  list : r.ret = 0 → ∃ cs, EntsAt r.ents r.mmap cs ∧ mapPairs r.ents cs = mapPairs e ps ∧
    ∀ fuel, cs.length < fuel → walkEnts r.ents fuel r.mmap = some cs ∧
      ∀ phys virt sz ent heap', A.kamalloc heap memMapEntSize minAlign = some (ent, heap') →
        ent ≠ 0 → ∃ r', mmapAddEnt A fuel heap r.ents r.mmap phys virt sz = some (r', heap') ∧
          r'.ret = 0 ∧ EntsAt r'.ents r'.mmap (cs ++ [ent]) ∧
          mapPairs r'.ents (cs ++ [ent]) = mapPairs e ps ++ [(virt, sz)]
  empty : ps = [] → r.ret = 0

/-- An entry is added to a list that ends. -/
theorem mmapAddEnt_spec {heap heap' : H} {e : MapMem} {mmap ent fuel : Nat} {qs : List Nat}
    (h : EntsAt e mmap qs) (hnodup : qs.Nodup) (hheld : ∀ q ∈ qs, A.held heap q)
    (hfuel : qs.length < fuel) (hk : A.kamalloc heap memMapEntSize minAlign = some (ent, heap'))
    (hent : ent ≠ 0) (phys virt sz : Nat) :
    ∃ r', mmapAddEnt A fuel heap e mmap phys virt sz = some (r', heap') ∧ r'.ret = 0 ∧
      EntsAt r'.ents r'.mmap (qs ++ [ent]) ∧
      mapPairs r'.ents (qs ++ [ent]) = mapPairs e qs ++ [(virt, sz)] := by
  have hnew : ent ∉ qs := fun hin => by
    obtain ⟨-, -, hfresh⟩ := A.fresh hk hent
    exact (hfresh ent (Nat.le_refl _) (by simp only [memMapEntSize]; omega)).1 (hheld ent hin)
  have hold : ∀ q ∈ qs, Function.update e ent ⟨virt, phys, sz, 0⟩ q = e q := fun q hq =>
    Function.update_of_ne (ne_of_mem_of_not_mem hq hnew) ..
  have hents : EntsAt (Function.update e ent ⟨virt, phys, sz, 0⟩) mmap qs :=
    h.frame fun q hq => by rw [hold q hq]
  have hpairs : mapPairs (Function.update e ent ⟨virt, phys, sz, 0⟩) (qs ++ [ent]) =
      mapPairs e qs ++ [(virt, sz)] := by
    rw [mapPairs, List.map_append, List.map_singleton, Function.update_self]
    exact congrArg (· ++ _) (List.map_congr_left fun q hq => by rw [hold q hq])
  unfold mmapAddEnt
  rw [hk, Option.bind_eq_bind, Option.bind_some]
  dsimp only
  rw [if_neg hent, walkEnts_eq hents hfuel, Option.bind_eq_bind, Option.bind_some]
  rcases List.eq_nil_or_concat qs with rfl | ⟨init, last, rfl⟩
  · refine ⟨_, rfl, rfl, ⟨rfl, hent, ?_⟩, hpairs⟩
    dsimp only
    rw [Function.update_self]
    rfl
  · rw [List.concat_eq_append] at hents hnodup hnew hpairs ⊢
    rw [List.getLast?_concat]
    refine ⟨_, rfl, rfl, hents.snoc hnodup hent hnew (by rw [Function.update_self]), ?_⟩
    rw [← hpairs]
    refine List.map_congr_left fun q _ => ?_
    by_cases hq : q = last
    · rw [hq]
      dsimp only
      rw [Function.update_self]
    · dsimp only
      rw [Function.update_of_ne hq]

/-- A successful run of the call: the array, and what the loop did. -/
theorem procCopyMmap_run {fuel mmap : Nat} {ps : List Nat} {s s' : Mmu H} {e : MapMem}
    {r : MmapState} (hlist : EntsAt e mmap ps)
    (hrun : procCopyMmap A kernel strict fuel child parent mmap s e = some (r, s')) :
    ∃ list heap, A.kamalloc s.heap (u32 (memMapEntSize * ps.length)) minAlign =
        some (list, heap) ∧
      (list = 0 ∧ r.ret = -ENOMEM ∨
        list ≠ 0 ∧ r.mmap = list ∧ copyMmapLoop A kernel strict child parent fuel mmap list
          { s with heap := heap } e = some (r.ret, s', r.ents)) := by
  obtain ⟨qs, hwalk, hrun⟩ := Option.bind_eq_some_iff.mp hrun
  obtain rfl : ps = qs := hlist.unique (walkEnts_some hwalk)
  obtain ⟨⟨list, heap⟩, hk, hrun⟩ := Option.bind_eq_some_iff.mp hrun
  refine ⟨list, heap, hk, ?_⟩
  dsimp only at hrun
  split at hrun
  · rename_i hnull
    cases hrun
    exact .inl ⟨hnull, rfl⟩
  · rename_i hne
    obtain ⟨⟨ret, s₁, e₁⟩, hloop, hret⟩ := Option.bind_eq_some_iff.mp hrun
    cases hret
    exact .inr ⟨hne, rfl, hloop⟩

/-- The child's list is the parent's if and only if the parent's is not empty
and the memory of the array holds a null link where the last entry goes. (The
parent's entries are allocated, and do not fill the address space, and no copy
is stored over an entry of the two lists.) -/
theorem fork_mmap_iff {fuel mmap : Nat} {ps : List Nat} {s s' : Mmu H} {e : MapMem}
    {r : MmapState} (hzero : ∀ h, A.kamalloc h 0 minAlign = some (0, h))
    (hlist : EntsAt e mmap ps) (hheld : ∀ q ∈ ps, A.held s.heap q)
    (hfew : memMapEntSize * ps.length < 4294967296)
    (_hstores : ∀ list heap, A.kamalloc s.heap (memMapEntSize * ps.length) minAlign =
      some (list, heap) → StoresApart A kernel strict child parent (InLists ps list)
        (ps.map fun q => (e q).ent) { s with heap := heap })
    (hrun : procCopyMmap A kernel strict fuel child parent mmap s e = some (r, s'))
    (hret : r.ret = 0 ∨ ps = []) :
    MmapForked A e ps r s'.heap ↔ ps ≠ [] ∧ ∀ list heap,
      A.kamalloc s.heap (memMapEntSize * ps.length) minAlign = some (list, heap) →
        (e (list + memMapEntSize * (ps.length - 1))).next = 0 := by
  have henomem : ¬ (-ENOMEM : Int) = 0 := by decide
  obtain ⟨list, heap, hk, hcase⟩ := procCopyMmap_run hlist hrun
  rw [u32_of_lt hfew] at hk
  by_cases hnil : ps = []
  · refine iff_of_false (fun h => ?_) fun h => h.1 hnil
    have hnull : list = 0 := by
      rw [hnil, List.length_nil, Nat.mul_zero, hzero] at hk
      cases hk
      rfl
    have hfail : r.ret = -ENOMEM := by
      rcases hcase with ⟨-, hfail⟩ | ⟨hne, -⟩
      · exact hfail
      · exact absurd hnull hne
    exact henomem (hfail.symm.trans (h.empty hnil))
  · have hret0 : r.ret = 0 := hret.resolve_right hnil
    obtain ⟨hne, hmmap, hloop⟩ := hcase.resolve_left fun h => henomem (h.2.symm.trans hret0)
    obtain ⟨-, hfits, hfresh⟩ := A.fresh hk hne
    have hpos := List.length_pos_of_ne_nil hnil
    have hapart : ∀ q ∈ ps, ∀ i < ps.length, q ≠ list + memMapEntSize * i := by
      rintro q hq i hi rfl
      refine (hfresh (list + memMapEntSize * i) (Nat.le_add_right ..) ?_).1 (hheld _ hq)
      simp only [memMapEntSize]
      omega
    obtain ⟨⟨cents, hentries⟩, -, hcopied⟩ := copyMmapLoop_spec hlist hapart (fun i hi => by
      simp only [memMapEntSize] at hfits ⊢
      omega) hloop
    have hcopied := hcopied hret0
    constructor
    · intro h
      refine ⟨hnil, fun list' heap' hk' => ?_⟩
      rw [hk] at hk'
      cases hk'
      obtain ⟨cs, hents, hpairs, -⟩ := h.list hret0
      have hlen := congrArg List.length hpairs
      rw [mapPairs, mapPairs, List.length_map, List.length_map] at hlen
      exact hcopied.last_null hnil (hmmap ▸ hents) hlen
    · rintro ⟨-, hlast⟩
      obtain ⟨hents, hpairs⟩ := hcopied.entsAt hnil hne (hlast list heap hk)
      have hheld' : ∀ q ∈ arrayEnts list ps.length, A.held s'.heap q := fun q hq => by
        have hbounds := arrayEnts_bounds hq
        refine copyEntries_keeps hentries (hfresh q hbounds.1 ?_).2
        simp only [memMapEntSize] at hbounds ⊢
        omega
      refine ⟨fun _ => ⟨arrayEnts list ps.length, hmmap ▸ hents, hpairs, fun fuel hfuel => ?_⟩,
        fun he => absurd he hnil⟩
      refine ⟨hmmap ▸ walkEnts_eq hents hfuel, fun phys virt sz ent heap' hk' hent => ?_⟩
      rw [hmmap, ← hpairs]
      exact mmapAddEnt_spec hents (arrayEnts_nodup ..) hheld' hfuel hk' hent phys virt sz

end Fork

/-! ## On the boot heap -/

/-- The heap answers a request for no bytes with `NULL`. -/
theorem bootKernelHeap_zero (h : { t : Table // TableOk 0x400000 0x410000 t }) :
    bootKernelHeap.kamalloc h 0 minAlign = some (0, h) := by
  have hnull : kamalloc zeroMem h.1 0 minAlign = .ok (0, h.1) := by
    rw [kamalloc, if_pos (Or.inr rfl)]
  have hfit : 0 + minAlign ≤ 4294967296 := by decide
  simp only [bootKernelHeap, kernelHeap, dif_pos hfit]
  split
  · rename_i r t hk
    obtain ⟨rfl, rfl⟩ := Prod.mk.inj (Except.ok.inj (hk.symm.trans hnull))
    rfl
  · rename_i err hk
    cases hk.symm.trans hnull

/-- A process with one entry, at `0x300`, in memory whose other words that are
read as links hold `next`. -/
def oneEnt (next : Nat) : MapMem := fun q =>
  if q = 0x300 then ⟨0x8000010, 0x300010, 0x20, 0⟩ else ⟨0, 0, 0, next⟩

theorem oneEnt_list (next : Nat) : EntsAt (oneEnt next) 0x300 [0x300] :=
  ⟨rfl, by decide, rfl⟩

/-- `proc_copy_data` from the parent's table to another one. -/
def oneEntRun (mmap next : Nat) :
    Option (MmapState × Mmu { t : Table // TableOk 0x400000 0x410000 t }) :=
  procCopyMmap bootKernelHeap 0x2000 true 4 0x2000 0x1000 mmap parentMmu (oneEnt next)

set_option maxRecDepth 100000 in
/-- The entry's block is apart from the two lists. -/
theorem oneEnt_storesApart (next list : Nat)
    (heap : { t : Table // TableOk 0x400000 0x410000 t })
    (hk : bootKernelHeap.kamalloc parentMmu.heap (memMapEntSize * [0x300].length) minAlign =
      some (list, heap)) :
    StoresApart bootKernelHeap 0x2000 true 0x2000 0x1000 (InLists [0x300] list)
      ([0x300].map fun q => (oneEnt next q).ent) { parentMmu with heap := heap } := by
  have hall : ((bootKernelHeap.kamalloc parentMmu.heap memMapEntSize minAlign).all fun p =>
      (copyEntry bootKernelHeap 0x2000 true 0x2000 0x1000 { parentMmu with heap := p.2 }
        ⟨0x8000010, 0x300010, 0x20⟩).all fun r => (List.range 0x20).all fun k =>
          (translate r.2.2.mem 0x2000 (u32 (0x8000010 + k))).all fun x =>
            ¬ InLists [0x300] p.1 x) = true := by
    decide +kernel
  rw [List.length_singleton, Nat.mul_one] at hk
  rw [hk, Option.all_some] at hall
  have hent : (oneEnt next 0x300).ent = ⟨0x8000010, 0x300010, 0x20⟩ := rfl
  rw [List.map_singleton, hent]
  intro c s' hrun
  rw [hrun, Option.all_some, List.all_eq_true] at hall
  refine ⟨fun k hk x hx => ?_, trivial⟩
  have hkx := hall k (List.mem_range.mpr hk)
  dsimp only at hx hkx
  rw [hx, Option.all_some] at hkx
  exact of_decide_eq_true hkx

/-- With null links in the fresh memory the child has the parent's entry. -/
theorem one_entry_forked : ∃ r s', oneEntRun 0x300 0 = some (r, s') ∧ r.ret = 0 ∧
    MmapForked bootKernelHeap (oneEnt 0) [0x300] r s'.heap := by
  have hsome : ((oneEntRun 0x300 0).any fun r => r.1.ret = 0) = true := by decide +kernel
  obtain ⟨⟨r, s'⟩, hrun, hret⟩ := (Option.any_eq_true _ _).mp hsome
  have hret : r.ret = 0 := of_decide_eq_true hret
  refine ⟨r, s', hrun, hret, (fork_mmap_iff bootKernelHeap_zero (oneEnt_list 0) ?_ ?_
    (oneEnt_storesApart 0) hrun (.inl hret)).mpr ⟨List.cons_ne_nil _ _, fun list heap hk => ?_⟩⟩
  · rw [List.forall_mem_singleton]
    exact ByteHeld.outside parentMmu.heap.2 (.inl (by decide))
  · simp [memMapEntSize]
  · rw [oneEnt]
    split
    · rfl
    · rfl

/-- The child's list has no end when the fresh memory holds a link, and a
process with an empty list cannot be forked. -/
theorem fork_mmap_lost :
    ¬ (∀ (mmap next : Nat) (ps : List Nat) (r : MmapState)
        (s' : Mmu { t : Table // TableOk 0x400000 0x410000 t }),
      EntsAt (oneEnt next) mmap ps → oneEntRun mmap next = some (r, s') → r.ret = 0 →
      ∃ cs, EntsAt r.ents r.mmap cs ∧ mapPairs r.ents cs = mapPairs (oneEnt next) ps) ∧
    ¬ (∀ (next : Nat) (r : MmapState)
        (s' : Mmu { t : Table // TableOk 0x400000 0x410000 t }),
      oneEntRun 0 next = some (r, s') → r.ret = 0) := by
  constructor
  · intro hall
    have hsome : ((oneEntRun 0x300 7).any fun r =>
        r.1.ret = 0 ∧ (r.1.ents r.1.mmap).next = 7) = true := by decide +kernel
    obtain ⟨⟨r, s'⟩, hrun, hr⟩ := (Option.any_eq_true _ _).mp hsome
    obtain ⟨hret, hnext⟩ := of_decide_eq_true hr
    obtain ⟨cs, hents, hpairs⟩ := hall 0x300 7 [0x300] r s' (oneEnt_list 7) hrun hret
    -- a list of one entry ends behind it
    have hlen := congrArg List.length hpairs
    rw [mapPairs, mapPairs, List.length_map, List.length_map] at hlen
    obtain ⟨c, rfl⟩ := List.length_eq_one_iff.mp hlen
    obtain ⟨rfl, -, hend⟩ := hents
    cases hend.symm.trans hnext
  · intro hall
    have hsome : ((oneEntRun 0 0).any fun r => r.1.ret = -ENOMEM) = true := by decide +kernel
    obtain ⟨⟨r, s'⟩, hrun, hr⟩ := (Option.any_eq_true _ _).mp hsome
    have hret := hall 0 r s' hrun
    rw [of_decide_eq_true hr] at hret
    cases hret

end LambdaOs
