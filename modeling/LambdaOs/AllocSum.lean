import Mathlib.Algebra.BigOperators.Group.List.Basic
import LambdaOs.AllocRun

/-!
# The heap's accounting

`alloc_get_used` and `alloc_get_free` of `mm/alloc.c` add up the sizes of the
used and of the free entries. No call changes their sum, modulo `2 ^ 32`,
whatever it is asked for: every split, every merge and every new bookkeeping
block passes on what it takes (`heapCall_total`).
-/

namespace LambdaOs

/-! ## Sums over a table -/

/-- What one round of the loops adds. -/
def usedSize (e : Alcent) : Nat := if e.valid && e.used then e.size else 0

def freeSize (e : Alcent) : Nat := if e.valid && !e.used then e.size else 0

def allocGetUsed (t : Table) : Nat :=
  t.scan.foldl (fun used pe => if pe.2.valid && pe.2.used then u32 (used + pe.2.size) else used) 0

def allocGetFree (t : Table) : Nat :=
  t.scan.foldl (fun free pe => if pe.2.valid && !pe.2.used then u32 (free + pe.2.size) else free) 0

/-- What a valid entry describes. -/
def heldSize (e : Alcent) : Nat := if e.valid then e.size else 0

/-- A sum over the entries of a table. -/
def Table.sum (w : Alcent → Nat) (t : Table) : Nat := (t.map fun blk => (blk.map w).sum).sum

theorem sum_map_modify {α : Type*} {w : α → Nat} {f : α → α} {l : List α} {i : Nat} {x : α}
    (h : l[i]? = some x) :
    ((l.modify i f).map w).sum + w x = (l.map w).sum + w (f x) := by
  induction l generalizing i with
  | nil => simp at h
  | cons y l ih =>
      cases i with
      | zero =>
          obtain rfl : y = x := by simpa using h
          simp only [List.modify_zero_cons, List.map_cons, List.sum_cons]
          omega
      | succ i =>
          have hrest := ih (i := i) (by simpa using h)
          simp only [List.modify_succ_cons, List.map_cons, List.sum_cons]
          omega

section Sum

variable {w : Alcent → Nat} {t t' : Table}

/-- An update changes a sum by what it changes of the entry. -/
theorem Table.sum_upd {p : Nat × Nat} {e : Alcent} {f : Alcent → Alcent}
    (he : t.ent p = some e) : (t.upd p f).sum w + w e = t.sum w + w (f e) := by
  obtain ⟨blk, hblk, hent⟩ := Option.bind_eq_some_iff.mp he
  have hin := sum_map_modify (w := w) (f := f) hent
  have hout := sum_map_modify (w := fun blk => (blk.map w).sum) (f := (·.modify p.2 f)) hblk
  simp only [Table.sum, Table.upd]
  omega

theorem Table.sum_append_block (t : Table) (blk : List Alcent) :
    Table.sum w (t ++ [blk]) = t.sum w + (blk.map w).sum := by
  simp [Table.sum]

theorem Table.map_snd_scan (t : Table) : t.scan.map (·.2) = t.flatten := by
  unfold Table.scan
  rw [List.map_flatMap]
  have hblk : ∀ bj : List Alcent × Nat,
      (bj.1.zipIdx.map fun ei => ((bj.2, ei.2), ei.1)).map (·.2) = bj.1 := fun bj => by
    rw [List.map_map]
    exact List.zipIdx_map_fst 0 bj.1
  simp only [hblk]
  rw [List.flatMap_def, List.zipIdx_map_fst]

/-- The scanning loops add up what they accept. -/
theorem foldl_scan_size (c : Alcent → Bool) (l : List ((Nat × Nat) × Alcent)) (acc : Nat)
    (h : acc < 4294967296) :
    l.foldl (fun acc pe => if c pe.2 then u32 (acc + pe.2.size) else acc) acc =
      u32 (acc + ((l.map (·.2)).map fun e => if c e then e.size else 0).sum) := by
  induction l generalizing acc with
  | nil => exact (u32_of_lt h).symm
  | cons pe l ih =>
      simp only [List.foldl_cons, List.map_cons, List.sum_cons]
      split
      · rw [ih _ (u32_lt _), u32_u32_add, Nat.add_assoc]
      · rw [ih _ h, Nat.zero_add]

theorem Table.sum_eq_flatten (t : Table) : t.sum w = (t.flatten.map w).sum := by
  rw [Table.sum, List.map_flatten, List.sum_flatten, List.map_map]
  rfl

theorem allocGetUsed_eq (t : Table) : allocGetUsed t = u32 (t.sum usedSize) := by
  have h := foldl_scan_size (fun e => e.valid && e.used) t.scan 0 (by decide)
  rw [Nat.zero_add, Table.map_snd_scan] at h
  rw [Table.sum_eq_flatten]
  exact h

theorem allocGetFree_eq (t : Table) : allocGetFree t = u32 (t.sum freeSize) := by
  have h := foldl_scan_size (fun e => e.valid && !e.used) t.scan 0 (by decide)
  rw [Nat.zero_add, Table.map_snd_scan] at h
  rw [Table.sum_eq_flatten]
  exact h

/-- A valid entry is used or free. -/
theorem sum_used_add_free (t : Table) :
    t.sum usedSize + t.sum freeSize = t.sum heldSize := by
  have hent : ∀ e : Alcent, usedSize e + freeSize e = heldSize e := fun e => by
    unfold usedSize freeSize heldSize
    cases e.valid <;> cases e.used <;> simp
  rw [Table.sum_eq_flatten, Table.sum_eq_flatten, Table.sum_eq_flatten, ← List.sum_map_add]
  simp only [hent]

theorem u32_used_add_free (t : Table) :
    u32 (allocGetUsed t + allocGetFree t) = u32 (t.sum heldSize) := by
  rw [allocGetUsed_eq, allocGetFree_eq, ← sum_used_add_free]
  simp only [u32]
  omega

end Sum

/-! ## What the calls do to the sum

`Words` keeps the addresses and sizes in 32 bits; nothing else is asked of the
table. -/

structure Words (t : Table) : Prop where
  shape : t.Shape
  entry : ∀ p e, t.ent p = some e → e.valid = true → e.addr < 4294967296 ∧ e.size < 4294967296

/-- The sum of two tables is the same, in 32 bits. -/
def SameTotal (t t' : Table) : Prop := u32 (t'.sum heldSize) = u32 (t.sum heldSize)

theorem heldSize_of_valid {e : Alcent} (h : e.valid = true) : heldSize e = e.size := if_pos h

theorem heldSize_of_invalid {e : Alcent} (h : e.valid = false) : heldSize e = 0 := by
  simp [heldSize, h]

section Steps

variable {t t' : Table} {sz align : Nat}

theorem Words.upd (h : Words t) {p : Nat × Nat} {e : Alcent} {f : Alcent → Alcent}
    (he : t.ent p = some e)
    (hf : (f e).valid = true → (f e).addr < 4294967296 ∧ (f e).size < 4294967296) :
    Words (t.upd p f) := by
  refine ⟨h.shape.upd p f, ?_⟩
  intro q g hg hv
  by_cases hqp : q = p
  · subst hqp
    rw [Table.ent_upd_self, he] at hg
    obtain rfl := Option.some.inj hg
    exact hf hv
  · rw [Table.ent_upd_ne t f hqp] at hg
    exact h.entry q g hg hv

/-- `add_alloc` adds the size of its entry. -/
theorem addAlloc_total (h : Words t) {al : Alcent} (hadd : addAlloc t al = .ok t')
    (hv : al.valid = true) (hal : al.addr < 4294967296 ∧ al.size < 4294967296) :
    Words t' ∧ t'.sum heldSize = t.sum heldSize + al.size := by
  obtain ⟨p, e, he, hinv, rfl⟩ := addAlloc_eq_ok hadd
  have hsum := Table.sum_upd (w := heldSize) (f := fun _ => al) he
  rw [heldSize_of_invalid hinv, heldSize_of_valid hv] at hsum
  exact ⟨h.upd he fun _ => hal, hsum⟩

/-- Writing a valid entry over a valid one trades their sizes. -/
theorem upd_total (h : Words t) {p : Nat × Nat} {e : Alcent} {f : Alcent → Alcent}
    (he : t.ent p = some e) (hev : e.valid = true) (hfv : (f e).valid = true)
    (hf : (f e).addr < 4294967296 ∧ (f e).size < 4294967296) :
    Words (t.upd p f) ∧ (t.upd p f).sum heldSize + e.size = t.sum heldSize + (f e).size := by
  have hsum := Table.sum_upd (w := heldSize) (f := f) he
  rw [heldSize_of_valid hev, heldSize_of_valid hfv] at hsum
  exact ⟨h.upd he fun _ => hf, hsum⟩

/-- Whatever way a hole is divided, the parts add up to it. -/
theorem carve_total (h : Words t) (hsz : sz < 4294967296) (hpos : 0 < align)
    (hal : align < 4294967296) {p : Nat × Nat} {e : Alcent} (hhole : Hole t sz align p e) {r : Nat}
    (hc : carve t p sz align = .ok (r, t')) : Words t' ∧ SameTotal t t' := by
  obtain ⟨he, hv, hu, hfit⟩ := hhole
  obtain ⟨haddr, hsize⟩ := h.entry p e he hv
  have hcorr : align - e.addr % align < 4294967296 := by omega
  cases carve_eq_ok he hc with
  | whole hsize' =>
    obtain ⟨hok, hsum⟩ := upd_total (f := fun e => { e with used := true }) h he hv hv
      ⟨haddr, hsize⟩
    refine ⟨hok, congrArg u32 ?_⟩
    simp only at hsum
    omega
  | front hsize' haligned hblock =>
    obtain ⟨-, hoff⟩ := (holeOff_eq hpos).resolve_right fun h0 => h0.1 haligned
    rw [hoff, Nat.add_zero, u32_of_lt hsz] at hfit
    obtain ⟨hok, hsum⟩ := upd_total
      (f := fun e => { e with size := e.size - sz, addr := u32 (e.addr + sz) }) h he hv hv
      ⟨u32_lt _, by simp only; omega⟩
    obtain ⟨hok', hsum'⟩ := addAlloc_total hok hblock rfl ⟨haddr, hsz⟩
    refine ⟨hok', congrArg u32 ?_⟩
    simp only at hsum hsum'
    omega
  | middle hsize' hskip htail hrest hblock =>
    generalize align - e.addr % align = c at *
    obtain ⟨hok, hsum⟩ := addAlloc_total h hrest rfl ⟨u32_lt _, by simp only; omega⟩
    have he₁ := addAlloc_keeps hrest he hv
    obtain ⟨hok', hsum'⟩ := upd_total (f := fun e => { e with size := c }) hok he₁ hv hv
      ⟨haddr, hcorr⟩
    obtain ⟨hok'', hsum''⟩ := addAlloc_total hok' hblock rfl ⟨u32_lt _, hsz⟩
    refine ⟨hok'', ?_⟩
    simp only [SameTotal, u32] at *
    omega
  | back hsize' hskip hend hblock =>
    obtain ⟨-, hoff⟩ := (holeOff_eq hpos).resolve_left fun h0 => hskip h0.1
    rw [hoff] at hfit
    -- the hole and its parts are equal in 32 bits only
    generalize align - e.addr % align = c at *
    obtain ⟨hok', hsum'⟩ := upd_total (f := fun e => { e with size := c }) h he hv hv
      ⟨haddr, hcorr⟩
    obtain ⟨hok'', hsum''⟩ := addAlloc_total hok' hblock rfl ⟨u32_lt _, hsz⟩
    refine ⟨hok'', ?_⟩
    simp only [SameTotal, u32] at *
    omega

/-- A bookkeeping block of invalid entries holds nothing. -/
theorem append_block_total (h : Words t) {mem : BlockMem} {addr : Nat}
    (hmem : ReadsInvalid mem addr) (hroom : t.length < allocBlocks) :
    Words (t ++ [newBlock mem addr]) ∧
      Table.sum heldSize (t ++ [newBlock mem addr]) = t.sum heldSize := by
  refine ⟨⟨h.shape.append_block hroom mem addr, ?_⟩, ?_⟩
  · intro p e he hv
    exact h.entry p e (ent_append_invalid hmem.newBlock he hv) hv
  · have hzero : ((newBlock mem addr).map heldSize).sum = 0 := by
      refine List.sum_eq_zero ?_
      intro n hn
      obtain ⟨e, he, rfl⟩ := List.mem_map.mp hn
      exact heldSize_of_invalid (hmem.newBlock e he)
    rw [Table.sum_append_block, hzero, Nat.add_zero]

theorem allocNewBlock_total (h : Words t) {mem : BlockMem}
    (hmem : ReadsInvalid mem (newBlockAddr t)) (hnew : allocNewBlock mem t = .ok t') :
    Words t' ∧ t'.sum heldSize = t.sum heldSize := by
  obtain ⟨e, ⟨he, hv, -, hfit⟩, hgrown⟩ := allocNewBlock_eq_ok h.shape hnew
  obtain ⟨haddr, hsize⟩ := h.entry _ e he hv
  rw [newBlockAddr, Table.get_eq he] at hmem
  rw [holeOff_one, Nat.add_zero, u32_of_lt (by decide)] at hfit
  have hasz : allocBlockSize < 4294967296 := by decide
  cases hgrown with
  | whole hsize' hroom =>
    obtain ⟨hok, hsum⟩ := upd_total (f := fun e => { e with used := true }) h he hv hv
      ⟨haddr, hsize⟩
    obtain ⟨hok', hsum'⟩ := append_block_total hok hmem (by rwa [Table.length_upd])
    refine ⟨hok', ?_⟩
    simp only at hsum
    omega
  | front hsize' hblock hroom =>
    generalize allocBlockSize = asz at *
    obtain ⟨hok, hsum⟩ := upd_total
      (f := fun e => { e with size := e.size - asz, addr := u32 (e.addr + asz) }) h he hv hv
      ⟨u32_lt _, by simp only; omega⟩
    obtain ⟨hok₁, hsum₁⟩ := addAlloc_total hok hblock rfl ⟨haddr, hasz⟩
    obtain ⟨hok₂, hsum₂⟩ := append_block_total hok₁ hmem
      (by rwa [addAlloc_length hblock, Table.length_upd])
    refine ⟨hok₂, ?_⟩
    simp only at hsum hsum₁
    omega

theorem growTable_total (h : Words t) {mem : BlockMem} (hmem : ∀ addr, ReadsInvalid mem addr)
    {idx : Nat} (hgrow : growTable mem t idx = .ok t') :
    Words t' ∧ t'.sum heldSize = t.sum heldSize := by
  rcases growTable_eq_ok hgrow with ⟨-, hnew⟩ | ⟨-, rfl⟩
  · exact allocNewBlock_total h (hmem _) hnew
  · exact ⟨h, rfl⟩

theorem kamalloc_total (h : Words t) {mem : BlockMem} (hmem : ∀ addr, ReadsInvalid mem addr)
    (hsz : sz < 4294967296) (hal : align < 4294967296) {r : Nat}
    (hc : kamalloc mem t sz align = .ok (r, t')) : Words t' ∧ SameTotal t t' := by
  rcases kamalloc_eq_ok h.shape hc with ⟨-, rfl⟩ | ⟨-, hne, -, t₁, hg, hend⟩
  · exact ⟨h, rfl⟩
  · obtain ⟨hok₁, hsum₁⟩ := growTable_total h hmem hg
    rcases hend with ⟨-, rfl⟩ | ⟨e, hhole, hcarve⟩
    · exact ⟨hok₁, congrArg u32 hsum₁⟩
    · obtain ⟨hok₂, hsum₂⟩ := carve_total hok₁ hsz (Nat.pos_of_ne_zero hne) hal hhole hcarve
      exact ⟨hok₂, hsum₂.trans (congrArg u32 hsum₁)⟩

/-- Freeing an entry, used or free already, passes its size to a neighbour or
leaves it where it is. -/
theorem rmAlloc_total (h : Words t) {p : Nat × Nat} {u : Alcent} (hu : t.ent p = some u)
    (huv : u.valid = true) : Words (rmAlloc t p) ∧ SameTotal t (rmAlloc t p) := by
  obtain ⟨huaddr, husize⟩ := h.entry p u hu huv
  unfold rmAlloc
  simp only [Table.get_eq hu]
  split
  · rename_i q e hfind
    have he := Table.mem_scan.mp (List.mem_of_find?_eq_some hfind)
    have htest := List.find?_some hfind
    simp only [mergeTest, Bool.and_eq_true, Bool.or_eq_true, beq_iff_eq, Bool.not_eq_true'] at htest
    obtain ⟨hev, hadj, -⟩ := htest
    obtain ⟨headdr, hesize⟩ := h.entry q e he hev
    let join : Alcent → Alcent := fun e =>
      { e with
        size := u32 (e.size + u.size)
        addr := if e.addr > u.addr then u.addr else e.addr }
    have hjoin : (join e).addr < 4294967296 ∧ (join e).size < 4294967296 :=
      ⟨by simp only [join]; split <;> omega, u32_lt _⟩
    obtain ⟨hok, hsum⟩ := upd_total (f := join) h he hev hev hjoin
    by_cases hpq : p = q
    · -- its own neighbour: there is nothing in it
      subst hpq
      obtain rfl : u = e := Option.some.inj (hu.symm.trans he)
      have hzero : u.size = 0 := by
        rcases hadj with hadj | hadj <;> (rw [u32] at hadj; omega)
      have hjzero : (join u).size = 0 := by simp [join, hzero, u32]
      have hp : (t.upd p join).ent p = some (join u) := by rw [Table.ent_upd_self, hu]; rfl
      have hsum' := Table.sum_upd (w := heldSize) (f := fun e => { e with valid := false }) hp
      rw [heldSize_of_valid (e := join u) huv, heldSize_of_invalid rfl] at hsum'
      have hend : ((t.upd p join).upd p fun e => { e with valid := false }).sum heldSize =
          t.sum heldSize := by omega
      exact ⟨hok.upd hp (fun hv => by cases hv), congrArg u32 hend⟩
    · have hp : (t.upd q join).ent p = some u := by rw [Table.ent_upd_ne t join hpq]; exact hu
      have hsum' := Table.sum_upd (w := heldSize) (f := fun e => { e with valid := false }) hp
      rw [heldSize_of_valid huv, heldSize_of_invalid rfl] at hsum'
      refine ⟨hok.upd hp (fun hv => by cases hv), ?_⟩
      simp only [join, u32, SameTotal] at hsum hsum' ⊢
      omega
  · obtain ⟨hok, hsum⟩ := upd_total (f := fun e => { e with used := false }) h hu huv huv
      ⟨huaddr, husize⟩
    refine ⟨hok, congrArg u32 ?_⟩
    simp only at hsum
    omega

theorem kfree_total (h : Words t) {ptr : Nat} (hf : kfree t ptr = .ok t') :
    Words t' ∧ SameTotal t t' := by
  unfold kfree at hf
  split at hf
  · rename_i p u hfind
    obtain rfl := Except.ok.inj hf
    have htest := List.find?_some hfind
    simp only [Bool.and_eq_true] at htest
    exact rmAlloc_total h (Table.mem_scan.mp (List.mem_of_find?_eq_some hfind)) htest.1
  · cases hf

end Steps

/-! ## Runs -/

/-- One call, with any pointer for `kfree`; `none` when it panics. -/
def heapCall (t : Table) : HeapOp → Option Table
  | .kamalloc mem sz align => ((kamalloc mem t sz align).toOption).map (·.2)
  | .kmalloc mem sz => ((kmalloc mem t sz).toOption).map (·.2)
  | .kmamalloc mem sz align => ((kmamalloc mem t sz align).toOption).map (·.2)
  | .kfree ptr => (kfree t ptr).toOption

/-- The arguments are words, and new bookkeeping blocks read as zero. -/
def HeapOp.Plain : HeapOp → Prop
  | .kamalloc mem sz align => mem = zeroMem ∧ sz < 4294967296 ∧ align < 4294967296
  | .kmalloc mem sz => mem = zeroMem ∧ sz < 4294967296
  | .kmamalloc mem sz align => mem = zeroMem ∧ sz < 4294967296 ∧ align < 4294967296
  | .kfree ptr => ptr < 4294967296

theorem toOption_eq_some {ε α : Type*} {x : Except ε α} {a : α} :
    x.toOption = some a ↔ x = .ok a := by
  cases x <;> simp [Except.toOption]

theorem zeroMem_invalid (addr : Nat) : ReadsInvalid zeroMem addr := fun _ _ => rfl

theorem roundSize_lt {sz align : Nat} (h : sz < 4294967296) : roundSize sz align < 4294967296 := by
  unfold roundSize
  split
  · exact u32_lt _
  · exact h

theorem heapCall_total {t t' : Table} (h : Words t) :
    ∀ {op : HeapOp}, op.Plain → heapCall t op = some t' → Words t' ∧ SameTotal t t'
  | .kamalloc mem sz align, hop, hstep => by
      obtain ⟨rfl, hsz, hal⟩ := hop
      obtain ⟨⟨r, t₁⟩, hk, rfl⟩ := Option.map_eq_some_iff.mp hstep
      exact kamalloc_total h zeroMem_invalid hsz hal (toOption_eq_some.mp hk)
  | .kmalloc mem sz, hop, hstep => by
      obtain ⟨rfl, hsz⟩ := hop
      obtain ⟨⟨r, t₁⟩, hk, rfl⟩ := Option.map_eq_some_iff.mp hstep
      exact kamalloc_total h zeroMem_invalid hsz (by decide) (toOption_eq_some.mp hk)
  | .kmamalloc mem sz align, hop, hstep => by
      obtain ⟨rfl, hsz, hal⟩ := hop
      obtain ⟨⟨r, t₁⟩, hk, rfl⟩ := Option.map_eq_some_iff.mp hstep
      have hk := toOption_eq_some.mp hk
      unfold kmamalloc at hk
      split at hk
      · cases hk
      · exact kamalloc_total h zeroMem_invalid (roundSize_lt hsz) hal hk
  | .kfree ptr, _, hstep => kfree_total h (toOption_eq_some.mp hstep)

theorem initAlloc_total {base size : Nat} (hbase : base < 4294967296) (hsize : size < 4294967296)
    {t : Table} (hinit : initAlloc base size = .ok t) : Words t ∧ t.sum heldSize = size := by
  have hblank : Words blankTable := by
    refine ⟨⟨by decide, ?_⟩, ?_⟩
    · intro blk hblk
      rw [List.mem_singleton.mp hblk, List.length_replicate]
    · intro p e he hv
      obtain ⟨blk, hblk, he⟩ := Option.bind_eq_some_iff.mp he
      obtain rfl := List.mem_singleton.mp (List.mem_of_getElem? hblk)
      rw [List.eq_of_mem_replicate (List.mem_of_getElem? he)] at hv
      cases hv
  obtain ⟨hok, hsum⟩ := addAlloc_total hblank hinit rfl ⟨hbase, hsize⟩
  have hzero : blankTable.sum heldSize = 0 := by
    simp [blankTable, Table.sum, heldSize_of_invalid (e := default) rfl]
  exact ⟨hok, by rw [hsum, hzero, Nat.zero_add]⟩

/-- **The accounting is conserved**: in every run of calls that do not panic, what
is used and what is free add up to what there was. -/
theorem used_add_free_eq {base size : Nat} (hbase : base < 4294967296) (hsize : size < 4294967296)
    {t : Table} (hinit : initAlloc base size = .ok t) {ops : List HeapOp}
    (hops : ∀ op ∈ ops, op.Plain) {s : Table} (hrun : exec heapCall t ops = some s) :
    (allocGetUsed s + allocGetFree s) % 4294967296 = size % 4294967296 := by
  obtain ⟨hwords, hsum⟩ := initAlloc_total hbase hsize hinit
  have hstep : ∀ (u : Table) (op : HeapOp) (u' : Table), Words u ∧ SameTotal t u → op.Plain →
      heapCall u op = some u' → Words u' ∧ SameTotal t u' := fun _ _ _ h hop hcall =>
    (heapCall_total h.1 hop hcall).imp id fun hsame => hsame.trans h.2
  obtain ⟨-, htotal⟩ := exec_guarded_inv hstep ⟨hwords, rfl⟩ (guarded_of_forall t hops) hrun
  rw [SameTotal, ← u32_used_add_free, hsum] at htotal
  exact htotal

/-- The accounting of a run with a block in the middle of a hole and one that is
freed twice. -/
theorem used_add_free_eq_boot :
    ((exec heapCall bootHeap [.kmalloc zeroMem 6, .kamalloc zeroMem 8 64, .kfree 0x400000,
        .kfree 0x400000]).map fun s => (allocGetUsed s + allocGetFree s) % 4294967296) =
      some 0x10000 := by
  let ops : List HeapOp := [.kmalloc zeroMem 6, .kamalloc zeroMem 8 64, .kfree 0x400000,
    .kfree 0x400000]
  have hends : (exec heapCall bootHeap ops).isSome = true := by decide +kernel
  obtain ⟨s, hrun⟩ := Option.isSome_iff_exists.mp hends
  have hplain : ∀ op ∈ ops, op.Plain := by
    simp [ops, HeapOp.Plain]
  have hinit : initAlloc 0x400000 0x10000 = .ok bootHeap := by decide +kernel
  have htotal := used_add_free_eq (by decide) (by decide) hinit hplain hrun
  change (exec heapCall bootHeap ops).map _ = _
  rw [hrun, Option.map_some, htotal]

end LambdaOs
