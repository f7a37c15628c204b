import LambdaOs.InitrdRead

/-!
# Reading files in turn

All processes read through their descriptors. A run is the order in which
their reads are made: a whole call, or one turn of a call's loop over a
stream, between which others run. The position of a file is in the table of
the process, beside the handle, so it moves with the calls on its descriptor
only, and these go through the file slice by slice: `sequential_reads_partition`
is by induction on the run, with `FileAt` for what every read keeps.
-/

namespace LambdaOs

/-! ## Reads -/

inductive ReadAct where
  | read (p : Nat) (desc : Int) (off sz buff : Nat)
  | readBlk (p : Nat) (desc : Int) (off sz buff : Nat)
  | turn (hand off sz buff : Nat)
deriving Repr, DecidableEq

namespace ReadAct

def size : ReadAct → Nat
  | .read _ _ _ sz _ => sz
  | .readBlk _ _ _ sz _ => sz
  | .turn _ _ sz _ => sz

def buffer : ReadAct → Nat
  | .read _ _ _ _ buff => buff
  | .readBlk _ _ _ _ buff => buff
  | .turn _ _ _ buff => buff

/-- The action is a `proc_fs_read_blk` of the process on the descriptor. -/
def Reads (p : Nat) (d : Fin maxOpenFiles) : ReadAct → Prop
  | .readBlk p' desc _ _ _ => p' = p ∧ desc = d
  | _ => False

instance (p : Nat) (d : Fin maxOpenFiles) : (a : ReadAct) → Decidable (a.Reads p d)
  | .read .. => isFalse id
  | .readBlk p' desc _ _ _ => inferInstanceAs (Decidable (p' = p ∧ desc = d))
  | .turn .. => isFalse id

end ReadAct

section Run

variable {δ : Type} (K : Drivers δ)

/-- A loop over a stream is not one action, so there is no fuel for one. -/
def readStep (s : FsKernel δ) : ReadAct → Except DescFault (FsKernel δ × Int)
  | .read p desc off sz buff => procFsRead K desc off sz buff { s with thread := p }
  | .readBlk p desc off sz buff => procFsReadBlk K 0 desc off sz buff { s with thread := p }
  | .turn hand off sz buff => .ok (fsReadHand K hand off sz buff s)

/-- What is in the buffer of a read that returned `n`. -/
def bytesRead (s : FsKernel δ) (buff : Nat) (n : Int) : List UInt8 :=
  (List.range n.toNat).map fun j => s.mem (buff + j)

/-- The state after a run, and what each action read. -/
def readRun : List ReadAct → FsKernel δ → Except DescFault (FsKernel δ × List (List UInt8))
  | [], s => .ok (s, [])
  | act :: acts, s => do
      let (s, n) ← readStep K s act
      let (s', outs) ← readRun acts s
      return (s', bytesRead s act.buffer n :: outs)

/-- The buffers of a run are not in the file at `base`, and where the descriptor
is read, the end of what is asked for is within 32 bits. -/
def ReadsOk (p : Nat) (d : Fin maxOpenFiles) (base length : Nat) :
    List ReadAct → FsKernel δ → Prop
  | [], _ => True
  | act :: acts, s =>
      act.buffer + act.size ≤ 4294967296 ∧
      (act.buffer + act.size ≤ base ∨ base + length ≤ act.buffer) ∧
      (act.Reads p d → (s.tables p).filePosition d + act.size < 4294967296) ∧
      match readStep K s act with
      | .ok (s, _) => ReadsOk p d base length acts s
      | .error _ => True

instance ReadsOk.decidable (p : Nat) (d : Fin maxOpenFiles) (base length : Nat) :
    (acts : List ReadAct) → (s : FsKernel δ) → Decidable (ReadsOk K p d base length acts s)
  | [], _ => isTrue trivial
  | act :: acts, s =>
      have : Decidable (match readStep K s act with
        | .ok (s, _) => ReadsOk K p d base length acts s
        | .error _ => True) :=
        match readStep K s act with
        | .ok (s, _) => ReadsOk.decidable p d base length acts s
        | .error _ => isTrue trivial
      inferInstanceAs (Decidable (_ ∧ _ ∧ _ ∧ _))

end Run

/-- The sizes that the reads of the descriptor ask for. -/
def sizesOf (p : Nat) (d : Fin maxOpenFiles) (acts : List ReadAct) : List Nat :=
  (acts.filter (·.Reads p d)).map ReadAct.size

/-- What they read. -/
def readsOf (p : Nat) (d : Fin maxOpenFiles) (acts : List ReadAct) (outs : List (List UInt8)) :
    List (List UInt8) :=
  ((acts.zip outs).filter (·.1.Reads p d)).map Prod.snd

/-- Slices of these sizes, one behind the other, as far as the list goes. -/
def slices : List UInt8 → List Nat → List (List UInt8)
  | _, [] => []
  | C, sz :: szs => C.take sz :: slices (C.drop sz) szs

theorem slices_flatten (C : List UInt8) (szs : List Nat) :
    (slices C szs).flatten = C.take szs.sum := by
  induction szs generalizing C with
  | nil => simp [slices]
  | cons sz szs ih => rw [slices, List.flatten_cons, ih, List.sum_cons, List.take_add]

/-! ## What a read leaves alone -/

section Frame

variable {δ : Type} {K : Drivers δ} {s s' : FsKernel δ}

/-- A read stores to its buffer, and else changes only what is the driver's own:
the files of streams are. -/
structure ReadFrame (buff sz : Nat) (s s' : FsKernel δ) : Prop where
  tables : s'.tables = s.tables
  hands : s'.hands = s.hands
  files : ∀ f, (s.fs.files f).flags &&& fsStream = 0 → s'.fs.files f = s.fs.files f
  mem : ∀ x, ¬ (buff ≤ x ∧ x < buff + sz) → s'.mem x = s.mem x

/-- `a` is the table of the driver of archives, and the other drivers do no more
than a read may. -/
structure ReadDrivers (K : Drivers δ) (a : Nat) : Prop where
  nonnull : a ≠ 0
  initrd : K.handOps a = initrdHandOps
  others : ∀ b, b ≠ a → ∀ read, (K.handOps b).read = some read →
    ∀ hand off sz buff s, buff + sz ≤ 4294967296 → ReadFrame buff sz s (read hand off sz buff s).1

theorem ReadFrame.refl (buff sz : Nat) (s : FsKernel δ) : ReadFrame buff sz s s :=
  ⟨rfl, rfl, fun _ _ => rfl, fun _ _ => rfl⟩

/-- Not more is copied than was asked for. -/
theorem initrdRead_total (fs : FsState) (m : Nat → UInt8) (file off : Nat) {sz buff : Nat}
    (hbuff : buff + sz ≤ 4294967296) :
    ∃ n m', (initrdRead fs file off sz buff).Runs m n m' fun x => buff ≤ x ∧ x < buff + sz := by
  by_cases hnone : (file = 0 ∨ (fs.files file).info = 0) ∨ off ≥ (fs.files file).length
  · rw [initrdRead_none hnone]
    exact ⟨0, m, MemProg.runs_pure⟩
  · obtain ⟨hfile, hoff⟩ := not_or.mp hnone
    obtain ⟨h0, hinfo⟩ := not_or.mp hfile
    rw [initrdRead_copy h0 hinfo (Nat.lt_of_not_le hoff)]
    dsimp only
    generalize hlen : (if u32 (sz + off) > (fs.files file).length
      then (fs.files file).length - off else sz) = len
    have hle : len ≤ sz := by
      rw [← hlen]
      unfold u32
      split <;> omega
    obtain ⟨m', hrun⟩ := memcpy_total m buff ((fs.files file).info + off) len
    refine ⟨len, m', (hrun.mono ?_).bind MemProg.runs_pure⟩
    rintro x ⟨j, hj, rfl⟩
    rw [u32_of_lt (by omega)]
    omega

theorem initrdHandRead_frame (hand off : Nat) {sz buff : Nat} (s : FsKernel δ)
    (hbuff : buff + sz ≤ 4294967296) :
    ReadFrame buff sz s (initrdHandRead hand off sz buff s).1 := by
  obtain ⟨n, m', hrun⟩ := initrdRead_total s.fs s.mem (s.hands hand).file off hbuff
  rw [initrdHandRead, hrun.1]
  exact ⟨rfl, rfl, fun _ _ => rfl, fun x hx => hrun.frame hx⟩

theorem fsReadHand_frame {a : Nat} (hK : ReadDrivers K a) (hand off : Nat) {sz buff : Nat}
    (s : FsKernel δ) (hbuff : buff + sz ≤ 4294967296) :
    ReadFrame buff sz s (fsReadHand K hand off sz buff s).1 := by
  unfold fsReadHand
  split
  · exact .refl buff sz s
  · by_cases ha : (s.hands hand).ops = a
    · rw [ha, hK.initrd]
      exact initrdHandRead_frame hand off s hbuff
    · split
      · rename_i read hread
        exact hK.others _ ha read hread hand off sz buff s hbuff
      · exact .refl buff sz s

end Frame

/-! ## An open file -/

/-- The file of the structure `k` is no stream, and holds `C`. -/
structure ArchiveFile (m : Nat → UInt8) (k : Kfile) (C : List UInt8) : Prop where
  regular : k.flags &&& fsStream = 0
  info : k.info ≠ 0
  length : k.length = C.length
  holds : HoldsAt m k.info C
  fits : k.info + C.length ≤ 4294967296

/-- The descriptor is one of the file, and is at `pos`. -/
structure FileAt {δ : Type} (a p hand file : Nat) (k : Kfile) (d : Fin maxOpenFiles)
    (C : List UInt8) (pos : Nat) (s : FsKernel δ) : Prop where
  slot : (s.tables p).openFiles d = hand
  ops : (s.hands hand).ops = a
  opened : (s.hands hand).file = file
  struct : s.fs.files file = k
  content : ArchiveFile s.mem k C
  position : (s.tables p).filePosition d = pos

section Keep

variable {δ : Type} {K : Drivers δ} {s s' : FsKernel δ} {a p hand file pos buff sz : Nat}
  {k : Kfile} {d : Fin maxOpenFiles} {C : List UInt8}

theorem FileAt.frame (h : FileAt a p hand file k d C pos s) (hframe : ReadFrame buff sz s s')
    (hapart : buff + sz ≤ k.info ∨ k.info + C.length ≤ buff) :
    FileAt a p hand file k d C pos s' := by
  obtain ⟨hregular, hinfo, hlength, hholds, hfits⟩ := h.content
  refine ⟨hframe.tables ▸ h.slot, hframe.hands ▸ h.ops, hframe.hands ▸ h.opened, ?_,
    ⟨hregular, hinfo, hlength, ?_, hfits⟩, hframe.tables ▸ h.position⟩
  · rw [hframe.files file (h.struct.symm ▸ hregular), h.struct]
  · refine hholds.congr fun i hi => hframe.mem _ fun hin => ?_
    omega

/-- Another position moves. -/
theorem FileAt.setPosition (h : FileAt a p hand file k d C pos s) {q : Nat}
    {e : Fin maxOpenFiles} (hne : ¬ (q = p ∧ e = d)) (off : Nat) :
    FileAt a p hand file k d C pos (s.setTable q { s.tables q with
      filePosition := Function.update (s.tables q).filePosition e off }) := by
  by_cases hq : q = p
  · subst hq
    have he : d ≠ e := fun he => hne ⟨rfl, he.symm⟩
    refine ⟨?_, h.ops, h.opened, h.struct, h.content, ?_⟩
    · rw [FsKernel.setTable_self]
      exact h.slot
    · rw [FsKernel.setTable_self]
      exact (Function.update_of_ne he ..).trans h.position
  · have heq : (s.setTable q { s.tables q with
        filePosition := Function.update (s.tables q).filePosition e off }).tables p = s.tables p :=
      Function.update_of_ne (Ne.symm hq) ..
    exact ⟨heq ▸ h.slot, h.ops, h.opened, h.struct, h.content, heq ▸ h.position⟩

/-- The reads of others keep the file and its position. -/
theorem readStep_other (hK : ReadDrivers K a) (h : FileAt a p hand file k d C pos s)
    {act : ReadAct} {n : Int} (hbuff : act.buffer + act.size ≤ 4294967296)
    (hapart : act.buffer + act.size ≤ k.info ∨ k.info + C.length ≤ act.buffer)
    (hother : ¬ act.Reads p d) (hstep : readStep K s act = .ok (s', n)) :
    FileAt a p hand file k d C pos s' := by
  have hthread : ∀ q, FileAt a p hand file k d C pos { s with thread := q } := fun q =>
    ⟨h.slot, h.ops, h.opened, h.struct, h.content, h.position⟩
  cases act with
  | read q desc off sz buff =>
    rcases withHand_ok hstep with heq | ⟨g, -, -, hcall⟩
    · have heq : s' = { s with thread := q } := heq
      exact heq ▸ hthread q
    · cases hcall
      exact (hthread q).frame (fsReadHand_frame hK g off _ hbuff) hapart
  | readBlk q desc off sz buff =>
    rcases withHand_ok hstep with heq | ⟨g, hslot, -, hcall⟩
    · have heq : s' = { s with thread := q } := heq
      exact heq ▸ hthread q
    · dsimp only at hcall
      split at hcall
      · cases hcall
      · obtain ⟨e, rfl⟩ := desc_fin (slot_inTable hslot)
        rw [readAtPosition_fin] at hcall
        cases hcall
        have hne : ¬ (q = p ∧ e = d) := fun ⟨hq, he⟩ => hother ⟨hq, by rw [he]⟩
        exact ((hthread q).frame (fsReadHand_frame hK g _ _ hbuff) hapart).setPosition hne _
  | turn g off sz buff =>
    have heq : (fsReadHand K g off sz buff s).1 = s' := congrArg Prod.fst (Except.ok.inj hstep)
    exact heq ▸ h.frame (fsReadHand_frame hK g off s hbuff) hapart

/-- What the driver does with a read at the position. -/
theorem initrdHandRead_slice (hfile : file ≠ 0) (h : FileAt a p hand file k d C pos s)
    (hbuff : buff + sz ≤ 4294967296)
    (hapart : buff + sz ≤ k.info ∨ k.info + C.length ≤ buff) (hsum : pos + sz < 4294967296) :
    ∃ m', initrdHandRead hand pos sz buff s =
        ({ s with mem := m' }, i32 ((C.drop pos).take sz).length) ∧
      (∀ j < ((C.drop pos).take sz).length, m' (buff + j) = s.mem (k.info + pos + j)) ∧
      ∀ x, ¬ (buff ≤ x ∧ x < buff + sz) → m' x = s.mem x := by
  obtain ⟨-, hinfo, hlength, -, hfits⟩ := h.content
  have hcount : readCount k.length pos sz = ((C.drop pos).take sz).length := by
    rw [List.length_take, List.length_drop, readCount, hlength]
    split <;> omega
  have hle : ((C.drop pos).take sz).length ≤ sz := List.length_take_le ..
  have hread : ReadsExactly s.fs s.mem file pos sz buff := by
    have hk := h.struct
    refine initrdRead_exact hfile (hk.symm ▸ hinfo) ?_ ?_ ?_ (.inr hsum)
    · rw [hk, hlength]
      exact hfits
    · rw [hk, hcount]
      omega
    · rw [hk, hcount]
      intro j hj hin
      rw [List.length_take, List.length_drop] at hj hle hin
      omega
  obtain ⟨m', hexec, hcopy, hframe, -, -⟩ := hread
  rw [h.struct, hcount] at hexec hcopy hframe
  refine ⟨m', ?_, hcopy, fun x hx => hframe x fun hin => hx ?_⟩
  · rw [initrdHandRead, h.opened, hexec]
  · omega

/-- A read of the descriptor returns the next slice, and moves behind it. -/
theorem readStep_slice (hK : ReadDrivers K a) (hp : p ≠ 0) (hhand : hand ≠ 0) (hfile : file ≠ 0)
    (h : FileAt a p hand file k d C pos s) (off : Nat) (hbuff : buff + sz ≤ 4294967296)
    (hapart : buff + sz ≤ k.info ∨ k.info + C.length ≤ buff) (hsum : pos + sz < 4294967296) :
    ∃ s', readStep K s (.readBlk p d off sz buff) = .ok (s', ((C.drop pos).take sz).length) ∧
      bytesRead s' buff ((C.drop pos).take sz).length = (C.drop pos).take sz ∧
      FileAt a p hand file k d C (pos + ((C.drop pos).take sz).length) s' := by
  have hthread : FileAt a p hand file k d C pos { s with thread := p } :=
    ⟨h.slot, h.ops, h.opened, h.struct, h.content, h.position⟩
  obtain ⟨hregular, hinfo, hlength, hholds, hfits⟩ := h.content
  obtain ⟨m', hread, hcopy, hframe⟩ := initrdHandRead_slice hfile hthread hbuff hapart hsum
  have hstep := procFsReadBlk_initrd off sz buff hp hthread.slot hhand
    hthread.ops hK.nonnull hK.initrd (hthread.opened.symm ▸ hthread.struct.symm ▸ hregular) 0
  have hpos : (s.tables p).filePosition d = pos := h.position
  have hle : ((C.drop pos).take sz).length ≤ sz := List.length_take_le ..
  dsimp only at hstep
  rw [hpos, hread] at hstep
  dsimp only at hstep
  rw [wordOf_i32 (by omega), u32_of_lt (by omega)] at hstep
  refine ⟨_, hstep, ?_, ?_⟩
  · refine List.ext_getElem? fun i => ?_
    rw [bytesRead, Int.toNat_natCast]
    by_cases hi : i < ((C.drop pos).take sz).length
    · rw [List.getElem?_map, List.getElem?_range hi, Option.map_some]
      rw [List.getElem?_take_of_lt (by omega), List.getElem?_drop,
        hholds.getElem? (by rw [List.length_take, List.length_drop] at hi; omega)]
      exact congrArg some ((hcopy i hi).trans (by rw [Nat.add_assoc]))
    · rw [List.getElem?_eq_none (Nat.le_of_not_lt hi), List.getElem?_eq_none]
      rw [List.length_map, List.length_range]
      exact Nat.le_of_not_lt hi
  · refine ⟨?_, h.ops, h.opened, h.struct, ⟨hregular, hinfo, hlength, ?_, hfits⟩, ?_⟩
    · rw [FsKernel.setTable_self]
      exact h.slot
    · refine hholds.congr fun i hi => hframe _ fun hin => ?_
      omega
    · rw [FsKernel.setTable_self]
      exact Function.update_self ..

end Keep

/-! ## Runs -/

section Cons

variable {p : Nat} {d : Fin maxOpenFiles} {act : ReadAct} {acts : List ReadAct} {out : List UInt8}
  {outs : List (List UInt8)}

theorem sizesOf_cons :
    sizesOf p d (act :: acts) =
      if act.Reads p d then act.size :: sizesOf p d acts else sizesOf p d acts := by
  rw [sizesOf, List.filter_cons]
  by_cases h : act.Reads p d <;> simp [h, sizesOf]

theorem readsOf_cons :
    readsOf p d (act :: acts) (out :: outs) =
      if act.Reads p d then out :: readsOf p d acts outs else readsOf p d acts outs := by
  rw [readsOf, List.zip_cons_cons, List.filter_cons]
  by_cases h : act.Reads p d <;> simp [h, readsOf]

/-- Behind a slice. -/
theorem drop_slice (C : List UInt8) (pos sz : Nat) :
    C.drop (pos + ((C.drop pos).take sz).length) = (C.drop pos).drop sz := by
  rw [← List.drop_drop, List.length_take]
  by_cases h : sz ≤ (C.drop pos).length
  · rw [Nat.min_eq_left h]
  · rw [Nat.min_eq_right (Nat.le_of_not_le h), List.drop_length,
      List.drop_eq_nil_of_le (Nat.le_of_not_le h)]

end Cons

section Partition

variable {δ : Type} {K : Drivers δ} {s s' : FsKernel δ} {a p hand file pos : Nat}
  {k : Kfile} {d : Fin maxOpenFiles} {C : List UInt8} {acts : List ReadAct}
  {outs : List (List UInt8)}

theorem readRun_slices (hK : ReadDrivers K a) (hp : p ≠ 0) (hhand : hand ≠ 0) (hfile : file ≠ 0)
    (h : FileAt a p hand file k d C pos s) (hok : ReadsOk K p d k.info C.length acts s)
    (hrun : readRun K acts s = .ok (s', outs)) :
    readsOf p d acts outs = slices (C.drop pos) (sizesOf p d acts) ∧
      FileAt a p hand file k d C (pos + (readsOf p d acts outs).flatten.length) s' := by
  induction acts generalizing s outs pos with
  | nil =>
    cases hrun
    exact ⟨rfl, h⟩
  | cons act acts ih =>
    obtain ⟨hbuff, hapart, hsum, hrest⟩ := hok
    rw [readRun] at hrun
    obtain ⟨⟨s₁, n⟩, hstep, hrun⟩ := Except.bind_eq_ok_iff.mp hrun
    obtain ⟨⟨s₂, outs'⟩, hrun', hret⟩ := Except.bind_eq_ok_iff.mp hrun
    cases hret
    rw [hstep] at hrest
    rw [sizesOf_cons, readsOf_cons]
    by_cases hact : act.Reads p d
    · rw [if_pos hact, if_pos hact]
      obtain ⟨off, sz, buff, rfl⟩ : ∃ off sz buff, act = .readBlk p d off sz buff := by
        cases act with
        | read => exact hact.elim
        | readBlk q desc off sz buff =>
          obtain ⟨rfl, rfl⟩ := hact
          exact ⟨off, sz, buff, rfl⟩
        | turn => exact hact.elim
      dsimp only [ReadAct.size, ReadAct.buffer] at hbuff hapart hsum ⊢
      obtain ⟨s₁', hstep', hbytes, hat⟩ := readStep_slice hK hp hhand hfile h off hbuff hapart
        (h.position ▸ hsum hact)
      rw [hstep'] at hstep
      cases hstep
      obtain ⟨hreads, hend⟩ := ih hat hrest hrun'
      rw [hbytes, slices, ← drop_slice, ← hreads, List.flatten_cons, List.length_append,
        ← Nat.add_assoc]
      exact ⟨rfl, hend⟩
    · rw [if_neg hact, if_neg hact]
      exact ih (readStep_other hK h hbuff hapart hact hstep) hrest hrun'

/-- A file that was put into a slot is at its beginning. -/
theorem procAddFile_at {s₀ : FsKernel δ} (hadd : procAddFile p hand s₀ = (s, (d : Int))) :
    (s.tables p).openFiles d = hand ∧ (s.tables p).filePosition d = 0 ∧ s.hands = s₀.hands ∧
      s.fs = s₀.fs ∧ s.mem = s₀.mem := by
  unfold procAddFile at hadd
  split at hadd
  · rename_i e _
    obtain ⟨rfl, he⟩ := Prod.mk.inj hadd
    obtain rfl : e = d := Fin.ext (Int.ofNat.inj he)
    rw [FsKernel.setTable_self]
    exact ⟨Function.update_self .., Function.update_self .., rfl, rfl, rfl⟩
  · have hneg : -ENFILE = (d : Int) := (Prod.mk.inj hadd).2
    have : -ENFILE < 0 := by decide
    omega

/-- The files of a mounted archive are such files. -/
theorem FileOf.archiveFile {m : Nat → UInt8} {r : CpioRecord} (h : FileOf m r k) :
    ArchiveFile m k r.data := by
  refine ⟨?_, h.info, h.length, h.holds, Nat.le_of_lt h.fits⟩
  rw [h.flags]
  unfold modeFlags
  dsimp only
  split_ifs <;> rfl

/-- A file of an archive that was put into the slot of a descriptor is read in
consecutive slices, as long as they go, whatever else is read, and the position
is at the end of what was read. A read of the descriptor returns. -/
theorem sequential_reads_partition (hK : ReadDrivers K a) {s₀ : FsKernel δ} (hp : p ≠ 0)
    (hhand : hand ≠ 0) (hops : (s₀.hands hand).ops = a) (hfile : (s₀.hands hand).file ≠ 0)
    (hcontent : ArchiveFile s₀.mem (s₀.fs.files (s₀.hands hand).file) C)
    (hadd : procAddFile p hand s₀ = (s, (d : Int)))
    (hok : ReadsOk K p d (s₀.fs.files (s₀.hands hand).file).info C.length acts s)
    (hrun : readRun K acts s = .ok (s', outs)) :
    readsOf p d acts outs = slices C (sizesOf p d acts) ∧
      (readsOf p d acts outs).flatten = C.take (min (sizesOf p d acts).sum C.length) ∧
      (s'.tables p).filePosition d = (readsOf p d acts outs).flatten.length ∧
      ∀ off sz buff, ∃ r, readStep K s' (.readBlk p d off sz buff) = .ok r := by
  obtain ⟨hslot, hpos, hhands, hfs, hmem⟩ := procAddFile_at hadd
  have hat : FileAt a p hand (s₀.hands hand).file (s₀.fs.files (s₀.hands hand).file) d C 0 s :=
    ⟨hslot, hhands ▸ hops, by rw [hhands], by rw [hfs], hmem ▸ hcontent, hpos⟩
  obtain ⟨hslices, hend⟩ := readRun_slices hK hp hhand hfile hat hok hrun
  rw [List.drop_zero] at hslices
  rw [Nat.zero_add] at hend
  refine ⟨hslices, ?_, hend.position, fun off sz buff => ?_⟩
  · rw [hslices, slices_flatten, ← List.take_take, List.take_length]
  · have hread := procFsReadBlk_initrd (s := { s' with thread := p }) off sz buff hp hend.slot
      hhand hend.ops hK.nonnull hK.initrd
      (hend.opened.symm ▸ hend.struct.symm ▸ hend.content.regular) 0
    exact ⟨_, hread⟩

end Partition

/-! ## Two processes -/

def archiveDrivers : Drivers Unit where
  handOps := fun b => if b = 5 then initrdHandOps else ⟨none, none, none, none⟩
  nullOps := ⟨none, none⟩
  kfree := fun _ s => s
  runSched := id

/-- The handle `48` is one of a file of 16 bytes. -/
def archiveKernel : FsKernel Unit :=
  { emptyKernel with
    hands := fun _ => ⟨oflagsOpen, 5, 32⟩
    fs := oneFile
    mem := UInt8.ofNat }

def firstDesc : Fin maxOpenFiles := ⟨0, by decide⟩

def sampleReads : List ReadAct :=
  [.readBlk 1 0 7 5 0x20000, .readBlk 2 0 0 4 0x30000, .read 1 0 3 4 0x30000,
    .readBlk 1 0 0 20 0x20000]

theorem archiveDrivers_read : ReadDrivers archiveDrivers 5 := by
  refine ⟨by decide, rfl, fun b hb read hread => ?_⟩
  change (if b = 5 then _ else _ : FileHandOps (FsKernel Unit)).read = _ at hread
  rw [if_neg hb] at hread
  cases hread

theorem sample_reads_partition :
    ∃ s' outs, readRun archiveDrivers sampleReads (procAddFile 1 48 archiveKernel).1 =
        .ok (s', outs) ∧
      readsOf 1 firstDesc sampleReads outs =
        [[0, 1, 2, 3, 4], [5, 6, 7, 8, 9, 10, 11, 12, 13, 14, 15]] ∧
      (s'.tables 1).filePosition firstDesc = 16 := by
  have hrun : (readRun archiveDrivers sampleReads (procAddFile 1 48 archiveKernel).1).isOk := by
    decide +kernel
  cases h : readRun archiveDrivers sampleReads (procAddFile 1 48 archiveKernel).1 with
  | error e =>
    rw [h] at hrun
    cases hrun
  | ok r =>
    have hcontent : ArchiveFile archiveKernel.mem (archiveKernel.fs.files 32)
        [0, 1, 2, 3, 4, 5, 6, 7, 8, 9, 10, 11, 12, 13, 14, 15] :=
      ⟨rfl, by decide, rfl, by decide, by decide⟩
    have hadd : procAddFile 1 48 archiveKernel =
        ((procAddFile 1 48 archiveKernel).1, (firstDesc : Int)) := rfl
    obtain ⟨hslices, -, hpos, -⟩ := sequential_reads_partition archiveDrivers_read
      (by decide : 1 ≠ 0) (by decide : 48 ≠ 0) rfl (by decide : 32 ≠ 0) hcontent hadd
      (by decide +kernel) h
    refine ⟨r.1, r.2, rfl, hslices, ?_⟩
    rw [hpos, hslices]
    rfl

end LambdaOs
