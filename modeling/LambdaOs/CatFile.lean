import LambdaOs.FileReads

/-!
# Copying a file to the output

`_cat_file` of `lutils/src/cmd/cat.c` and `show_motd` of `lshell/src/main.c`
read a file into a buffer until nothing is read, and write what is in the buffer
after each read. `cat` keeps what `read` returns in a `size_t`, the other one in
an `int`. What `write` returns is not looked at.

Between two calls other processes run. As long as they leave the descriptor, the
file and the buffer alone, every byte of the file is handed to `write` once and
in order, and the loop ends (`cat_writes_file`).
-/

namespace LambdaOs

/-! ## The loop -/

/-- `STDOUT_FILENO` -/
def stdoutFileno : Int := 1

/-- `CAT_BUFF_LEN` -/
def catBuffLen : Nat := 512

/-- `MOTD_BUFF_LEN` -/
def motdBuffLen : Nat := 32

/-- A process that copies: its descriptor and buffer, and whether `len` is an
`int`. -/
structure Copier where
  process : Nat
  desc : Fin maxOpenFiles
  buff : Nat
  size : Nat
  signed : Bool

/-- `len > 0` -/
def Copier.positive (c : Copier) (len : Nat) : Bool :=
  if c.signed then 0 < i32 len else len ≠ 0

section Loop

variable {δ : Type} (K : Drivers δ) (c : Copier) (env : Nat → FsKernel δ → FsKernel δ)

/-- From a call on, with what has been handed to `write`; before the `i`-th
call the others do `env i`. -/
def catRounds : Nat → Nat → FsKernel δ → Except DescFault (FsKernel δ × List (List UInt8))
  | 0, _, _ => .error .unfinished
  | rounds + 1, i, s => do
      let (s, n) ← readStep K (env i s) (.readBlk c.process c.desc 0 c.size c.buff)
      let len := wordOf n
      if c.positive len then
        let s := env (i + 1) s
        let data := readAt s.mem c.buff len
        let (s, _) ← procFsWrite K stdoutFileno 0 len c.buff { s with thread := c.process }
        let (s, datas) ← catRounds rounds (i + 2) s
        return (s, data :: datas)
      else return (s, [])

end Loop

/-- The loop of `_cat_file`. -/
def catLoop {δ : Type} (K : Drivers δ) (process : Nat) (fd : Fin maxOpenFiles) (buff : Nat)
    (env : Nat → FsKernel δ → FsKernel δ) (rounds : Nat) (s : FsKernel δ) :=
  catRounds K ⟨process, fd, buff, catBuffLen, false⟩ env rounds 0 s

/-- The loop of `show_motd`. -/
def motdLoop {δ : Type} (K : Drivers δ) (process : Nat) (fd : Fin maxOpenFiles) (buff : Nat)
    (env : Nat → FsKernel δ → FsKernel δ) (rounds : Nat) (s : FsKernel δ) :=
  catRounds K ⟨process, fd, buff, motdBuffLen, true⟩ env rounds 0 s

/-! ## What the others leave alone -/

section KeepsFile

variable {δ : Type} (c : Copier) (hand file base length : Nat)

/-- The slot and the position of the descriptor, its handle, the file with its
bytes, and the buffer are as they were. -/
structure KeepsFile (s s' : FsKernel δ) : Prop where
  slot : (s'.tables c.process).openFiles c.desc = (s.tables c.process).openFiles c.desc
  position : (s'.tables c.process).filePosition c.desc = (s.tables c.process).filePosition c.desc
  hand : s'.hands hand = s.hands hand
  file : s'.fs.files file = s.fs.files file
  content : ∀ i < length, s'.mem (base + i) = s.mem (base + i)
  buffer : ∀ i < c.size, s'.mem (c.buff + i) = s.mem (c.buff + i)

/-- What a driver does with a write leaves the file alone. -/
def WritesKeep (K : Drivers δ) : Prop :=
  ∀ b write, (K.handOps b).write = some write →
    ∀ h off sz buff s, KeepsFile c hand file base length s (write h off sz buff s).1

end KeepsFile

section Copy

variable {δ : Type} {K : Drivers δ} {c : Copier} {s s' : FsKernel δ}
  {a hand file pos rounds i : Nat} {k : Kfile} {C : List UInt8}
  {env : Nat → FsKernel δ → FsKernel δ}

theorem KeepsFile.trans {s'' : FsKernel δ} (h : KeepsFile c hand file k.info C.length s s')
    (h' : KeepsFile c hand file k.info C.length s' s'') :
    KeepsFile c hand file k.info C.length s s'' :=
  ⟨h'.slot.trans h.slot, h'.position.trans h.position, h'.hand.trans h.hand, h'.file.trans h.file,
    fun i hi => (h'.content i hi).trans (h.content i hi),
    fun i hi => (h'.buffer i hi).trans (h.buffer i hi)⟩

theorem KeepsFile.fileAt (h : KeepsFile c hand file k.info C.length s s')
    (hat : FileAt a c.process hand file k c.desc C pos s) :
    FileAt a c.process hand file k c.desc C pos s' := by
  obtain ⟨hregular, hinfo, hlength, hholds, hfits⟩ := hat.content
  exact ⟨h.slot.trans hat.slot, by rw [h.hand, hat.ops], by rw [h.hand, hat.opened],
    h.file.trans hat.struct, ⟨hregular, hinfo, hlength, hholds.congr h.content, hfits⟩,
    h.position.trans hat.position⟩

theorem Copier.positive_iff (hsize : c.size < 2147483648) {len : Nat} (hlen : len ≤ c.size) :
    c.positive len = true ↔ len ≠ 0 := by
  rw [positive]
  split
  · rw [decide_eq_true_iff, i32, if_pos (by omega)]
    omega
  · exact decide_eq_true_iff

/-- What the buffer holds when it is written is what was read. -/
theorem KeepsFile.readAt (h : KeepsFile c hand file k.info C.length s s') {n : Nat}
    (hn : n ≤ c.size) : readAt s'.mem c.buff n = bytesRead s c.buff n := by
  rw [LambdaOs.readAt, bytesRead, Int.toNat_natCast]
  refine List.map_congr_left fun j hj => h.buffer j ?_
  exact Nat.lt_of_lt_of_le (List.mem_range.mp hj) hn

theorem KeepsFile.setThread (p : Nat) (s : FsKernel δ) :
    KeepsFile c hand file k.info C.length s { s with thread := p } :=
  ⟨rfl, rfl, rfl, rfl, fun _ _ => rfl, fun _ _ => rfl⟩

theorem fsWriteHand_keeps (hwrites : WritesKeep c hand file k.info C.length K)
    (g off len buff p : Nat) (s : FsKernel δ) :
    KeepsFile c hand file k.info C.length s
      (fsWriteHand K g off len buff { s with thread := p }).1 := by
  have hthread : KeepsFile c hand file k.info C.length s { s with thread := p } :=
    .setThread p s
  unfold fsWriteHand
  split
  · exact hthread
  · split
    · rename_i write hwrite
      exact hthread.trans (hwrites _ write hwrite g off len buff { s with thread := p })
    · exact hthread

/-- A write to the output comes back, whatever its slot holds. -/
theorem procFsWrite_keeps (hwrites : WritesKeep c hand file k.info C.length K)
    (hp : c.process ≠ 0) (off len buff : Nat) (s : FsKernel δ) :
    ∃ s' r, procFsWrite K stdoutFileno off len buff { s with thread := c.process } =
        .ok (s', r) ∧ KeepsFile c hand file k.info C.length s s' := by
  rw [procFsWrite, withHand, if_neg (by decide), if_neg hp]
  change ∃ s' r, (if (s.tables c.process).openFiles ⟨1, by decide⟩ ≠ 0 then _ else _) = _ ∧ _
  split
  · exact ⟨_, _, rfl, fsWriteHand_keeps hwrites _ off len buff _ s⟩
  · exact ⟨_, _, rfl, .setThread c.process s⟩

theorem catRounds_done {s₁ : FsKernel δ} {n : Int}
    (hread : readStep K (env i s) (.readBlk c.process c.desc 0 c.size c.buff) = .ok (s₁, n))
    (hlen : ¬ c.positive (wordOf n)) :
    catRounds K c env (rounds + 1) i s = .ok (s₁, []) := by
  rw [catRounds, hread]
  exact if_neg hlen

theorem catRounds_next {s₁ s₂ s₃ : FsKernel δ} {n r : Int} {datas : List (List UInt8)}
    (hread : readStep K (env i s) (.readBlk c.process c.desc 0 c.size c.buff) = .ok (s₁, n))
    (hlen : c.positive (wordOf n))
    (hwrite : procFsWrite K stdoutFileno 0 (wordOf n) c.buff
      { env (i + 1) s₁ with thread := c.process } = .ok (s₂, r))
    (hrest : catRounds K c env rounds (i + 2) s₂ = .ok (s₃, datas)) :
    catRounds K c env (rounds + 1) i s =
      .ok (s₃, readAt (env (i + 1) s₁).mem c.buff (wordOf n) :: datas) := by
  rw [catRounds, hread]
  refine (if_pos hlen).trans ?_
  rw [hwrite]
  change (catRounds K c env rounds (i + 2) s₂ >>= _) = _
  rw [hrest]
  rfl

/-- One read, after what the others did. -/
theorem copy_read (hK : ReadDrivers K a)
    (henv : ∀ i s, KeepsFile c hand file k.info C.length s (env i s)) (hp : c.process ≠ 0)
    (hhand : hand ≠ 0) (hfile : file ≠ 0) (hbuff : c.buff + c.size ≤ 4294967296)
    (hapart : c.buff + c.size ≤ k.info ∨ k.info + C.length ≤ c.buff)
    (hroom : C.length + c.size < 4294967296) (hpos : pos ≤ C.length)
    (h : FileAt a c.process hand file k c.desc C pos s) :
    ∃ s', readStep K (env i s) (.readBlk c.process c.desc 0 c.size c.buff) =
        .ok (s', ((C.drop pos).take c.size).length) ∧
      bytesRead s' c.buff ((C.drop pos).take c.size).length = (C.drop pos).take c.size ∧
      FileAt a c.process hand file k c.desc C (pos + ((C.drop pos).take c.size).length) s' :=
  readStep_slice hK hp hhand hfile ((henv i s).fileAt h) 0 hbuff hapart (by omega)

/-- From a position on, the rest of the file is written. -/
theorem catRounds_writes (hK : ReadDrivers K a)
    (hwrites : WritesKeep c hand file k.info C.length K)
    (henv : ∀ i s, KeepsFile c hand file k.info C.length s (env i s)) (hp : c.process ≠ 0)
    (hhand : hand ≠ 0) (hfile : file ≠ 0) (hsize : 0 < c.size ∧ c.size < 2147483648)
    (hbuff : c.buff + c.size ≤ 4294967296)
    (hapart : c.buff + c.size ≤ k.info ∨ k.info + C.length ≤ c.buff)
    (hroom : C.length + c.size < 4294967296) (hpos : pos ≤ C.length)
    (h : FileAt a c.process hand file k c.desc C pos s)
    (hrounds : C.length - pos + c.size ≤ rounds * c.size) :
    ∃ s' datas, catRounds K c env rounds i s = .ok (s', datas) ∧ datas.flatten = C.drop pos ∧
      FileAt a c.process hand file k c.desc C C.length s' := by
  induction rounds generalizing pos i s with
  | zero => omega
  | succ rounds ih =>
    obtain ⟨s₁, hread, hbytes, hat⟩ := copy_read (i := i) hK henv hp hhand hfile hbuff hapart hroom
      hpos h
    have hlen : ((C.drop pos).take c.size).length = min c.size (C.length - pos) := by
      rw [List.length_take, List.length_drop]
    have hword : wordOf ((C.drop pos).take c.size).length = ((C.drop pos).take c.size).length := by
      unfold wordOf
      omega
    have hpositive := c.positive_iff hsize.2 (List.length_take_le c.size (C.drop pos))
    rw [← hword] at hpositive
    by_cases hend : C.length ≤ pos
    · have hpos : pos = C.length := Nat.le_antisymm hpos hend
      have hzero : pos + ((C.drop pos).take c.size).length = C.length := by omega
      refine ⟨s₁, [], catRounds_done hread ?_, ?_, hzero ▸ hat⟩
      · rw [hpositive]
        omega
      · rw [List.drop_eq_nil_of_le hend, List.flatten_nil]
    · have hkeep := henv (i + 1) s₁
      obtain ⟨s₂, r, hwrite, hkeep'⟩ := procFsWrite_keeps hwrites hp 0
        (wordOf ((C.drop pos).take c.size).length) c.buff (env (i + 1) s₁)
      have hless : C.length - (pos + ((C.drop pos).take c.size).length) + c.size ≤
          rounds * c.size := by
        -- the last read, of nothing, takes a round of its own
        have hone : 0 < rounds := by
          rcases Nat.eq_zero_or_pos rounds with rfl | hone
          · omega
          · exact hone
        have hleast : c.size ≤ rounds * c.size := Nat.le_mul_of_pos_left c.size hone
        rw [Nat.succ_mul] at hrounds
        omega
      obtain ⟨s', datas, hrest, hflat, hat'⟩ := ih (i := i + 2) (by omega)
        ((hkeep.trans hkeep').fileAt hat) hless
      refine ⟨s', _, catRounds_next hread (hpositive.mpr (by omega)) hwrite hrest, ?_, hat'⟩
      rw [hword, hkeep.readAt (List.length_take_le c.size (C.drop pos)), hbytes,
        List.flatten_cons, hflat, drop_slice, List.take_append_drop]

/-- A file that was opened is written from its beginning to its end, whatever runs
in between and leaves it alone. `catLoop` and `motdLoop` are such loops. -/
theorem cat_writes_file (hK : ReadDrivers K a) {s₀ : FsKernel δ} (hp : c.process ≠ 0)
    (hhand : hand ≠ 0) (hops : (s₀.hands hand).ops = a) (hfile : (s₀.hands hand).file = file)
    (hfile0 : file ≠ 0) (hstruct : s₀.fs.files file = k) (hcontent : ArchiveFile s₀.mem k C)
    (hadd : procAddFile c.process hand s₀ = (s, (c.desc : Int)))
    (hwrites : WritesKeep c hand file k.info C.length K)
    (henv : ∀ i s, KeepsFile c hand file k.info C.length s (env i s))
    (hsize : 0 < c.size ∧ c.size < 2147483648) (hbuff : c.buff + c.size ≤ 4294967296)
    (hapart : c.buff + c.size ≤ k.info ∨ k.info + C.length ≤ c.buff)
    (hroom : C.length + c.size < 4294967296) (hrounds : C.length + c.size ≤ rounds * c.size) :
    ∃ s' datas, catRounds K c env rounds 0 s = .ok (s', datas) ∧ datas.flatten = C ∧
      (s'.tables c.process).filePosition c.desc = C.length := by
  obtain ⟨hslot, hpos, hhands, hfs, hmem⟩ := procAddFile_at hadd
  have hat : FileAt a c.process hand file k c.desc C 0 s :=
    ⟨hslot, hhands ▸ hops, hhands ▸ hfile, hfs ▸ hstruct, hmem ▸ hcontent, hpos⟩
  obtain ⟨s', datas, hrun, hflat, hend⟩ := catRounds_writes (i := 0) hK hwrites henv hp hhand
    hfile0 hsize hbuff hapart hroom (Nat.zero_le _) hat hrounds
  exact ⟨s', datas, hrun, hflat, hend.position⟩

end Copy

/-! ## A file of sixteen bytes -/

theorem archiveDrivers_writes (c : Copier) (hand file base length : Nat) :
    WritesKeep c hand file base length archiveDrivers := by
  intro b write hwrite
  change (if b = 5 then _ else _ : FileHandOps (FsKernel Unit)).write = _ at hwrite
  split at hwrite <;> cases hwrite

/-- The other process runs before each call. -/
theorem cat_writes_sixteen :
    (∃ s' datas, catLoop archiveDrivers 1 firstDesc 0x20000 (fun _ s => { s with thread := 2 }) 2
        (procAddFile 1 48 archiveKernel).1 = .ok (s', datas) ∧
      datas.flatten = [0, 1, 2, 3, 4, 5, 6, 7, 8, 9, 10, 11, 12, 13, 14, 15] ∧
      (s'.tables 1).filePosition firstDesc = 16) ∧
    ∃ s' datas, motdLoop archiveDrivers 1 firstDesc 0x20000 (fun _ s => { s with thread := 2 }) 2
        (procAddFile 1 48 archiveKernel).1 = .ok (s', datas) ∧
      datas.flatten = [0, 1, 2, 3, 4, 5, 6, 7, 8, 9, 10, 11, 12, 13, 14, 15] ∧
      (s'.tables 1).filePosition firstDesc = 16 := by
  have hcontent : ArchiveFile archiveKernel.mem (archiveKernel.fs.files 32)
      [0, 1, 2, 3, 4, 5, 6, 7, 8, 9, 10, 11, 12, 13, 14, 15] :=
    ⟨rfl, by decide, rfl, by decide, by decide⟩
  constructor
  · exact cat_writes_file (c := ⟨1, firstDesc, 0x20000, catBuffLen, false⟩) archiveDrivers_read
      (by decide) (by decide : 48 ≠ 0) rfl rfl (by decide : 32 ≠ 0) rfl hcontent rfl
      (archiveDrivers_writes _ _ _ _ _) (fun _ s => .setThread 2 s)
      ⟨by decide, by decide⟩ (by decide) (by decide) (by decide) (by decide)
  · exact cat_writes_file (c := ⟨1, firstDesc, 0x20000, motdBuffLen, true⟩) archiveDrivers_read
      (by decide) (by decide : 48 ≠ 0) rfl rfl (by decide : 32 ≠ 0) rfl hcontent rfl
      (archiveDrivers_writes _ _ _ _ _) (fun _ s => .setThread 2 s)
      ⟨by decide, by decide⟩ (by decide) (by decide) (by decide) (by decide)

end LambdaOs
