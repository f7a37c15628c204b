import LambdaOs.ExecArgs
import LambdaOs.ProcFs

/-!
# Reading a file of an archive

`_read` of `fs/initrd.c`. It clamps the count to the end of the file, and adds
the offset and the count in 32 bits to see whether it has to. Where the sum
wraps, the count is not clamped, and the copy goes on behind the file:
`initrd_read_exact_iff`.
-/

namespace LambdaOs

open ArgProg

/-! ## The call -/

/-- `_read`, for the `file` of a handle. -/
def initrdRead (fs : FsState) (file off sz buff : Nat) : ArgProg Nat :=
  let f := fs.files file
  if file = 0 ∨ f.info = 0 then return 0
  else if off ≥ f.length then return 0
  else do
    let len := if u32 (sz + off) > f.length then f.length - off else sz
    ArgProg.memcpy buff (f.info + off) len
    return len

/-- The bytes of the file that there are to read. -/
def readCount (length off sz : Nat) : Nat := if off ≥ length then 0 else min sz (length - off)

/-- The call returns the count of the bytes that there are, copies these and
touches no others. -/
def ReadsExactly (fs : FsState) (m : Nat → UInt8) (file off sz buff : Nat) : Prop :=
  let f := fs.files file
  let count := readCount f.length off sz
  ∃ m', (initrdRead fs file off sz buff).exec m = (.ok count, m') ∧
    (∀ j < count, m' (buff + j) = m (f.info + off + j)) ∧
    (∀ x, ¬ (buff ≤ x ∧ x < buff + count) → m' x = m x) ∧
    (∀ x, .read () x ∈ (initrdRead fs file off sz buff).trace m →
      f.info + off ≤ x ∧ x < f.info + off + count) ∧
    ∀ x, .write x ∈ (initrdRead fs file off sz buff).trace m → buff ≤ x ∧ x < buff + count

/-! ## Copying -/

section Copy

variable {m : Nat → UInt8} {dest src n : Nat}

/-- A copy ends, wherever it goes. -/
theorem memcpy_total (m : Nat → UInt8) (dest src n : Nat) :
    ∃ m', (ArgProg.memcpy dest src n).Runs m () m' fun x => ∃ j < n, x = u32 (dest + j) := by
  induction n generalizing m dest src with
  | zero => exact ⟨m, MemProg.runs_pure⟩
  | succ n ih =>
    obtain ⟨m', hrun⟩ := ih (Function.update m (u32 dest) (m (u32 src))) (dest + 1) (src + 1)
    refine ⟨m', MemProg.finds_load.runs.bind <|
      (MemProg.runs_store ⟨0, Nat.succ_pos n, rfl⟩).bind <| hrun.mono ?_⟩
    rintro x ⟨j, hj, rfl⟩
    exact ⟨j + 1, Nat.succ_lt_succ hj, by rw [Nat.add_right_comm, Nat.add_assoc]⟩

/-- A copy looks at its source only. -/
theorem memcpy_reads {x : Nat} (h : .read () x ∈ (ArgProg.memcpy dest src n).trace m) :
    ∃ j < n, x = u32 (src + j) := by
  induction n generalizing m dest src with
  | zero => cases h
  | succ n ih =>
    change Access.read () x ∈ Access.read () (u32 src) :: Access.write (u32 dest) ::
      (ArgProg.memcpy (dest + 1) (src + 1) n).trace _ at h
    rcases List.mem_cons.mp h with heq | h
    · exact ⟨0, Nat.succ_pos n, (Access.read.inj heq).2⟩
    · obtain ⟨j, hj, rfl⟩ := ih (List.mem_of_ne_of_mem (by simp) h)
      exact ⟨j + 1, Nat.succ_lt_succ hj, by rw [Nat.add_right_comm, Nat.add_assoc]⟩

end Copy

/-! ## What is read -/

section Read

variable {fs : FsState} {m : Nat → UInt8} {file off sz buff : Nat}

theorem initrdRead_none (h : (file = 0 ∨ (fs.files file).info = 0) ∨
    off ≥ (fs.files file).length) : initrdRead fs file off sz buff = return 0 := by
  unfold initrdRead
  dsimp only
  split
  · rfl
  · rename_i hne
    rw [if_pos (h.resolve_left hne)]

/-- The call is one copy, of as many bytes as it returns. -/
theorem initrdRead_copy (h0 : file ≠ 0) (hinfo : (fs.files file).info ≠ 0)
    (hoff : off < (fs.files file).length) :
    initrdRead fs file off sz buff = (do
      let len :=
        if u32 (sz + off) > (fs.files file).length then (fs.files file).length - off else sz
      ArgProg.memcpy buff ((fs.files file).info + off) len
      return len) := by
  unfold initrdRead
  dsimp only
  rw [if_neg (not_or.mpr ⟨h0, hinfo⟩), if_neg (Nat.not_le_of_lt hoff)]

/-- The clamp, where the sum does not wrap. -/
theorem clamp_eq {length : Nat} (hoff : off < length) (hsum : off + sz < 4294967296) :
    (if u32 (sz + off) > length then length - off else sz) = readCount length off sz := by
  rw [readCount, if_neg (Nat.not_le_of_lt hoff), u32_of_lt (by omega)]
  split <;> omega

/-- Where it does, the count is the one asked for. -/
theorem clamp_wraps {length : Nat} (hlen : length < 4294967296) (hoff : off < length)
    (hsz : sz < 4294967296) (hsum : 4294967296 ≤ off + sz) :
    (if u32 (sz + off) > length then length - off else sz) = sz := by
  have hwrap : u32 (sz + off) = sz + off - 4294967296 := by
    unfold u32
    omega
  rw [hwrap, if_neg (by omega)]

/-- A copy of `len` bytes, and its return value. -/
theorem copied {src len : Nat} (hbuff : buff + len ≤ 4294967296) (hsrc : src + len ≤ 4294967296)
    (hapart : ∀ j < len, ¬ (buff ≤ src + j ∧ src + j < buff + len)) :
    ∃ m', (do ArgProg.memcpy buff src len; return len : ArgProg Nat).exec m = (.ok len, m') ∧
      (∀ j < len, m' (buff + j) = m (src + j)) ∧
      (∀ x, ¬ (buff ≤ x ∧ x < buff + len) → m' x = m x) ∧
      (∀ x, .read () x ∈ (do ArgProg.memcpy buff src len; return len : ArgProg Nat).trace m →
        src ≤ x ∧ x < src + len) ∧
      ∀ x, .write x ∈ (do ArgProg.memcpy buff src len; return len : ArgProg Nat).trace m →
        buff ≤ x ∧ x < buff + len := by
  obtain ⟨m', hrun, hcopy⟩ := memcpy_runs (m := m) hbuff hsrc hapart
  have hall : (do ArgProg.memcpy buff src len; return len : ArgProg Nat).Runs m len m'
      fun x => buff ≤ x ∧ x < buff + len := hrun.bind MemProg.runs_pure
  refine ⟨m', hall.1, hcopy, fun x hx => hall.frame hx, fun x hx => ?_, hall.2⟩
  rw [MemProg.trace_bind_ok hrun.1, List.mem_append] at hx
  obtain ⟨j, hj, rfl⟩ := memcpy_reads (hx.resolve_right List.not_mem_nil)
  rw [u32_of_lt (by omega)]
  omega

/-- A sum that wraps: more is copied than there is. -/
theorem initrdRead_wraps (h0 : file ≠ 0) (hinfo : (fs.files file).info ≠ 0)
    (hfile : (fs.files file).info + (fs.files file).length ≤ 4294967296)
    (hoff : off < (fs.files file).length) (hsz : sz < 4294967296)
    (hsum : 4294967296 ≤ off + sz) : ¬ ReadsExactly fs m file off sz buff := by
  unfold ReadsExactly
  dsimp only
  rw [initrdRead_copy h0 hinfo hoff, clamp_wraps (by omega) hoff hsz hsum]
  rintro ⟨m', hexec, -⟩
  obtain ⟨m'', hrun⟩ := memcpy_total m buff ((fs.files file).info + off) sz
  have hret :
      (do ArgProg.memcpy buff ((fs.files file).info + off) sz; return sz : ArgProg Nat).exec m =
      (.ok sz, m'') := MemProg.exec_bind_ok hrun.1
  have heq : sz = readCount (fs.files file).length off sz :=
    Except.ok.inj (Prod.mk.inj (hret.symm.trans hexec)).1
  rw [readCount, if_neg (Nat.not_le_of_lt hoff)] at heq
  omega

end Read

section Exact

variable {fs : FsState} {m : Nat → UInt8} {file off sz buff : Nat}

theorem initrdRead_exact (h0 : file ≠ 0) (hinfo : (fs.files file).info ≠ 0)
    (hfile : (fs.files file).info + (fs.files file).length ≤ 4294967296)
    (hbuff : buff + readCount (fs.files file).length off sz ≤ 4294967296)
    (hapart : ∀ j < readCount (fs.files file).length off sz,
      ¬ (buff ≤ (fs.files file).info + off + j ∧
        (fs.files file).info + off + j < buff + readCount (fs.files file).length off sz))
    (hsum : (fs.files file).length ≤ off ∨ off + sz < 4294967296) :
    ReadsExactly fs m file off sz buff := by
  unfold ReadsExactly
  dsimp only
  by_cases hoff : (fs.files file).length ≤ off
  · rw [initrdRead_none (.inr hoff), readCount, if_pos hoff]
    exact ⟨m, rfl, fun j hj => absurd hj (Nat.not_lt_zero j), fun _ _ => rfl,
      fun x hx => absurd hx List.not_mem_nil, fun x hx => absurd hx List.not_mem_nil⟩
  · have hoff' := Nat.lt_of_not_le hoff
    rw [initrdRead_copy h0 hinfo hoff', clamp_eq hoff' (hsum.resolve_left hoff)]
    refine copied hbuff ?_ hapart
    rw [readCount, if_neg hoff]
    omega

/-- A read is exact if and only if it begins behind the end of the file, or the
end of what is asked for is not beyond 32 bits. -/
theorem initrd_read_exact_iff (h0 : file ≠ 0) (hinfo : (fs.files file).info ≠ 0)
    (hfile : (fs.files file).info + (fs.files file).length ≤ 4294967296)
    (hsz : sz < 4294967296)
    (hbuff : buff + readCount (fs.files file).length off sz ≤ 4294967296)
    (hapart : ∀ j < readCount (fs.files file).length off sz,
      ¬ (buff ≤ (fs.files file).info + off + j ∧
        (fs.files file).info + off + j < buff + readCount (fs.files file).length off sz)) :
    ReadsExactly fs m file off sz buff ↔
      (fs.files file).length ≤ off ∨ off + sz < 4294967296 := by
  refine ⟨fun h => ?_, initrdRead_exact h0 hinfo hfile hbuff hapart⟩
  by_contra hwrap
  obtain ⟨hoff, hsum⟩ := not_or.mp hwrap
  exact initrdRead_wraps h0 hinfo hfile (Nat.lt_of_not_le hoff) hsz (Nat.le_of_not_lt hsum) h

end Exact

/-! ## Through a descriptor -/

section Desc

variable {δ : Type} {K : Drivers δ} {s : FsKernel δ} {desc : Int} {hand off sz buff a : Nat}

/-- `_read` as the driver of a handle. A copy does not stop. -/
def initrdHandRead (hand off sz buff : Nat) (s : FsKernel δ) : FsKernel δ × Int :=
  match (initrdRead s.fs (s.hands hand).file off sz buff).exec s.mem with
  | (.ok len, mem) => ({ s with mem := mem }, i32 len)
  | (.error _, mem) => ({ s with mem := mem }, 0)

/-- `_file_hand_ops` -/
def initrdHandOps : FileHandOps (FsKernel δ) := ⟨none, some initrdHandRead, none, none⟩

/-- `uint32_t` from `ssize_t` -/
theorem wordOf_i32 {n : Nat} (h : n < 4294967296) : wordOf (i32 n) = n := by
  unfold wordOf i32
  split <;> omega

theorem fsReadHand_initrd (hhand : hand ≠ 0) (hops : (s.hands hand).ops = a) (ha : a ≠ 0)
    (hK : K.handOps a = initrdHandOps) :
    fsReadHand K hand off sz buff s = initrdHandRead hand off sz buff s := by
  rw [fsReadHand, if_neg (not_or.mpr ⟨hhand, hops.symm ▸ ha⟩), hops, hK]
  rfl

/-- `proc_fs_read` reads from the offset it is given. -/
theorem procFsRead_initrd (ht : s.thread ≠ 0) (hslot : s.slot s.thread desc = .ok hand)
    (hhand : hand ≠ 0) (hops : (s.hands hand).ops = a) (ha : a ≠ 0)
    (hK : K.handOps a = initrdHandOps) :
    procFsRead K desc off sz buff s =
      .ok ((initrdHandRead hand off sz buff s).1,
        wordOf (initrdHandRead hand off sz buff s).2) := by
  rw [procFsRead, withHand_open ht hslot hhand, fsReadHand_initrd hhand hops ha hK]
  rfl

theorem initrdHandRead_tables : (initrdHandRead hand off sz buff s).1.tables = s.tables := by
  unfold initrdHandRead
  split <;> rfl

/-- `proc_fs_read_blk` reads from the position, whatever offset it is given, and
moves it. -/
theorem procFsReadBlk_initrd {d : Fin maxOpenFiles} (off sz buff : Nat) (ht : s.thread ≠ 0)
    (hslot : (s.tables s.thread).openFiles d = hand) (hhand : hand ≠ 0)
    (hops : (s.hands hand).ops = a) (ha : a ≠ 0) (hK : K.handOps a = initrdHandOps)
    (hfile : (s.fs.files (s.hands hand).file).flags &&& fsStream = 0) (fuel : Nat) :
    let pos := (s.tables s.thread).filePosition d
    let r := initrdHandRead hand pos sz buff s
    procFsReadBlk K fuel d off sz buff s =
      .ok (r.1.setTable s.thread { s.tables s.thread with
        filePosition := Function.update (s.tables s.thread).filePosition d
          (u32 (pos + wordOf r.2)) }, wordOf r.2) := by
  intro pos r
  have hread : fsReadHand K hand pos sz buff s = r := fsReadHand_initrd hhand hops ha hK
  have htables : r.1.tables = s.tables := initrdHandRead_tables
  have hslot' : s.slot s.thread d = .ok hand := hslot ▸ slot_fin d
  rw [procFsReadBlk, withHand_open ht hslot' hhand]
  dsimp only
  rw [if_neg fun h => h.2.1 hfile, readAtPosition_fin, hread, htables]

end Desc

/-! ## A small file -/

/-- A file of 16 bytes at `0x10000`. -/
def oneFile : FsState :=
  sampleRoot.st.setFile 32
    { blankFile with length := 16, info := 0x10000, ops := .initrd, flags := fsFile }

theorem initrd_reads_end : ReadsExactly oneFile UInt8.ofNat 32 10 100 0x20000 :=
  (initrd_read_exact_iff (by decide) (by decide) (by decide) (by decide) (by decide)
    fun j _ hin => absurd hin.1 (by
      have : readCount (oneFile.files 32).length 10 100 = 6 := rfl
      have : (oneFile.files 32).info = 0x10000 := rfl
      omega)).mpr (.inr (by decide))

theorem initrd_reads_behind_end :
    ¬ ReadsExactly oneFile UInt8.ofNat 32 1 0xFFFFFFFF 0x20000 :=
  initrdRead_wraps (by decide) (by decide) (by decide) (by decide) (by decide) (by decide)

end LambdaOs
