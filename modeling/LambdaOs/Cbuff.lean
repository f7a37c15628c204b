import LambdaOs.Errno
import LambdaOs.Run
import LambdaOs.Window
import LambdaOs.Word

/-!
# The circular buffer

`data/cbuff.c`. The bytes of a buffer are the cells of a ring, and `begin` and
`count` a window of it, so that `cbuff_put` widens the window and `cbuff_get`
moves its front on. The two loops over single bytes are checked for room
before they start, so that they never stop half way (`cbuffWrite_eq`,
`cbuffRead_eq`). A buffer is then the queue of its window
(`cbuff_refines_fifo`).
-/

namespace LambdaOs

/-! ## The operations -/

/-- `cbuff_t`; the fields are 32 bits wide, and `buff` may be `NULL`. -/
structure Cbuff where
  begin : Nat
  count : Nat
  size : Nat
  buff : Option (List UInt8)
deriving Repr, DecidableEq

/-- The macro `WRAP`. -/
def wrap (n m : Nat) : Nat := if n ≥ m then n - m else n

def cbuffPut (data : UInt8) (b : Cbuff) : Cbuff × Int :=
  match b.buff with
  | none => (b, -EINVAL)
  | some cells =>
      if b.count ≥ b.size then (b, -ENOMEM)
      else
        ({ b with
            buff := some (cells.set (wrap (u32 (b.begin + b.count)) b.size) data)
            count := u32 (b.count + 1) }, 0)

def cbuffGet (b : Cbuff) : Cbuff × Int :=
  match b.buff with
  | none => (b, -EINVAL)
  | some cells =>
      if b.count = 0 then (b, -ENOMEM)
      else
        let d := cells.getD b.begin 0
        ({ b with
            begin := wrap (u32 (b.begin + 1)) b.size
            count := b.count - 1 }, d.toNat)

/-- The loop of `cbuff_write`. -/
def cbuffWriteLoop : List UInt8 → Cbuff → Cbuff × Int
  | [], b => (b, 0)
  | d :: ds, b =>
      let r := cbuffPut d b
      if r.2 ≠ 0 then r else cbuffWriteLoop ds r.1

/-- `data` is what the pointer leads to, `size` bytes of it, or `NULL`. -/
def cbuffWrite (data : Option (List UInt8)) (b : Cbuff) : Cbuff × Int :=
  match data with
  | none => (b, -EINVAL)
  | some data =>
      if b.buff = none then (b, -EINVAL)
      else if data.length > u32 (b.size + 4294967296 - b.count) then (b, -ENOMEM)
      else cbuffWriteLoop data b

/-- The loop of `cbuff_read`: what it returns, and the bytes stored. -/
def cbuffReadLoop : Nat → Cbuff → Cbuff × Int × List UInt8
  | 0, b => (b, 0, [])
  | size + 1, b =>
      let r := cbuffGet b
      let err := (r.2 % 4294967296).toNat
      if err &&& 0xFFFFFF00 ≠ 0 then (r.1, r.2, [])
      else
        let rest := cbuffReadLoop size r.1
        (rest.1, rest.2.1, UInt8.ofNat err :: rest.2.2)

/-- `size` is the number of bytes to store, unless the pointer is `NULL`. -/
def cbuffRead (size : Option Nat) (b : Cbuff) : Cbuff × Int × List UInt8 :=
  match size with
  | none => (b, -EINVAL, [])
  | some size =>
      if b.buff = none then (b, -EINVAL, [])
      else if size > b.count then (b, -ENODATA, [])
      else cbuffReadLoop size b

/-! ## Buffers in use -/

/-- A buffer with its cells, whose window lies in it. -/
structure CbuffInv (b : Cbuff) : Prop where
  pos : 1 ≤ b.size
  small : b.size ≤ 2147483648
  begin_lt : b.begin < b.size
  count_le : b.count ≤ b.size
  cells : ∃ cells, b.buff = some cells ∧ cells.length = b.size

/-- The bytes from `begin` on, around the buffer. -/
def Cbuff.contents (b : Cbuff) : List UInt8 :=
  (List.range b.count).map fun i => (b.buff.getD []).getD ((b.begin + i) % b.size) 0

theorem contents_eq_window {b : Cbuff} (h : CbuffInv b) {cells : List UInt8}
    (hc : b.buff = some cells) (hlen : cells.length = b.size) :
    b.contents = window cells b.begin b.count := by
  have hle : b.count ≤ cells.length := hlen ▸ h.count_le
  refine List.ext_getElem? ?_
  intro i
  by_cases hi : i < b.count
  · have hlt : (b.begin + i) % cells.length < cells.length :=
      Nat.mod_lt _ (hlen ▸ h.pos)
    rw [window_getElem? hi hle, Cbuff.contents, List.getElem?_map, List.getElem?_range hi, hc,
      ← hlen, List.getElem?_eq_getElem hlt]
    simp only [Option.map_some, Option.getD_some, List.getD_eq_getElem?_getD,
      List.getElem?_eq_getElem hlt]
  · rw [List.getElem?_eq_none (by simpa [Cbuff.contents] using hi),
      List.getElem?_eq_none (by rw [window_length hle]; omega)]

@[simp] theorem contents_length (b : Cbuff) : b.contents.length = b.count := by
  simp [Cbuff.contents]

/-- One conditional subtraction wraps a sum of two indices. -/
theorem wrap_eq_mod {n m : Nat} (h : n < 2 * m) : wrap n m = n % m := by
  unfold wrap
  split
  · rename_i hge
    rw [Nat.mod_eq_sub_mod hge, Nat.mod_eq_of_lt (by omega)]
  · rw [Nat.mod_eq_of_lt (by omega)]

section Single

variable {b : Cbuff}

theorem cbuffPut_full (h : CbuffInv b) (hfull : b.count = b.size) (d : UInt8) :
    cbuffPut d b = (b, -ENOMEM) := by
  obtain ⟨cells, hc, -⟩ := h.cells
  simp only [cbuffPut, hc, if_pos (Nat.le_of_eq hfull.symm)]

theorem cbuffPut_room (h : CbuffInv b) (hroom : b.count < b.size) (d : UInt8) :
    (cbuffPut d b).2 = 0 ∧ CbuffInv (cbuffPut d b).1 ∧ (cbuffPut d b).1.size = b.size ∧
      (cbuffPut d b).1.contents = b.contents ++ [d] := by
  obtain ⟨cells, hc, hlen⟩ := h.cells
  have hsmall := h.small
  have hbegin := h.begin_lt
  have hidx : wrap (u32 (b.begin + b.count)) b.size = (b.begin + b.count) % b.size := by
    rw [u32_of_lt (by omega), wrap_eq_mod (by omega)]
  have heq : cbuffPut d b = ({ b with
      buff := some (cells.set ((b.begin + b.count) % b.size) d), count := b.count + 1 }, 0) := by
    simp only [cbuffPut, hc, if_neg (Nat.not_le.mpr hroom), hidx]
    rw [u32_of_lt (by omega)]
  have hinv : CbuffInv { b with
      buff := some (cells.set ((b.begin + b.count) % b.size) d), count := b.count + 1 } :=
    ⟨h.pos, h.small, h.begin_lt, hroom, _, rfl, by rw [List.length_set, hlen]⟩
  rw [heq]
  refine ⟨rfl, hinv, rfl, ?_⟩
  rw [contents_eq_window hinv rfl (by rw [List.length_set, hlen]),
    contents_eq_window h hc hlen]
  have hpush := window_push b.begin (hlen ▸ hroom) d
  rwa [hlen] at hpush

theorem cbuffGet_empty (h : CbuffInv b) (hempty : b.count = 0) : cbuffGet b = (b, -ENOMEM) := by
  obtain ⟨cells, hc, -⟩ := h.cells
  simp only [cbuffGet, hc, if_pos hempty]

theorem cbuffGet_some (h : CbuffInv b) (hsome : b.count ≠ 0) :
    ∃ d, (cbuffGet b).2 = d.toNat ∧ CbuffInv (cbuffGet b).1 ∧ (cbuffGet b).1.size = b.size ∧
      b.contents = d :: (cbuffGet b).1.contents := by
  obtain ⟨cells, hc, hlen⟩ := h.cells
  have hsmall := h.small
  have hbegin := h.begin_lt
  have hcount := h.count_le
  have hidx : wrap (u32 (b.begin + 1)) b.size = (b.begin + 1) % b.size := by
    rw [u32_of_lt (by omega), wrap_eq_mod (by omega)]
  have heq : cbuffGet b = ({ b with
      begin := (b.begin + 1) % b.size, count := b.count - 1 },
      ((cells.getD b.begin 0).toNat : Int)) := by
    simp only [cbuffGet, hc, if_neg hsome, hidx]
  have hinv : CbuffInv { b with begin := (b.begin + 1) % b.size, count := b.count - 1 } :=
    ⟨h.pos, h.small, Nat.mod_lt _ h.pos, by change b.count - 1 ≤ b.size; omega, cells, hc, hlen⟩
  obtain ⟨n, hn⟩ := Nat.exists_eq_succ_of_ne_zero hsome
  have hlast : n < cells.length := by omega
  obtain ⟨x, hx, hpop⟩ := window_pop b.begin hlast
  rw [hlen, Nat.mod_eq_of_lt hbegin] at hx
  rw [heq]
  refine ⟨x, ?_, hinv, rfl, ?_⟩
  · rw [List.getD_eq_getElem?_getD, hx, Option.getD_some]
  · rw [contents_eq_window h hc hlen, contents_eq_window hinv hc hlen, hn, hpop, hlen]
    rfl

end Single

/-! ## The loops -/

section Bulk

variable {b : Cbuff}

theorem cbuffWriteLoop_spec {ds : List UInt8} (h : CbuffInv b)
    (hroom : b.count + ds.length ≤ b.size) :
    (cbuffWriteLoop ds b).2 = 0 ∧ CbuffInv (cbuffWriteLoop ds b).1 ∧
      (cbuffWriteLoop ds b).1.size = b.size ∧
      (cbuffWriteLoop ds b).1.contents = b.contents ++ ds := by
  induction ds generalizing b with
  | nil => exact ⟨rfl, h, rfl, (List.append_nil _).symm⟩
  | cons d ds ih =>
    rw [List.length_cons] at hroom
    obtain ⟨hret, hinv, hsize, hput⟩ := cbuffPut_room h (by omega) d
    have hcount : (cbuffPut d b).1.count = b.count + 1 := by
      rw [← contents_length, hput]
      simp
    have heq : cbuffWriteLoop (d :: ds) b = cbuffWriteLoop ds (cbuffPut d b).1 := by
      rw [cbuffWriteLoop]
      exact if_neg (not_not.mpr hret)
    obtain ⟨hret', hinv', hsize', hrest⟩ := ih hinv (by omega)
    rw [heq]
    exact ⟨hret', hinv', hsize'.trans hsize, by rw [hrest, hput, List.append_assoc]; rfl⟩

/-- A byte has no bits that an error has. -/
theorem byte_not_error (d : UInt8) :
    (((d.toNat : Int) % 4294967296).toNat &&& 0xFFFFFF00) = 0 ∧
      UInt8.ofNat ((d.toNat : Int) % 4294967296).toNat = d := by
  have hlt : d.toNat < 256 := d.toNat_lt
  have hmod : ((d.toNat : Int) % 4294967296).toNat = d.toNat := by omega
  have hmask : ∀ n < 256, n &&& 0xFFFFFF00 = 0 := by decide +kernel
  rw [hmod]
  exact ⟨hmask _ hlt, UInt8.ofNat_toNat⟩

theorem cbuffReadLoop_spec {n : Nat} (h : CbuffInv b) (hn : n ≤ b.count) :
    (cbuffReadLoop n b).2.1 = 0 ∧ CbuffInv (cbuffReadLoop n b).1 ∧
      (cbuffReadLoop n b).1.size = b.size ∧
      b.contents = (cbuffReadLoop n b).2.2 ++ (cbuffReadLoop n b).1.contents ∧
      (cbuffReadLoop n b).2.2.length = n := by
  induction n generalizing b with
  | zero => exact ⟨rfl, h, rfl, rfl, rfl⟩
  | succ n ih =>
    obtain ⟨d, hret, hinv, hsize, hget⟩ := cbuffGet_some h (by omega)
    have hcount : b.count = (cbuffGet b).1.count + 1 := by
      rw [← contents_length, hget, List.length_cons, contents_length]
    obtain ⟨hmask, hbyte⟩ := byte_not_error d
    have heq : cbuffReadLoop (n + 1) b = ((cbuffReadLoop n (cbuffGet b).1).1,
        (cbuffReadLoop n (cbuffGet b).1).2.1, d :: (cbuffReadLoop n (cbuffGet b).1).2.2) := by
      simp only [cbuffReadLoop, hret, hmask, hbyte, ne_eq, not_true_eq_false, if_false]
    obtain ⟨hret', hinv', hsize', hrest, hlen⟩ := ih hinv (by omega)
    rw [heq]
    refine ⟨hret', hinv', hsize'.trans hsize, ?_, by simp only [List.length_cons, hlen]⟩
    rw [hget, hrest]
    rfl

theorem cbuffWrite_spec (h : CbuffInv b) (ds : List UInt8) :
    if b.count + ds.length ≤ b.size then
      (cbuffWrite (some ds) b).2 = 0 ∧ CbuffInv (cbuffWrite (some ds) b).1 ∧
        (cbuffWrite (some ds) b).1.size = b.size ∧
        (cbuffWrite (some ds) b).1.contents = b.contents ++ ds
    else cbuffWrite (some ds) b = (b, -ENOMEM) := by
  obtain ⟨cells, hc, -⟩ := h.cells
  have hsmall := h.small
  have hcount := h.count_le
  have hleft : u32 (b.size + 4294967296 - b.count) = b.size - b.count := by
    unfold u32
    omega
  have hne : ¬ b.buff = none := by rw [hc]; nofun
  split
  · rename_i hroom
    have heq : cbuffWrite (some ds) b = cbuffWriteLoop ds b := by
      simp only [cbuffWrite, if_neg hne, hleft]
      exact if_neg (by omega)
    rw [heq]
    exact cbuffWriteLoop_spec h hroom
  · simp only [cbuffWrite, if_neg hne, hleft]
    exact if_pos (by omega)

theorem cbuffRead_spec (h : CbuffInv b) (n : Nat) :
    if n ≤ b.count then
      (cbuffRead (some n) b).2 = (0, b.contents.take n) ∧ CbuffInv (cbuffRead (some n) b).1 ∧
        (cbuffRead (some n) b).1.size = b.size ∧
        (cbuffRead (some n) b).1.contents = b.contents.drop n
    else cbuffRead (some n) b = (b, -ENODATA, []) := by
  obtain ⟨cells, hc, -⟩ := h.cells
  have hne : ¬ b.buff = none := by rw [hc]; nofun
  split
  · rename_i hn
    have heq : cbuffRead (some n) b = cbuffReadLoop n b := by
      simp only [cbuffRead, if_neg hne]
      exact if_neg (by omega)
    obtain ⟨hret, hinv, hsize, hcont, hlen⟩ := cbuffReadLoop_spec h hn
    rw [heq]
    refine ⟨Prod.ext hret ?_, hinv, hsize, ?_⟩
    · rw [hcont, List.take_left' hlen]
    · rw [hcont, List.drop_left' hlen]
  · simp only [cbuffRead, if_neg hne]
    exact if_pos (by omega)

end Bulk

/-! ## The queue -/

inductive CbuffOp where
  | put (data : UInt8)
  | get
  | write (data : List UInt8)
  | read (size : Nat)
deriving Repr, DecidableEq

/-- An operation returns a code, and `read` stores bytes. -/
def cbuffStep (b : Cbuff) : CbuffOp → Cbuff × Int × List UInt8
  | .put d => let r := cbuffPut d b; (r.1, r.2, [])
  | .get => let r := cbuffGet b; (r.1, r.2, [])
  | .write data => let r := cbuffWrite (some data) b; (r.1, r.2, [])
  | .read size => cbuffRead (some size) b

/-- What the operations do to a queue of at most `cap` bytes. -/
def fifoStep (cap : Nat) (q : List UInt8) : CbuffOp → List UInt8 × Int × List UInt8
  | .put d => if q.length + 1 ≤ cap then (q ++ [d], 0, []) else (q, -ENOMEM, [])
  | .get =>
      match q with
      | [] => ([], -ENOMEM, [])
      | d :: q => (q, d.toNat, [])
  | .write ds => if q.length + ds.length ≤ cap then (q ++ ds, 0, []) else (q, -ENOMEM, [])
  | .read n => if n ≤ q.length then (q.drop n, 0, q.take n) else (q, -ENODATA, [])

/-- There is room for all the bytes, or there are enough. -/
def CbuffOp.Fits (b : Cbuff) : CbuffOp → Prop
  | .put _ => b.count + 1 ≤ b.size
  | .get => 1 ≤ b.count
  | .write ds => b.count + ds.length ≤ b.size
  | .read n => n ≤ b.count

/-- The buffer holds the queue. -/
def HoldsFifo (cap : Nat) (b : Cbuff) (q : List UInt8) : Prop :=
  CbuffInv b ∧ b.size = cap ∧ b.contents = q

theorem cbuffStep_refines {cap : Nat} {b : Cbuff} {q : List UInt8} (h : HoldsFifo cap b q)
    (op : CbuffOp) :
    HoldsFifo cap (cbuffStep b op).1 (fifoStep cap q op).1 ∧
      (cbuffStep b op).2 = (fifoStep cap q op).2 := by
  obtain ⟨hinv, rfl, rfl⟩ := h
  have hcount := hinv.count_le
  cases op with
  | put d =>
    simp only [cbuffStep, fifoStep, contents_length]
    split
    · rename_i hroom
      obtain ⟨hret, hinv', hsize, hcont⟩ := cbuffPut_room hinv hroom d
      exact ⟨⟨hinv', hsize, hcont⟩, by rw [hret]⟩
    · rw [cbuffPut_full hinv (by omega)]
      exact ⟨⟨hinv, rfl, rfl⟩, rfl⟩
  | get =>
    simp only [cbuffStep, fifoStep]
    by_cases hempty : b.count = 0
    · have hnil : b.contents = [] := List.eq_nil_of_length_eq_zero (by rw [contents_length, hempty])
      rw [cbuffGet_empty hinv hempty, hnil]
      exact ⟨⟨hinv, rfl, hnil⟩, rfl⟩
    · obtain ⟨d, hret, hinv', hsize, hcont⟩ := cbuffGet_some hinv hempty
      rw [hcont]
      exact ⟨⟨hinv', hsize, rfl⟩, by rw [hret]⟩
  | write ds =>
    have hspec := cbuffWrite_spec hinv ds
    simp only [cbuffStep, fifoStep, contents_length]
    split
    · rename_i hroom
      rw [if_pos hroom] at hspec
      obtain ⟨hret, hinv', hsize, hcont⟩ := hspec
      exact ⟨⟨hinv', hsize, hcont⟩, by rw [hret]⟩
    · rename_i hroom
      rw [if_neg hroom] at hspec
      rw [hspec]
      exact ⟨⟨hinv, rfl, rfl⟩, rfl⟩
  | read n =>
    have hspec := cbuffRead_spec hinv n
    simp only [cbuffStep, fifoStep, contents_length]
    split
    · rename_i hn
      rw [if_pos hn] at hspec
      obtain ⟨hret, hinv', hsize, hcont⟩ := hspec
      exact ⟨⟨hinv', hsize, hcont⟩, hret⟩
    · rename_i hn
      rw [if_neg hn] at hspec
      rw [hspec]
      exact ⟨⟨hinv, rfl, rfl⟩, rfl⟩

/-- A refusal is about room, and changes nothing. -/
theorem cbuffStep_refused {b : Cbuff} (h : CbuffInv b) (op : CbuffOp) :
    ((cbuffStep b op).2.1 < 0 ↔ ¬ op.Fits b) ∧
      ((cbuffStep b op).2.1 < 0 → (cbuffStep b op).1 = b) := by
  have hcount := h.count_le
  cases op with
  | put d =>
    simp only [cbuffStep, CbuffOp.Fits]
    by_cases hroom : b.count + 1 ≤ b.size
    · rw [(cbuffPut_room h hroom d).1]
      simp [hroom]
    · rw [cbuffPut_full h (by omega)]
      simp [hroom, ENOMEM]
  | get =>
    simp only [cbuffStep, CbuffOp.Fits]
    by_cases hempty : b.count = 0
    · rw [cbuffGet_empty h hempty]
      simp [hempty, ENOMEM]
    · obtain ⟨d, hret, -⟩ := cbuffGet_some h hempty
      rw [hret]
      constructor <;> omega
  | write ds =>
    have hspec := cbuffWrite_spec h ds
    simp only [cbuffStep, CbuffOp.Fits]
    by_cases hroom : b.count + ds.length ≤ b.size
    · rw [if_pos hroom] at hspec
      rw [hspec.1]
      simp [hroom]
    · rw [if_neg hroom] at hspec
      rw [hspec]
      simp [hroom, ENOMEM]
  | read n =>
    have hspec := cbuffRead_spec h n
    simp only [cbuffStep, CbuffOp.Fits]
    by_cases hn : n ≤ b.count
    · rw [if_pos hn] at hspec
      rw [hspec.1]
      simp [hn]
    · rw [if_neg hn] at hspec
      rw [hspec]
      simp [hn, ENODATA]

/-- **The circular buffer is a bounded queue.** In every run the buffer returns
what the queue does and stays well formed; an operation is refused exactly
when it does not fit, and then nothing changes. -/
theorem cbuff_refines_fifo {b : Cbuff} (h : CbuffInv b) (ops : List CbuffOp) :
    let r := execOut cbuffStep b ops
    let q := execOut (fifoStep b.size) b.contents ops
    CbuffInv r.1 ∧ r.1.size = b.size ∧ r.1.contents = q.1 ∧ r.2 = q.2 ∧
      ∀ op, ((cbuffStep r.1 op).2.1 < 0 ↔ ¬ op.Fits r.1) ∧
        ((cbuffStep r.1 op).2.1 < 0 → (cbuffStep r.1 op).1 = r.1) := by
  obtain ⟨⟨hinv, hsize, hcont⟩, hout⟩ :=
    execOut_sim (R := HoldsFifo b.size) (fun _ _ op hold => cbuffStep_refines hold op)
      ops ⟨h, rfl, rfl⟩
  exact ⟨hinv, hsize, hcont, hout, cbuffStep_refused hinv⟩

/-- A buffer of four cells whose window goes around, with the byte `255`. -/
def wrappedCbuff : Cbuff := ⟨3, 2, 4, some [7, 0, 0, 255]⟩

theorem cbuff_refines_fifo_wrapped :
    (execOut cbuffStep wrappedCbuff [.write [1, 2, 3], .put 9, .get, .read 2, .get]).2 =
      [(-ENOMEM, []), (0, []), (255, []), (0, [7, 9]), (-ENOMEM, [])] := by
  have h : CbuffInv wrappedCbuff :=
    ⟨by decide, by decide, by decide, by decide, [7, 0, 0, 255], rfl, rfl⟩
  rw [(cbuff_refines_fifo h _).2.2.2.1]
  decide

end LambdaOs
