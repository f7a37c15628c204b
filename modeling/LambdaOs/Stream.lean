import LambdaOs.Cbuff

/-!
# Stream files

`fs/stream.c`: a file over a circular buffer, read and written through
handles. `_read` and `_write` are loops over `cbuff_get` and `cbuff_put` that
stop when these refuse, so a write takes the prefix that fits and a read what
there is. The bytes accepted so far are the bytes returned so far and then
those in the buffer, which every call keeps (`streamStep_flow`).
-/

namespace LambdaOs

/-! ## The file -/

/-- What a stream uses of its `kfile_t`: the buffer at `info`, and `length`. -/
structure StreamFile where
  info : Cbuff
  length : Nat
deriving Repr, DecidableEq

/-- The memory of the buffer is not cleared: `junk` is what it holds. -/
def streamCreate (length : Int) (junk : Nat → UInt8) : Option StreamFile :=
  if length < 1 then none
  else
    let n := length.toNat
    some ⟨⟨0, 0, n, some ((List.range n).map junk)⟩, 0⟩

/-- The loop of `_read`, with `sz - count` bytes to go: the buffer and the bytes
stored. -/
def streamReadLoop : Nat → Cbuff → Cbuff × List UInt8
  | 0, b => (b, [])
  | left + 1, b =>
      let r := cbuffGet b
      if r.2 ≥ 0 then
        let rest := streamReadLoop left r.1
        (rest.1, UInt8.ofNat r.2.toNat :: rest.2)
      else (r.1, [])

/-- The loop of `_write`: the buffer and the number of bytes put. -/
def streamWriteLoop : List UInt8 → Cbuff → Cbuff × Nat
  | [], b => (b, 0)
  | d :: ds, b =>
      let r := cbuffPut d b
      if r.2 ≥ 0 then
        let rest := streamWriteLoop ds r.1
        (rest.1, rest.2 + 1)
      else (r.1, 0)

def streamRead (sz : Nat) (f : StreamFile) : StreamFile × Int × List UInt8 :=
  let r := streamReadLoop sz f.info
  let count := r.2.length
  (⟨r.1, u32 (f.length + 4294967296 - count)⟩, count, r.2)

def streamWrite (buff : List UInt8) (f : StreamFile) : StreamFile × Int × List UInt8 :=
  let r := streamWriteLoop buff f.info
  (⟨r.1, u32 (f.length + r.2)⟩, r.2, [])

/-! ## Handles -/

/-- A handle of the stream: whether it is open, and whether `_open` has given
it its operations and the file. -/
structure StreamHand where
  isOpen : Bool
  hasOps : Bool
deriving Repr, DecidableEq

structure StreamState where
  file : StreamFile
  hands : Nat → StreamHand

inductive StreamAct where
  | openHand (h : Nat)
  | closeHand (h : Nat)
  | read (h sz : Nat)
  | write (h : Nat) (buff : List UInt8)
deriving Repr, DecidableEq

/-- `fs_open`, `fs_close`, `fs_read` and `fs_write` of a handle: the new state,
the result and the bytes stored. A handle keeps its operations when it is
closed. -/
def streamStep (s : StreamState) : StreamAct → StreamState × Int × List UInt8
  | .openHand h =>
      if (s.hands h).isOpen then (s, -EINVAL, [])
      else ({ s with hands := Function.update s.hands h ⟨true, true⟩ }, 0, [])
  | .closeHand h =>
      ({ s with hands := Function.update s.hands h { s.hands h with isOpen := false } }, 0, [])
  | .read h sz =>
      if (s.hands h).hasOps then
        let r := streamRead sz s.file
        ({ s with file := r.1 }, r.2)
      else (s, 0, [])
  | .write h buff =>
      if (s.hands h).hasOps then
        let r := streamWrite buff s.file
        ({ s with file := r.1 }, r.2)
      else (s, 0, [])

/-- Nobody has opened the file yet. -/
def streamStart (f : StreamFile) : StreamState := ⟨f, fun _ => ⟨false, false⟩⟩

/-- The bytes that the writes of a run accepted, in order: of each its prefix of
the length that it returned. -/
def accepted : List StreamAct → List (Int × List UInt8) → List UInt8
  | .write _ buff :: as, r :: rs => buff.take r.1.toNat ++ accepted as rs
  | _ :: as, _ :: rs => accepted as rs
  | _, _ => []

/-- The bytes that the reads of a run returned, in order. -/
def returned (rs : List (Int × List UInt8)) : List UInt8 := (rs.map Prod.snd).flatten

/-! ## The loops -/

section Loops

variable {b : Cbuff}

theorem streamReadLoop_spec (left : Nat) (h : CbuffInv b) :
    CbuffInv (streamReadLoop left b).1 ∧ (streamReadLoop left b).1.size = b.size ∧
      (streamReadLoop left b).2 = b.contents.take left ∧
      (streamReadLoop left b).1.contents = b.contents.drop left := by
  induction left generalizing b with
  | zero => exact ⟨h, rfl, by simp [streamReadLoop], by simp [streamReadLoop]⟩
  | succ left ih =>
    by_cases hempty : b.count = 0
    · have hnil : b.contents = [] := List.eq_nil_of_length_eq_zero (by rw [contents_length, hempty])
      have heq : streamReadLoop (left + 1) b = (b, []) := by
        simp only [streamReadLoop, cbuffGet_empty h hempty]
        exact if_neg (by decide)
      rw [heq]
      exact ⟨h, rfl, by rw [hnil]; rfl, by rw [hnil]; rfl⟩
    · obtain ⟨d, hret, hinv, hsize, hget⟩ := cbuffGet_some h hempty
      obtain ⟨hinv', hsize', hbytes, hrest⟩ := ih hinv
      have heq : streamReadLoop (left + 1) b = ((streamReadLoop left (cbuffGet b).1).1,
          d :: (streamReadLoop left (cbuffGet b).1).2) := by
        simp only [streamReadLoop, hret, Int.toNat_natCast, UInt8.ofNat_toNat]
        exact if_pos (Int.natCast_nonneg _)
      rw [heq, hget]
      exact ⟨hinv', hsize'.trans hsize, by rw [hbytes]; rfl, hrest⟩

theorem streamWriteLoop_spec (ds : List UInt8) (h : CbuffInv b) :
    CbuffInv (streamWriteLoop ds b).1 ∧ (streamWriteLoop ds b).1.size = b.size ∧
      (streamWriteLoop ds b).2 = min ds.length (b.size - b.count) ∧
      (streamWriteLoop ds b).1.contents =
        b.contents ++ ds.take (min ds.length (b.size - b.count)) := by
  induction ds generalizing b with
  | nil => exact ⟨h, rfl, by simp [streamWriteLoop], by simp [streamWriteLoop]⟩
  | cons d ds ih =>
    have hcount := h.count_le
    by_cases hfull : b.count = b.size
    · have heq : streamWriteLoop (d :: ds) b = (b, 0) := by
        simp only [streamWriteLoop, cbuffPut_full h hfull]
        exact if_neg (by decide)
      have hmin : min (d :: ds).length (b.size - b.count) = 0 := by omega
      rw [heq, hmin]
      exact ⟨h, rfl, rfl, by simp⟩
    · obtain ⟨hret, hinv, hsize, hput⟩ := cbuffPut_room h (by omega) d
      obtain ⟨hinv', hsize', hnum, hrest⟩ := ih hinv
      have hone : (cbuffPut d b).1.count = b.count + 1 := by
        rw [← contents_length, hput]
        simp
      have hmin : min (d :: ds).length (b.size - b.count) =
          min ds.length ((cbuffPut d b).1.size - (cbuffPut d b).1.count) + 1 := by
        rw [hsize, hone, List.length_cons]
        omega
      have heq : streamWriteLoop (d :: ds) b = ((streamWriteLoop ds (cbuffPut d b).1).1,
          (streamWriteLoop ds (cbuffPut d b).1).2 + 1) := by
        simp only [streamWriteLoop, hret]
        exact if_pos (by decide)
      rw [heq, hmin]
      refine ⟨hinv', hsize'.trans hsize, by rw [hnum], ?_⟩
      rw [hrest, hput, List.take_succ_cons, List.append_assoc]
      rfl

end Loops

/-! ## The calls -/

/-- The buffer of a stream of `n` bytes, and its length field. -/
structure StreamInv (n : Nat) (s : StreamState) : Prop where
  buffer : CbuffInv s.file.info
  size : s.file.info.size = n
  length : s.file.length = s.file.info.count

/-- The bytes that one call accepted. -/
def acceptedOf (a : StreamAct) (r : Int × List UInt8) : List UInt8 :=
  match a with
  | .write _ buff => buff.take r.1.toNat
  | _ => []

theorem accepted_cons (a : StreamAct) (as : List StreamAct) (r : Int × List UInt8)
    (rs : List (Int × List UInt8)) :
    accepted (a :: as) (r :: rs) = acceptedOf a r ++ accepted as rs := by
  cases a <;> rfl

section Calls

variable {n : Nat} {s : StreamState}

theorem streamRead_flow (h : StreamInv n s) (sz : Nat) :
    StreamInv n { s with file := (streamRead sz s.file).1 } ∧
      s.file.info.contents =
        (streamRead sz s.file).2.2 ++ (streamRead sz s.file).1.info.contents := by
  obtain ⟨hinv, hsize, hbytes, hrest⟩ := streamReadLoop_spec sz h.buffer
  have hsmall := h.buffer.small
  have hcount := h.buffer.count_le
  have hleft : (streamReadLoop sz s.file.info).1.count = s.file.info.count - sz := by
    rw [← contents_length, hrest, List.length_drop, contents_length]
  have hread : (streamReadLoop sz s.file.info).2.length = min sz s.file.info.count := by
    rw [hbytes, List.length_take, contents_length]
  refine ⟨⟨hinv, hsize.trans h.size, ?_⟩, ?_⟩
  · change u32 (s.file.length + 4294967296 - (streamReadLoop sz s.file.info).2.length) =
      (streamReadLoop sz s.file.info).1.count
    rw [hread, hleft, h.length]
    unfold u32
    omega
  · change s.file.info.contents = (streamReadLoop sz s.file.info).2 ++
      (streamReadLoop sz s.file.info).1.contents
    rw [hbytes, hrest, List.take_append_drop]

theorem streamWrite_flow (h : StreamInv n s) (buff : List UInt8) :
    StreamInv n { s with file := (streamWrite buff s.file).1 } ∧
      (streamWrite buff s.file).2 = (((min buff.length (n - s.file.length) : Nat) : Int), []) ∧
      (streamWrite buff s.file).1.info.contents =
        s.file.info.contents ++ buff.take (min buff.length (n - s.file.length)) := by
  obtain ⟨hinv, hsize, hnum, hrest⟩ := streamWriteLoop_spec buff h.buffer
  have hsmall := h.buffer.small
  have hcount := h.buffer.count_le
  rw [h.size, ← h.length] at hnum hrest
  have hmore : (streamWriteLoop buff s.file.info).1.count =
      s.file.info.count + min buff.length (n - s.file.length) := by
    rw [← contents_length, hrest, List.length_append, contents_length, List.length_take]
    omega
  have hle := hinv.count_le
  refine ⟨⟨hinv, hsize.trans h.size, ?_⟩, ?_, hrest⟩
  · change u32 (s.file.length + (streamWriteLoop buff s.file.info).2) =
      (streamWriteLoop buff s.file.info).1.count
    have hlen := h.length
    rw [hnum, hmore, hlen, u32_of_lt]
    omega
  · change (((streamWriteLoop buff s.file.info).2 : Int), ([] : List UInt8)) = _
    rw [hnum]

/-- The invariant does not look at the handles. -/
theorem StreamInv.of_file_eq {s' : StreamState} (h : StreamInv n s) (hfile : s'.file = s.file) :
    StreamInv n s' :=
  ⟨hfile ▸ h.buffer, hfile ▸ h.size, hfile ▸ h.length⟩

/-- What was in the buffer and what a call accepted is what it returned and what
is in the buffer then. -/
theorem streamStep_flow (h : StreamInv n s) (a : StreamAct) :
    StreamInv n (streamStep s a).1 ∧
      s.file.info.contents ++ acceptedOf a (streamStep s a).2 =
        (streamStep s a).2.2 ++ (streamStep s a).1.file.info.contents := by
  cases a with
  | openHand hd =>
    simp only [streamStep, acceptedOf, List.append_nil]
    split
    · exact ⟨h, rfl⟩
    · exact ⟨h.of_file_eq rfl, rfl⟩
  | closeHand hd => exact ⟨h.of_file_eq rfl, List.append_nil _⟩
  | read hd sz =>
    simp only [streamStep, acceptedOf, List.append_nil]
    split
    · exact streamRead_flow h sz
    · exact ⟨h, rfl⟩
  | write hd buff =>
    simp only [streamStep, acceptedOf]
    split
    · obtain ⟨hinv, hret, hrest⟩ := streamWrite_flow h buff
      refine ⟨hinv, ?_⟩
      rw [hrest, hret, Int.toNat_natCast, List.nil_append]
    · exact ⟨h, List.append_nil _⟩

theorem execOut_flow (h : StreamInv n s) (acts : List StreamAct) :
    StreamInv n (execOut streamStep s acts).1 ∧
      s.file.info.contents ++ accepted acts (execOut streamStep s acts).2 =
        returned (execOut streamStep s acts).2 ++
          (execOut streamStep s acts).1.file.info.contents := by
  induction acts generalizing s with
  | nil => exact ⟨h, List.append_nil _⟩
  | cons a acts ih =>
    obtain ⟨hinv, hflow⟩ := streamStep_flow h a
    obtain ⟨hlast, hrest⟩ := ih hinv
    refine ⟨hlast, ?_⟩
    simp only [execOut, accepted_cons, returned, List.map_cons, List.flatten_cons] at hrest ⊢
    rw [← List.append_assoc, hflow, List.append_assoc, hrest, List.append_assoc]

end Calls

theorem streamCreate_inv {n : Int} (hn : n < 2147483648) {junk : Nat → UInt8} {f : StreamFile}
    (hf : streamCreate n junk = some f) :
    1 ≤ n ∧ StreamInv n.toNat (streamStart f) ∧ f.info.contents = [] := by
  unfold streamCreate at hf
  split at hf
  · cases hf
  · obtain rfl := Option.some.inj hf
    refine ⟨by omega, ⟨⟨?_, ?_, ?_, Nat.zero_le _, _, rfl, ?_⟩, rfl, rfl⟩, rfl⟩
    · change 1 ≤ n.toNat
      omega
    · change n.toNat ≤ 2147483648
      omega
    · change 0 < n.toNat
      omega
    · rw [List.length_map, List.length_range]
      rfl

/-- **A stream loses, duplicates and reorders nothing.** After every run the
length is the number of bytes in the buffer; what was accepted is what was
returned and then what is in the buffer; and a write takes the longest prefix
that fits. -/
theorem stream_keeps_bytes {n : Int} (hn : n < 2147483648) {junk : Nat → UInt8}
    {f : StreamFile} (hf : streamCreate n junk = some f) (acts : List StreamAct) :
    let r := execOut streamStep (streamStart f) acts
    r.1.file.length = r.1.file.info.contents.length ∧ (r.1.file.length : Int) ≤ n ∧
      returned r.2 ++ r.1.file.info.contents = accepted acts r.2 ∧
      ∀ h buff, (r.1.hands h).hasOps = true →
        let k := min buff.length (n.toNat - r.1.file.length)
        (streamStep r.1 (.write h buff)).2.1 = k ∧
          (streamStep r.1 (.write h buff)).1.file.info.contents =
            r.1.file.info.contents ++ buff.take k := by
  obtain ⟨hpos, hstart, hnil⟩ := streamCreate_inv hn hf
  obtain ⟨hinv, hflow⟩ := execOut_flow hstart acts
  refine ⟨by rw [hinv.length, contents_length], ?_, ?_, ?_⟩
  · have hle := hinv.buffer.count_le
    rw [← hinv.length, hinv.size] at hle
    omega
  · have hempty : (streamStart f).file.info.contents = [] := hnil
    rw [← hflow, hempty, List.nil_append]
  · intro h buff hops
    obtain ⟨-, hret, hrest⟩ := streamWrite_flow hinv buff
    simp only [streamStep, if_pos hops]
    exact ⟨congrArg Prod.fst hret, hrest⟩

/-- Two handles of a stream of three bytes: a write that is cut off, and reads
across the end of the buffer. -/
theorem stream_keeps_bytes_three :
    ∃ f, streamCreate 3 (fun _ => 170) = some f ∧
      let acts := [.openHand 0, .openHand 1, .write 0 [1, 2, 255, 4], .read 1 2, .write 1 [5],
        .read 0 9]
      let r := execOut streamStep (streamStart f) acts
      returned r.2 = [1, 2, 255, 5] ∧ returned r.2 ++ r.1.file.info.contents = accepted acts r.2 :=
  ⟨_, rfl, by decide, (stream_keeps_bytes (n := 3) (by decide) rfl _).2.2.1⟩

end LambdaOs
