import Mathlib.Algebra.Ring.Nat
import Mathlib.Data.List.Basic

/-!
# Records in a byte queue

Records of one length, written to a queue of bytes one after the other and read
from it byte by byte. The bytes that a reader has taken of a record, and those
that are still in the queue, are together the records that have not been read to
their end (`Holds`), whatever is written in between.
-/

namespace LambdaOs

/-! ## Numbers -/

/-- The `n` low bytes of a number, the lowest first. -/
def leBytes : Nat → Nat → List UInt8
  | 0, _ => []
  | n + 1, v => UInt8.ofNat v :: leBytes n (v / 256)

def ofLeBytes : List UInt8 → Nat
  | [] => 0
  | b :: bs => b.toNat + 256 * ofLeBytes bs

@[simp] theorem leBytes_length (n v : Nat) : (leBytes n v).length = n := by
  induction n generalizing v with
  | zero => rfl
  | succ n ih => rw [leBytes, List.length_cons, ih]

theorem ofLeBytes_leBytes {n v : Nat} (h : v < 256 ^ n) : ofLeBytes (leBytes n v) = v := by
  induction n generalizing v with
  | zero => exact (Nat.lt_one_iff.mp h).symm
  | succ n ih =>
      have hdiv : v / 256 < 256 ^ n := Nat.div_lt_of_lt_mul (by rwa [Nat.pow_succ'] at h)
      have hlow : (UInt8.ofNat v).toNat = v % 256 := by simp
      rw [leBytes, ofLeBytes, ih hdiv, hlow]
      omega

/-! ## Records -/

variable {ρ β : Type*}

/-- Records of `size` bytes each. -/
structure RecordCodec (ρ β : Type*) where
  size : Nat
  size_pos : 0 < size
  encode : ρ → List β
  decode : List β → ρ
  length_encode : ∀ r, (encode r).length = size
  decode_encode : ∀ r, decode (encode r) = r

namespace RecordCodec

variable {C : RecordCodec ρ β} {taken bytes : List β} {rs : List ρ}

variable (C) in
/-- The bytes `taken` from the queue and the `bytes` in it are the records `rs`. -/
def Holds (taken bytes : List β) (rs : List ρ) : Prop := taken ++ bytes = rs.flatMap C.encode

theorem Holds.nil : C.Holds [] [] [] := rfl

theorem Holds.length (h : C.Holds taken bytes rs) :
    taken.length + bytes.length = rs.length * C.size := by
  have hlen := congrArg List.length h
  rw [List.length_append, List.length_flatMap] at hlen
  simpa [C.length_encode] using hlen

/-- A record is written. -/
theorem Holds.write (h : C.Holds taken bytes rs) (r : ρ) :
    C.Holds taken (bytes ++ C.encode r) (rs ++ [r]) := by
  rw [Holds, ← List.append_assoc, h, List.flatMap_append, List.flatMap_singleton]

/-- A byte is read. -/
theorem Holds.read {b : β} (h : C.Holds taken (b :: bytes) rs) :
    C.Holds (taken ++ [b]) bytes rs := by
  rw [Holds, List.append_assoc]
  exact h

/-- A reader that has not got the whole record finds another byte. -/
theorem Holds.exists_byte (h : C.Holds taken bytes rs) (hrs : rs ≠ [])
    (hshort : taken.length < C.size) : ∃ b bytes', bytes = b :: bytes' := by
  cases bytes with
  | cons b bytes' => exact ⟨b, bytes', rfl⟩
  | nil =>
      have hlen := h.length
      have hpos : 0 < rs.length := List.length_pos_of_ne_nil hrs
      have hle : C.size ≤ rs.length * C.size := Nat.le_mul_of_pos_left _ hpos
      rw [List.length_nil] at hlen
      omega

/-- The record that has been read to its end is the first. -/
theorem Holds.last (h : C.Holds taken bytes rs) (hfull : taken.length = C.size) :
    ∃ rs', rs = C.decode taken :: rs' ∧ C.Holds [] bytes rs' := by
  cases rs with
  | nil =>
      have hlen := h.length
      have hpos := C.size_pos
      rw [List.length_nil, Nat.zero_mul] at hlen
      omega
  | cons r rs' =>
      obtain ⟨htaken, hbytes⟩ :=
        List.append_inj (h.trans List.flatMap_cons) (hfull.trans (C.length_encode r).symm)
      exact ⟨rs', by rw [htaken, C.decode_encode], hbytes⟩

/-- A queue for `cap` records has room for one more as long as it holds less,
the one counted that is being read. -/
theorem Holds.room_iff (h : C.Holds taken bytes rs) (hshort : taken.length < C.size) (cap : Nat) :
    bytes.length + C.size ≤ cap * C.size ↔ rs.length < cap := by
  have hlen := h.length
  constructor
  · intro hroom
    by_contra hge
    have hmul : cap * C.size ≤ rs.length * C.size := Nat.mul_le_mul_right _ (Nat.le_of_not_lt hge)
    omega
  · intro hlt
    have hmul : (rs.length + 1) * C.size ≤ cap * C.size := Nat.mul_le_mul_right _ hlt
    rw [Nat.add_mul, Nat.one_mul] at hmul
    omega

/-- There is a whole record in the queue as long as there is one at all. -/
theorem Holds.whole_iff (h : C.Holds [] bytes rs) : C.size ≤ bytes.length ↔ rs ≠ [] := by
  have hlen := h.length
  rw [List.length_nil, Nat.zero_add] at hlen
  have hpos := C.size_pos
  cases rs with
  | nil =>
      rw [List.length_nil, Nat.zero_mul] at hlen
      simp only [ne_eq, not_true_eq_false, iff_false]
      omega
  | cons r rs' =>
      have hle : C.size ≤ (r :: rs').length * C.size := Nat.le_mul_of_pos_left _ (Nat.succ_pos _)
      simp only [ne_eq, reduceCtorEq, not_false_eq_true, iff_true]
      omega

end RecordCodec

end LambdaOs
