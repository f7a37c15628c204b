import LambdaOs.Fs

/-!
# Comparing strings and blocks

`strcmp`, `strncmp` and `memcmp` of the kernel (`std/string.c`) and `strcmp`
and `strncmp` of the user library. A pointer is the bytes that may be read from
it on; a read behind them gives `none`. (The `mm_check_addr` checks of the
strict builds pass for a pointer that may be read, and are left out.)

Each of the five returns the difference of the bytes at one position:
`byteDiff` is the one at the first position where the blocks differ. The
functions of the user library take it of plain `char`s, which are signed, and
`memcmp` looks from the end.
-/

namespace LambdaOs

/-- The bytes of a string with its terminator, and what lies behind it. -/
def CString.mem (s : CString) (past : List UInt8) : List UInt8 :=
  s.map Subtype.val ++ 0 :: past

@[simp] theorem CString.mem_nil (past : List UInt8) : CString.mem [] past = 0 :: past := rfl

@[simp] theorem CString.mem_cons (c : CChar) (s : CString) (past : List UInt8) :
    CString.mem (c :: s) past = c.val :: CString.mem s past := rfl

/-- The difference of two bytes read as `uint8_t`. -/
def uint8Diff (a b : UInt8) : Int := a.toNat - b.toNat

/-- The difference of two bytes read as `char`. -/
def charDiff (a b : UInt8) : Int := a.toInt8.toInt - b.toInt8.toInt

namespace KernelString

def strcmp : List UInt8 → List UInt8 → Option Int
  | a :: str1, b :: str2 =>
      if a ≠ 0 ∧ a = b then strcmp str1 str2 else some (uint8Diff a b)
  | _, _ => none

/-- `--num` of a 32-bit `size_t`. -/
def preDec (num : Nat) : Nat := if num = 0 then 2 ^ 32 - 1 else num - 1

def strncmp : List UInt8 → List UInt8 → Nat → Option Int
  | a :: str1, b :: str2, num =>
      if a ≠ 0 ∧ a = b ∧ preDec num ≠ 0 then strncmp str1 str2 (preDec num)
      else some (uint8Diff a b)
  | _, _, _ => none

def memcmp (s1 s2 : List UInt8) : Nat → Option Int
  | 0 => some 0
  | n + 1 => do
      let a ← s1[n]?
      let b ← s2[n]?
      if a ≠ b then return uint8Diff a b else memcmp s1 s2 n

end KernelString

namespace UserString

def strcmp : List UInt8 → List UInt8 → Option Int
  | a :: s, b :: t =>
      if a ≠ 0 ∧ b ≠ 0 then if a ≠ b then some (charDiff a b) else strcmp s t
      else some (charDiff a b)
  | _, _ => none

def strncmpLoop : List UInt8 → List UInt8 → Nat → Option Int
  | a :: s, b :: t, n =>
      if a ≠ 0 ∧ b ≠ 0 ∧ n - 1 ≠ 0 then
        if a ≠ b then some (charDiff a b) else strncmpLoop s t (n - 1)
      else some (charDiff a b)
  | _, _, _ => none

def strncmp (a b : List UInt8) (n : Nat) : Option Int :=
  if n = 0 then some 0 else strncmpLoop a b n

end UserString

/-! ## The first difference -/

/-- The bytes at the first position where two blocks differ. -/
def firstDiff (s t : List UInt8) : Option (UInt8 × UInt8) :=
  (s.zip t).find? fun p => p.1 ≠ p.2

def byteDiff (diff : UInt8 → UInt8 → Int) (s t : List UInt8) : Int :=
  match firstDiff s t with
  | none => 0
  | some (a, b) => diff a b

/-- The function reads nothing behind the two blocks, and the sign of what it
returns is that of the first difference. -/
def Compares (f : List UInt8 → List UInt8 → Option Int) (s t : List UInt8) : Prop :=
  ∃ r, (∀ p q, f (s ++ p) (t ++ q) = some r) ∧ r.sign = (byteDiff uint8Diff s t).sign

section Blocks

variable {diff : UInt8 → UInt8 → Int} {a b : UInt8} {s t : List UInt8}

@[simp] theorem firstDiff_nil : firstDiff [] t = none := rfl

theorem firstDiff_cons :
    firstDiff (a :: s) (b :: t) = if a = b then firstDiff s t else some (a, b) := by
  by_cases h : a = b <;> simp [firstDiff, h]

theorem ne_of_firstDiff (h : firstDiff s t = some (a, b)) : a ≠ b := by
  simpa using List.find?_some h

@[simp] theorem byteDiff_nil : byteDiff diff [] t = 0 := rfl

@[simp] theorem byteDiff_cons_self : byteDiff diff (a :: s) (a :: t) = byteDiff diff s t := by
  simp [byteDiff, firstDiff_cons]

theorem byteDiff_cons_of_ne (h : a ≠ b) : byteDiff diff (a :: s) (b :: t) = diff a b := by
  simp [byteDiff, firstDiff_cons, h]

theorem uint8Diff_eq_zero : uint8Diff a b = 0 ↔ a = b := by
  rw [uint8Diff, sub_eq_zero, Int.natCast_inj, UInt8.toNat_inj]

@[simp] theorem uint8Diff_self : uint8Diff a a = 0 := uint8Diff_eq_zero.mpr rfl

@[simp] theorem charDiff_self : charDiff a a = 0 := sub_self _

theorem toInt_toInt8 (a : UInt8) :
    a.toInt8.toInt = if a.toNat < 128 then (a.toNat : Int) else a.toNat - 256 := by
  have h : a.toInt8.toInt = a.toBitVec.toInt := rfl
  rw [h, BitVec.toInt_eq_toNat_cond, UInt8.toNat_toBitVec]
  split <;> split <;> omega

/-- The two readings order bytes alike on one side of 128. -/
theorem sign_charDiff (h : a ≠ b) :
    (charDiff a b).sign = (uint8Diff a b).sign ↔ (a < 128 ↔ b < 128) := by
  have hne : a.toNat ≠ b.toNat := fun he => h (UInt8.toNat_inj.mp he)
  have ha := a.toNat_lt
  have hb := b.toNat_lt
  have hlt (c : UInt8) : c < 128 ↔ c.toNat < 128 := UInt8.lt_iff_toNat_lt
  rw [hlt, hlt, charDiff, toInt_toInt8, toInt_toInt8, uint8Diff]
  rcases lt_or_gt_of_ne hne with hab | hab
  · rw [Int.sign_eq_neg_one_of_neg (a := (a.toNat : Int) - b.toNat) (by omega),
      Int.sign_eq_neg_one_iff_neg]
    split <;> split <;> omega
  · rw [Int.sign_eq_one_of_pos (a := (a.toNat : Int) - b.toNat) (by omega),
      Int.sign_eq_one_iff_pos]
    split <;> split <;> omega

theorem compares_iff {f : List UInt8 → List UInt8 → Option Int}
    (hf : ∀ p q, f (s ++ p) (t ++ q) = some (byteDiff diff s t)) :
    Compares f s t ↔ (byteDiff diff s t).sign = (byteDiff uint8Diff s t).sign := by
  constructor
  · rintro ⟨r, hr, hsign⟩
    cases (hr [] []).symm.trans (hf [] [])
    exact hsign
  · exact fun h => ⟨_, hf, h⟩

/-- What is left of signed characters: the first difference decides. -/
theorem charDiff_right_iff :
    (byteDiff charDiff s t).sign = (byteDiff uint8Diff s t).sign ↔
      ∀ a b, firstDiff s t = some (a, b) → (a < 128 ↔ b < 128) := by
  unfold byteDiff
  cases h : firstDiff s t with
  | none => simp
  | some p =>
      obtain ⟨a, b⟩ := p
      simp [sign_charDiff (ne_of_firstDiff h)]

end Blocks

/-! ## The kernel's functions -/

namespace KernelString

theorem strcmp_eq (s t : CString) (p q : List UInt8) :
    strcmp (s.mem p) (t.mem q) = some (byteDiff uint8Diff (s.mem []) (t.mem [])) := by
  induction s generalizing t with
  | nil =>
      cases t with
      | nil => simp [strcmp]
      | cons d t => simp [strcmp, byteDiff_cons_of_ne d.property.symm]
  | cons c s ih =>
      cases t with
      | nil => simp [strcmp, c.property, byteDiff_cons_of_ne c.property]
      | cons d t =>
          by_cases h : c.val = d.val
          · simp [strcmp, h, d.property, ih]
          · simp [strcmp, h, byteDiff_cons_of_ne h]

/-- The comparison of the strings themselves. -/
theorem strcmp_mem (s t : CString) (p q : List UInt8) :
    strcmp (s.mem p) (t.mem q) = some (LambdaOs.strcmp s t) := by
  induction s generalizing t with
  | nil => cases t <;> simp [strcmp, LambdaOs.strcmp, uint8Diff]
  | cons c s ih =>
      cases t with
      | nil => simp [strcmp, LambdaOs.strcmp, uint8Diff, c.property]
      | cons d t =>
          by_cases h : c = d
          · simp [strcmp, LambdaOs.strcmp, h, d.property, ih]
          · have hval : c.val ≠ d.val := fun he => h (Subtype.ext he)
            simp [strcmp, LambdaOs.strcmp, h, hval, uint8Diff]

/-- With a limit that is not zero the loop stays in front of it. -/
theorem strncmp_eq (s t : CString) (n : Nat) (p q : List UInt8) :
    strncmp ((s.mem []).take (n + 1) ++ p) ((t.mem []).take (n + 1) ++ q) (n + 1) =
      some (byteDiff uint8Diff ((s.mem []).take (n + 1)) ((t.mem []).take (n + 1))) := by
  induction s generalizing t n with
  | nil =>
      cases t with
      | nil => simp [strncmp]
      | cons d t => simp [strncmp, byteDiff_cons_of_ne d.property.symm]
  | cons c s ih =>
      cases t with
      | nil => simp [strncmp, c.property, byteDiff_cons_of_ne c.property]
      | cons d t =>
          by_cases h : c.val = d.val
          · cases n with
            | zero => simp [strncmp, h, preDec]
            | succ n => simpa [strncmp, h, d.property, preDec] using ih t n
          · simp [strncmp, h, byteDiff_cons_of_ne h]

theorem memcmp_eq (s t p q : List UInt8) (h : s.length = t.length) :
    memcmp (s ++ p) (t ++ q) s.length = some (byteDiff uint8Diff s.reverse t.reverse) := by
  induction s using List.reverseRecOn generalizing t p q with
  | nil => rfl
  | append_singleton s a ih =>
      obtain ⟨t, b, rfl⟩ : ∃ t' b, t = t' ++ [b] := by
        refine (List.eq_nil_or_concat' t).resolve_left ?_
        rintro rfl
        simp at h
      have hlen : s.length = t.length := by simpa using h
      by_cases hab : a = b
      · simp [memcmp, hlen, hab, ← ih t (b :: p) (b :: q) hlen]
      · simp [memcmp, hlen, hab, byteDiff_cons_of_ne hab]

end KernelString

/-! ## The user library's functions -/

namespace UserString

theorem strcmp_eq (s t : CString) (p q : List UInt8) :
    strcmp (s.mem p) (t.mem q) = some (byteDiff charDiff (s.mem []) (t.mem [])) := by
  induction s generalizing t with
  | nil =>
      cases t with
      | nil => simp [strcmp]
      | cons d t => simp [strcmp, byteDiff_cons_of_ne d.property.symm]
  | cons c s ih =>
      cases t with
      | nil => simp [strcmp, byteDiff_cons_of_ne c.property]
      | cons d t =>
          by_cases h : c.val = d.val
          · simp [strcmp, h, d.property, ih]
          · simp [strcmp, h, c.property, d.property, byteDiff_cons_of_ne h]

theorem strncmpLoop_eq (s t : CString) (n : Nat) (p q : List UInt8) :
    strncmpLoop ((s.mem []).take (n + 1) ++ p) ((t.mem []).take (n + 1) ++ q) (n + 1) =
      some (byteDiff charDiff ((s.mem []).take (n + 1)) ((t.mem []).take (n + 1))) := by
  induction s generalizing t n with
  | nil =>
      cases t with
      | nil => simp [strncmpLoop]
      | cons d t => simp [strncmpLoop, byteDiff_cons_of_ne d.property.symm]
  | cons c s ih =>
      cases t with
      | nil => simp [strncmpLoop, byteDiff_cons_of_ne c.property]
      | cons d t =>
          by_cases h : c.val = d.val
          · cases n with
            | zero => simp [strncmpLoop, h]
            | succ n => simpa [strncmpLoop, h, d.property] using ih t n
          · cases n with
            | zero => simp [strncmpLoop, byteDiff_cons_of_ne h]
            | succ n => simp [strncmpLoop, h, c.property, d.property, byteDiff_cons_of_ne h]

/-- Nothing is read when the limit is zero. -/
theorem strncmp_eq (s t : CString) (n : Nat) (p q : List UInt8) :
    strncmp ((s.mem []).take n ++ p) ((t.mem []).take n ++ q) n =
      some (byteDiff charDiff ((s.mem []).take n) ((t.mem []).take n)) := by
  cases n with
  | zero => rfl
  | succ n => exact strncmpLoop_eq s t n p q

end UserString

/-! ## Which of them compare -/

theorem CString.mem_append (s : CString) (p : List UInt8) : s.mem [] ++ p = s.mem p := by
  simp [CString.mem]

/-- `strcmp` of the kernel orders every two strings by their first differing
byte, and its `strncmp` does when the limit is not zero, in front of which it
looks at the first characters. Of the user library the two do when the bytes
that differ are on one side of 128, and `memcmp` does when the last difference
of the blocks is ordered as the first one. -/
theorem compares_first_difference_iff (s t : CString) (n : Nat) (s1 s2 : List UInt8)
    (hlen : s1.length = s2.length) :
    Compares KernelString.strcmp (s.mem []) (t.mem []) ∧
      (Compares (KernelString.strncmp · · n) ((s.mem []).take n) ((t.mem []).take n) ↔ 0 < n) ∧
      (Compares UserString.strcmp (s.mem []) (t.mem []) ↔
        ∀ a b, firstDiff (s.mem []) (t.mem []) = some (a, b) → (a < 128 ↔ b < 128)) ∧
      (Compares (UserString.strncmp · · n) ((s.mem []).take n) ((t.mem []).take n) ↔
        ∀ a b, firstDiff ((s.mem []).take n) ((t.mem []).take n) = some (a, b) →
          (a < 128 ↔ b < 128)) ∧
      (Compares (KernelString.memcmp · · s1.length) s1 s2 ↔
        (byteDiff uint8Diff s1.reverse s2.reverse).sign = (byteDiff uint8Diff s1 s2).sign) := by
  refine ⟨?_, ?_, ?_, ?_, ?_⟩
  · refine (compares_iff fun p q => ?_).mpr rfl
    rw [CString.mem_append, CString.mem_append, KernelString.strcmp_eq]
  · cases n with
    | zero =>
        refine iff_of_false ?_ (lt_irrefl 0)
        rintro ⟨r, hr, -⟩
        cases hr [] []
    | succ n =>
        exact iff_of_true ((compares_iff (KernelString.strncmp_eq s t n)).mpr rfl) n.succ_pos
  · have hf (p q : List UInt8) : UserString.strcmp (s.mem [] ++ p) (t.mem [] ++ q) =
        some (byteDiff charDiff (s.mem []) (t.mem [])) := by
      rw [CString.mem_append, CString.mem_append, UserString.strcmp_eq]
    rw [compares_iff hf, charDiff_right_iff]
  · rw [compares_iff (UserString.strncmp_eq s t n), charDiff_right_iff]
  · constructor
    · rintro ⟨r, hr, hsign⟩
      cases (hr [] []).symm.trans (KernelString.memcmp_eq s1 s2 [] [] hlen)
      exact hsign
    · exact fun h => ⟨_, fun p q => KernelString.memcmp_eq s1 s2 p q hlen, h⟩

theorem compares_first_difference_at_a :
    Compares KernelString.strcmp (CString.mem (CString.ofBytes [97]) [])
        (CString.mem (CString.ofBytes [98]) []) ∧
      Compares (KernelString.strncmp · · 1) ((CString.mem (CString.ofBytes [97]) []).take 1)
        ((CString.mem (CString.ofBytes [98]) []).take 1) ∧
      Compares (UserString.strncmp · · 1) ((CString.mem (CString.ofBytes [97]) []).take 1)
        ((CString.mem (CString.ofBytes [98]) []).take 1) ∧
      Compares (KernelString.memcmp · · 2) [1, 3] [2, 4] := by
  obtain ⟨hstr, hstrn, -, hustrn, hmem⟩ := compares_first_difference_iff (CString.ofBytes [97])
    (CString.ofBytes [98]) 1 [1, 3] [2, 4] rfl
  refine ⟨hstr, hstrn.mpr (by decide), hustrn.mpr fun a b hab => ?_, hmem.mpr (by decide)⟩
  have hfirst : firstDiff ((CString.mem (CString.ofBytes [97]) []).take 1)
      ((CString.mem (CString.ofBytes [98]) []).take 1) = some (97, 98) := by decide
  cases hfirst.symm.trans hab
  decide

theorem Compares.sign_eq {f : List UInt8 → List UInt8 → Option Int} {s t : List UInt8} {r : Int}
    (h : Compares f s t) (hr : f (s ++ []) (t ++ []) = some r) :
    r.sign = (byteDiff uint8Diff s t).sign := by
  obtain ⟨r', hr', hsign⟩ := h
  cases hr.symm.trans (hr' [] [])
  exact hsign

/-- With a limit of zero the kernel's `strncmp` reads and compares the first
characters; the user library puts the byte 200 in front of `a`; and `memcmp`
of two blocks returns the difference at their ends. -/
theorem compares_wrong :
    (KernelString.strncmp [97, 0] [98, 0] 0 = some (-1) ∧
        ¬ Compares (KernelString.strncmp · · 0) [] []) ∧
      ¬ Compares UserString.strcmp [200, 0] [97, 0] ∧
      ¬ Compares (UserString.strncmp · · 1) [200] [97] ∧
      ¬ Compares (KernelString.memcmp · · 2) [1, 2] [2, 1] := by
  refine ⟨⟨by decide, ?_⟩, fun h => ?_, fun h => ?_, fun h => ?_⟩
  · rintro ⟨r, hr, -⟩
    cases hr [] []
  · exact absurd (h.sign_eq (r := -153) rfl) (by decide)
  · exact absurd (h.sign_eq (r := -153) rfl) (by decide)
  · exact absurd (h.sign_eq (r := 1) rfl) (by decide)

end LambdaOs
