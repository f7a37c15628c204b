import LambdaOs.PrintInt

/-!
# Reading back what was printed

`strtoul` of the kernel's `std/stdlib.c` with the character classes of
`ctype.h`. A pointer into the string is what may be read from it on, as for the
command line. The padding and the digits `_print_int` makes of a number are
read as that number.
-/

namespace LambdaOs

/-! ## `ctype.h` -/

def isspace (c : UInt8) : Bool := c = 32 ∨ c = 9 ∨ c = 11 ∨ c = 13 ∨ c = 10

def isnum (c : UInt8) : Bool := 48 ≤ c ∧ c ≤ 57

def isupper (c : UInt8) : Bool := 65 ≤ c ∧ c ≤ 90

def islower (c : UInt8) : Bool := 97 ≤ c ∧ c ≤ 122

def isalpha (c : UInt8) : Bool := islower c || isupper c

def isalnum (c : UInt8) : Bool := isnum c || isalpha c

def tolower (c : UInt8) : Int :=
  if islower c then c.toNat else if isupper c then c.toNat + (97 - 65) else 0

/-! ## `strtoul` -/

def convCheckchar (c : UInt8) (base : Int) : Bool :=
  if !isalnum c then false
  else if isnum c && decide (base ≤ (c.toNat : Int) - 48) then false
  else if isalpha c && decide (base - 10 ≤ tolower c - 97) then false
  else true

def convConvertchar (c : UInt8) : Int :=
  if isnum c then (c.toNat : Int) - 48 else if isalpha c then tolower c - 97 + 10 else 1

/-- `while(isspace(*ptr)) { ptr++; }` -/
def skipBlanks : List UInt8 → Option (List UInt8)
  | [] => none
  | c :: ptr => if isspace c then skipBlanks ptr else some (c :: ptr)

/-- The base, and where the digits begin. -/
def strtoulPrefix (ptr : List UInt8) (base : Int) : Option (Int × List UInt8) := do
  let c ← ptr[0]?
  if c = 48 then
    let x ← ptr[1]?
    if x = 120 ∨ x = 88 then
      return if base = 0 ∨ base = 16 then (16, ptr.drop 2) else (base, ptr)
    else return if base = 0 then (8, ptr) else (base, ptr)
  else return (base, ptr)

/-- `while(*ptr)` -/
def strtoulLoop (base : Int) : Nat → List UInt8 → Option (Nat × List UInt8)
  | _, [] => none
  | val, c :: ptr =>
      if c = 0 ∨ convCheckchar c base = false then some (val, c :: ptr)
      else strtoulLoop base (u32 (u32 (val * base.toNat) + (convConvertchar c).toNat)) ptr

/-- The value, and `*endptr` when it has been set. -/
def strtoul (ptr : List UInt8) (base : Int) : Option (Nat × Option (List UInt8)) :=
  if base < 0 ∨ 35 < base then some (0, none)
  else do
    let ptr ← skipBlanks ptr
    let (base, ptr) ← strtoulPrefix ptr base
    let base := if base = 0 then 10 else base
    let (val, ptr) ← strtoulLoop base 0 ptr
    return (val, some ptr)

/-! ## Digits -/

/-- The bases the formatter prints in. -/
def PrintBase (base : Nat) : Prop := base = 8 ∨ base = 10 ∨ base = 16

theorem convCheckchar_digitByte (upper : Bool) {base d : Nat} (hb : PrintBase base)
    (hd : d < base) : convCheckchar (digitByte upper d) base = true := by
  have h8 : ∀ up : Bool, ∀ d < 8, convCheckchar (digitByte up d) 8 = true := by decide
  have h10 : ∀ up : Bool, ∀ d < 10, convCheckchar (digitByte up d) 10 = true := by decide
  have h16 : ∀ up : Bool, ∀ d < 16, convCheckchar (digitByte up d) 16 = true := by decide
  rcases hb with rfl | rfl | rfl
  · exact h8 upper d hd
  · exact h10 upper d hd
  · exact h16 upper d hd

/-- A digit is a letter or a numeral: it is no terminator and no blank, it does
not make a prefix, and it has its value. -/
theorem digitByte_class (upper : Bool) {d : Nat} (hd : d < 16) :
    digitByte upper d ≠ 0 ∧ isspace (digitByte upper d) = false ∧ digitByte upper d ≠ 120 ∧
      digitByte upper d ≠ 88 ∧ convConvertchar (digitByte upper d) = d := by
  have h : ∀ up : Bool, ∀ d < 16, digitByte up d ≠ 0 ∧ isspace (digitByte up d) = false ∧
      digitByte up d ≠ 120 ∧ digitByte up d ≠ 88 ∧ convConvertchar (digitByte up d) = d := by
    decide
  exact h upper d hd

theorem PrintBase.le_sixteen {base : Nat} (hb : PrintBase base) : base ≤ 16 := by
  rcases hb with rfl | rfl | rfl <;> decide

/-- Digits are taken in one after the other while the value fits a word. -/
theorem strtoulLoop_digits (upper : Bool) {base : Nat} (hb : PrintBase base) {ds : List Nat}
    (hds : ∀ d ∈ ds, d < base) (past : List UInt8) {val : Nat}
    (hfit : val * base ^ ds.length + Nat.ofDigits base ds.reverse < 4294967296) :
    strtoulLoop base val (ds.map (digitByte upper) ++ 0 :: past) =
      some (val * base ^ ds.length + Nat.ofDigits base ds.reverse, 0 :: past) := by
  induction ds generalizing val with
  | nil => simp [strtoulLoop]
  | cons d ds ih =>
      have hd := hds d List.mem_cons_self
      obtain ⟨h0, -, -, -, hval⟩ := digitByte_class upper (Nat.lt_of_lt_of_le hd hb.le_sixteen)
      have hsum : val * base ^ (d :: ds).length + Nat.ofDigits base (d :: ds).reverse =
          (val * base + d) * base ^ ds.length + Nat.ofDigits base ds.reverse := by
        rw [Nat.ofDigits_reverse_cons, List.length_cons, Nat.pow_succ]
        ring
      have hpos : 0 < base ^ ds.length := Nat.pow_pos (by omega)
      rw [hsum] at hfit ⊢
      have hstep : val * base + d < 4294967296 := by
        have := Nat.le_mul_of_pos_right (val * base + d) hpos
        omega
      have hnext : u32 (u32 (val * (base : Int).toNat) +
          (convConvertchar (digitByte upper d)).toNat) = val * base + d := by
        rw [hval, Int.toNat_natCast, Int.toNat_natCast,
          u32_of_lt (Nat.lt_of_le_of_lt (Nat.le_add_right _ d) hstep), u32_of_lt hstep]
      have hgo : ¬ (digitByte upper d = 0 ∨ convCheckchar (digitByte upper d) base = false) := by
        rw [convCheckchar_digitByte upper hb hd]
        simpa using h0
      rw [List.map_cons, List.cons_append, strtoulLoop, if_neg hgo, hnext]
      exact ih (fun d hd => hds d (List.mem_cons_of_mem _ hd)) hfit

theorem skipBlanks_replicate (k : Nat) (ptr : List UInt8) :
    skipBlanks (List.replicate k 32 ++ ptr) = skipBlanks ptr := by
  induction k with
  | zero => rfl
  | succ k ih => rw [List.replicate_succ, List.cons_append, skipBlanks, if_pos (by decide), ih]

/-- There is no prefix to be taken off, and the base is known. -/
theorem strtoulPrefix_digits (upper : Bool) {base : Nat} (hb : PrintBase base) {ds : List Nat}
    (hne : ds ≠ []) (hds : ∀ d ∈ ds, d < base) (past : List UInt8) :
    strtoulPrefix (ds.map (digitByte upper) ++ 0 :: past) base =
      some ((base : Int), ds.map (digitByte upper) ++ 0 :: past) := by
  have hb0 : ¬ (base : Int) = 0 := by
    rcases hb with rfl | rfl | rfl <;> decide
  have hx : ∀ x, (ds.map (digitByte upper) ++ 0 :: past)[1]? = some x → ¬ (x = 120 ∨ x = 88) := by
    match ds, hne with
    | [d], _ =>
        intro x hx
        cases hx
        decide
    | d :: e :: ds, _ =>
        intro x hx
        have he := hds e (List.mem_cons_of_mem _ List.mem_cons_self)
        obtain ⟨-, -, hne120, hne88, -⟩ :=
          digitByte_class upper (Nat.lt_of_lt_of_le he hb.le_sixteen)
        cases hx
        exact not_or.mpr ⟨hne120, hne88⟩
  match ds, hne with
  | d :: ds, _ =>
      obtain ⟨x, hget⟩ : ∃ x, ((d :: ds).map (digitByte upper) ++ 0 :: past)[1]? = some x :=
        ⟨_, List.getElem?_eq_getElem (by simp)⟩
      rw [strtoulPrefix, hget]
      simp only [List.map_cons, List.cons_append, List.getElem?_cons_zero, Option.bind_eq_bind,
        Option.bind_some, if_neg (hx x hget), if_neg hb0]
      split <;> rfl

/-- Blanks and then digits, up to the terminator. -/
theorem strtoul_digits (upper : Bool) {base : Nat} (hb : PrintBase base) (k : Nat) {ds : List Nat}
    (hne : ds ≠ []) (hds : ∀ d ∈ ds, d < base) (past : List UInt8)
    (hfit : Nat.ofDigits base ds.reverse < 4294967296) :
    strtoul (List.replicate k 32 ++ (ds.map (digitByte upper) ++ 0 :: past)) base =
      some (Nat.ofDigits base ds.reverse, some (0 :: past)) := by
  have hrange : ¬ ((base : Int) < 0 ∨ 35 < (base : Int)) := by
    have := hb.le_sixteen
    omega
  have hb0 : ¬ (base : Int) = 0 := by
    rcases hb with rfl | rfl | rfl <;> decide
  have hskip : skipBlanks (ds.map (digitByte upper) ++ 0 :: past) =
      some (ds.map (digitByte upper) ++ 0 :: past) := by
    match ds, hne with
    | d :: ds, _ =>
        have hd := hds d List.mem_cons_self
        obtain ⟨-, hspace, -⟩ := digitByte_class upper (Nat.lt_of_lt_of_le hd hb.le_sixteen)
        rw [List.map_cons, List.cons_append, skipBlanks, hspace]
        rfl
  have hloop : strtoulLoop base 0 (ds.map (digitByte upper) ++ 0 :: past) = _ :=
    strtoulLoop_digits upper hb hds past (by simpa using hfit)
  rw [strtoul, if_neg hrange, skipBlanks_replicate, hskip, Option.bind_eq_bind, Option.bind_some,
    strtoulPrefix_digits upper hb hne hds]
  simp only [Option.bind_eq_bind, Option.bind_some, if_neg hb0, hloop, Nat.zero_mul, Nat.zero_add]
  rfl

/-! ## Printing and reading back -/

theorem digitsOf_lt {base : Nat} (hb : PrintBase base) (n : Nat) :
    ∀ d ∈ digitsOf base n, d < base := by
  have hb1 : 1 < base := by
    rcases hb with rfl | rfl | rfl <;> decide
  intro d hd
  rw [digitsOf] at hd
  split at hd
  · rw [List.mem_singleton.mp hd]
    omega
  · exact Nat.digits_lt_base hb1 (List.mem_reverse.mp hd)

theorem ofDigits_digitsOf (base n : Nat) : Nat.ofDigits base (digitsOf base n).reverse = n := by
  rw [digitsOf]
  split
  · next hn => simp [hn]
  · rw [List.reverse_reverse, Nat.ofDigits_digits]

theorem length_digitsOf (base n : Nat) :
    (digitsOf base n).length = max 1 (Nat.digits base n).length := by
  rw [digitsOf]
  split
  · next hn => simp [hn]
  · next hn =>
      have : 0 < (Nat.digits base n).length :=
        List.length_pos_iff.mpr (Nat.digits_ne_nil_iff_ne_zero.mpr hn)
      rw [List.length_reverse]
      omega

section Unsigned

variable {n base pad : Nat} {flags : PrintFlags}

theorem isNeg_unsigned (hu : flags.unsigned = true) : isNeg n flags = false := by
  rw [isNeg, hu]
  rfl

theorem magnitude_unsigned (hu : flags.unsigned = true) : magnitude n flags = n := by
  rw [magnitude, isNeg_unsigned hu]
  rfl

theorem signText_unsigned (hu : flags.unsigned = true) (hsign : flags.posSign = false)
    (hspace : flags.posSpace = false) : signText n flags = [] := by
  simp [signText, isNeg_unsigned hu, hsign, hspace]

/-- Without a sign the text is blanks and digits, or digits only. -/
theorem intText_unsigned (hu : flags.unsigned = true) (hsign : flags.posSign = false)
    (hspace : flags.posSpace = false) :
    ∃ k j, intText n base pad flags = List.replicate k 32 ++
      (List.replicate j 0 ++ digitsOf base n).map (digitByte flags.upperCase) := by
  have hzero : digitByte flags.upperCase 0 = 48 := by cases flags.upperCase <;> rfl
  rw [intText, signText_unsigned hu hsign hspace, magnitude_unsigned hu, padText]
  cases flags.padZero with
  | true => exact ⟨0, pad - (digitsOf base n).length, by simp [hzero]⟩
  | false => exact ⟨pad - (digitsOf base n).length, 0, by simp⟩

/-- What `_print_int` makes of a number without a sign is as long as the
padding or the digits, as it returns, and is read back as that number. -/
theorem print_int_strtoul (hn : n < 4294967296) (hb : base = 8 ∨ base = 10 ∨ base = 16)
    (hu : flags.unsigned = true) (hsign : flags.posSign = false)
    (hspace : flags.posSpace = false) (past : List UInt8) :
    ∃ o, printInt n base pad flags = some o ∧
      o.out.length = max pad (max 1 (Nat.digits base n).length) ∧ o.outidx = o.out.length ∧
      strtoul (o.out ++ 0 :: past) base = some (n, some (0 :: past)) := by
  have hrange : 8 ≤ base ∧ base ≤ 16 := by omega
  refine ⟨_, printInt_eq pad flags hrange.1 hrange.2 (by omega), ?_, rfl, ?_⟩
  · rw [IntOut.filled, length_intText, signText_unsigned hu hsign hspace, magnitude_unsigned hu,
      length_digitsOf, List.length_nil, Nat.zero_add]
  · obtain ⟨k, j, htext⟩ : ∃ k j, intText n base pad flags = _ :=
      intText_unsigned hu hsign hspace
    have hds : ∀ d ∈ List.replicate j 0 ++ digitsOf base n, d < base := by
      intro d hd
      rcases List.mem_append.mp hd with hd | hd
      · rw [List.eq_of_mem_replicate hd]
        omega
      · exact digitsOf_lt hb n d hd
    have hval : Nat.ofDigits base (List.replicate j 0 ++ digitsOf base n).reverse = n := by
      rw [List.reverse_append, List.reverse_replicate, Nat.ofDigits_append_replicate_zero,
        ofDigits_digitsOf]
    have hread := strtoul_digits flags.upperCase hb k (by simp [digitsOf_ne_nil]) hds past
      (by rw [hval]; exact hn)
    rw [hval] at hread
    simpa [IntOut.filled, htext] using hread

end Unsigned

/-- The largest word, in hexadecimal and wider than it is. -/
theorem print_int_strtoul_max :
    ∃ o, printInt 4294967295 16 10 ⟨true, true, false, false, true, false⟩ = some o ∧
      o.out.length = max 10 (max 1 (Nat.digits 16 4294967295).length) ∧
      o.outidx = o.out.length ∧
      strtoul (o.out ++ 0 :: []) 16 = some (4294967295, some (0 :: [])) :=
  print_int_strtoul (by decide) (by decide) rfl rfl rfl []

end LambdaOs
