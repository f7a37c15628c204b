import LambdaOs.Elf
import LambdaOs.Fs
import LambdaOs.MemProg

/-!
# The arguments of a new process image

`_store_arguments` and `_exec_copy_arguments` of `proc/exec.c`, as programs
over the bytes of memory. Each counts the strings of `argv` and `envp`, takes
a block of that size, and lays out in it the two pointer arrays and behind
them the strings. The first takes the arguments out of the memory of the old
image, the second puts them where the new one sees them.

The page mappings of the block are not part of this: it is reached at its own
address. Loops over memory have a bound, which is large enough when it is the
size of the arguments.
-/

namespace LambdaOs

/-- A program over bytes; it stops when a bound is reached. -/
abbrev ArgProg := MemProg Unit Unit UInt8

/-! ## Words and strings -/

namespace ArgProg

def loadByte (a : Nat) : ArgProg Nat := do
  let b ← MemProg.load () (u32 a)
  return b.toNat

/-- A pointer in memory. -/
def loadWord (a : Nat) : ArgProg Nat := do
  let b₀ ← loadByte a
  let b₁ ← loadByte (a + 1)
  let b₂ ← loadByte (a + 2)
  let b₃ ← loadByte (a + 3)
  return b₀ + 256 * b₁ + 65536 * (b₂ + 256 * b₃)

def storeByte (a w : Nat) : ArgProg Unit := MemProg.store (u32 a) (UInt8.ofNat w)

def storeWord (a w : Nat) : ArgProg Unit := do
  storeByte a w
  storeByte (a + 1) (w / 256)
  storeByte (a + 2) (w / 65536)
  storeByte (a + 3) (w / 16777216)

def strlen : Nat → Nat → ArgProg Nat
  | 0, _ => .stop ()
  | fuel + 1, str => do
      let b ← MemProg.load () (u32 str)
      if b = 0 then return 0
      else
        let n ← strlen fuel (str + 1)
        return n + 1

def memcpy (dest src : Nat) : Nat → ArgProg Unit
  | 0 => return ()
  | n + 1 => do
      let b ← MemProg.load () (u32 src)
      MemProg.store (u32 dest) b
      memcpy (dest + 1) (src + 1) n

end ArgProg

open ArgProg

/-! ## Counting and copying -/

/-- `array[i]` -/
def argAt (array i : Nat) : ArgProg Nat := loadWord (array + 4 * i)

def argLen (fuel array i : Nat) : ArgProg Nat := do
  let str ← argAt array i
  strlen fuel str

/-- `for(; argv[argc]; argc++)`, with `data_sz`. -/
def countArgs (bound array : Nat) : Nat → Nat → Nat → ArgProg (Nat × Nat)
  | 0, _, _ => .stop ()
  | fuel + 1, argc, dataSz => do
      let str ← argAt array argc
      if str = 0 then return (argc, dataSz)
      else
        let len ← argLen bound array argc
        countArgs bound array fuel (argc + 1) (u32 (dataSz + (4 + len + 1)))

/-- The loops that copy the strings of `args`, and store the pointers to the
copies. `dest` is how the source names the place of a copy. -/
def copyArgs (dest : Nat → Nat → Nat → ArgProg Nat) (fuel buffer newArgs args : Nat) :
    Nat → Nat → Nat → ArgProg Nat
  | 0, _, off => return off
  | count + 1, i, off => do
      storeWord (newArgs + 4 * i) (u32 (buffer + off))
      let place ← dest newArgs i off
      let str ← argAt args i
      let len ← argLen fuel args i
      memcpy place str (len + 1)
      let len ← argLen fuel args i
      copyArgs dest fuel buffer newArgs args count (i + 1) (u32 (off + (len + 1)))

/-- The new arrays, the size of the block, and how far it was filled. -/
structure ArgBlock where
  argv : Nat
  envp : Nat
  dataSz : Nat
  off : Nat
deriving Repr, DecidableEq

/-- What both functions do with the block at `data`. -/
def fillBlock (dest : Nat → Nat → Nat → ArgProg Nat) (fuel argv envp argc envc dataSz data : Nat) :
    ArgProg ArgBlock := do
  let newArgv := data
  let newEnvp := u32 (newArgv + 4 * (argc + 1))
  let off := u32 ((argc + envc + 2) * 4)
  let off ← copyArgs dest fuel data newArgv argv argc 0 off
  storeWord (newArgv + 4 * argc) 0
  let off ← copyArgs dest fuel data newEnvp envp envc 0 off
  storeWord (newEnvp + 4 * envc) 0
  return ⟨newArgv, newEnvp, dataSz, off⟩

/-- `alloc` is the address `kmamalloc` answers a size with. The strings are
copied to `&new_buffer[c_off]`. -/
def execCopyArguments (alloc : Nat → Nat) (fuel argv envp : Nat) : ArgProg ArgBlock := do
  let (argc, dataSz) ← countArgs fuel argv fuel 0 0
  let (envc, dataSz) ← countArgs fuel envp fuel 0 dataSz
  let dataSz := u32 (dataSz + 4 * 2)
  let newBuffer := alloc dataSz
  fillBlock (fun _ _ off => return u32 (newBuffer + off)) fuel argv envp argc envc dataSz newBuffer

/-- `alloc` is the address `kmalloc` answers a size with. The strings are
copied to where the pointer just stored points. -/
def storeArguments (alloc : Nat → Nat) (fuel argv envp : Nat) : ArgProg ArgBlock := do
  let (argc, dataSz) ← countArgs fuel argv fuel 0 (2 * 4)
  let (envc, dataSz) ← countArgs fuel envp fuel 0 dataSz
  let data := alloc dataSz
  fillBlock (fun newArgs i _ => argAt newArgs i) fuel argv envp argc envc dataSz data

/-! ## Loads and stores -/

theorem load_finds (m : Nat → UInt8) {a : Nat} (h : a < 4294967296) :
    (MemProg.load () (u32 a) : ArgProg UInt8).Finds m (m a) := by
  rw [u32_of_lt h]
  exact MemProg.finds_load

theorem loadByte_finds (m : Nat → UInt8) {a : Nat} (h : a < 4294967296) :
    (loadByte a).Finds m (m a).toNat :=
  (load_finds m h).bind MemProg.finds_pure

theorem loadWord_finds (m : Nat → UInt8) {a : Nat} (h : a + 4 ≤ 4294967296) :
    (loadWord a).Finds m (wordIn m a) :=
  (loadByte_finds m (by omega)).bind <| (loadByte_finds m (by omega)).bind <|
    (loadByte_finds m (by omega)).bind <| (loadByte_finds m (by omega)).bind MemProg.finds_pure

theorem store_runs (m : Nat → UInt8) {a : Nat} {b : UInt8} {P : Nat → Prop} (h : a < 4294967296)
    (hP : P a) : (MemProg.store (u32 a) b : ArgProg Unit).Runs m () (Function.update m a b) P := by
  rw [u32_of_lt h]
  exact MemProg.runs_store hP

theorem storeByte_runs (m : Nat → UInt8) {a w : Nat} {P : Nat → Prop} (h : a < 4294967296)
    (hP : P a) : (storeByte a w).Runs m () (Function.update m a (UInt8.ofNat w)) P :=
  store_runs m h hP

/-- The bytes of the word at `a`. -/
def WordBytes (a x : Nat) : Prop := a ≤ x ∧ x < a + 4

theorem storeWord_runs (m : Nat → UInt8) {a w : Nat} (h : a + 4 ≤ 4294967296)
    (hw : w < 4294967296) :
    ∃ m', (storeWord a w).Runs m () m' (WordBytes a) ∧ wordIn m' a = w := by
  refine ⟨_, (storeByte_runs m (by omega) ⟨by omega, by omega⟩).bind <|
    (storeByte_runs _ (by omega) ⟨by omega, by omega⟩).bind <|
    (storeByte_runs _ (by omega) ⟨by omega, by omega⟩).bind <|
    storeByte_runs _ (by omega) ⟨by omega, by omega⟩, ?_⟩
  simp [wordIn]
  omega

/-! ## Strings in memory -/

/-- The string `s` is at `p`, in bytes of `D`. -/
def StrAt (D : Nat → Prop) (m : Nat → UInt8) : Nat → CString → Prop
  | p, [] => p < 4294967296 ∧ D p ∧ m p = 0
  | p, c :: s => p < 4294967296 ∧ D p ∧ m p = c.val ∧ StrAt D m (p + 1) s

section Strings

variable {D D' : Nat → Prop} {m m' : Nat → UInt8}

theorem StrAt.byte {s : CString} {p : Nat} (h : StrAt D m p s) :
    ∀ j ≤ s.length, p + j < 4294967296 ∧ D (p + j) := by
  induction s generalizing p with
  | nil =>
      intro j hj
      obtain rfl := Nat.le_zero.mp hj
      exact ⟨h.1, h.2.1⟩
  | cons c s ih =>
      intro j hj
      cases j with
      | zero => exact ⟨h.1, h.2.1⟩
      | succ j =>
          have hrest := ih h.2.2.2 j (Nat.le_of_succ_le_succ hj)
          rwa [Nat.add_assoc, Nat.add_comm 1 j] at hrest

/-- The string is where its bytes are. -/
theorem StrAt.copy {s : CString} {p q : Nat} (h : StrAt D m p s)
    (hbytes : ∀ j ≤ s.length, m' (q + j) = m (p + j) ∧ q + j < 4294967296 ∧ D' (q + j)) :
    StrAt D' m' q s := by
  induction s generalizing p q with
  | nil =>
      obtain ⟨hm, hq, hD⟩ := hbytes 0 (Nat.le_refl 0)
      exact ⟨hq, hD, hm.trans h.2.2⟩
  | cons c s ih =>
      obtain ⟨hm, hq, hD⟩ := hbytes 0 (Nat.zero_le _)
      refine ⟨hq, hD, hm.trans h.2.2.1, ih h.2.2.2 ?_⟩
      intro j hj
      have hnext := hbytes (j + 1) (Nat.succ_le_succ hj)
      rwa [Nat.add_comm j 1, ← Nat.add_assoc, ← Nat.add_assoc] at hnext

theorem StrAt.transfer {s : CString} {p : Nat} (h : StrAt D m p s)
    (hm : ∀ x, D x → m' x = m x ∧ D' x) : StrAt D' m' p s :=
  h.copy fun j hj => ⟨(hm _ (h.byte j hj).2).1, (h.byte j hj).1, (hm _ (h.byte j hj).2).2⟩

theorem strlen_finds {s : CString} {p fuel : Nat} (h : StrAt D m p s) (hf : s.length < fuel) :
    (strlen fuel p).Finds m s.length := by
  induction s generalizing p fuel with
  | nil =>
      obtain ⟨fuel, rfl⟩ := Nat.exists_eq_succ_of_ne_zero (Nat.ne_of_gt hf)
      refine (load_finds m h.1).bind ?_
      rw [h.2.2, if_pos rfl]
      exact MemProg.finds_pure
  | cons c s ih =>
      obtain ⟨fuel, rfl⟩ := Nat.exists_eq_succ_of_ne_zero (Nat.ne_of_gt (Nat.zero_lt_of_lt hf))
      refine (load_finds m h.1).bind ?_
      rw [h.2.2.1, if_neg c.property]
      exact (ih h.2.2.2 (Nat.lt_of_succ_lt_succ hf)).bind MemProg.finds_pure

/-- A copy between regions that do not meet. -/
theorem memcpy_runs {dest src n : Nat} (hdest : dest + n ≤ 4294967296)
    (hsrc : src + n ≤ 4294967296) (hapart : ∀ j < n, ¬ (dest ≤ src + j ∧ src + j < dest + n)) :
    ∃ m', (memcpy dest src n).Runs m () m' (fun x => dest ≤ x ∧ x < dest + n) ∧
      ∀ j < n, m' (dest + j) = m (src + j) := by
  induction n generalizing dest src m with
  | zero => exact ⟨m, MemProg.runs_pure, fun j hj => absurd hj (Nat.not_lt_zero j)⟩
  | succ n ih =>
      have hsrc0 := hapart 0 (Nat.succ_pos n)
      obtain ⟨m', hrun, hcopy⟩ := @ih (Function.update m dest (m src)) (dest + 1) (src + 1)
        (by omega) (by omega) fun j hj hin => hapart (j + 1) (by omega) (by omega)
      refine ⟨m', (load_finds m (by omega)).runs.bind <|
        (store_runs m (by omega) ⟨by omega, by omega⟩).bind <|
        hrun.mono fun x hx => ⟨by omega, by omega⟩, ?_⟩
      intro j hj
      cases j with
      | zero =>
          rw [Nat.add_zero, hrun.frame (by omega), Function.update_self, Nat.add_zero]
      | succ j =>
          have hj' := hcopy j (by omega)
          have hne : src + 1 + j ≠ dest := fun heq => hapart (j + 1) hj (by omega)
          rw [Function.update_of_ne hne] at hj'
          rwa [Nat.add_comm j 1, ← Nat.add_assoc, ← Nat.add_assoc]

end Strings

/-! ## Arrays of strings -/

/-- The word `w` is at `a`, in bytes of `D`. -/
structure WordAt (D : Nat → Prop) (m : Nat → UInt8) (a w : Nat) : Prop where
  fits : a + 4 ≤ 4294967296
  bytes : ∀ x, WordBytes a x → D x
  word : wordIn m a = w

/-- From `a` on are pointers to these strings, all in bytes of `D`. -/
def SlotsAt (D : Nat → Prop) (m : Nat → UInt8) : Nat → List CString → Prop
  | _, [] => True
  | a, s :: strs =>
      (∃ p, p ≠ 0 ∧ WordAt D m a p ∧ StrAt D m p s) ∧ SlotsAt D m (a + 4) strs

/-- A `NULL`-terminated array of strings. -/
structure ArgsAt (D : Nat → Prop) (m : Nat → UInt8) (a : Nat) (strs : List CString) : Prop where
  slots : SlotsAt D m a strs
  null : WordAt D m (a + 4 * strs.length) 0

/-- The bytes of the strings. -/
def strBytes (strs : List CString) : Nat := (strs.map fun s => s.length + 1).sum

@[simp] theorem strBytes_nil : strBytes [] = 0 := rfl

@[simp] theorem strBytes_cons (s : CString) (strs : List CString) :
    strBytes (s :: strs) = s.length + 1 + strBytes strs := rfl

theorem length_lt_strBytes {s : CString} {strs : List CString} (h : s ∈ strs) :
    s.length < strBytes strs := by
  induction strs with
  | nil => cases h
  | cons t strs ih =>
      rw [strBytes_cons]
      rcases List.mem_cons.mp h with rfl | h
      · omega
      · have := ih h
        omega

section Arrays

variable {D D' : Nat → Prop} {m m' : Nat → UInt8} {a array bound i : Nat} {s : CString}
  {strs : List CString}

theorem WordAt.transfer {w : Nat} (h : WordAt D m a w) (hm : ∀ x, D x → m' x = m x ∧ D' x) :
    WordAt D' m' a w :=
  ⟨h.fits, fun x hx => (hm x (h.bytes x hx)).2,
    (wordIn_congr fun j hj => (hm _ (h.bytes _ ⟨by omega, by omega⟩)).1).trans h.word⟩

theorem SlotsAt.transfer (h : SlotsAt D m a strs) (hm : ∀ x, D x → m' x = m x ∧ D' x) :
    SlotsAt D' m' a strs := by
  induction strs generalizing a with
  | nil => trivial
  | cons s strs ih =>
      obtain ⟨⟨p, hp, hword, hstr⟩, hrest⟩ := h
      exact ⟨⟨p, hp, hword.transfer hm, hstr.transfer hm⟩, ih hrest⟩

theorem ArgsAt.transfer (h : ArgsAt D m a strs) (hm : ∀ x, D x → m' x = m x ∧ D' x) :
    ArgsAt D' m' a strs :=
  ⟨h.slots.transfer hm, h.null.transfer hm⟩

theorem argAt_finds {w : Nat} (h : WordAt D m (array + 4 * i) w) : (argAt array i).Finds m w := by
  have hload := loadWord_finds m h.fits
  rwa [h.word] at hload

theorem argLen_finds {p : Nat} (hword : WordAt D m (array + 4 * i) p) (hstr : StrAt D m p s)
    (hb : s.length < bound) : (argLen bound array i).Finds m s.length :=
  (argAt_finds hword).bind (strlen_finds hstr hb)

/-- The counting loop, from the slot `i` on. -/
theorem countArgs_finds {fuel dataSz : Nat} (h : SlotsAt D m (array + 4 * i) strs)
    (hnull : WordAt D m (array + 4 * (i + strs.length)) 0) (hfuel : strs.length < fuel)
    (hb : ∀ s ∈ strs, s.length < bound)
    (hsz : dataSz + (4 * strs.length + strBytes strs) < 4294967296) :
    (countArgs bound array fuel i dataSz).Finds m
      (i + strs.length, dataSz + (4 * strs.length + strBytes strs)) := by
  induction strs generalizing i fuel dataSz with
  | nil =>
      obtain ⟨fuel, rfl⟩ := Nat.exists_eq_succ_of_ne_zero (Nat.ne_of_gt hfuel)
      refine (argAt_finds hnull).bind ?_
      rw [if_pos rfl]
      exact MemProg.finds_pure
  | cons s strs ih =>
      obtain ⟨fuel, rfl⟩ := Nat.exists_eq_succ_of_ne_zero (Nat.ne_of_gt (Nat.zero_lt_of_lt hfuel))
      obtain ⟨⟨p, hp, hword, hstr⟩, hrest⟩ := h
      simp only [List.length_cons, strBytes_cons] at hnull hfuel hsz ⊢
      have hlen := hb s List.mem_cons_self
      have hadd : u32 (dataSz + (4 + s.length + 1)) = dataSz + (4 + s.length + 1) :=
        u32_of_lt (by omega)
      refine (argAt_finds hword).bind ?_
      rw [if_neg hp]
      refine (argLen_finds hword hstr hlen).bind ?_
      rw [hadd]
      have hnext := @ih (i + 1) fuel (dataSz + (4 + s.length + 1))
        (by rwa [Nat.mul_add, ← Nat.add_assoc]) (by rwa [Nat.add_assoc, Nat.add_comm 1]) (by omega)
        (fun t ht => hb t (List.mem_cons_of_mem s ht)) (by omega)
      convert hnext using 2 <;> omega

end Arrays

/-! ## Filling the block -/

/-- What a copying loop writes: `count` slots of the array from slot `i` on, and
`size` bytes of the block from `off` on. -/
def Written (buffer newArgs i count off size x : Nat) : Prop :=
  (newArgs + 4 * i ≤ x ∧ x < newArgs + 4 * (i + count)) ∨
    (buffer + off ≤ x ∧ x < buffer + off + size)

/-- A byte of the block. -/
def InBlock (data size x : Nat) : Prop := data ≤ x ∧ x < data + size

/-- A block inside another one. -/
theorem InBlock.within {a n b k x : Nat} (hx : InBlock a n x) (hlo : b ≤ a)
    (hhi : a + n ≤ b + k) : InBlock b k x :=
  ⟨Nat.le_trans hlo hx.1, Nat.lt_of_lt_of_le hx.2 hhi⟩

section Fill

variable {D : Nat → Prop} {buffer size newArgs args fuel lo : Nat}
  {dest : Nat → Nat → Nat → ArgProg Nat}

/-- `dest` names the place that the slot just stored points to. -/
def NamesPlace (dest : Nat → Nat → Nat → ArgProg Nat) (buffer : Nat) : Prop :=
  ∀ (m : Nat → UInt8) (newArgs i off : Nat), newArgs + 4 * i + 4 ≤ 4294967296 →
    buffer + off < 4294967296 → wordIn m (newArgs + 4 * i) = buffer + off →
    (dest newArgs i off).Finds m (buffer + off)

/-- **A copying loop.** The strings are not in the block, the array is in front
of `lo` and the copies go behind it. -/
theorem copyArgs_runs (hdest : NamesPlace dest buffer) (hout : ∀ x, D x → ¬ InBlock buffer size x)
    (hfits : buffer + size ≤ 4294967296) (hsize : size < 4294967296) (hlo : buffer ≤ newArgs)
    {strs : List CString} {m : Nat → UInt8} {i off : Nat} (h : SlotsAt D m (args + 4 * i) strs)
    (hf : ∀ s ∈ strs, s.length < fuel) (harr : newArgs + 4 * (i + strs.length) ≤ buffer + lo)
    (hoff : lo ≤ off) (hroom : off + strBytes strs ≤ size) :
    ∃ m', (copyArgs dest fuel buffer newArgs args strs.length i off).Runs m
        (off + strBytes strs) m' (Written buffer newArgs i strs.length off (strBytes strs))
      ∧ SlotsAt (Written buffer newArgs i strs.length off (strBytes strs)) m'
        (newArgs + 4 * i) strs := by
  induction strs generalizing m i off with
  | nil => exact ⟨m, MemProg.runs_pure, trivial⟩
  | cons s strs ih =>
      obtain ⟨⟨p, hp, hword, hstr⟩, hrest⟩ := h
      simp only [List.length_cons, strBytes_cons] at harr hroom ⊢
      have hlen := hf s List.mem_cons_self
      have hplace : u32 (buffer + off) = buffer + off := u32_of_lt (by omega)
      have hnext : u32 (off + (s.length + 1)) = off + (s.length + 1) := u32_of_lt (by omega)
      -- the slot
      obtain ⟨m₁, hstore, hslot⟩ := storeWord_runs m (a := newArgs + 4 * i) (w := buffer + off)
        (by omega) (by omega)
      have hsame₁ : ∀ x, D x → m₁ x = m x ∧ D x := fun x hx =>
        ⟨hstore.frame fun hin => hout x hx (InBlock.within (n := 4) hin (by omega) (by omega)), hx⟩
      have hword₁ := hword.transfer hsame₁
      have hstr₁ := hstr.transfer hsame₁
      -- the string
      obtain ⟨m₂, hcopy, hbytes⟩ := @memcpy_runs m₁ (buffer + off) p (s.length + 1) (by omega)
        (by have := (hstr.byte s.length (Nat.le_refl _)).1; omega)
        (fun j hj hin => hout _ (hstr.byte j (by omega)).2 ⟨by omega, by omega⟩)
      have hsame₂ : ∀ x, D x → m₂ x = m₁ x ∧ D x := fun x hx =>
        ⟨hcopy.frame fun hin => hout x hx ⟨by omega, by omega⟩, hx⟩
      have hword₂ := hword₁.transfer hsame₂
      have hstr₂ := hstr₁.transfer hsame₂
      have hrest₂ := (hrest.transfer hsame₁).transfer hsame₂
      -- the others
      obtain ⟨m', hloop, hslots⟩ := @ih m₂ (i + 1) (off + (s.length + 1))
        (by rwa [Nat.mul_add, ← Nat.add_assoc]) (fun t ht => hf t (List.mem_cons_of_mem s ht))
        (by omega) (by omega) (by omega)
      have hwiden : ∀ x, Written buffer newArgs (i + 1) strs.length (off + (s.length + 1))
          (strBytes strs) x → Written buffer newArgs i (strs.length + 1) off
            (s.length + 1 + strBytes strs) x := fun x hx => by
        simp only [Written] at hx ⊢
        omega
      refine ⟨m', ?_, ⟨buffer + off, by omega, ⟨by omega, ?_, ?_⟩, ?_⟩, ?_⟩
      · rw [← Nat.add_assoc off, copyArgs, hplace]
        refine (hstore.mono fun x hx => .inl ⟨hx.1, by have := hx.2; omega⟩).bind <|
          (hdest m₁ newArgs i off (by omega) (by omega) hslot).runs.bind <|
          (argAt_finds hword₁).runs.bind <| (argLen_finds hword₁ hstr₁ hlen).runs.bind <|
          (hcopy.mono fun x hx => .inr ⟨hx.1, by omega⟩).bind <|
          (argLen_finds hword₂ hstr₂ hlen).runs.bind ?_
        rw [hnext]
        exact hloop.mono hwiden
      · intro x hx
        exact .inl ⟨hx.1, by have := hx.2; omega⟩
      · -- neither the copy nor the later rounds touch the slot
        refine (wordIn_congr ?_).trans hslot
        intro j hj
        rw [hloop.frame (by simp only [Written]; omega), hcopy.frame (by omega)]
      · refine hstr₁.copy fun j hj => ⟨?_, by omega, .inr ⟨by omega, by omega⟩⟩
        rw [hloop.frame (by simp only [Written]; omega), hbytes j (by omega)]
      · rw [Nat.mul_add, ← Nat.add_assoc] at hslots
        exact hslots.transfer fun x hx => ⟨rfl, hwiden x hx⟩

/-- The size of the block: two arrays with their ends, and the strings. -/
def argsSize (argv envp : List CString) : Nat :=
  4 * (argv.length + envp.length + 2) + strBytes argv + strBytes envp

/-- What a filled block of `size` bytes is: its size is the one counted, all of
it is used, and it holds the two arrays. -/
structure Filled (m : Nat → UInt8) (r : ArgBlock) (data size : Nat) (as es : List CString) :
    Prop where
  counted : r.dataSz = size
  full : r.off = r.dataSz
  argv : ArgsAt (InBlock data size) m r.argv as
  envp : ArgsAt (InBlock data size) m r.envp es

/-- **Filling the block.** -/
theorem fillBlock_runs {as es : List CString} {m : Nat → UInt8} {data argv envp : Nat}
    (hdest : NamesPlace dest data) (hfits : data + argsSize as es ≤ 4294967296)
    (hsize : argsSize as es < 4294967296) (hfuel : argsSize as es ≤ fuel)
    (hargv : ArgsAt (fun x => ¬ InBlock data (argsSize as es) x) m argv as)
    (henvp : ArgsAt (fun x => ¬ InBlock data (argsSize as es) x) m envp es) :
    ∃ r m', (fillBlock dest fuel argv envp as.length es.length (argsSize as es) data).Runs m r m'
      (InBlock data (argsSize as es)) ∧ Filled m' r data (argsSize as es) as es := by
  have hall : ∀ strs, strs = as ∨ strs = es → ∀ s ∈ strs, s.length < fuel := by
    rintro strs hstrs s hs
    have hlt := length_lt_strBytes hs
    simp only [argsSize] at hfuel
    rcases hstrs with rfl | rfl <;> omega
  have hpos : argsSize as es = 4 * (as.length + es.length + 2) + strBytes as + strBytes es := rfl
  generalize argsSize as es = size at *
  have hoff : u32 ((as.length + es.length + 2) * 4) = 4 * (as.length + es.length + 2) := by
    rw [Nat.mul_comm]
    exact u32_of_lt (by omega)
  have henv : u32 (data + 4 * (as.length + 1)) = data + 4 * (as.length + 1) :=
    u32_of_lt (by omega)
  -- the four parts, each on the memory the ones before it leave
  obtain ⟨m₁, hrun₁, hslots₁⟩ := @copyArgs_runs _ data size data argv fuel
    (4 * (as.length + es.length + 2)) dest hdest (fun _ hx => hx) hfits hsize (Nat.le_refl data)
    as m 0 _ hargv.slots (hall as (.inl rfl)) (by omega) (Nat.le_refl _) (by omega)
  obtain ⟨m₂, hrun₂, hnull₂⟩ := storeWord_runs m₁ (a := data + 4 * as.length) (w := 0)
    (by omega) (by decide)
  have hsrc₂ : SlotsAt (fun x => ¬ InBlock data size x) m₂ envp es :=
    henvp.slots.transfer fun x hx => by
      simp only [InBlock] at hx
      refine ⟨?_, hx⟩
      rw [hrun₂.frame (by simp only [WordBytes]; omega),
        hrun₁.frame (by simp only [Written]; omega)]
  obtain ⟨m₃, hrun₃, hslots₃⟩ := @copyArgs_runs _ data size (data + 4 * (as.length + 1)) envp
    fuel (4 * (as.length + es.length + 2)) dest hdest (fun _ hx => hx) hfits hsize (by omega)
    es m₂ 0 _ hsrc₂ (hall es (.inr rfl)) (by omega) (Nat.le_add_right _ (strBytes as))
    (by omega)
  obtain ⟨m₄, hrun₄, hnull₄⟩ := storeWord_runs m₃
    (a := data + 4 * (as.length + 1) + 4 * es.length) (w := 0) (by omega) (by decide)
  have hend : 4 * (as.length + es.length + 2) + strBytes as + strBytes es = size := hpos.symm
  rw [hend] at hrun₃
  refine ⟨⟨data, data + 4 * (as.length + 1), size, size⟩, m₄, ?_, rfl, rfl, ⟨?_, ?_⟩, ⟨?_, ?_⟩⟩
  · simp only [fillBlock, hoff, henv]
    refine (hrun₁.mono fun x hx => ?_).bind <| (hrun₂.mono fun x hx => ?_).bind <|
      (hrun₃.mono fun x hx => ?_).bind <| (hrun₄.mono fun x hx => ?_).bind MemProg.runs_pure
    all_goals
      simp only [Written, WordBytes, InBlock] at hx ⊢
      omega
  · refine hslots₁.transfer ?_
    intro x hx
    simp only [Written, InBlock] at hx ⊢
    refine ⟨?_, by omega⟩
    rw [hrun₄.frame (by simp only [WordBytes]; omega),
      hrun₃.frame (by simp only [Written]; omega), hrun₂.frame (by simp only [WordBytes]; omega)]
  · refine ⟨by dsimp only; omega, ?_, (wordIn_congr ?_).trans hnull₂⟩
    · intro x hx
      simp only [WordBytes, InBlock] at hx ⊢
      omega
    · intro j hj
      rw [hrun₄.frame (by simp only [WordBytes]; omega),
        hrun₃.frame (by simp only [Written]; omega)]
  · refine hslots₃.transfer ?_
    intro x hx
    simp only [Written, InBlock] at hx ⊢
    refine ⟨?_, by omega⟩
    rw [hrun₄.frame (by simp only [WordBytes]; omega)]
  · refine ⟨by dsimp only; omega, ?_, hnull₄⟩
    intro x hx
    simp only [WordBytes, InBlock] at hx ⊢
    omega

end Fill

/-! ## The two functions -/

section Marshal

variable {as es : List CString} {m : Nat → UInt8} {argv envp fuel : Nat} {alloc : Nat → Nat}

/-- The counting pass over a whole array. -/
theorem countArgs_args {D : Nat → Prop} {array dataSz : Nat} {strs : List CString}
    (h : ArgsAt D m array strs) (hfuel : 4 * strs.length + strBytes strs < fuel)
    (hsz : dataSz + (4 * strs.length + strBytes strs) < 4294967296) :
    (countArgs fuel array fuel 0 dataSz).Finds m
      (strs.length, dataSz + (4 * strs.length + strBytes strs)) := by
  have hcount := @countArgs_finds D m array fuel 0 strs fuel dataSz h.slots
    (by rw [Nat.zero_add]; exact h.null) (by omega)
    (fun s hs => by have := length_lt_strBytes hs; omega) hsz
  rwa [Nat.zero_add] at hcount

theorem namesPlace_off (buffer : Nat) :
    NamesPlace (fun _ _ off => return u32 (buffer + off)) buffer := by
  intro m newArgs i off _ hlt _
  dsimp only
  rw [u32_of_lt hlt]
  exact MemProg.finds_pure

theorem namesPlace_slot (buffer : Nat) :
    NamesPlace (fun newArgs i _ => argAt newArgs i) buffer := by
  intro m newArgs i off hfits _ hslot
  exact argAt_finds (D := fun _ => True) ⟨hfits, fun _ _ => trivial, hslot⟩

/-- The block an allocation gave has room, and the arguments are outside of it. -/
structure ArgsOutside (m : Nat → UInt8) (argv envp : Nat) (as es : List CString) (data : Nat) :
    Prop where
  fits : data + argsSize as es ≤ 4294967296
  argv : ArgsAt (fun x => ¬ InBlock data (argsSize as es) x) m argv as
  envp : ArgsAt (fun x => ¬ InBlock data (argsSize as es) x) m envp es

theorem storeArguments_runs (hsize : argsSize as es < 4294967296) (hfuel : argsSize as es ≤ fuel)
    (h : ArgsOutside m argv envp as es (alloc (argsSize as es))) :
    ∃ r m', (storeArguments alloc fuel argv envp).Runs m r m'
        (InBlock (alloc (argsSize as es)) (argsSize as es))
      ∧ Filled m' r (alloc (argsSize as es)) (argsSize as es) as es := by
  obtain ⟨r, m', hrun, hfill⟩ := fillBlock_runs (namesPlace_slot _) h.fits hsize hfuel h.argv h.envp
  refine ⟨r, m', ?_, hfill⟩
  have hpos : argsSize as es = 4 * (as.length + es.length + 2) + strBytes as + strBytes es := rfl
  refine (countArgs_args h.argv (by omega) (by omega)).runs.bind <|
    (countArgs_args h.envp (by omega) (by omega)).runs.bind ?_
  have hcounted : 2 * 4 + (4 * as.length + strBytes as) + (4 * es.length + strBytes es) =
      argsSize as es := by omega
  dsimp only
  rwa [hcounted]

theorem execCopyArguments_runs (hsize : argsSize as es < 4294967296)
    (hfuel : argsSize as es ≤ fuel) (h : ArgsOutside m argv envp as es (alloc (argsSize as es))) :
    ∃ r m', (execCopyArguments alloc fuel argv envp).Runs m r m'
        (InBlock (alloc (argsSize as es)) (argsSize as es))
      ∧ Filled m' r (alloc (argsSize as es)) (argsSize as es) as es := by
  obtain ⟨r, m', hrun, hfill⟩ := fillBlock_runs (namesPlace_off _) h.fits hsize hfuel h.argv h.envp
  refine ⟨r, m', ?_, hfill⟩
  have hpos : argsSize as es = 4 * (as.length + es.length + 2) + strBytes as + strBytes es := rfl
  refine (countArgs_args h.argv (by omega) (by omega)).runs.bind <|
    (countArgs_args h.envp (by omega) (by omega)).runs.bind ?_
  have hcounted : u32 (0 + (4 * as.length + strBytes as) + (4 * es.length + strBytes es) + 4 * 2) =
      argsSize as es := by
    rw [u32_of_lt] <;> omega
  dsimp only
  rwa [hcounted]

/-- **The arguments of `exec` survive both copies.** Out of arrays of any
strings, as long as their size fits a word, `_store_arguments` fills its block
exactly and writes nothing else, and its arrays hold the same strings in the
same order. From any memory that still has this block, `_exec_copy_arguments`
does so once more. -/
theorem exec_arguments_roundtrip {kmalloc kmamalloc : Nat → Nat}
    (hsize : argsSize as es < 4294967296) (hfuel : argsSize as es ≤ fuel)
    (hargs : ArgsOutside m argv envp as es (kmalloc (argsSize as es)))
    (hfits : kmamalloc (argsSize as es) + argsSize as es ≤ 4294967296)
    (hapart : ∀ x, InBlock (kmalloc (argsSize as es)) (argsSize as es) x →
      ¬ InBlock (kmamalloc (argsSize as es)) (argsSize as es) x) :
    ∃ r m₁, (storeArguments kmalloc fuel argv envp).Runs m r m₁
        (InBlock (kmalloc (argsSize as es)) (argsSize as es))
      ∧ Filled m₁ r (kmalloc (argsSize as es)) (argsSize as es) as es
      ∧ ∀ m₂ : Nat → UInt8, (∀ x, InBlock (kmalloc (argsSize as es)) (argsSize as es) x →
          m₂ x = m₁ x) →
        ∃ r' m₃, (execCopyArguments kmamalloc fuel r.argv r.envp).Runs m₂ r' m₃
            (InBlock (kmamalloc (argsSize as es)) (argsSize as es))
          ∧ Filled m₃ r' (kmamalloc (argsSize as es)) (argsSize as es) as es := by
  obtain ⟨r, m₁, hrun, hfill⟩ := storeArguments_runs hsize hfuel hargs
  refine ⟨r, m₁, hrun, hfill, fun m₂ hkept => execCopyArguments_runs hsize hfuel ⟨hfits, ?_, ?_⟩⟩
  · exact hfill.argv.transfer fun x hx => ⟨hkept x hx, hapart x hx⟩
  · exact hfill.envp.transfer fun x hx => ⟨hkept x hx, hapart x hx⟩

end Marshal

/-- `argv` at 16 is `{"/", "ls", NULL}`, and `envp` at 28 is `{"a", "b=", NULL}`. -/
def sampleArgs : Nat → UInt8 := fun x =>
  if x < 16 then 0
  else [40, 0, 0, 0, 42, 0, 0, 0, 0, 0, 0, 0, 45, 0, 0, 0, 47, 0, 0, 0, 0, 0, 0, 0,
    47, 0, 108, 115, 0, 97, 0, 98, 61, 0].getD (x - 16) 0

def sampleArgv : List CString := [[slash], .ofBytes [108, 115]]
def sampleEnvp : List CString := [.ofBytes [97], .ofBytes [98, 61]]

theorem sampleArgs_outside : ArgsOutside sampleArgs 16 28 sampleArgv sampleEnvp 4096 := by
  have hsize : argsSize sampleArgv sampleEnvp = 34 := rfl
  have hout : ∀ x, x < 50 → ¬ InBlock 4096 (argsSize sampleArgv sampleEnvp) x := by
    intro x hx hin
    have := hin.1
    omega
  have hword : ∀ a w, a ≤ 40 → wordIn sampleArgs a = w →
      WordAt (fun x => ¬ InBlock 4096 (argsSize sampleArgv sampleEnvp) x) sampleArgs a w :=
    fun a w ha hw => ⟨by omega, fun x hx => hout x (by have := hx.2; omega), hw⟩
  have hnul : ∀ p, p < 50 → sampleArgs p = 0 →
      StrAt (fun x => ¬ InBlock 4096 (argsSize sampleArgv sampleEnvp) x) sampleArgs p [] :=
    fun p hp hnul => ⟨by omega, hout p hp, hnul⟩
  have hchar : ∀ p (c : CChar) s, p < 50 → sampleArgs p = c.val →
      StrAt (fun x => ¬ InBlock 4096 (argsSize sampleArgv sampleEnvp) x) sampleArgs (p + 1) s →
      StrAt (fun x => ¬ InBlock 4096 (argsSize sampleArgv sampleEnvp) x) sampleArgs p (c :: s) :=
    fun p c s hp hc hs => ⟨by omega, hout p hp, hc, hs⟩
  refine ⟨by rw [hsize]; decide, ⟨⟨⟨40, by decide, hword 16 40 (by decide) rfl, ?_⟩,
    ⟨42, by decide, hword 20 42 (by decide) rfl, ?_⟩, trivial⟩, hword 24 0 (by decide) rfl⟩,
    ⟨⟨⟨45, by decide, hword 28 45 (by decide) rfl, ?_⟩,
    ⟨47, by decide, hword 32 47 (by decide) rfl, ?_⟩, trivial⟩, hword 36 0 (by decide) rfl⟩⟩
  · exact hchar _ _ _ (by decide) rfl (hnul 41 (by decide) rfl)
  · exact hchar _ _ _ (by decide) rfl (hchar _ _ _ (by decide) rfl (hnul 44 (by decide) rfl))
  · exact hchar _ _ _ (by decide) rfl (hnul 46 (by decide) rfl)
  · exact hchar _ _ _ (by decide) rfl (hchar _ _ _ (by decide) rfl (hnul 49 (by decide) rfl))

/-- Two strings in each array, through the blocks at 4096 and 8192. -/
theorem exec_arguments_roundtrip_slash :
    ∃ r m₁, (storeArguments (fun _ => 4096) 34 16 28).Runs sampleArgs r m₁ (InBlock 4096 34)
      ∧ ∃ r' m₃, (execCopyArguments (fun _ => 8192) 34 r.argv r.envp).Runs m₁ r' m₃
          (InBlock 8192 34)
        ∧ Filled m₃ r' 8192 34 sampleArgv sampleEnvp := by
  have hapart : ∀ x, InBlock 4096 34 x → ¬ InBlock 8192 34 x := by
    intro x hx hx'
    simp only [InBlock] at hx hx'
    omega
  obtain ⟨r, m₁, hrun, -, hnext⟩ := @exec_arguments_roundtrip sampleArgv sampleEnvp sampleArgs
    16 28 34 (fun _ => 4096) (fun _ => 8192) (by decide) (by decide) sampleArgs_outside (by decide)
    hapart
  exact ⟨r, m₁, hrun, hnext m₁ fun _ _ => rfl⟩

end LambdaOs
