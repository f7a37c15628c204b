import LambdaOs.ExecArgs

/-!
# From `execve` to `main`

What happens to the arguments and the environment once the image of a process
has been replaced. `arch_setup_user_stack` of `proc/tasking.c` pushes their
addresses on the new stack, `start` of `crt0.s` finds them there and calls
`_lib_init` of `libinit.c`, which copies the environment to blocks of its own,
and then `main`. The stack is words in memory, and so is everything else.

From the arrays that the caller of `execve` gave, `main` gets as many arguments
as there are strings, in an array of the same strings, and `environ` and its
third argument hold the strings of the environment (`program_start`).
-/

namespace LambdaOs

open ArgProg

/-! ## The stack -/

/-- `STACK_PUSH`, and the instruction: the new top. -/
def pushWord (esp w : Nat) : ArgProg Nat := do
  let esp := u32 (esp + 4294967292)
  storeWord esp w
  return esp

/-- The addresses are pushed where the stack begins. What is returned is both
`esp` and `stack_entry`. -/
def setupUserStack (ebp argc argv envp : Nat) : ArgProg Nat := do
  let esp ← pushWord ebp envp
  let esp ← pushWord esp argv
  pushWord esp argc

/-- An argument of a function that was called, above the return address. -/
def callArg (esp i : Nat) : ArgProg Nat := loadWord (u32 (esp + 4 + 4 * i))

/-! ## The user library -/

namespace ArgProg

def strcpy : Nat → Nat → Nat → ArgProg Unit
  | 0, _, _ => .stop ()
  | fuel + 1, dest, src => do
      let b ← MemProg.load () (u32 src)
      MemProg.store (u32 dest) b
      if b = 0 then return () else strcpy fuel (dest + 1) (src + 1)

/-- `malloc` is the address that a size is answered with. -/
def strdup (fuel : Nat) (malloc : Nat → Nat) (s : Nat) : ArgProg Nat := do
  let len ← strlen fuel s
  let new := malloc (len + 1)
  if new = 0 then return 0
  else
    strcpy fuel new s
    return new

end ArgProg

/-- `while(envp[envc] != NULL)` -/
def countEnv (envp : Nat) : Nat → Nat → ArgProg Nat
  | 0, _ => .stop ()
  | fuel + 1, envc => do
      let str ← argAt envp envc
      if str = 0 then return envc else countEnv envp fuel (envc + 1)

/-- The loop that fills `environ`, from the slot `i` on; `false` is `exit(-1)`.
The calls of `malloc` are numbered. -/
def copyEnv (fuel : Nat) (malloc : Nat → Nat → Nat) (environ envp : Nat) :
    Nat → Nat → ArgProg Bool
  | 0, _ => return true
  | count + 1, i => do
      let str ← argAt envp i
      let new ← strdup fuel (malloc (i + 1)) str
      storeWord (environ + 4 * i) new
      if new = 0 then return false else copyEnv fuel malloc environ envp count (i + 1)

/-- `environ`, if the program is not ended. `ready` says whether
`__lib_alloc_init` succeeds. What `malloc` answers for `environ` is not looked
at, and page `0` is never mapped. -/
def libInit (fuel : Nat) (ready : Bool) (malloc : Nat → Nat → Nat) (_argc _argv envp : Nat) :
    ArgProg (Option Nat) := do
  if ready = false then return none
  let envc ← countEnv envp fuel 0
  if envc = 0 then return some 0
  let environ := malloc 0 ((envc + 1) * 4)
  if environ = 0 then .stop ()
  let copied ← copyEnv fuel malloc environ envp envc 0
  if copied = false then return none
  storeWord (environ + 4 * envc) 0
  return some environ

/-! ## `crt0.s` -/

/-- What `main` is called with, and `environ` then. -/
structure MainCall where
  argc : Nat
  argv : Nat
  envp : Nat
  environ : Nat
deriving DecidableEq

/-- The addresses that the two calls return to, and `ebp` as `iret` leaves it. -/
structure CrtCode where
  initReturn : Nat
  mainReturn : Nat
  ebp : Nat

/-- `start`, up to the first instruction of `main`. -/
def crtStart (code : CrtCode) (init : Nat → Nat → Nat → ArgProg (Option Nat)) (esp : Nat) :
    ArgProg (Option MainCall) := do
  let ebp ← pushWord esp code.ebp
  let envp ← loadWord (u32 (ebp + 12))
  let esp ← pushWord ebp envp
  let argv ← loadWord (u32 (ebp + 8))
  let esp ← pushWord esp argv
  let argc ← loadWord (u32 (ebp + 4))
  let esp ← pushWord esp argc
  let frame ← pushWord esp code.initReturn
  let initArgc ← callArg frame 0
  let initArgv ← callArg frame 1
  let initEnvp ← callArg frame 2
  match ← init initArgc initArgv initEnvp with
  | none => return none
  | some environ =>
      let frame ← pushWord esp code.mainReturn
      let argc ← callArg frame 0
      let argv ← callArg frame 1
      let envp ← callArg frame 2
      return some ⟨argc, argv, envp, environ⟩

/-- What `_exec_replace_process_image` does with the arguments while the memory of
the old image is the current one: `argc`, and the block for the new one. -/
def execArguments (fuel : Nat) (kmalloc kmamalloc : Nat → Nat) (argv envp : Nat) :
    ArgProg (Nat × ArgBlock) := do
  let stored ← storeArguments kmalloc fuel argv envp
  let argc ← countEnv argv fuel 0
  let block ← execCopyArguments kmamalloc fuel stored.argv stored.envp
  return (argc, block)

/-- What is done in the memory of the new image: the stack, and the start of the
program. -/
def programStart (fuel : Nat) (code : CrtCode) (ready : Bool) (malloc : Nat → Nat → Nat)
    (stack argc argv envp : Nat) : ArgProg (Option MainCall) := do
  let esp ← setupUserStack stack argc argv envp
  crtStart code (libInit fuel ready malloc) esp

/-! ## Words on the stack -/

/-- From `a` on are these words. -/
def StackAt (m : Nat → UInt8) : Nat → List Nat → Prop
  | _, [] => True
  | a, w :: ws => a + 4 ≤ 4294967296 ∧ wordIn m a = w ∧ StackAt m (a + 4) ws

section Stack

variable {m m' : Nat → UInt8} {a esp w : Nat} {ws : List Nat}

theorem StackAt.frame (h : StackAt m a ws)
    (hm : ∀ x, InBlock a (4 * ws.length) x → m' x = m x) : StackAt m' a ws := by
  induction ws generalizing a with
  | nil => trivial
  | cons w ws ih =>
      obtain ⟨hfits, hword, hrest⟩ := h
      rw [List.length_cons] at hm
      refine ⟨hfits, (wordIn_congr fun j hj => hm _ ⟨by omega, by omega⟩).trans hword, ih hrest ?_⟩
      intro x hx
      exact hm x (hx.within (by omega) (by omega))

theorem StackAt.load (h : StackAt m a ws) {i : Nat} (hi : ws[i]? = some w) :
    (loadWord (u32 (a + 4 * i))).Finds m w := by
  induction ws generalizing a i with
  | nil => simp at hi
  | cons v ws ih =>
      obtain ⟨hfits, hword, hrest⟩ := h
      cases i with
      | zero =>
          obtain rfl : v = w := by simpa using hi
          rw [Nat.mul_zero, Nat.add_zero, u32_of_lt (by omega), ← hword]
          exact loadWord_finds m hfits
      | succ i =>
          have hnext := ih hrest (by simpa using hi)
          rwa [Nat.add_assoc, Nat.add_comm 4, ← Nat.mul_succ] at hnext

theorem StackAt.arg (h : StackAt m a ws) {i : Nat} (hi : ws[i + 1]? = some w) :
    (callArg a i).Finds m w := by
  have hload := h.load hi
  rwa [Nat.mul_add, Nat.mul_one, Nat.add_comm (4 * i), ← Nat.add_assoc] at hload

theorem pushWord_runs (h : StackAt m (a + 4) ws) (ha : a + 4 < 4294967296)
    (hw : w < 4294967296) :
    ∃ m', (pushWord (a + 4) w).Runs m a m' (InBlock a 4) ∧ StackAt m' a (w :: ws) := by
  have hesp : u32 (a + 4 + 4294967292) = a := by
    rw [u32]
    omega
  obtain ⟨m', hstore, hword⟩ := storeWord_runs m (a := a) (Nat.le_of_lt ha) hw
  refine ⟨m', ?_, Nat.le_of_lt ha, hword, h.frame fun x hx => hstore.frame fun hin => ?_⟩
  · rw [pushWord, hesp]
    exact (hstore.mono fun x hx => hx).bind MemProg.runs_pure
  · exact absurd hin.2 (Nat.not_lt.mpr hx.1)

/-- Three words, the last argument first. -/
theorem setupUserStack_runs {argc argv envp : Nat} (ha : a + 12 < 4294967296)
    (hargc : argc < 4294967296) (hargv : argv < 4294967296) (henvp : envp < 4294967296) :
    ∃ m', (setupUserStack (a + 12) argc argv envp).Runs m a m' (InBlock a 12) ∧
      StackAt m' a [argc, argv, envp] := by
  have hempty : StackAt m (a + 8 + 4) [] := trivial
  obtain ⟨m₁, hpush₁, hs₁⟩ := pushWord_runs hempty ha henvp
  obtain ⟨m₂, hpush₂, hs₂⟩ := pushWord_runs (a := a + 4) hs₁ (by omega) hargv
  obtain ⟨m₃, hpush₃, hs₃⟩ := pushWord_runs hs₂ (by omega) hargc
  exact ⟨m₃, (hpush₁.mono fun x hx => hx.within (by omega) (by omega)).bind <|
    (hpush₂.mono fun x hx => hx.within (by omega) (by omega)).bind <|
    hpush₃.mono fun x hx => hx.within (by omega) (by omega), hs₃⟩

end Stack

/-! ## The environment -/

section Environment

variable {D : Nat → Prop} {m : Nat → UInt8} {malloc : Nat → Nat → Nat} {environ envp fuel : Nat}

theorem countEnv_finds {strs : List CString} {i : Nat} (h : SlotsAt D m (envp + 4 * i) strs)
    (hnull : WordAt D m (envp + 4 * (i + strs.length)) 0) (hfuel : strs.length < fuel) :
    (countEnv envp fuel i).Finds m (i + strs.length) := by
  induction strs generalizing i fuel with
  | nil =>
      obtain ⟨fuel, rfl⟩ := Nat.exists_eq_succ_of_ne_zero (Nat.ne_of_gt hfuel)
      refine (argAt_finds hnull).bind ?_
      rw [if_pos rfl]
      exact MemProg.finds_pure
  | cons s strs ih =>
      obtain ⟨fuel, rfl⟩ := Nat.exists_eq_succ_of_ne_zero (Nat.ne_of_gt (Nat.zero_lt_of_lt hfuel))
      obtain ⟨⟨p, hp, hword, -⟩, hrest⟩ := h
      rw [List.length_cons] at hnull hfuel
      refine (argAt_finds hword).bind ?_
      rw [if_neg hp, List.length_cons, Nat.add_comm strs.length, ← Nat.add_assoc]
      refine ih (i := i + 1) ?_ ?_ (Nat.lt_of_succ_lt_succ hfuel)
      · rwa [Nat.mul_add, ← Nat.add_assoc]
      · rwa [Nat.add_assoc, Nat.add_comm 1]

theorem countEnv_args {strs : List CString} (h : ArgsAt D m envp strs)
    (hfuel : strs.length < fuel) : (countEnv envp fuel 0).Finds m strs.length := by
  have hcount := @countEnv_finds D m envp fuel strs 0 h.slots
    (by rw [Nat.zero_add]; exact h.null) hfuel
  rwa [Nat.zero_add] at hcount

theorem strcpy_runs {s : CString} {dest src : Nat} (h : StrAt D m src s)
    (hfits : dest + (s.length + 1) ≤ 4294967296) (hfuel : s.length < fuel)
    (hapart : ∀ x, D x → ¬ InBlock dest (s.length + 1) x) :
    ∃ m', (strcpy fuel dest src).Runs m () m' (InBlock dest (s.length + 1)) ∧
      StrAt (InBlock dest (s.length + 1)) m' dest s := by
  induction s generalizing m dest src fuel with
  | nil =>
      obtain ⟨fuel, rfl⟩ := Nat.exists_eq_succ_of_ne_zero (Nat.ne_of_gt hfuel)
      simp only [List.length_nil] at hfits hapart ⊢
      have hin : InBlock dest (0 + 1) dest := ⟨Nat.le_refl _, by omega⟩
      refine ⟨Function.update m dest 0, (load_finds m h.1).runs.bind ?_, by omega, hin,
        Function.update_self ..⟩
      rw [h.2.2]
      exact (store_runs m (by omega) hin).bind MemProg.runs_pure
  | cons c s ih =>
      obtain ⟨fuel, rfl⟩ := Nat.exists_eq_succ_of_ne_zero (Nat.ne_of_gt (Nat.zero_lt_of_lt hfuel))
      obtain ⟨hsrc, -, hbyte, hrest⟩ := h
      rw [List.length_cons] at hfits hfuel
      simp only [List.length_cons] at hapart ⊢
      have hin : InBlock dest (s.length + 1 + 1) dest := ⟨Nat.le_refl _, by omega⟩
      have hinner {x : Nat} (hx : InBlock (dest + 1) (s.length + 1) x) :
          InBlock dest (s.length + 1 + 1) x := hx.within (by omega) (by omega)
      -- the rest of the string is not where its first character goes
      have hrest' : StrAt D (Function.update m dest c.val) (src + 1) s :=
        hrest.transfer fun x hx => by
          have hne : x ≠ dest := fun he => hapart x hx (by rwa [he])
          exact ⟨Function.update_of_ne hne .., hx⟩
      obtain ⟨m', hrun, hstr⟩ := ih hrest' (by omega) (Nat.lt_of_succ_lt_succ hfuel)
        fun x hx hx' => hapart x hx (hinner hx')
      refine ⟨m', (load_finds m hsrc).runs.bind ?_, by omega, hin, ?_, ?_⟩
      · rw [hbyte]
        refine (store_runs m (by omega) hin).bind ?_
        rw [if_neg c.property]
        exact hrun.mono fun x hx => hinner hx
      · rw [hrun.frame fun hx => absurd hx.1 (by omega), Function.update_self]
      · exact hstr.transfer fun x hx => ⟨rfl, hinner hx⟩

theorem strdup_runs {s : CString} {src : Nat} {malloc : Nat → Nat} (h : StrAt D m src s)
    (hne : malloc (s.length + 1) ≠ 0)
    (hfits : malloc (s.length + 1) + (s.length + 1) ≤ 4294967296) (hfuel : s.length < fuel)
    (hapart : ∀ x, D x → ¬ InBlock (malloc (s.length + 1)) (s.length + 1) x) :
    ∃ m', (strdup fuel malloc src).Runs m (malloc (s.length + 1)) m'
        (InBlock (malloc (s.length + 1)) (s.length + 1)) ∧
      StrAt (InBlock (malloc (s.length + 1)) (s.length + 1)) m' (malloc (s.length + 1)) s := by
  obtain ⟨m', hrun, hstr⟩ := strcpy_runs h hfits hfuel hapart
  refine ⟨m', (strlen_finds h hfuel).runs.bind ?_, hstr⟩
  dsimp only
  rw [if_neg hne]
  exact hrun.bind MemProg.runs_pure

/-- The blocks of the strings from the `i`-th on: address and size. -/
def envBlocks (malloc : Nat → Nat → Nat) : Nat → List CString → List (Nat × Nat)
  | _, [] => []
  | i, s :: strs => (malloc (i + 1) (s.length + 1), s.length + 1) :: envBlocks malloc (i + 1) strs

/-- A byte of one of these blocks. -/
def InBlocks (blocks : List (Nat × Nat)) (x : Nat) : Prop := ∃ b ∈ blocks, InBlock b.1 b.2 x

def BlocksApart (b b' : Nat × Nat) : Prop := ∀ x, InBlock b.1 b.2 x → ¬ InBlock b'.1 b'.2 x

/-- A block that `malloc` may give, apart from what is in use. -/
structure FreshBlockAt (used : Nat → Prop) (b : Nat × Nat) : Prop where
  nonnull : b.1 ≠ 0
  fits : b.1 + b.2 ≤ 4294967296
  apart : ∀ x, used x → ¬ InBlock b.1 b.2 x

/-- What the loop stores to. -/
def CopyWrites (environ i : Nat) (blocks : List (Nat × Nat)) (x : Nat) : Prop :=
  InBlock (environ + 4 * i) (4 * blocks.length) x ∨ InBlocks blocks x

@[simp] theorem envBlocks_length (i : Nat) (strs : List CString) :
    (envBlocks malloc i strs).length = strs.length := by
  induction strs generalizing i with
  | nil => rfl
  | cons s strs ih => rw [envBlocks, List.length_cons, ih, List.length_cons]

theorem copyEnv_runs {strs : List CString} {i size : Nat} (h : SlotsAt D m (envp + 4 * i) strs)
    (hf : ∀ s ∈ strs, s.length < fuel) (hsize : 4 * (i + strs.length) ≤ size)
    (hfits : environ + size ≤ 4294967296) (henviron : ∀ x, D x → ¬ InBlock environ size x)
    (hfresh : ∀ b ∈ envBlocks malloc i strs, FreshBlockAt (fun x => D x ∨ InBlock environ size x) b)
    (hapart : (envBlocks malloc i strs).Pairwise BlocksApart) :
    ∃ m', (copyEnv fuel malloc environ envp strs.length i).Runs m true m'
        (CopyWrites environ i (envBlocks malloc i strs)) ∧
      SlotsAt (CopyWrites environ i (envBlocks malloc i strs)) m' (environ + 4 * i) strs := by
  induction strs generalizing m i with
  | nil => exact ⟨m, MemProg.runs_pure, trivial⟩
  | cons s strs ih =>
      obtain ⟨⟨p, hp, hword, hstr⟩, hrest⟩ := h
      simp only [List.forall_mem_cons, List.length_cons] at hf hsize
      simp only [envBlocks, List.forall_mem_cons, List.pairwise_cons] at hfresh hapart ⊢
      obtain ⟨⟨hne, hroom, hout⟩, hlater⟩ := hfresh
      obtain ⟨hapart₀, hapart'⟩ := hapart
      generalize hnew : malloc (i + 1) (s.length + 1) = new at hne hroom hout hapart₀ ⊢
      -- the copy, and its address
      obtain ⟨m₁, hdup, hcopy⟩ := @strdup_runs D m fuel s p (malloc (i + 1)) hstr
        (by rwa [hnew]) (by rwa [hnew]) hf.1 (by rw [hnew]; exact fun x hx => hout x (.inl hx))
      rw [hnew] at hdup hcopy
      obtain ⟨m₂, hstore, hslot⟩ := storeWord_runs m₁ (a := environ + 4 * i) (w := new) (by omega)
        (by omega)
      have hinSlots {x : Nat} (hx : WordBytes (environ + 4 * i) x) : InBlock environ size x :=
        InBlock.within (n := 4) hx (by omega) (by omega)
      -- the others
      have hrest₂ : SlotsAt D m₂ (envp + 4 * (i + 1)) strs := by
        rw [Nat.mul_add, ← Nat.add_assoc]
        refine hrest.transfer fun x hx => ⟨?_, hx⟩
        rw [hstore.frame fun hin => henviron x hx (hinSlots hin), hdup.frame (hout x (.inl hx))]
      obtain ⟨m', hloop, hslots⟩ := ih hrest₂ hf.2 (by omega) hlater hapart'
      have hwiden {x : Nat} (hx : CopyWrites environ (i + 1) (envBlocks malloc (i + 1) strs) x) :
          CopyWrites environ i ((new, s.length + 1) :: envBlocks malloc (i + 1) strs) x := by
        rcases hx with hx | ⟨b, hb, hx⟩
        · exact .inl (hx.within (by omega) (by rw [List.length_cons]; omega))
        · exact .inr ⟨b, List.mem_cons_of_mem _ hb, hx⟩
      have hown {x : Nat} (hx : InBlock new (s.length + 1) x) :
          CopyWrites environ i ((new, s.length + 1) :: envBlocks malloc (i + 1) strs) x :=
        .inr ⟨_, List.mem_cons_self, hx⟩
      have hslotWrites {x : Nat} (hx : WordBytes (environ + 4 * i) x) :
          CopyWrites environ i ((new, s.length + 1) :: envBlocks malloc (i + 1) strs) x :=
        .inl (InBlock.within (n := 4) hx (Nat.le_refl _) (by rw [List.length_cons]; omega))
      refine ⟨m', ?_, ⟨new, hne, ⟨by omega, fun x hx => hslotWrites hx, ?_⟩, ?_⟩, ?_⟩
      · rw [List.length_cons, copyEnv]
        refine (argAt_finds hword).runs.bind <| (hdup.mono fun x hx => hown hx).bind <|
          (hstore.mono fun x hx => hslotWrites hx).bind ?_
        rw [if_neg hne]
        exact hloop.mono fun x hx => hwiden hx
      · -- the slots that follow are others, and so are the blocks
        refine (wordIn_congr fun j hj => hloop.frame ?_).trans hslot
        rintro (hx | ⟨b, hb, hx⟩)
        · have := hx.1
          omega
        · exact (hlater b hb).apart _ (.inr (hinSlots ⟨by omega, by omega⟩)) hx
      · refine hcopy.transfer fun x hx => ⟨?_, hown hx⟩
        rw [hloop.frame, hstore.frame]
        · exact fun hin => hout x (.inr (hinSlots hin)) hx
        · rintro (hin | ⟨b, hb, hin⟩)
          · rw [envBlocks_length] at hin
            exact hout x (.inr (hin.within (by omega) (by omega))) hx
          · exact hapart₀ b hb x hx hin
      · rw [Nat.mul_add, ← Nat.add_assoc] at hslots
        exact hslots.transfer fun x hx => ⟨rfl, hwiden hx⟩

/-- Where `environ` is to point. -/
def envAddr (malloc : Nat → Nat → Nat) (es : List CString) : Nat :=
  if es = [] then 0 else malloc 0 ((es.length + 1) * 4)

/-- The blocks that `_lib_init` asks for, the array first. -/
def initBlocks (malloc : Nat → Nat → Nat) (es : List CString) : List (Nat × Nat) :=
  if es = [] then []
  else (malloc 0 ((es.length + 1) * 4), (es.length + 1) * 4) :: envBlocks malloc 0 es

/-- The blocks are apart from each other and from what is in use. -/
structure BlocksFresh (malloc : Nat → Nat → Nat) (es : List CString) (used : Nat → Prop) :
    Prop where
  fresh : ∀ b ∈ initBlocks malloc es, FreshBlockAt used b
  apart : (initBlocks malloc es).Pairwise BlocksApart

theorem libInit_runs {es : List CString} (argc argv : Nat) (h : ArgsAt D m envp es)
    (hf : ∀ s ∈ es, s.length < fuel) (hfuel : es.length < fuel) (hroom : BlocksFresh malloc es D) :
    ∃ m', (libInit fuel true malloc argc argv envp).Runs m (some (envAddr malloc es)) m'
        (InBlocks (initBlocks malloc es)) ∧
      (es ≠ [] → ArgsAt (InBlocks (initBlocks malloc es)) m' (envAddr malloc es) es) := by
  have hcount := countEnv_args h hfuel
  by_cases hnil : es = []
  · subst hnil
    refine ⟨m, hcount.runs.bind ?_, fun hne => absurd rfl hne⟩
    exact MemProg.runs_pure
  · obtain ⟨hfresh, hapart⟩ := hroom
    have hlength : es.length ≠ 0 := mt List.eq_nil_of_length_eq_zero hnil
    simp only [initBlocks, envAddr, if_neg hnil] at hfresh hapart ⊢
    obtain ⟨environ, henviron⟩ : ∃ environ, malloc 0 ((es.length + 1) * 4) = environ := ⟨_, rfl⟩
    rw [henviron] at hfresh hapart ⊢
    obtain ⟨⟨hne, hfits, hout⟩, hstrs⟩ := List.forall_mem_cons.mp hfresh
    obtain ⟨hapart₀, hapart'⟩ := List.pairwise_cons.mp hapart
    dsimp only at hne hfits hout
    have hblocks : ∀ b ∈ envBlocks malloc 0 es,
        FreshBlockAt (fun x => D x ∨ InBlock environ ((es.length + 1) * 4) x) b := fun b hb =>
      ⟨(hstrs b hb).nonnull, (hstrs b hb).fits,
        fun x hx => hx.elim ((hstrs b hb).apart x) (hapart₀ b hb x)⟩
    obtain ⟨m₁, hcopy, hslots⟩ := copyEnv_runs (i := 0) h.slots hf (by omega) hfits hout hblocks
      hapart'
    obtain ⟨m', hstore, hnull⟩ := storeWord_runs m₁ (a := environ + 4 * es.length) (w := 0)
      (by omega) (by decide)
    have hlast {x : Nat} (hx : WordBytes (environ + 4 * es.length) x) :
        InBlock environ ((es.length + 1) * 4) x :=
      InBlock.within (n := 4) hx (by omega) (by omega)
    have hwiden {x : Nat} (hx : CopyWrites environ 0 (envBlocks malloc 0 es) x) :
        InBlocks ((environ, (es.length + 1) * 4) :: envBlocks malloc 0 es) x := by
      rcases hx with hx | ⟨b, hb, hx⟩
      · rw [envBlocks_length] at hx
        exact ⟨_, List.mem_cons_self, hx.within (Nat.le_refl _) (by omega)⟩
      · exact ⟨b, List.mem_cons_of_mem _ hb, hx⟩
    refine ⟨m', hcount.runs.bind ?_, fun _ => ⟨hslots.transfer fun x hx => ⟨?_, hwiden hx⟩, ?_⟩⟩
    · dsimp only
      rw [if_neg hlength, henviron, if_neg hne]
      refine (hcopy.mono fun x hx => hwiden hx).bind ?_
      exact (hstore.mono fun x hx => ⟨_, List.mem_cons_self, hlast hx⟩).bind MemProg.runs_pure
    · refine hstore.frame fun hin => ?_
      rcases hx with hx | ⟨b, hb, hx⟩
      · have := hx.2
        rw [envBlocks_length] at this
        exact absurd hin.1 (by omega)
      · exact (hblocks b hb).apart x (.inr (hlast hin)) hx
    · exact ⟨by omega, fun x hx => ⟨_, List.mem_cons_self, hlast hx⟩, hnull⟩

end Environment

/-! ## The start -/

section Start

variable {m : Nat → UInt8} {code : CrtCode} {a argc argv envp environ : Nat}
  {init : Nat → Nat → Nat → ArgProg (Option Nat)} {W : Nat → Prop} {Q : (Nat → UInt8) → Prop}

/-- The addresses are words. -/
structure CrtCode.Words (code : CrtCode) : Prop where
  initReturn : code.initReturn < 4294967296
  mainReturn : code.mainReturn < 4294967296
  ebp : code.ebp < 4294967296

/-- `main` is called with what is on the stack, after a `_lib_init` that leaves the
stack alone. -/
theorem crtStart_runs (h : StackAt m (a + 20) [argc, argv, envp]) (ha : a + 32 < 4294967296)
    (hcode : code.Words) (hargc : argc < 4294967296) (hargv : argv < 4294967296)
    (henvp : envp < 4294967296)
    (hinit : ∀ m₁, (∀ x, ¬ InBlock a 20 x → m₁ x = m x) →
      ∃ m₂, (init argc argv envp).Runs m₁ (some environ) m₂ W ∧ Q m₂)
    (hW : ∀ x, W x → ¬ InBlock a 32 x) :
    ∃ m₂ m', (crtStart code init (a + 20)).Runs m (some ⟨argc, argv, envp, environ⟩) m'
        (fun x => InBlock a 20 x ∨ W x) ∧ Q m₂ ∧ ∀ x, ¬ InBlock a 20 x → m' x = m₂ x := by
  have hwiden {b x : Nat} (hb : a ≤ b ∧ b ≤ a + 16) (hx : InBlock b 4 x) : InBlock a 20 x :=
    hx.within hb.1 (Nat.add_le_add_right hb.2 4)
  -- `ebp`, and the three words once more
  obtain ⟨m₁, hpush₁, hs₁⟩ := pushWord_runs (a := a + 16) h (by omega) hcode.ebp
  obtain ⟨m₂, hpush₂, hs₂⟩ := pushWord_runs (a := a + 12) hs₁ (by omega) henvp
  obtain ⟨m₃, hpush₃, hs₃⟩ := pushWord_runs (a := a + 8) hs₂ (by omega) hargv
  obtain ⟨m₄, hpush₄, hs₄⟩ := pushWord_runs (a := a + 4) hs₃ (by omega) hargc
  obtain ⟨m₅, hpush₅, hs₅⟩ := pushWord_runs hs₄ (by omega) hcode.initReturn
  obtain ⟨m₆, hrun, hQ⟩ := hinit m₅ fun x hx => by
    rw [hpush₅.frame fun hin => hx (hwiden ⟨by omega, by omega⟩ hin),
      hpush₄.frame fun hin => hx (hwiden ⟨by omega, by omega⟩ hin),
      hpush₃.frame fun hin => hx (hwiden ⟨by omega, by omega⟩ hin),
      hpush₂.frame fun hin => hx (hwiden ⟨by omega, by omega⟩ hin),
      hpush₁.frame fun hin => hx (hwiden ⟨by omega, by omega⟩ hin)]
  have hs₆ : StackAt m₆ (a + 4) [argc, argv, envp, code.ebp, argc, argv, envp] :=
    hs₅.2.2.frame fun x hx => hrun.frame fun hin => hW x hin
      (InBlock.within (n := 28) hx (Nat.le_add_right a 4) (Nat.le_refl _))
  obtain ⟨m', hpush₇, hs₇⟩ := pushWord_runs hs₆ (by omega) hcode.mainReturn
  refine ⟨m₆, m', ?_, hQ, fun x hx => hpush₇.frame fun hin => hx (hwiden ⟨by omega, by omega⟩ hin)⟩
  have hstack {b x : Nat} (hb : a ≤ b ∧ b ≤ a + 16) (hx : InBlock b 4 x) :
      InBlock a 20 x ∨ W x := .inl (hwiden hb hx)
  rw [crtStart]
  refine (hpush₁.mono fun x hx => hstack ⟨by omega, by omega⟩ hx).bind <|
    (hs₁.load (i := 3) rfl).runs.bind <|
    (hpush₂.mono fun x hx => hstack ⟨by omega, by omega⟩ hx).bind <|
    (hs₂.2.2.load (i := 2) rfl).runs.bind <|
    (hpush₃.mono fun x hx => hstack ⟨by omega, by omega⟩ hx).bind <|
    (hs₃.2.2.2.2.load (i := 1) rfl).runs.bind <|
    (hpush₄.mono fun x hx => hstack ⟨by omega, by omega⟩ hx).bind <|
    (hpush₅.mono fun x hx => hstack ⟨by omega, by omega⟩ hx).bind <|
    (hs₅.arg (i := 0) rfl).runs.bind <| (hs₅.arg (i := 1) rfl).runs.bind <|
    (hs₅.arg (i := 2) rfl).runs.bind <| (hrun.mono fun x hx => .inr hx).bind ?_
  exact (hpush₇.mono fun x hx => hstack ⟨by omega, by omega⟩ hx).bind <|
    (hs₇.arg (i := 0) rfl).runs.bind <| (hs₇.arg (i := 1) rfl).runs.bind <|
    (hs₇.arg (i := 2) rfl).runs.bind MemProg.runs_pure

end Start

section Program

variable {as es : List CString} {m : Nat → UInt8} {argv envp fuel stack : Nat}
  {kmalloc kmamalloc : Nat → Nat} {malloc : Nat → Nat → Nat} {code : CrtCode}

theorem length_lt_argsSize (as es : List CString) :
    as.length < argsSize as es ∧ es.length < argsSize as es ∧
      ∀ s ∈ es, s.length < argsSize as es := by
  have hpos : argsSize as es = 4 * (as.length + es.length + 2) + strBytes as + strBytes es := rfl
  refine ⟨by omega, by omega, fun s hs => ?_⟩
  have hlt := length_lt_strBytes hs
  omega

theorem execArguments_runs (hsize : argsSize as es < 4294967296) (hfuel : argsSize as es ≤ fuel)
    (hargs : ArgsOutside m argv envp as es (kmalloc (argsSize as es)))
    (hfits : kmamalloc (argsSize as es) + argsSize as es ≤ 4294967296)
    (hapart : ∀ x, InBlock (kmalloc (argsSize as es)) (argsSize as es) x →
      ¬ InBlock (kmamalloc (argsSize as es)) (argsSize as es) x) :
    ∃ block m', (execArguments fuel kmalloc kmamalloc argv envp).Runs m (as.length, block) m'
        (fun x => InBlock (kmalloc (argsSize as es)) (argsSize as es) x ∨
          InBlock (kmamalloc (argsSize as es)) (argsSize as es) x) ∧
      Filled m' block (kmamalloc (argsSize as es)) (argsSize as es) as es := by
  obtain ⟨r, m₁, hstore, hstored⟩ := storeArguments_runs hsize hfuel hargs
  have hargv₁ : ArgsAt (fun x => ¬ InBlock (kmalloc (argsSize as es)) (argsSize as es) x) m₁
      argv as := hargs.argv.transfer fun x hx => ⟨hstore.frame hx, hx⟩
  have hcount := countEnv_args hargv₁ (Nat.lt_of_lt_of_le (length_lt_argsSize as es).1 hfuel)
  have hout : ArgsOutside m₁ r.argv r.envp as es (kmamalloc (argsSize as es)) :=
    ⟨hfits, hstored.argv.transfer fun x hx => ⟨rfl, hapart x hx⟩,
      hstored.envp.transfer fun x hx => ⟨rfl, hapart x hx⟩⟩
  obtain ⟨block, m', hcopy, hfilled⟩ := execCopyArguments_runs hsize hfuel hout
  exact ⟨block, m', (hstore.mono fun x hx => .inl hx).bind <| hcount.runs.bind <|
    (hcopy.mono fun x hx => .inr hx).bind MemProg.runs_pure, hfilled⟩

theorem ArgsAt.addr_lt {D : Nat → Prop} {array : Nat} {strs : List CString}
    (h : ArgsAt D m array strs) : array < 4294967296 := by
  have hfits := h.null.fits
  omega

theorem programStart_runs {D : Nat → Prop} {argc : Nat} (hargv : ArgsAt D m argv as)
    (henvp : ArgsAt D m envp es) (hfuel : ∀ s ∈ es, s.length < fuel) (hcount : es.length < fuel)
    (hargc : argc < 4294967296) (hcode : code.Words) (hlo : 32 ≤ stack) (hhi : stack < 4294967296)
    (hout : ∀ x, D x → ¬ InBlock (stack - 32) 32 x)
    (hroom : BlocksFresh malloc es fun x => D x ∨ InBlock (stack - 32) 32 x) :
    ∃ m', (programStart fuel code true malloc stack argc argv envp).Runs m
        (some ⟨argc, argv, envp, envAddr malloc es⟩) m'
        (fun x => InBlock (stack - 32) 32 x ∨ InBlocks (initBlocks malloc es) x) ∧
      ArgsAt D m' argv as ∧ ArgsAt D m' envp es ∧
      (es ≠ [] → ArgsAt (InBlocks (initBlocks malloc es)) m' (envAddr malloc es) es) := by
  obtain ⟨a, rfl⟩ : ∃ a, stack = a + 32 := ⟨stack - 32, by omega⟩
  rw [Nat.add_sub_cancel] at hout hroom ⊢
  have hblocks {x : Nat} (hx : InBlocks (initBlocks malloc es) x) : ¬ D x ∧ ¬ InBlock a 32 x := by
    obtain ⟨b, hb, hin⟩ := hx
    exact ⟨fun hd => (hroom.fresh b hb).apart x (.inl hd) hin,
      fun hs => (hroom.fresh b hb).apart x (.inr hs) hin⟩
  have hin₂₀ {x : Nat} (hx : InBlock a 20 x) : InBlock a 32 x :=
    hx.within (Nat.le_refl a) (by omega)
  have hin₁₂ {x : Nat} (hx : InBlock (a + 20) 12 x) : InBlock a 32 x :=
    hx.within (by omega) (Nat.le_refl _)
  obtain ⟨m₁, hsetup, hstack⟩ := setupUserStack_runs (a := a + 20) (m := m) hhi hargc
    hargv.addr_lt henvp.addr_lt
  -- the arguments are not on the stack
  have hkept₁ {x : Nat} (hx : D x) : m₁ x = m x := hsetup.frame fun hin => hout x hx (hin₁₂ hin)
  have hinit (n : Nat → UInt8) (hn : ∀ x, ¬ InBlock a 20 x → n x = m₁ x) :
      ∃ n', (libInit fuel true malloc argc argv envp).Runs n (some (envAddr malloc es)) n'
          (InBlocks (initBlocks malloc es)) ∧
        (es ≠ [] → ArgsAt (InBlocks (initBlocks malloc es)) n' (envAddr malloc es) es) ∧
        ∀ x, D x → n' x = m x := by
    have hkeptn {x : Nat} (hx : D x) : n x = m x := by
      rw [hn x fun hin => hout x hx (hin₂₀ hin), hkept₁ hx]
    have hfresh : BlocksFresh malloc es D :=
      ⟨fun b hb => ⟨(hroom.fresh b hb).nonnull, (hroom.fresh b hb).fits,
        fun x hx => (hroom.fresh b hb).apart x (.inl hx)⟩, hroom.apart⟩
    obtain ⟨n', hrun, hcopied⟩ := libInit_runs argc argv
      (henvp.transfer fun x hx => ⟨hkeptn hx, hx⟩) hfuel hcount hfresh
    refine ⟨n', hrun, hcopied, fun x hx => ?_⟩
    rw [hrun.frame fun hin => (hblocks hin).1 hx, hkeptn hx]
  obtain ⟨m₂, m', hstart, ⟨henviron, hsame⟩, hend⟩ := crtStart_runs hstack hhi hcode
    hargc hargv.addr_lt henvp.addr_lt hinit fun x hx => (hblocks hx).2
  have hkept {x : Nat} (hx : D x) : m' x = m x := by
    rw [hend x fun hin => hout x hx (hin₂₀ hin), hsame x hx]
  refine ⟨m', (hsetup.mono fun x hx => .inl (hin₁₂ hx)).bind <|
    hstart.mono fun x hx => hx.imp_left hin₂₀,
    hargv.transfer fun x hx => ⟨hkept hx, hx⟩, henvp.transfer fun x hx => ⟨hkept hx, hx⟩,
    fun hne => (henviron hne).transfer fun x hx => ⟨?_, hx⟩⟩
  exact hend x fun hin => (hblocks hx).2 (hin₂₀ hin)

/-- From any arrays of strings that `execve` is given, `main` of the new program gets
their number and arrays of the same strings, and `environ` is an array of those of
the environment in blocks of its own. The arrays, the strings and the words that are
pushed go to these blocks and to the top of the new stack. -/
theorem program_start (hsize : argsSize as es < 4294967296) (hfuel : argsSize as es ≤ fuel)
    (hargs : ArgsOutside m argv envp as es (kmalloc (argsSize as es)))
    (hfits : kmamalloc (argsSize as es) + argsSize as es ≤ 4294967296)
    (hapart : ∀ x, InBlock (kmalloc (argsSize as es)) (argsSize as es) x →
      ¬ InBlock (kmamalloc (argsSize as es)) (argsSize as es) x)
    (hcode : code.Words) (hlo : 32 ≤ stack) (hhi : stack < 4294967296)
    (hstack : ∀ x, InBlock (kmamalloc (argsSize as es)) (argsSize as es) x →
      ¬ InBlock (stack - 32) 32 x)
    (hroom : BlocksFresh malloc es fun x =>
      InBlock (kmamalloc (argsSize as es)) (argsSize as es) x ∨ InBlock (stack - 32) 32 x) :
    ∃ argc block m₁, (execArguments fuel kmalloc kmamalloc argv envp).Runs m (argc, block) m₁
        (fun x => InBlock (kmalloc (argsSize as es)) (argsSize as es) x ∨
          InBlock (kmamalloc (argsSize as es)) (argsSize as es) x) ∧
      ∀ m₂ : Nat → UInt8, (∀ x, InBlock (kmamalloc (argsSize as es)) (argsSize as es) x →
          m₂ x = m₁ x) →
        ∃ m', (programStart fuel code true malloc stack argc block.argv block.envp).Runs m₂
            (some ⟨as.length, block.argv, block.envp, envAddr malloc es⟩) m'
            (fun x => InBlock (stack - 32) 32 x ∨ InBlocks (initBlocks malloc es) x) ∧
          ArgsAt (InBlock (kmamalloc (argsSize as es)) (argsSize as es)) m' block.argv as ∧
          ArgsAt (InBlock (kmamalloc (argsSize as es)) (argsSize as es)) m' block.envp es ∧
          (es ≠ [] → ArgsAt (InBlocks (initBlocks malloc es)) m' (envAddr malloc es) es) := by
  obtain ⟨block, m₁, hrun, hfilled⟩ := execArguments_runs hsize hfuel hargs hfits hapart
  obtain ⟨hargc, hcount, hstrs⟩ := length_lt_argsSize as es
  refine ⟨as.length, block, m₁, hrun, fun m₂ hkept => ?_⟩
  exact programStart_runs (hfilled.argv.transfer fun x hx => ⟨hkept x hx, hx⟩)
    (hfilled.envp.transfer fun x hx => ⟨hkept x hx, hx⟩)
    (fun s hs => Nat.lt_of_lt_of_le (hstrs s hs) hfuel) (Nat.lt_of_lt_of_le hcount hfuel)
    (Nat.lt_trans hargc hsize) hcode hlo hhi hstack hroom

end Program

/-! ## One argument and one variable -/

/-- `argv` at 16 is `{"/", NULL}`, and `envp` at 24 is `{"A=", NULL}`. -/
def assignArgs : Nat → UInt8 := fun x =>
  if x = 16 then 32 else if x = 24 then 40 else if x = 32 then 47 else if x = 40 then 65
  else if x = 41 then 61 else 0

def assignEnv : List CString := [CString.ofBytes [65, 61]]

theorem assignArgs_outside : ArgsOutside assignArgs 16 24 [[slash]] assignEnv 4096 := by
  have hsize : argsSize [[slash]] assignEnv = 21 := rfl
  have hout : ∀ x, x < 43 → ¬ InBlock 4096 (argsSize [[slash]] assignEnv) x := by
    intro x hx hin
    have := hin.1
    omega
  have hword : ∀ a, a ≤ 32 → ∀ x, WordBytes a x →
      ¬ InBlock 4096 (argsSize [[slash]] assignEnv) x :=
    fun a ha x hx => hout x (by have := hx.2; omega)
  exact ⟨by rw [hsize]; decide,
    ⟨⟨⟨32, by decide, ⟨by decide, hword 16 (by decide), by decide⟩, by decide, hout 32 (by decide),
      rfl, by decide, hout 33 (by decide), rfl⟩, trivial⟩,
      ⟨by decide, hword 20 (by decide), by decide⟩⟩,
    ⟨⟨⟨40, by decide, ⟨by decide, hword 24 (by decide), by decide⟩, by decide, hout 40 (by decide),
      rfl, by decide, hout 41 (by decide), rfl, by decide, hout 42 (by decide), rfl⟩, trivial⟩,
      ⟨by decide, hword 28 (by decide), by decide⟩⟩⟩

/-- `environ` is at `0x20000`, its string at `0x20100`. -/
theorem assignEnv_fresh : BlocksFresh (fun i _ => 0x20000 + 0x100 * i) assignEnv
    fun x => InBlock 8192 21 x ∨ InBlock (0x10000 - 32) 32 x := by
  have hblocks : initBlocks (fun i _ => 0x20000 + 0x100 * i) assignEnv =
      [(0x20000, 8), (0x20100, 3)] := rfl
  refine ⟨?_, ?_⟩
  · rw [hblocks]
    simp only [List.forall_mem_cons, List.not_mem_nil, false_imp_iff, implies_true, and_true]
    constructor <;> refine ⟨by decide, by decide, fun x hx hin => ?_⟩ <;>
      simp only [InBlock] at hx hin <;> omega
  · rw [hblocks]
    simp only [List.pairwise_cons, List.mem_singleton, forall_eq, List.not_mem_nil, false_imp_iff,
      implies_true, List.Pairwise.nil, and_true]
    intro x hx hin
    simp only [InBlock] at hx hin
    omega

theorem program_start_assign :
    ∃ argc block m₁, (execArguments 21 (fun _ => 4096) (fun _ => 8192) 16 24).Runs assignArgs
        (argc, block) m₁ (fun x => InBlock 4096 21 x ∨ InBlock 8192 21 x) ∧
      ∃ m', (programStart 21 ⟨1, 2, 3⟩ true (fun i _ => 0x20000 + 0x100 * i) 0x10000 argc
          block.argv block.envp).Runs m₁ (some ⟨1, block.argv, block.envp, 0x20000⟩) m'
          (fun x => InBlock (0x10000 - 32) 32 x ∨
            InBlocks (initBlocks (fun i _ => 0x20000 + 0x100 * i) assignEnv) x) := by
  have hapart : ∀ x, InBlock 4096 21 x → ¬ InBlock 8192 21 x := by
    intro x hx hin
    simp only [InBlock] at hx hin
    omega
  have hstack : ∀ x, InBlock 8192 21 x → ¬ InBlock (0x10000 - 32) 32 x := by
    intro x hx hin
    simp only [InBlock] at hx hin
    omega
  obtain ⟨argc, block, m₁, hrun, hnext⟩ := @program_start [[slash]] assignEnv assignArgs 16 24 21
    0x10000 (fun _ => 4096) (fun _ => 8192) (fun i _ => 0x20000 + 0x100 * i) ⟨1, 2, 3⟩ (by decide)
    (by decide) assignArgs_outside (by decide) hapart ⟨by decide, by decide, by decide⟩ (by decide)
    (by decide) hstack assignEnv_fresh
  obtain ⟨m', hstart, -⟩ := hnext m₁ fun _ _ => rfl
  exact ⟨argc, block, m₁, hrun, m', hstart⟩

end LambdaOs
