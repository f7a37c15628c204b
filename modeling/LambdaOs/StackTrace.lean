import LambdaOs.Elf
import LambdaOs.FirstLeast
import LambdaOs.MemMove
import LambdaOs.Records
import LambdaOs.RemapPage

/-!
# Stack traces

`arch/x86/src/proc/stack_trace.c`, and `_do_stack_trace` of
`arch/x86/src/intr/cexceptions.c`, with which an exception is reported. Memory is
read through the page tables of the current process, whatever they and the
registers hold: a read of a page that is not there would be another exception.

Before each frame the pages of `ebp` and `ebp + 4` are looked up; as `ebp` is a
pointer to words, the second is 16 bytes away, which is enough for the two words
that are read. So the trace ends (`stack_trace_frames`), and the frames are those
of the chain of saved `ebp`, up to the first that ends it. For each the symbol is
the nearest below, with `FirstLeast` for the scan.
-/

namespace LambdaOs

/-! ## Memory through the page tables -/

/-- The tables, the one that is current, and the bytes of the frames. -/
structure VirtView where
  pages : PageMem
  table : Nat
  bytes : Nat → UInt8

namespace VirtView

variable (V : VirtView)

/-- `mmu_map_get` -/
def mmuMapGet (v : Nat) : Int :=
  match mmuMapGetTable V.pages V.table v with
  | .ok (flags, _) => flags
  | .error e => e

/-- `mm_check_addr` -/
def checkAddr (v : Nat) : Nat := mmCheckAddr V.mmuMapGet v

/-- A read; `none` is a page fault. -/
def load (v : Nat) : Option UInt8 := (translate V.pages V.table v).map V.bytes

/-- The read of an `uint32_t`. -/
def loadWord (v : Nat) : Option Nat := do
  let b₀ ← V.load v
  let b₁ ← V.load (u32 (v + 1))
  let b₂ ← V.load (u32 (v + 2))
  let b₃ ← V.load (u32 (v + 3))
  return ofLeBytes [b₀, b₁, b₂, b₃]

end VirtView

/-! ## Symbols -/

/-- What of a table comes before its end. -/
def symEntries (symbols : List Symbol) : List Symbol :=
  symbols.takeWhile fun func => func.addr ≠ 0xFFFFFFFF

/-- One round of the loop of `find_function`, on `idx` and `laddr`. -/
def findFunctionStep (addr : Nat) (best : Int × Nat) (func : Symbol × Nat) : Int × Nat :=
  if func.1.addr ≤ addr then
    if func.1.addr > best.2 then
      if func.1.size > 0 then
        if u32 (func.1.addr + func.1.size) > addr then (func.2, func.1.addr) else best
      else (func.2, func.1.addr)
    else best
  else best

/-- `find_function`, for an address that `kern_start` has been subtracted from where
it is to be. -/
def findFunction (addr : Nat) (symbols : List Symbol) : Int :=
  ((symEntries symbols).zipIdx.foldl (findFunctionStep addr) (-1, 0)).1

/-- The kernel's own: `kern_start`, `start` and `sym_functions`. -/
structure KernelImage where
  kernStart : Nat
  start : Nat
  symFunctions : List Symbol

/-- `symbols`: `sym_functions`, or another table. -/
inductive SymTable where
  | functions
  | other (symbols : List Symbol)

/-- A line of the trace, by its format:
`"Stack Trace:\n"`, `"  [%08x] <0x%08x +%3d> %s\n"`, `"  [%08x] %s\n"` with `"[np]"`
when the address is not mapped, `"  -- End of kernel stack --\n"`,
`"  EBP (%08x), or EBP+4, points to non-present page!\n"`, and `"[%08X] "`. -/
inductive TraceLine where
  | title
  | func (eip addr : Nat) (name : List UInt8)
  | noFunc (eip : Nat) (present : Bool)
  | endOfKernel
  | nonPresent (ebp : Nat)
  | contents (addr word : Nat)
deriving Repr, DecidableEq

section Trace

variable (V : VirtView) (img : KernelImage)

/-- `stack_trace_print_func` in one of the tables; `missed` is what it does when
there is no such function. -/
def printFuncIn (eip base : Nat) (symbols : List Symbol) (missed : List TraceLine × Int) :
    List TraceLine × Int :=
  if eip = 0 then ([], -1)
  else if eip < img.kernStart then ([], -2)
  else
    let idx := findFunction (u32 (eip + (4294967296 - base))) symbols
    if idx ≥ 0 then
      let func := symbols.getD idx.toNat ⟨[], 0, 0, 0⟩
      let addr := u32 (func.addr + base)
      if addr = img.start then ([.func eip addr func.name, .endOfKernel], -1)
      else ([.func eip addr func.name], 0)
    else missed

/-- `stack_trace_print_func` -/
def stackTracePrintFunc (eip : Nat) : SymTable → List TraceLine × Int
  | .functions =>
      printFuncIn img eip img.kernStart img.symFunctions ([.noFunc eip (V.checkAddr eip ≠ 0)], 0)
  | .other symbols =>
      printFuncIn img eip 0 symbols (printFuncIn img eip img.kernStart img.symFunctions
        ([.noFunc eip (V.checkAddr eip ≠ 0)], 0))

/-- The loop of `stack_trace`, with the frames that are left; `none` is a fault. -/
def frameLoop (symbols : SymTable) : Nat → Nat → Option (List TraceLine)
  | 0, _ => some []
  | frames + 1, ebp =>
      if V.checkAddr ebp = 0 ∨ V.checkAddr (u32 (ebp + 16)) = 0 then some [.nonPresent ebp]
      else do
        let eip ← V.loadWord (u32 (ebp + 4))
        let (lines, ret) := stackTracePrintFunc V img eip symbols
        if ret < 0 then return lines
        else
          let next ← V.loadWord ebp
          let rest ← frameLoop symbols frames next
          return lines ++ rest

/-- `stack_trace` -/
def stackTrace (maxFrames ebp savedEip : Nat) (symbols : SymTable) : Option (List TraceLine) :=
  if ebp = 0 then some []
  else do
    let saved :=
      if savedEip ≠ 0 then (stackTracePrintFunc V img savedEip symbols).1 else []
    let rest ← frameLoop V img symbols maxFrames ebp
    return .title :: saved ++ rest

/-- The loop over the contents of the stack, from `&stack[i]` on. -/
def stackContents (esp : Nat) : List Int → Option (List TraceLine)
  | [] => some []
  | i :: is =>
      let addr := wordOf (esp + 4 * i)
      if V.checkAddr addr = 0 then some []
      else do
        let word ← V.loadWord addr
        let rest ← stackContents esp is
        return .contents addr word :: rest

/-- Where the fields of a `kthread_t` and a `kproc_t` lie that are read. -/
structure TaskLayout where
  process : Nat
  stackKernBegin : Nat
  symbols : Nat
  domain : Nat

/-- `PROC_DOMAIN_USERSPACE` -/
def TaskLayout.procDomainUserspace : UInt8 := 2

/-- The tables of symbols by their addresses; the kernel's own is at `symFunctions`. -/
structure SymTables where
  symFunctions : Nat
  other : Nat → List Symbol

/-- `stack_trace` takes the kernel's own for `NULL`. -/
def SymTables.at (T : SymTables) (symbols : Nat) : SymTable :=
  if symbols = 0 ∨ symbols = T.symFunctions then .functions else .other (T.other symbols)

/-- `mtask_get_curr_process` of a current thread that is `NULL` or not. -/
def currProcess (L : TaskLayout) (thread : Nat) : Option Nat :=
  if thread = 0 then some 0 else V.loadWord (u32 (thread + L.process))

/-- `uiret`: what the processor pushed when the kernel was entered, on the kernel stack
that ends at `stackKern`. -/
def uiret (stackKern : Nat) : Nat := u32 (stackKern + (4294967296 - 20))

/-- `upusha`: the registers that were pushed then. -/
def upusha (stackKern : Nat) : Nat := u32 (stackKern + (4294967296 - 20 - 32))

/-- The first trace of `_do_stack_trace`. -/
def firstTrace (L : TaskLayout) (T : SymTables) (proc ebp eip : Nat) :
    Option (List TraceLine) :=
  if ebp ≠ 0 then do
    let syms ← if proc ≠ 0 then V.loadWord (u32 (proc + L.symbols)) else some 0
    stackTrace V img 15 ebp eip (T.at syms)
  else some []

/-- The second one, for a process of users: from where the kernel was entered, if that
was not by the exception, whose frame is at `iret`. -/
def entryTrace (L : TaskLayout) (T : SymTables) (thread proc eip iret : Nat) :
    Option (List TraceLine) :=
  if proc ≠ 0 ∧ thread ≠ 0 then do
    let domain ← V.load (u32 (proc + L.domain))
    if domain = TaskLayout.procDomainUserspace then
      let stackKern ← V.loadWord (u32 (thread + L.stackKernBegin))
      if uiret stackKern ≠ iret then
        let ebp ← V.loadWord (u32 (upusha stackKern + 8))
        let syms ← V.loadWord (u32 (proc + L.symbols))
        stackTrace V img 15 ebp eip (T.at syms)
      else some []
    else some []
  else some []

/-- The words around `esp`. -/
def stackDump (esp : Nat) : Option (List TraceLine) :=
  if V.checkAddr esp ≠ 0 then stackContents V esp [-4, -3, -2, -1, 0, 1, 2, 3, 4, 5, 6, 7]
  else some []

/-- `_do_stack_trace` -/
def doStackTrace (L : TaskLayout) (T : SymTables) (thread ebp esp eip iret : Nat) :
    Option (List TraceLine) := do
  let proc ← currProcess V L thread
  let frames ← firstTrace V img L T proc ebp eip
  let entry ← entryTrace V img L T thread proc eip iret
  let contents ← stackDump V esp
  return frames ++ entry ++ contents

end Trace

/-! ## The nearest symbol -/

/-- The function may contain the address: if its size is not known it has no end. -/
def Symbol.Covers (addr : Nat) (func : Symbol) : Prop :=
  0 < func.addr ∧ func.addr ≤ addr ∧ (0 < func.size → addr < u32 (func.addr + func.size))

instance (addr : Nat) : DecidablePred (Symbol.Covers addr) := fun _ =>
  inferInstanceAs (Decidable (_ ∧ _ ∧ _))

/-- Of the functions that may contain the address, the first of those that begin
last. -/
def nearest (addr : Nat) (symbols : List Symbol) : Option Symbol :=
  ((symEntries symbols).filter (Symbol.Covers addr)).argmax Symbol.addr

theorem findFunctionStep_eq (addr : Nat) (best : Int × Nat) (func : Symbol × Nat) :
    findFunctionStep addr best func = if func.1.Covers addr ∧ best.2 < func.1.addr then
      ((func.2 : Int), func.1.addr) else best := by
  unfold findFunctionStep Symbol.Covers
  split_ifs <;> first | rfl | omega

theorem symEntries_getElem? {symbols : List Symbol} {i : Nat} {func : Symbol}
    (h : (symEntries symbols)[i]? = some func) : symbols[i]? = some func := by
  obtain ⟨rest, hrest⟩ : symEntries symbols <+: symbols := List.takeWhile_prefix _
  rw [← hrest, List.getElem?_append_left (List.getElem?_eq_some_iff.mp h).1, h]

/-- The scan keeps the index of what it keeps. -/
theorem nearest_eq (addr : Nat) (symbols : List Symbol) :
    nearest addr symbols = (((symEntries symbols).zipIdx.filter
      fun func => func.1.Covers addr).argmax fun func => func.1.addr).map Prod.fst := by
  have hmap : (symEntries symbols).filter (Symbol.Covers addr) =
      ((symEntries symbols).zipIdx.filter fun func => func.1.Covers addr).map Prod.fst := by
    conv_lhs => rw [← List.zipIdx_map_fst 0 (symEntries symbols), List.filter_map]
    rfl
  rw [nearest, hmap]
  exact argmin_map (β := Natᵒᵈ)

theorem findFunction_nearest (addr : Nat) (symbols : List Symbol) :
    (findFunction addr symbols = -1 ∧ nearest addr symbols = none) ∨
      ∃ (i : Nat) (func : Symbol), findFunction addr symbols = i ∧
        symbols[i]? = some func ∧ nearest addr symbols = some func := by
  have hscan : (symEntries symbols).zipIdx.foldl (findFunctionStep addr) (-1, 0) =
      (((symEntries symbols).zipIdx.filter fun func => func.1.Covers addr).argmax
        fun func => func.1.addr).elim (-1, 0) fun func => ((func.2 : Int), func.1.addr) :=
    foldl_eq_argmin (β := Natᵒᵈ) (fun func _ best => findFunctionStep_eq addr best func)
      fun func _ hcovers => hcovers.1
  rw [findFunction, hscan, nearest_eq]
  cases hbest : ((symEntries symbols).zipIdx.filter fun func => func.1.Covers addr).argmax
      fun func => func.1.addr with
  | none => exact .inl ⟨rfl, rfl⟩
  | some best =>
      obtain ⟨func, i⟩ := best
      have hmem := List.mem_zipIdx_iff_getElem?.mp
        (List.mem_of_mem_filter (List.argmax_mem hbest))
      exact .inr ⟨i, func, rfl,
        symEntries_getElem? hmem, rfl⟩

/-! ## What is printed for an address -/

section Lines

variable (V : VirtView) (img : KernelImage)

/-- The address of the nearest function and its name, in a table whose addresses are
relative to `base`. -/
def nearestIn (base eip : Nat) (symbols : List Symbol) : Option (Nat × List UInt8) :=
  (nearest (u32 (eip + (4294967296 - base))) symbols).map fun func =>
    (u32 (func.addr + base), func.name)

/-- The kernel's functions are looked at when there is none in the other table. -/
def SymTable.lookup (eip : Nat) : SymTable → Option (Nat × List UInt8)
  | .functions => nearestIn img.kernStart eip img.symFunctions
  | .other symbols =>
      (nearestIn 0 eip symbols).or (nearestIn img.kernStart eip img.symFunctions)

/-- The trace does not go beyond the entry of the kernel, nor below it. -/
def TraceGoesOn (symbols : SymTable) (eip : Nat) : Prop :=
  eip ≠ 0 ∧ img.kernStart ≤ eip ∧ (symbols.lookup img eip).map Prod.fst ≠ some img.start

/-- The lines for a function. -/
def funcLines (eip : Nat) (found : Nat × List UInt8) : List TraceLine :=
  if found.1 = img.start then [.func eip found.1 found.2, .endOfKernel]
  else [.func eip found.1 found.2]

/-- The lines for an address. -/
def printed (symbols : SymTable) (eip : Nat) : List TraceLine :=
  if eip = 0 ∨ eip < img.kernStart then []
  else (symbols.lookup img eip).elim [.noFunc eip (V.checkAddr eip ≠ 0)] (funcLines img eip)

variable {V img} {eip base : Nat} {symbols : SymTable} {l : List Symbol}

theorem printFuncIn_eq {missed : List TraceLine × Int} (hzero : eip ≠ 0)
    (hstart : img.kernStart ≤ eip) :
    printFuncIn img eip base l missed = (nearestIn base eip l).elim missed fun found =>
      (funcLines img eip found, if found.1 = img.start then -1 else 0) := by
  rw [printFuncIn, if_neg hzero, if_neg (Nat.not_lt.mpr hstart), nearestIn]
  dsimp only
  rcases findFunction_nearest (u32 (eip + (4294967296 - base))) l with
    ⟨hnone, hnear⟩ | ⟨i, func, hfind, hget, hnear⟩
  · rw [hnone, if_neg (by decide), hnear]
    rfl
  · rw [hfind, if_pos (Int.natCast_nonneg i), hnear, Int.toNat_natCast,
      List.getD_eq_getElem?_getD, hget]
    simp only [Option.getD_some, Option.map_some, Option.elim_some, funcLines]
    split <;> rfl

theorem stackTracePrintFunc_eq (hzero : eip ≠ 0) (hstart : img.kernStart ≤ eip) :
    stackTracePrintFunc V img eip symbols =
      (printed V img symbols eip,
        if (symbols.lookup img eip).map Prod.fst = some img.start then -1 else 0) := by
  rw [printed, if_neg (not_or.mpr ⟨hzero, Nat.not_lt.mpr hstart⟩)]
  have helim : ∀ found? : Option (Nat × List UInt8),
      found?.elim ([.noFunc eip (V.checkAddr eip ≠ 0)], (0 : Int)) (fun found =>
        (funcLines img eip found, if found.1 = img.start then -1 else 0)) =
      (found?.elim [.noFunc eip (V.checkAddr eip ≠ 0)] (funcLines img eip),
        if found?.map Prod.fst = some img.start then -1 else 0) := by
    rintro (_ | found)
    · rfl
    · simp
  cases symbols with
  | functions => exact (printFuncIn_eq hzero hstart).trans (helim _)
  | other l =>
      rw [stackTracePrintFunc, printFuncIn_eq hzero hstart, printFuncIn_eq hzero hstart,
        SymTable.lookup, ← helim]
      cases nearestIn 0 eip l <;> rfl

theorem printFuncIn_out (hout : eip = 0 ∨ eip < img.kernStart) :
    ∃ ret < 0, ∀ base l missed, printFuncIn img eip base l missed = ([], ret) := by
  by_cases hzero : eip = 0
  · exact ⟨-1, by decide, fun _ _ _ => if_pos hzero⟩
  · refine ⟨-2, by decide, fun _ _ _ => ?_⟩
    rw [printFuncIn, if_neg hzero, if_pos (hout.resolve_left hzero)]

/-- What is printed, and when the trace ends there. -/
theorem stackTracePrintFunc_spec (V : VirtView) (img : KernelImage) (symbols : SymTable)
    (eip : Nat) :
    (stackTracePrintFunc V img eip symbols).1 = printed V img symbols eip ∧
      ((stackTracePrintFunc V img eip symbols).2 < 0 ↔ ¬ TraceGoesOn img symbols eip) := by
  by_cases hout : eip = 0 ∨ eip < img.kernStart
  · obtain ⟨ret, hret, hprint⟩ := printFuncIn_out hout
    have heq : stackTracePrintFunc V img eip symbols = ([], ret) := by
      cases symbols <;> exact hprint ..
    have hstop : ¬ TraceGoesOn img symbols eip := fun hgoes =>
      hout.elim hgoes.1 (Nat.not_lt.mpr hgoes.2.1)
    rw [heq, printed, if_pos hout]
    exact ⟨rfl, iff_of_true hret hstop⟩
  · obtain ⟨hzero, hstart⟩ := not_or.mp hout
    have hstart := Nat.not_lt.mp hstart
    rw [stackTracePrintFunc_eq hzero hstart]
    refine ⟨rfl, ?_⟩
    simp only [TraceGoesOn, hzero, hstart, ne_eq, not_false_eq_true, true_and, Decidable.not_not]
    split <;> simp [*]

end Lines

/-! ## What is read is there -/

namespace VirtView

variable {V : VirtView} {v w : Nat}

theorem load_of_checkAddr (h : V.checkAddr v ≠ 0) : ∃ b, V.load v = some b := by
  rw [load, translate]
  cases hget : mmuMapGetTable V.pages V.table v with
  | ok answer => exact ⟨_, rfl⟩
  | error e =>
      have he : e = -EUNSPEC := by
        rw [mmuMapGetTable, entryAnswer] at hget
        split at hget
        · cases hget
        · exact (Except.error.inj hget).symm
      refine absurd ?_ h
      rw [checkAddr, mmCheckAddr, mmuMapGet, hget, he]
      rfl

/-- A page is there or is not. -/
theorem checkAddr_page (h : v / 4096 = w / 4096) : V.checkAddr v = V.checkAddr w := by
  have hpage : v >>> 12 = w >>> 12 := by
    rw [Nat.shiftRight_eq_div_pow, Nat.shiftRight_eq_div_pow]
    exact h
  have hdir : v >>> 22 = w >>> 22 := by
    rw [Nat.shiftRight_add v 12 10, Nat.shiftRight_add w 12 10, hpage]
  have hget : mmuMapGetTable V.pages V.table v = mmuMapGetTable V.pages V.table w := by
    rw [mmuMapGetTable, mmuMapGetTable, pgdirGetPageEntry, pgdirGetPageEntry, pdindex, pdindex,
      ptindex, ptindex, hpage, hdir]
  rw [checkAddr, checkAddr, mmCheckAddr, mmCheckAddr, mmuMapGet, mmuMapGet, hget]

theorem loadWord_of_checkAddr (h : ∀ i < 4, V.checkAddr (u32 (v + i)) ≠ 0)
    (hv : v < 4294967296) : ∃ n, V.loadWord v = some n := by
  obtain ⟨b₀, h₀⟩ := load_of_checkAddr (u32_of_lt hv ▸ h 0 (by decide))
  obtain ⟨b₁, h₁⟩ := load_of_checkAddr (h 1 (by decide))
  obtain ⟨b₂, h₂⟩ := load_of_checkAddr (h 2 (by decide))
  obtain ⟨b₃, h₃⟩ := load_of_checkAddr (h 3 (by decide))
  exact ⟨ofLeBytes [b₀, b₁, b₂, b₃], by simp only [loadWord, h₀, h₁, h₂, h₃]; rfl⟩

/-- The two tests before a frame. -/
def FrameThere (V : VirtView) (ebp : Nat) : Prop :=
  V.checkAddr ebp ≠ 0 ∧ V.checkAddr (u32 (ebp + 16)) ≠ 0

instance (V : VirtView) : DecidablePred V.FrameThere := fun _ =>
  inferInstanceAs (Decidable (_ ∧ _))

/-- The eight bytes of a frame are on the two pages. -/
theorem FrameThere.words {ebp : Nat} (h : V.FrameThere ebp) (hebp : ebp < 4294967296) :
    (∃ n, V.loadWord ebp = some n) ∧ ∃ n, V.loadWord (u32 (ebp + 4)) = some n := by
  have hthere : ∀ i < 8, V.checkAddr (u32 (ebp + i)) ≠ 0 := by
    intro i hi
    by_cases hsame : u32 (ebp + i) / 4096 = ebp / 4096
    · rw [checkAddr_page hsame]
      exact h.1
    · have hnext : u32 (ebp + i) / 4096 = u32 (ebp + 16) / 4096 := by
        unfold u32 at hsame ⊢
        omega
      rw [checkAddr_page hnext]
      exact h.2
  constructor
  · exact loadWord_of_checkAddr (fun i hi => hthere i (by omega)) hebp
  · refine loadWord_of_checkAddr (fun i hi => ?_) (u32_lt _)
    rw [u32_u32_add, Nat.add_assoc]
    exact hthere (4 + i) (by omega)

/-- The word at an address that is there. -/
def word (V : VirtView) (v : Nat) : Nat := (V.loadWord v).getD 0

theorem loadWord_lt {n : Nat} (h : V.loadWord v = some n) : n < 4294967296 := by
  simp only [loadWord, Option.bind_eq_bind, Option.bind_eq_some_iff, Option.pure_def,
    Option.some.injEq] at h
  obtain ⟨b₀, -, b₁, -, b₂, -, b₃, -, rfl⟩ := h
  have := b₀.toNat_lt
  have := b₁.toNat_lt
  have := b₂.toNat_lt
  have := b₃.toNat_lt
  simp only [ofLeBytes]
  omega

end VirtView

/-! ## The frames -/

section Frames

variable (V : VirtView) (img : KernelImage)

/-- The `i`-th of the frames that are linked by the saved `ebp`. -/
def frameAt (ebp i : Nat) : Nat := V.word^[i] ebp

/-- The address that the `i`-th frame returns to. -/
def returnAt (ebp i : Nat) : Nat := V.word (u32 (frameAt V ebp i + 4))

/-- The trace does not end at the frame `i`. -/
def Continues (symbols : SymTable) (ebp i : Nat) : Prop :=
  V.FrameThere (frameAt V ebp i) ∧ TraceGoesOn img symbols (returnAt V ebp i)

/-- What is printed for the frame that the trace ends at. -/
def lastLines (symbols : SymTable) (ebp i : Nat) : List TraceLine :=
  if V.FrameThere (frameAt V ebp i) then printed V img symbols (returnAt V ebp i)
  else [.nonPresent (frameAt V ebp i)]

variable {V img} {symbols : SymTable} {ebp frames : Nat}

theorem frameLoop_gone (h : ¬ V.FrameThere ebp) :
    frameLoop V img symbols (frames + 1) ebp = some [.nonPresent ebp] := by
  refine if_pos ?_
  by_contra hthere
  exact h ⟨fun h0 => hthere (.inl h0), fun h0 => hthere (.inr h0)⟩

theorem frameLoop_there (h : V.FrameThere ebp) (hebp : ebp < 4294967296) :
    frameLoop V img symbols (frames + 1) ebp =
      if (stackTracePrintFunc V img (returnAt V ebp 0) symbols).2 < 0 then
        some (printed V img symbols (returnAt V ebp 0))
      else (frameLoop V img symbols frames (V.word ebp)).map
        (printed V img symbols (returnAt V ebp 0) ++ ·) := by
  obtain ⟨⟨next, hnext⟩, eip, heip⟩ := h.words hebp
  have hreturn : returnAt V ebp 0 = eip := by
    rw [returnAt, frameAt, Function.iterate_zero_apply, VirtView.word, heip]
    rfl
  have hword : V.word ebp = next := by
    rw [VirtView.word, hnext]
    rfl
  have hgone : ¬ (V.checkAddr ebp = 0 ∨ V.checkAddr (u32 (ebp + 16)) = 0) :=
    not_or.mpr ⟨h.1, h.2⟩
  rw [hreturn, hword, ← (stackTracePrintFunc_spec V img symbols eip).1, frameLoop, if_neg hgone,
    heip]
  dsimp only [Option.bind_eq_bind, Option.bind_some]
  split
  · rfl
  · rw [hnext, Option.bind_some]
    cases frameLoop V img symbols frames next <;> rfl

theorem frameAt_succ (ebp i : Nat) : frameAt V ebp (i + 1) = frameAt V (V.word ebp) i :=
  Function.iterate_succ_apply ..

theorem returnAt_succ (ebp i : Nat) : returnAt V ebp (i + 1) = returnAt V (V.word ebp) i := by
  rw [returnAt, returnAt, frameAt_succ]

theorem continues_succ (ebp i : Nat) :
    Continues V img symbols ebp (i + 1) ↔ Continues V img symbols (V.word ebp) i := by
  rw [Continues, Continues, frameAt_succ, returnAt_succ]

theorem lastLines_succ (ebp i : Nat) :
    lastLines V img symbols ebp (i + 1) = lastLines V img symbols (V.word ebp) i := by
  rw [lastLines, lastLines, frameAt_succ, returnAt_succ]

theorem frameLoop_ends (h : ¬ Continues V img symbols ebp 0) (hebp : ebp < 4294967296) :
    frameLoop V img symbols (frames + 1) ebp = some (lastLines V img symbols ebp 0) := by
  by_cases hthere : V.FrameThere ebp
  · have hstop : ¬ TraceGoesOn img symbols (returnAt V ebp 0) := fun hgoes => h ⟨hthere, hgoes⟩
    have hret := (stackTracePrintFunc_spec V img symbols (returnAt V ebp 0)).2.mpr hstop
    rw [frameLoop_there hthere hebp, if_pos hret]
    exact congrArg some (if_pos hthere).symm
  · rw [frameLoop_gone hthere]
    exact congrArg some (if_neg hthere).symm

theorem frameLoop_continues (h : Continues V img symbols ebp 0) (hebp : ebp < 4294967296) :
    frameLoop V img symbols (frames + 1) ebp =
      (frameLoop V img symbols frames (V.word ebp)).map
        (printed V img symbols (returnAt V ebp 0) ++ ·) := by
  have hret := (stackTracePrintFunc_spec V img symbols (returnAt V ebp 0)).2
  exact (frameLoop_there h.1 hebp).trans (if_neg fun hneg => hret.mp hneg h.2)

theorem word_lt (v : Nat) : V.word v < 4294967296 := by
  rw [VirtView.word]
  cases hload : V.loadWord v with
  | none => decide
  | some n => exact VirtView.loadWord_lt hload

theorem frameLoop_frames (hebp : ebp < 4294967296) :
    ∃ n ≤ frames, (∀ i < n, Continues V img symbols ebp i) ∧
      (n < frames → ¬ Continues V img symbols ebp n) ∧
      frameLoop V img symbols frames ebp =
        some ((List.range n).flatMap (fun i => printed V img symbols (returnAt V ebp i)) ++
          if n < frames then lastLines V img symbols ebp n else []) := by
  induction frames generalizing ebp with
  | zero =>
    exact ⟨0, Nat.le_refl 0, fun i hi => absurd hi (Nat.not_lt_zero i),
      fun h => absurd h (Nat.lt_irrefl 0), rfl⟩
  | succ frames ih =>
    by_cases hfirst : Continues V img symbols ebp 0
    · obtain ⟨n, hn, hbefore, hend, hloop⟩ := ih (word_lt (V := V) ebp)
      refine ⟨n + 1, Nat.succ_le_succ hn, fun i hi => ?_, fun h => ?_, ?_⟩
      · cases i with
        | zero => exact hfirst
        | succ i => exact (continues_succ ebp i).mpr (hbefore i (Nat.lt_of_succ_lt_succ hi))
      · rw [continues_succ]
        exact hend (Nat.lt_of_succ_lt_succ h)
      · rw [frameLoop_continues hfirst hebp, hloop, Option.map_some, List.range_succ_eq_map,
          List.flatMap_cons, List.flatMap_map, List.append_assoc]
        simp only [returnAt_succ, lastLines_succ, Nat.succ_eq_add_one, Nat.add_lt_add_iff_right]
    · refine ⟨0, Nat.zero_le _, fun i hi => absurd hi (Nat.not_lt_zero i), fun _ => hfirst, ?_⟩
      rw [frameLoop_ends hfirst hebp]
      rfl

/-- Whatever is in memory and in the page tables, the trace comes to an end. It is of
the frames up to the first that is not there, or whose function is the last. -/
theorem stack_trace_frames (V : VirtView) (img : KernelImage) (symbols : SymTable)
    (maxFrames savedEip : Nat) (hzero : ebp ≠ 0) (hebp : ebp < 4294967296) :
    ∃ n ≤ maxFrames, (∀ i < n, Continues V img symbols ebp i) ∧
      (n < maxFrames → ¬ Continues V img symbols ebp n) ∧
      stackTrace V img maxFrames ebp savedEip symbols =
        some (.title :: printed V img symbols savedEip ++
          ((List.range n).flatMap (fun i => printed V img symbols (returnAt V ebp i)) ++
            if n < maxFrames then lastLines V img symbols ebp n else [])) := by
  obtain ⟨n, hn, hbefore, hend, hloop⟩ :=
    frameLoop_frames (V := V) hebp
  refine ⟨n, hn, hbefore, hend, ?_⟩
  have hsaved : (if savedEip ≠ 0 then (stackTracePrintFunc V img savedEip symbols).1 else []) =
      printed V img symbols savedEip := by
    by_cases hnone : savedEip = 0
    · rw [if_neg (not_not.mpr hnone), printed, if_pos (.inl hnone)]
    · rw [if_pos hnone, (stackTracePrintFunc_spec V img symbols savedEip).1]
  rw [stackTrace, if_neg hzero, hsaved, hloop]
  rfl

end Frames

/-! ## The report of an exception -/

section Report

variable {V : VirtView} {img : KernelImage} {symbols : SymTable} {ebp esp : Nat}

theorem stackTrace_returns (V : VirtView) (img : KernelImage) (symbols : SymTable)
    (maxFrames savedEip : Nat) (hebp : ebp < 4294967296) :
    ∃ lines, stackTrace V img maxFrames ebp savedEip symbols = some lines := by
  by_cases hzero : ebp = 0
  · exact ⟨[], if_pos hzero⟩
  · obtain ⟨n, -, -, -, hlines⟩ := stack_trace_frames V img symbols maxFrames savedEip hzero hebp
    exact ⟨_, hlines⟩

/-- Words of an aligned stack are on one page each. -/
theorem stackContents_returns (V : VirtView) (haligned : esp % 4 = 0) (is : List Int) :
    ∃ lines, stackContents V esp is = some lines := by
  induction is with
  | nil => exact ⟨[], rfl⟩
  | cons i is ih =>
    obtain ⟨rest, hrest⟩ := ih
    by_cases hgone : V.checkAddr (wordOf (esp + 4 * i)) = 0
    · exact ⟨[], if_pos hgone⟩
    · -- the page of the first byte is that of all four
      have hsame : ∀ j < 4, u32 (wordOf (esp + 4 * i) + j) / 4096 =
          wordOf (esp + 4 * i) / 4096 := by
        intro j hj
        unfold wordOf u32
        omega
      have hlt : wordOf (esp + 4 * i) < 4294967296 := by
        unfold wordOf
        omega
      obtain ⟨word, hword⟩ := VirtView.loadWord_of_checkAddr
        (fun j hj => by rw [VirtView.checkAddr_page (hsame j hj)]; exact hgone) hlt
      refine ⟨.contents (wordOf (esp + 4 * i)) word :: rest, (if_neg hgone).trans ?_⟩
      rw [hword, hrest]
      rfl

theorem stackDump_returns (V : VirtView) (haligned : esp % 4 = 0) :
    ∃ lines, stackDump V esp = some lines := by
  unfold stackDump
  split
  · exact stackContents_returns V haligned _
  · exact ⟨[], rfl⟩

/-- The words that the first trace takes without a look at their page. -/
def FirstReadable (V : VirtView) (L : TaskLayout) (proc ebp : Nat) : Prop :=
  ebp ≠ 0 → proc ≠ 0 → ∃ syms, V.loadWord (u32 (proc + L.symbols)) = some syms

/-- And the second. -/
def EntryReadable (V : VirtView) (L : TaskLayout) (thread proc iret : Nat) : Prop :=
  proc ≠ 0 → thread ≠ 0 → ∃ domain, V.load (u32 (proc + L.domain)) = some domain ∧
    (domain = TaskLayout.procDomainUserspace →
      ∃ stackKern, V.loadWord (u32 (thread + L.stackKernBegin)) = some stackKern ∧
        (uiret stackKern ≠ iret →
          (∃ uebp, V.loadWord (u32 (upusha stackKern + 8)) = some uebp) ∧
            ∃ syms, V.loadWord (u32 (proc + L.symbols)) = some syms))

variable {L : TaskLayout} {T : SymTables} {thread proc eip iret : Nat}

section Returns

variable {α β : Type} {o : Option α} {g : α → Option β} {p : Prop} [Decidable p] {b : β}

theorem bind_returns : (∃ y, o.bind g = some y) ↔ ∃ x, o = some x ∧ ∃ y, g x = some y := by
  cases o with
  | none => simp
  | some x => simp

theorem ite_returns {o : Option β} : (∃ y, (if p then o else some b) = some y) ↔
    (p → ∃ y, o = some y) := by
  by_cases hp : p
  · simp [hp]
  · simp [hp]

end Returns

theorem firstTrace_returns_iff (hebp : ebp < 4294967296) :
    (∃ lines, firstTrace V img L T proc ebp eip = some lines) ↔ FirstReadable V L proc ebp := by
  have htrace : ∀ syms, ∃ lines, stackTrace V img 15 ebp eip (T.at syms) = some lines :=
    fun syms => stackTrace_returns V img (T.at syms) 15 eip hebp
  unfold firstTrace FirstReadable
  simp only [Option.bind_eq_bind, Option.bind_some, ite_returns]
  refine imp_congr_right fun _ => ?_
  by_cases hproc : proc ≠ 0
  · rw [if_pos hproc, bind_returns, forall_prop_of_true hproc]
    simp only [htrace, and_true]
  · rw [if_neg hproc]
    exact iff_of_true (htrace 0) fun h => absurd h hproc

theorem entryTrace_returns_iff :
    (∃ lines, entryTrace V img L T thread proc eip iret = some lines) ↔
      EntryReadable V L thread proc iret := by
  unfold entryTrace EntryReadable
  simp only [Option.bind_eq_bind, ite_returns, bind_returns, and_imp]
  -- the conditions are the same up to the last two words
  refine imp_congr_right fun _ => imp_congr_right fun _ => exists_congr fun domain =>
    and_congr_right fun _ => imp_congr_right fun _ => exists_congr fun stackKern =>
      and_congr_right fun _ => imp_congr_right fun _ => ?_
  constructor
  · rintro ⟨uebp, huebp, syms, hsyms, -⟩
    exact ⟨⟨uebp, huebp⟩, syms, hsyms⟩
  · rintro ⟨⟨uebp, huebp⟩, syms, hsyms⟩
    exact ⟨uebp, huebp, syms, hsyms,
      stackTrace_returns V img (T.at syms) 15 eip (VirtView.loadWord_lt huebp)⟩

/-- With tables of symbols that can be read, the report is made without another fault
if and only if what it takes from the records of the thread and its process is there,
and the registers of the entry into the kernel are: none of this is looked up first. -/
theorem exception_trace_returns_iff (V : VirtView) (img : KernelImage) (L : TaskLayout)
    (T : SymTables) (thread eip iret : Nat) (hebp : ebp < 4294967296) (haligned : esp % 4 = 0) :
    (∃ lines, doStackTrace V img L T thread ebp esp eip iret = some lines) ↔
      ∃ proc, currProcess V L thread = some proc ∧ FirstReadable V L proc ebp ∧
        EntryReadable V L thread proc iret := by
  obtain ⟨contents, hcontents⟩ := stackDump_returns V haligned
  rw [doStackTrace]
  cases currProcess V L thread with
  | none => simp
  | some proc =>
    have hfirst : (∃ lines, firstTrace V img L T proc ebp eip = some lines) ↔ _ :=
      firstTrace_returns_iff hebp
    have hentry : (∃ lines, entryTrace V img L T thread proc eip iret = some lines) ↔ _ :=
      entryTrace_returns_iff
    simp only [Option.some.injEq, exists_eq_left', Option.bind_eq_bind, Option.bind_some,
      hcontents]
    rw [← hfirst, ← hentry]
    cases firstTrace V img L T proc ebp eip with
    | none => simp
    | some frames =>
      cases entryTrace V img L T thread proc eip iret with
      | none => simp
      | some entry => simp

end Report

/-! ## Two frames -/

/-- The page at `0x5000`, in the frame `0x8000`, with the frames, a thread at `0x5018`
and its process, one of users, at `0x5020`. -/
def tracedView : VirtView where
  pages := fun page i =>
    if page = 0 ∧ i = 0 then 0x2001 else if page = 0x2000 ∧ i = 5 then 0x8001 else 0
  table := 0
  bytes := fun a => ([0x10, 0x50, 0, 0, 0x10, 0x30, 0, 0, 0, 0, 0, 0, 0, 0, 0, 0,
    0, 0, 0, 0, 0x04, 0x30, 0, 0, 0x20, 0x50, 0, 0, 0, 0x51, 0, 0, 2] : List UInt8).getD
      (a - 0x8000) 0

def tracedImage : KernelImage := ⟨0x1000, 0x3000, []⟩

/-- `f`, whose size is not known, behind `start`. -/
def tracedSymbols : SymTable := .other [⟨[102], 0x3008, 0, 1⟩, ⟨[115], 0x3000, 8, 1⟩]

theorem stack_trace_two_frames :
    ∃ n ≤ 15, (∀ i < n, Continues tracedView tracedImage tracedSymbols 0x5000 i) ∧
      stackTrace tracedView tracedImage 15 0x5000 0 tracedSymbols =
        some [.title, .func 0x3010 0x3008 [102], .func 0x3004 0x3000 [115], .endOfKernel] := by
  obtain ⟨n, hn, hbefore, -, -⟩ := stack_trace_frames tracedView tracedImage tracedSymbols 15 0
    (by decide : 0x5000 ≠ 0) (by decide)
  exact ⟨n, hn, hbefore, by decide +kernel⟩

def tracedLayout : TaskLayout := ⟨0, 4, 4, 0⟩

theorem exception_trace_two_frames :
    ∃ lines, doStackTrace tracedView tracedImage tracedLayout ⟨0x2000, fun _ => []⟩ 0x5018 0x5000
      0x5004 0x3010 0 = some lines := by
  have hproc : currProcess tracedView tracedLayout 0x5018 = some 0x5020 := by decide +kernel
  have hsyms : tracedView.loadWord (u32 (0x5020 + tracedLayout.symbols)) = some 0 := by
    decide +kernel
  have hdomain : tracedView.load (u32 (0x5020 + tracedLayout.domain)) = some 2 := by
    decide +kernel
  have hkern : tracedView.loadWord (u32 (0x5018 + tracedLayout.stackKernBegin)) =
      some 0x5100 := by decide +kernel
  have huebp : tracedView.loadWord (u32 (upusha 0x5100 + 8)) = some 0 := by decide +kernel
  exact (exception_trace_returns_iff tracedView tracedImage tracedLayout _ 0x5018 0x3010 0
    (by decide) (by decide)).mpr ⟨_, hproc, fun _ _ => ⟨_, hsyms⟩,
      fun _ _ => ⟨_, hdomain, fun _ => ⟨_, hkern, fun _ => ⟨⟨_, huebp⟩, _, hsyms⟩⟩⟩⟩

end LambdaOs
