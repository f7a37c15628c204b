import LambdaOs.Paging

/-!
# Entry and return

The code in front of the handlers: `int_handler_n` of `arch/x86/src/intr/intr.s` and
`exception_isr_n` of `arch/x86/src/intr/exceptions.s`. The processor pushes what `iret`
pops; in between the registers are pushed, the handler is called with the number of
the interrupt above them, and the registers are popped.

`int_handler_n` takes the number from the stack again before it pops, so that the
interrupted code goes on as if nothing had been (`interrupt_returns`).
`exception_isr_n` does not, and what it pops is one word off: after an exception that
`handle_exception` survives `iret` is never given what the processor has pushed
(`exception_returns_elsewhere`).
-/

namespace LambdaOs

/-! ## The processor -/

/-- The registers that `pusha` pushes, but `esp`. -/
structure PushaRegs where
  edi : Nat
  esi : Nat
  ebp : Nat
  ebx : Nat
  edx : Nat
  ecx : Nat
  eax : Nat
deriving Repr, DecidableEq

/-- What of the processor code depends on. -/
structure CpuContext where
  regs : PushaRegs
  esp : Nat
  ss : Nat
  eip : Nat
  cs : Nat
  eflags : Nat
deriving Repr, DecidableEq

/-- With the words of the stacks by their addresses, and what has been written to
ports. -/
structure Cpu extends CpuContext where
  stk : Nat → Nat
  outs : List (Nat × Nat)

/-- The code segment is one of users, by its privilege. -/
def UserSegment (cs : Nat) : Prop := cs &&& 3 = 3

instance : DecidablePred UserSegment := fun _ => inferInstanceAs (Decidable (_ = _))

namespace Cpu

/-- Where the next word goes. -/
def below (esp : Nat) : Nat := if 4 ≤ u32 esp then u32 esp - 4 else u32 esp + 4294967292

/-- `push` -/
def push (c : Cpu) (word : Nat) : Cpu :=
  { c with
    esp := below c.esp
    stk := Function.update c.stk (below c.esp) word }

/-- The words on the stack, from the one at `esp` on. -/
def top (c : Cpu) (i : Nat) : Nat := c.stk (u32 (c.esp + 4 * i))

/-- `addl $4, %esp` and the like. -/
def drop (c : Cpu) (n : Nat) : Cpu := { c with esp := u32 (c.esp + 4 * n) }

/-- Several words, the last of them first. -/
def pushAll (c : Cpu) : List Nat → Cpu
  | [] => c
  | word :: words => (c.pushAll words).push word

/-- `eax` is pushed first, and of `esp` what it was before. -/
def pusha (c : Cpu) : Cpu :=
  c.pushAll [c.regs.edi, c.regs.esi, c.regs.ebp, c.esp, c.regs.ebx, c.regs.edx, c.regs.ecx,
    c.regs.eax]

/-- The word that was `esp` is skipped. -/
def popa (c : Cpu) : Cpu :=
  { c.drop 8 with
    regs := ⟨c.top 0, c.top 1, c.top 2, c.top 4, c.top 5, c.top 6, c.top 7⟩ }

/-- `iret`, with a code segment that can be loaded: a return to users also pops their
stack. -/
def iret (c : Cpu) : Cpu :=
  let c' := { c.drop 3 with eip := c.top 0, cs := c.top 1, eflags := c.top 2 }
  if UserSegment (c.top 1) ∧ ¬ UserSegment c.cs then { c' with esp := c.top 3, ss := c.top 4 }
  else c'

end Cpu

/-- What the processor goes by: the stack of the kernel in the task state segment, and
where the gates of the table lead. -/
structure Gates where
  ss0 : Nat
  esp0 : Nat
  kernelCs : Nat
  handler : Nat → Nat

/-- What the processor pushes for an interrupt, without an error code. -/
def Cpu.iretFrame (c : Cpu) : List Nat :=
  [c.eip, c.cs, c.eflags] ++ if UserSegment c.cs then [c.esp, c.ss] else []

/-- What the processor does for an interrupt: on the stack of the kernel, when users
were interrupted. The gates clear `IF`, the bit 9 of `eflags`. -/
def Cpu.interrupt (c : Cpu) (G : Gates) (num : Nat) (errcode : Option Nat) : Cpu :=
  let k := if UserSegment c.cs then { c with ss := G.ss0, esp := G.esp0 } else c
  { k.pushAll (errcode.toList ++ c.iretFrame) with
    cs := G.kernelCs
    eip := G.handler num
    eflags := c.eflags - c.eflags % 1024 / 512 * 512 }

/-! ## The stubs -/

section Stub

variable (f : Cpu → Cpu)

/-- `movb $0x20, %al` and `outb %al` to the port. -/
def Cpu.outEoi (c : Cpu) (port : Nat) : Cpu :=
  { c with
    regs := { c.regs with eax := c.regs.eax - c.regs.eax % 256 + 0x20 }
    outs := c.outs ++ [(port, 0x20)] }

/-- The end of an interrupt of one of the two controllers. -/
def Cpu.eoi (c : Cpu) (num : Nat) : Cpu :=
  if num < 40 then c.outEoi 0x20 else if num < 48 then c.outEoi 0xA0 else c

/-- `int_handler_num`, where `f` is the call of `idt_handle_interrupt`. -/
def intHandler (num : Nat) (c : Cpu) : Cpu :=
  let c := f (c.pusha.push num)
  ((c.eoi num).drop 1).popa.iret

/-- The stubs of exceptions for which the processor pushes an error code:
`except_isr num, 1`. -/
def exceptErr (num : Nat) : Bool :=
  [8, 10, 11, 12, 13, 14, 17, 30].contains num

/-- `exception_isr_num` up to its `iret`, where `f` is the call of
`handle_exception`. -/
def exceptionIsr (num : Nat) (c : Cpu) : Cpu :=
  let c := if exceptErr num then c else c.push 0
  let c := (f (c.pusha.push num)).popa
  if exceptErr num then c else c.drop 1

end Stub

/-! ## What is survived -/

/-- `handler`, where there is one. -/
inductive ExceptionFunc where
  | gpf
  | pageFault
deriving Repr, DecidableEq

/-- `struct exception_handler`, without the name. -/
structure ExceptionHandler where
  handler : Option ExceptionFunc
  hasErrcode : Bool
  kill : Bool
deriving Repr, DecidableEq

/-- `_exception_handlers` -/
def exceptionHandlers : List ExceptionHandler :=
  [⟨none, false, true⟩, ⟨none, false, false⟩, ⟨none, false, false⟩, ⟨none, false, false⟩,
    ⟨none, false, true⟩, ⟨none, false, true⟩, ⟨none, false, true⟩, ⟨none, false, true⟩,
    ⟨none, true, true⟩, ⟨none, false, true⟩, ⟨none, true, true⟩, ⟨none, true, true⟩,
    ⟨none, true, true⟩, ⟨some .gpf, true, true⟩, ⟨some .pageFault, true, true⟩,
    ⟨none, false, false⟩, ⟨none, false, true⟩, ⟨none, true, true⟩, ⟨none, false, true⟩,
    ⟨none, false, true⟩, ⟨none, false, true⟩, ⟨none, false, false⟩, ⟨none, false, false⟩,
    ⟨none, false, false⟩, ⟨none, false, false⟩, ⟨none, false, false⟩, ⟨none, false, false⟩,
    ⟨none, false, false⟩, ⟨none, false, false⟩, ⟨none, false, false⟩, ⟨none, true, true⟩,
    ⟨none, false, false⟩]

/-- The page directories that a fault is handled with: `get_pagedir()`, `kernel_cr3`,
and `cr2`; and whether there is a current process that is mapped. -/
structure FaultPlace where
  cr3 : Nat
  kernelCr3 : Nat
  cr2 : Nat
  currProc : Bool

/-- `_handle_page_fault` -/
def handlePageFault (m : PageMem) (place : FaultPlace) (errcode : Nat) : PageMem × Int :=
  if place.currProc then (m, 1)
  else if place.cr2 ≥ kernelOffset ∧ errcode &&& 0x01 = 0 then
    let didx := place.cr2 >>> 22
    if ¬ Present (m place.cr3 didx) ∧ Present (m place.kernelCr3 didx) then
      (m.setWord place.cr3 didx (m place.kernelCr3 didx), 0)
    else (m, 1)
  else (m, 1)

/-- How `handle_exception` ends. -/
inductive ExceptionEnd where
  | returns
  | exits
  | panics
deriving Repr, DecidableEq

/-- `handle_exception` -/
def handleException (m : PageMem) (place : FaultPlace) (exception errcode : Nat) :
    PageMem × ExceptionEnd :=
  match exceptionHandlers[exception]? with
  | none => (m, .panics)
  | some hand =>
      let (m, doKill) :=
        match hand.handler with
        | some .gpf => (m, 1)
        | some .pageFault => handlePageFault m place errcode
        | none => (m, if hand.kill then 1 else 0)
      if doKill ≠ 0 then (m, if place.currProc then .exits else .panics) else (m, .returns)

/-! ## The words on the stack -/

namespace Cpu

variable (c : Cpu) (word : Nat)

@[simp] theorem push_esp : (c.push word).esp = below c.esp := rfl

@[simp] theorem push_regs : (c.push word).regs = c.regs := rfl

@[simp] theorem push_ss : (c.push word).ss = c.ss := rfl

@[simp] theorem push_cs : (c.push word).cs = c.cs := rfl

theorem u32_below_add (esp n : Nat) : u32 (below esp + (4 + n)) = u32 (esp + n) := by
  unfold below u32
  split <;> omega

theorem u32_below (esp : Nat) : u32 (below esp) = below esp := by
  unfold below u32
  split <;> omega

theorem below_ne (esp : Nat) {i : Nat} (hi : i + 1 < 1073741824) :
    u32 (esp + 4 * i) ≠ below esp := by
  unfold below u32
  split <;> omega

theorem top_push_zero : (c.push word).top 0 = word := by
  unfold top push
  dsimp only
  rw [Nat.mul_zero, Nat.add_zero, u32_below, Function.update_self]

theorem top_push_succ {i : Nat} (hi : i + 1 < 1073741824) :
    (c.push word).top (i + 1) = c.top i := by
  unfold top push
  dsimp only
  rw [Nat.mul_succ, Nat.add_comm (4 * i), u32_below_add,
    Function.update_of_ne (below_ne c.esp hi)]

@[simp] theorem top_drop (n i : Nat) : (c.drop n).top i = c.top (n + i) := by
  have haddr : u32 (u32 (c.esp + 4 * n) + 4 * i) = u32 (c.esp + 4 * (n + i)) := by
    rw [u32_u32_add, Nat.mul_add, Nat.add_assoc]
  rw [top, drop, haddr]
  rfl

@[simp] theorem top_popa (i : Nat) : c.popa.top i = c.top (8 + i) := top_drop c 8 i

theorem eoi_frame (num : Nat) : (c.eoi num).esp = c.esp ∧ (c.eoi num).ss = c.ss ∧
    (c.eoi num).cs = c.cs ∧ (c.eoi num).stk = c.stk := by
  unfold eoi
  split_ifs <;> exact ⟨rfl, rfl, rfl, rfl⟩

@[simp] theorem top_eoi (num i : Nat) : (c.eoi num).top i = c.top i := by
  obtain ⟨hesp, -, -, hstk⟩ := c.eoi_frame num
  rw [top, top, hesp, hstk]

theorem top_pushAll {words : List Nat} {i : Nat} (hi : i < 1073741824) :
    (c.pushAll words).top i =
      if h : i < words.length then words[i] else c.top (i - words.length) := by
  induction words generalizing i with
  | nil => rfl
  | cons word words ih =>
    cases i with
    | zero => exact top_push_zero ..
    | succ i =>
      rw [pushAll, top_push_succ _ _ hi, ih (by omega)]
      simp only [List.length_cons, Nat.add_lt_add_iff_right, List.getElem_cons_succ,
        Nat.add_sub_add_right]

theorem pushAll_esp (words : List Nat) (n : Nat) :
    u32 ((c.pushAll words).esp + (4 * words.length + n)) = u32 (c.esp + n) := by
  induction words generalizing n with
  | nil => rw [pushAll, List.length_nil, Nat.mul_zero, Nat.zero_add]
  | cons word words ih =>
    rw [← ih, List.length_cons, Nat.mul_succ, Nat.add_comm _ 4, Nat.add_assoc, pushAll, push_esp,
      u32_below_add]

/-- Only `esp` and the stack change. -/
theorem pushAll_frame (words : List Nat) :
    (c.pushAll words).regs = c.regs ∧ (c.pushAll words).ss = c.ss ∧
      (c.pushAll words).cs = c.cs := by
  induction words with
  | nil => exact ⟨rfl, rfl, rfl⟩
  | cons word words ih => simpa only [pushAll, push_regs, push_ss, push_cs] using ih

theorem iret_user (h : UserSegment (c.top 1) ∧ ¬ UserSegment c.cs) :
    c.iret.toCpuContext = ⟨c.regs, c.top 3, c.top 4, c.top 0, c.top 1, c.top 2⟩ := by
  unfold iret
  rw [if_pos h]
  rfl

theorem iret_kernel (h : ¬ (UserSegment (c.top 1) ∧ ¬ UserSegment c.cs)) :
    c.iret.toCpuContext = ⟨c.regs, u32 (c.esp + 12), c.ss, c.top 0, c.top 1, c.top 2⟩ := by
  unfold iret
  rw [if_neg h]
  rfl

/-- What `iret` goes by. -/
structure SameReturn (c d : Cpu) : Prop where
  regs : c.regs = d.regs
  ss : c.ss = d.ss
  cs : c.cs = d.cs
  esp : ∀ n, u32 (c.esp + n) = u32 (d.esp + n)
  top : ∀ i < 5, c.top i = d.top i

theorem SameReturn.iret {c d : Cpu} (h : SameReturn c d) :
    c.iret.toCpuContext = d.iret.toCpuContext := by
  obtain ⟨hregs, hss, hcs, hesp, htop⟩ := h
  by_cases huser : UserSegment (d.top 1) ∧ ¬ UserSegment d.cs
  · rw [d.iret_user huser, c.iret_user (by rwa [htop 1 (by decide), hcs]), hregs,
      htop 0 (by decide), htop 1 (by decide), htop 2 (by decide), htop 3 (by decide),
      htop 4 (by decide)]
  · rw [d.iret_kernel huser, c.iret_kernel (by rwa [htop 1 (by decide), hcs]), hregs, hss, hesp,
      htop 0 (by decide), htop 1 (by decide), htop 2 (by decide)]

end Cpu

/-! ## Handlers -/

/-- The call of a handler leaves the stack as it was, with the registers that have been
pushed there, and does not change the segments. -/
structure KeepsStack (f : Cpu → Cpu) : Prop where
  esp : ∀ c, (f c).esp = c.esp
  top : ∀ c, ∀ i < 16, (f c).top i = c.top i
  ss : ∀ c, (f c).ss = c.ss
  cs : ∀ c, (f c).cs = c.cs

section Return

variable {f : Cpu → Cpu} {num : Nat}

/-- The words under those that `iret` takes: the number and the registers. -/
def pushedWords (num : Nat) (c : Cpu) : List Nat :=
  [num, c.regs.edi, c.regs.esi, c.regs.ebp, c.esp, c.regs.ebx, c.regs.edx, c.regs.ecx,
    c.regs.eax]

/-- What is on the stack after the call. -/
theorem KeepsStack.pushed (hf : KeepsStack f) (num : Nat) (c : Cpu) {i : Nat} (hi : i < 16) :
    (f (c.pusha.push num)).top i =
      if h : i < 9 then (pushedWords num c)[i] else c.top (i - 9) := by
  have hpushed : c.pusha.push num = c.pushAll (pushedWords num c) := rfl
  rw [hf.top _ i hi, hpushed]
  exact c.top_pushAll (by omega)

theorem KeepsStack.frame (hf : KeepsStack f) (num : Nat) (c : Cpu) :
    (f (c.pusha.push num)).ss = c.ss ∧ (f (c.pusha.push num)).cs = c.cs ∧
      ∀ n, u32 ((f (c.pusha.push num)).esp + (36 + n)) = u32 (c.esp + n) := by
  obtain ⟨-, hss, hcs⟩ := c.pushAll_frame (pushedWords num c)
  refine ⟨(hf.ss _).trans hss, (hf.cs _).trans hcs, fun n => ?_⟩
  rw [hf.esp]
  exact c.pushAll_esp (pushedWords num c) n

/-- The stub returns as if there were nothing between the entry and `iret`. -/
theorem intHandler_iret (hf : KeepsStack f) (num : Nat) (c : Cpu) :
    (intHandler f num c).toCpuContext = c.iret.toCpuContext := by
  have hstack : ∀ i < 16, (f (c.pusha.push num)).top i =
      if h : i < 9 then (pushedWords num c)[i] else c.top (i - 9) :=
    fun i hi => hf.pushed num c hi
  obtain ⟨hss, hcs, hesp⟩ := hf.frame num c
  obtain ⟨hesp', hss', hcs', -⟩ := (f (c.pusha.push num)).eoi_frame num
  refine Cpu.SameReturn.iret ⟨?_, hss'.trans hss, hcs'.trans hcs, fun n => ?_, fun i hi => ?_⟩
  · simp only [Cpu.popa, Cpu.top_drop, Cpu.top_eoi]
    rw [hstack 1 (by decide), hstack 2 (by decide), hstack 3 (by decide), hstack 5 (by decide),
      hstack 6 (by decide), hstack 7 (by decide), hstack 8 (by decide)]
    rfl
  · rw [← hesp, ← hesp']
    simp only [Cpu.popa, Cpu.drop]
    unfold u32
    omega
  · rw [Cpu.top_popa, Cpu.top_drop, Cpu.top_eoi, hstack _ (by omega), dif_neg (by omega)]
    congr 1
    omega

theorem Cpu.interrupt_pushed (c : Cpu) (G : Gates) (num : Nat) (errcode : Option Nat) {i : Nat}
    (hi : i < (errcode.toList ++ c.iretFrame).length) :
    (c.interrupt G num errcode).top i = (errcode.toList ++ c.iretFrame)[i] := by
  have hlen : (errcode.toList ++ c.iretFrame).length ≤ 6 := by
    unfold iretFrame
    cases errcode <;> split <;> simp
  exact (top_pushAll _ (by omega)).trans (dif_pos hi)

theorem Cpu.interrupt_frame (c : Cpu) (G : Gates) (num : Nat) (errcode : Option Nat) :
    (c.interrupt G num errcode).regs = c.regs ∧ (c.interrupt G num errcode).cs = G.kernelCs ∧
      (¬ UserSegment c.cs → (c.interrupt G num errcode).ss = c.ss ∧
        ∀ n, u32 ((c.interrupt G num errcode).esp + (4 * errcode.toList.length + 12 + n)) =
          u32 (c.esp + n)) := by
  refine ⟨?_, rfl, fun hkernel => ?_⟩
  · refine (pushAll_frame _ _).1.trans ?_
    split <;> rfl
  · have hframe : c.iretFrame = [c.eip, c.cs, c.eflags] := by
      rw [iretFrame, if_neg hkernel, List.append_nil]
    rw [interrupt, if_neg hkernel, hframe]
    refine ⟨(pushAll_frame c _).2.1, fun n => ?_⟩
    have hesp := c.pushAll_esp (errcode.toList ++ [c.eip, c.cs, c.eflags]) n
    rw [List.length_append, Nat.mul_add] at hesp
    exact hesp

/-- `iret` takes what the processor has pushed. -/
theorem interrupt_iret {G : Gates} (hG : ¬ UserSegment G.kernelCs) {c : Cpu}
    (hesp : c.esp < 4294967296) (num : Nat) :
    (c.interrupt G num none).iret.toCpuContext = c.toCpuContext := by
  obtain ⟨hregs, hcs, hkernel⟩ := c.interrupt_frame G num none
  have htop : ∀ i (hi : i < c.iretFrame.length),
      (c.interrupt G num none).top i = c.iretFrame[i] := by
    intro i hi
    exact c.interrupt_pushed G num none hi
  by_cases huser : UserSegment c.cs
  · have hframe : c.iretFrame = [c.eip, c.cs, c.eflags, c.esp, c.ss] := by
      rw [Cpu.iretFrame, if_pos huser]
      rfl
    simp only [hframe] at htop
    have hreturn : UserSegment ((c.interrupt G num none).top 1) ∧
        ¬ UserSegment (c.interrupt G num none).cs := by
      rw [htop 1 (by simp), hcs]
      exact ⟨huser, hG⟩
    rw [Cpu.iret_user _ hreturn, htop 0 (by simp), htop 1 (by simp), htop 2 (by simp),
      htop 3 (by simp), htop 4 (by simp), hregs]
    rfl
  · have hframe : c.iretFrame = [c.eip, c.cs, c.eflags] := by
      rw [Cpu.iretFrame, if_neg huser]
      rfl
    simp only [hframe] at htop
    obtain ⟨hss, hesp'⟩ := hkernel huser
    have hreturn : ¬ (UserSegment ((c.interrupt G num none).top 1) ∧
        ¬ UserSegment (c.interrupt G num none).cs) := by
      rw [htop 1 (by simp)]
      exact fun h => huser h.1
    have hback : u32 ((c.interrupt G num none).esp + 12) = c.esp :=
      (hesp' 0).trans (u32_of_lt hesp)
    rw [Cpu.iret_kernel _ hreturn, htop 0 (by simp), htop 1 (by simp), htop 2 (by simp),
      hregs, hss, hback]
    rfl

/-- The port that the end of an interrupt is written to. -/
def eoiOuts (num : Nat) : List (Nat × Nat) :=
  if num < 40 then [(0x20, 0x20)] else if num < 48 then [(0xA0, 0x20)] else []

theorem intHandler_outs (num : Nat) (c : Cpu) :
    (intHandler f num c).outs = (f (c.pusha.push num)).outs ++ eoiOuts num := by
  have heoi : ∀ d : Cpu, (d.eoi num).outs = d.outs ++ eoiOuts num := by
    intro d
    unfold Cpu.eoi eoiOuts
    split_ifs
    · rfl
    · rfl
    · exact (List.append_nil _).symm
  have hiret : ∀ d : Cpu, d.iret.outs = d.outs := by
    intro d
    unfold Cpu.iret
    split <;> rfl
  exact (hiret _).trans (heoi _)

/-- Whatever is interrupted, the handlers of interrupts run with the registers saved,
and the code goes on with all of them as they were. One controller at most is told. -/
theorem interrupt_returns {G : Gates} (hG : ¬ UserSegment G.kernelCs) (hf : KeepsStack f)
    {c : Cpu} (hesp : c.esp < 4294967296) (num : Nat) :
    (intHandler f num (c.interrupt G num none)).toCpuContext = c.toCpuContext ∧
      (intHandler f num (c.interrupt G num none)).outs =
        (f ((c.interrupt G num none).pusha.push num)).outs ++ eoiOuts num :=
  ⟨(intHandler_iret hf num _).trans (interrupt_iret hG hesp num), intHandler_outs num _⟩

/-! ## Exceptions -/

/-- Without taking the number from the stack, all that is popped is one word off, and so
are the words that `iret` is given. -/
theorem exceptionIsr_pops (hf : KeepsStack f) (num : Nat) (c : Cpu) :
    let c' := if exceptErr num then c else c.push 0
    (exceptionIsr f num c).regs = ⟨num, c'.regs.edi, c'.regs.esi, c'.esp, c'.regs.ebx,
        c'.regs.edx, c'.regs.ecx⟩ ∧
      (exceptionIsr f num c).top 0 = (if exceptErr num then c'.regs.eax else c'.top 0) ∧
      (exceptionIsr f num c).top 1 = (if exceptErr num then c'.top 0 else c'.top 1) ∧
      (exceptionIsr f num c).top 2 = (if exceptErr num then c'.top 1 else c'.top 2) := by
  unfold exceptionIsr
  dsimp only
  generalize (if exceptErr num then c else c.push 0) = c'
  have hstack : ∀ i < 16, (f (c'.pusha.push num)).top i =
      if h : i < 9 then (pushedWords num c')[i] else c'.top (i - 9) :=
    fun i hi => hf.pushed num c' hi
  have hregs : (f (c'.pusha.push num)).popa.regs = ⟨num, c'.regs.edi, c'.regs.esi, c'.esp,
      c'.regs.ebx, c'.regs.edx, c'.regs.ecx⟩ := by
    rw [Cpu.popa, hstack 0 (by decide), hstack 1 (by decide), hstack 2 (by decide),
      hstack 4 (by decide), hstack 5 (by decide), hstack 6 (by decide), hstack 7 (by decide)]
    rfl
  by_cases herr : exceptErr num
  · simp only [if_pos herr]
    rw [Cpu.top_popa, Cpu.top_popa, Cpu.top_popa, hstack 8 (by decide), hstack 9 (by decide),
      hstack 10 (by decide)]
    exact ⟨hregs, rfl, rfl, rfl⟩
  · simp only [if_neg herr]
    rw [Cpu.top_drop, Cpu.top_drop, Cpu.top_drop, Cpu.top_popa, Cpu.top_popa, Cpu.top_popa,
      hstack 9 (by decide), hstack 10 (by decide), hstack 11 (by decide)]
    exact ⟨hregs, rfl, rfl, rfl⟩

/-- The stubs agree with the table on where there is an error code. Only exceptions
without one are let pass, and there is one handler of page faults. -/
theorem exceptionHandlers_spec {num : Nat} {hand : ExceptionHandler}
    (h : exceptionHandlers[num]? = some hand) :
    exceptErr num = hand.hasErrcode ∧ (hand.kill = false → hand.hasErrcode = false) ∧
      (hand.handler = some .pageFault → num = 14) := by
  have hall : ∀ e ∈ exceptionHandlers.zipIdx, exceptErr e.2 = e.1.hasErrcode ∧
      (e.1.kill = false → e.1.hasErrcode = false) ∧
        (e.1.handler = some .pageFault → e.2 = 14) := by decide
  exact hall (hand, num) (List.mem_zipIdx_iff_getElem?.mpr h)

theorem handlePageFault_zero {m m' : PageMem} {place : FaultPlace} {errcode : Nat}
    (h : handlePageFault m place errcode = (m', 0)) :
    place.currProc = false ∧ kernelOffset ≤ place.cr2 ∧
      m' place.cr3 (place.cr2 >>> 22) = m place.kernelCr3 (place.cr2 >>> 22) := by
  unfold handlePageFault at h
  split at h
  · cases h
  rename_i hproc
  split at h
  · rename_i hrange
    dsimp only at h
    split at h
    · cases h
      exact ⟨Bool.eq_false_iff.mpr hproc, hrange.1, if_pos ⟨rfl, rfl⟩⟩
    · cases h
  · cases h

theorem killed_ne_returns (proc : Bool) :
    (if proc then ExceptionEnd.exits else .panics) ≠ .returns := by
  cases proc <;> decide

/-- An exception that does not end the task has no error code, or is a page fault that
has been handled. -/
theorem handleException_returns {m m' : PageMem} {place : FaultPlace} {num errcode : Nat}
    (h : handleException m place num errcode = (m', .returns)) :
    (exceptErr num = false ∧ num ≠ 14) ∨
      (exceptErr num = true ∧ num = 14 ∧ handlePageFault m place errcode = (m', 0)) := by
  unfold handleException at h
  cases hhand : exceptionHandlers[num]? with
  | none =>
    rw [hhand] at h
    cases h
  | some hand =>
    obtain ⟨herr, hkill, hfault⟩ := exceptionHandlers_spec hhand
    obtain ⟨handler, hasErrcode, kill⟩ := hand
    rw [hhand] at h
    dsimp only at h herr hkill hfault
    cases handler with
    | none =>
      cases kill with
      | true => exact absurd (congrArg Prod.snd h) (killed_ne_returns place.currProc)
      | false =>
        rw [hkill rfl] at herr
        refine .inl ⟨herr, ?_⟩
        rintro rfl
        cases herr
    | some func =>
      cases func with
      | gpf => exact absurd (congrArg Prod.snd h) (killed_ne_returns place.currProc)
      | pageFault =>
        obtain rfl := hfault rfl
        dsimp only at h
        split at h
        · exact absurd (congrArg Prod.snd h) (killed_ne_returns place.currProc)
        · rename_i hzero
          cases h
          exact .inr ⟨rfl, rfl, Prod.ext rfl (not_not.mp hzero)⟩

/-- What the stub finds on the stack: the error code, or the `0` in its place, and what
`iret` should take. -/
theorem exception_top (c : Cpu) (G : Gates) (num errcode : Nat) :
    let e := c.interrupt G num (if exceptErr num then some errcode else none)
    let e' := if exceptErr num then e else e.push 0
    e'.regs = c.regs ∧ e'.top 0 = (if exceptErr num then errcode else 0) ∧
      e'.top 1 = c.eip ∧ e'.top 2 = c.cs := by
  have hlen : 3 ≤ c.iretFrame.length := by
    unfold Cpu.iretFrame
    split <;> simp
  dsimp only
  by_cases herr : exceptErr num
  · have hpushed : ∀ i, i < c.iretFrame.length + 1 →
        (c.interrupt G num (some errcode)).top i = (errcode :: c.iretFrame).getD i 0 := by
      intro i hi
      rw [c.interrupt_pushed G num (some errcode) hi, List.getD_eq_getElem _ _ hi]
      rfl
    simp only [if_pos herr]
    rw [hpushed 0 (by omega), hpushed 1 (by omega), hpushed 2 (by omega)]
    exact ⟨(c.interrupt_frame G num (some errcode)).1, rfl, rfl, rfl⟩
  · have hpushed : ∀ i, i < c.iretFrame.length →
        (c.interrupt G num none).top i = c.iretFrame.getD i 0 := by
      intro i hi
      rw [c.interrupt_pushed G num none hi, List.getD_eq_getElem _ _ hi]
      rfl
    simp only [if_neg herr]
    rw [Cpu.push_regs, Cpu.top_push_zero, Cpu.top_push_succ _ _ (by decide),
      Cpu.top_push_succ _ _ (by decide), hpushed 0 (by omega), hpushed 1 (by omega)]
    exact ⟨(c.interrupt_frame G num none).1, rfl, rfl, rfl⟩

/-- After an exception that `handle_exception` returns from `iret` is not given what the
processor has pushed: its first words are `0`, the old `eip` and the old `cs`, or, after
a page fault that has been handled, the old `eax`, the error code and the old `eip`. The
other registers are mixed up as well. -/
theorem exception_returns_elsewhere (hf : KeepsStack f) (G : Gates) (c : Cpu)
    {m m' : PageMem} {place : FaultPlace} {num errcode : Nat}
    (hend : handleException m place num errcode = (m', .returns)) :
    let r := exceptionIsr f num
      (c.interrupt G num (if exceptErr num then some errcode else none))
    ((num ≠ 14 ∧ r.top 0 = 0 ∧ r.top 1 = c.eip ∧ r.top 2 = c.cs) ∨
      (num = 14 ∧ r.top 0 = c.regs.eax ∧ r.top 1 = errcode ∧ r.top 2 = c.eip ∧
        place.currProc = false ∧ kernelOffset ≤ place.cr2 ∧
        m' place.cr3 (place.cr2 >>> 22) = m place.kernelCr3 (place.cr2 >>> 22))) ∧
      r.regs.edi = num ∧ r.regs.esi = c.regs.edi ∧ r.regs.ebp = c.regs.esi ∧
      r.regs.edx = c.regs.ebx ∧ r.regs.ecx = c.regs.edx ∧ r.regs.eax = c.regs.ecx := by
  dsimp only
  obtain ⟨hregs, hzero, heip, hcs⟩ := exception_top c G num errcode
  obtain ⟨hpops, heip', hcs', hflags⟩ := exceptionIsr_pops hf num
    (c.interrupt G num (if exceptErr num then some errcode else none))
  rw [hpops, heip', hcs', hflags, hregs, hzero, heip, hcs]
  refine ⟨?_, rfl, rfl, rfl, rfl, rfl, rfl⟩
  rcases handleException_returns hend with ⟨herr, hnum⟩ | ⟨herr, hnum, hfault⟩
  · rw [herr]
    exact .inl ⟨hnum, rfl, rfl, rfl⟩
  · rw [herr]
    exact .inr ⟨hnum, rfl, rfl, rfl, handlePageFault_zero hfault⟩

/-- A handler that leaves other values in the registers. -/
def clobber (c : Cpu) : Cpu := { c with regs := ⟨1, 2, 3, 4, 5, 6, 7⟩, eflags := 0 }

theorem clobber_keeps : KeepsStack clobber :=
  ⟨fun _ => rfl, fun _ _ _ => rfl, fun _ => rfl, fun _ => rfl⟩

def flatGates : Gates := ⟨0x10, 0xC0200000, 0x08, fun num => 0xC0100000 + 32 * num⟩

/-- Users, with the stack at `0x8000`. -/
def userCpu : Cpu where
  regs := ⟨10, 11, 12, 13, 14, 15, 16⟩
  esp := 0x8000
  ss := 0x23
  eip := 0x1000
  cs := 0x1B
  eflags := 0x202
  stk := fun _ => 0
  outs := []

theorem interrupt_returns_user :
    (intHandler clobber 33 (userCpu.interrupt flatGates 33 none)).toCpuContext =
      userCpu.toCpuContext ∧
    (intHandler clobber 33 (userCpu.interrupt flatGates 33 none)).outs = [(0x20, 0x20)] :=
  interrupt_returns (by decide) clobber_keeps (by decide) 33

/-- After a breakpoint `iret` is given the address `0`. -/
theorem exception_returns_elsewhere_breakpoint :
    (exceptionIsr clobber 3 (userCpu.interrupt flatGates 3 none)).top 0 = 0 ∧
      (exceptionIsr clobber 3 (userCpu.interrupt flatGates 3 none)).top 1 = 0x1000 := by
  have hend : handleException (fun _ _ => 0) ⟨0, 0, 0, true⟩ 3 0 = (fun _ _ => 0, .returns) := rfl
  rcases (exception_returns_elsewhere clobber_keeps flatGates userCpu hend).1 with h | h
  · exact ⟨h.2.1, h.2.2.1⟩
  · exact absurd h.1 (by decide)

end Return

end LambdaOs
