import LambdaOs.Errno
import LambdaOs.Slots
import LambdaOs.Word

/-!
# Handlers of interrupts

`arch/x86/src/intr/idt.c`, and the drivers of the interrupt controllers of the ARM
boards, `arch/arm32/src/intr/gic.c` and `bcm2835_intctlr.c`. Each has a table of 16
slots for the handlers that are attached, of which the first free one is taken, and
none is ever given back; a handler that is called may attach others.

On x86 every interrupt calls all handlers that are attached to it
(`idt_calls_attached`). The ARM drivers call the first one with a function, so that it
stays the only one that is called, for good (`intctlr_calls_first`).
-/

namespace LambdaOs

/-! ## x86 -/

/-- `x86_idt_callback_t` -/
structure IdtCallback where
  intN : Nat
  hdlr : Nat
deriving Repr, DecidableEq

/-- `callbacks` of `_idt_hand`, and what the handlers work on. -/
structure Idt (δ : Type) where
  callbacks : List IdtCallback
  dev : δ

/-- `X86_IDT_MAX_CALLBACKS` -/
def x86IdtMaxCallbacks : Nat := 16

/-- A slot whose handler is `NULL` is free. -/
def IdtCallback.Free (c : IdtCallback) : Prop := c.hdlr = 0

instance : DecidablePred IdtCallback.Free := fun _ => inferInstanceAs (Decidable (_ = _))

/-- The functions of the handlers, by the addresses of their handles, and what a call
does. -/
structure IdtFuncs (δ : Type) where
  callback : Nat → Nat
  call : Nat → Nat → Idt δ → Idt δ

section Idt

variable {δ : Type} (F : IdtFuncs δ)

/-- `_idt_hand` after `memset`. -/
def idtInit (dev : δ) : Idt δ := ⟨List.replicate x86IdtMaxCallbacks ⟨0, 0⟩, dev⟩

/-- The number is an `uint8_t`. -/
def idtAddCallback (intN hdlr : Nat) (s : Idt δ) : Idt δ × Int :=
  match putFirst IdtCallback.Free ⟨intN % 256, hdlr⟩ s.callbacks with
  | some callbacks => ({ s with callbacks := callbacks }, 0)
  | none => (s, -1)

/-- The handler in a slot is called for the interrupt. -/
def IdtCallback.Called (intN : Nat) (c : IdtCallback) : Prop :=
  c.hdlr ≠ 0 ∧ c.intN = intN ∧ F.callback c.hdlr ≠ 0

instance (intN : Nat) : DecidablePred (IdtCallback.Called F intN) := fun _ =>
  inferInstanceAs (Decidable (_ ∧ _ ∧ _))

/-- `idt_handle_interrupt`, with the handlers that have been called. -/
def idtHandleInterrupt (intN : Nat) (s : Idt δ) : Idt δ × List IdtCallback :=
  roundFrom Idt.callbacks (IdtCallback.Called F intN)
    (fun c => F.call (F.callback c.hdlr) c.hdlr) x86IdtMaxCallbacks 0 s

inductive IdtAct where
  | attach (intN hdlr : Nat)
  | interrupt (intN : Nat)
deriving Repr, DecidableEq

def idtStep (s : Idt δ) : IdtAct → Idt δ
  | .attach intN hdlr => (idtAddCallback intN hdlr s).1
  | .interrupt intN => (idtHandleInterrupt F intN s).1

def idtRun (acts : List IdtAct) (s : Idt δ) : Idt δ := acts.foldl (idtStep F) s

/-- The handlers that are attached, in the order in which they were. -/
def Idt.attached (s : Idt δ) : List IdtCallback := taken IdtCallback.Free s.callbacks

/-- Handlers change the table only by attaching others. -/
def IdtFuncs.OnlyAttach : Prop :=
  ∀ f hdlr s, Puts IdtCallback.Free s.callbacks (F.call f hdlr s).callbacks

end Idt

/-! ## ARM -/

/-- `armv7_gic_callback_t` and `bcm2835_intctlr_callback_t` -/
structure ArmCallback where
  intN : Nat
  data : Nat
  callback : Nat
deriving Repr, DecidableEq

/-- `callbacks` of a controller's handle, and the rest of the machine with its
registers. -/
structure Intctlr (δ : Type) where
  callbacks : List ArmCallback
  dev : δ

/-- `ARM32_GIC_MAX_CALLBACKS` and `BCM2835_INTCTLR_MAX_CALLBACKS` -/
def intctlrMaxCallbacks : Nat := 16

/-- The number that `armv7_gic_init` and `bcm2835_intctlr_init` give all slots. -/
def ArmCallback.Free (c : ArmCallback) : Prop := c.intN = 0xFFFFFFFF

instance : DecidablePred ArmCallback.Free := fun _ => inferInstanceAs (Decidable (_ = _))

/-- `BCM2835_INT_GPUIRQ_0`, `BCM2835_INT_GPUIRQ_1` and `BCM2835_INT_OFFSET` -/
def bcm2835IntGpuirq0 : Nat := 8
def bcm2835IntGpuirq1 : Nat := 9
def bcm2835IntOffset : Nat := 128

/-- What reads of the registers give: of the GIC `IAR`, whose read acknowledges, and
what a write of `EOIR` does; of the other `irq_basic_pending` and `irq_pending`. -/
structure IntctlrRegs (δ : Type) where
  iar : δ → Nat × δ
  eoir : Nat → δ → δ
  irqBasicPending : δ → Nat
  irqPending : Nat → δ → Nat

/-- The two drivers. -/
inductive IntctlrKind where
  | gic
  | bcm2835
deriving Repr, DecidableEq

section Intctlr

variable {δ : Type} (R : IntctlrRegs δ) (call : Nat → Nat → Nat → Intctlr δ → Intctlr δ)

/-- The loop of the inits; the rest of the memory of the table stays as it is. -/
def intctlrInit (junk : Fin intctlrMaxCallbacks → ArmCallback) (dev : δ) : Intctlr δ :=
  ⟨(List.ofFn junk).map fun c => { c with intN := 0xFFFFFFFF }, dev⟩

/-- `_intctlr_intr_attach` -/
def intctlrIntrAttach (intN callback intData : Nat) (s : Intctlr δ) : Intctlr δ × Int :=
  if intN > 255 then (s, -EINVAL)
  else
    match putFirst ArmCallback.Free ⟨intN, intData, callback⟩ s.callbacks with
    | some callbacks => ({ s with callbacks := callbacks }, 0)
    | none => (s, -EUNSPEC)

/-- The slot is one of the interrupt, and has a function. -/
def ArmCallback.Serves (intN : Nat) (c : ArmCallback) : Prop := c.intN = intN ∧ c.callback ≠ 0

instance (intN : Nat) : DecidablePred (ArmCallback.Serves intN) := fun _ =>
  inferInstanceAs (Decidable (_ ∧ _))

/-- `_call_handler`, and the loop of the GIC's `_irqhandle`: up to the first handler
that is called. -/
def callHandler (intN : Nat) (s : Intctlr δ) : Intctlr δ × Option ArmCallback :=
  match s.callbacks.find? fun c => ArmCallback.Serves intN c with
  | some c => (call c.callback intN c.data s, some c)
  | none => (s, none)

/-- An interrupt that has been handled, with the handler that was called for it. -/
abbrev Handled := Nat × Option ArmCallback

/-- `_irqhandle` of the GIC. -/
def gicIrqhandle (s : Intctlr δ) : Intctlr δ × List Handled :=
  let (iar, dev) := R.iar s.dev
  let intr := iar &&& 0x00FFFFFF
  let (s, c) := callHandler call intr { s with dev := R.eoir intr dev }
  (s, [(intr, c)])

/-- A loop over the bits of a register of pending interrupts. -/
def pendingLoop (pending : δ → Nat) (offset : Nat) :
    List Nat → Intctlr δ → Intctlr δ × List Handled
  | [], s => (s, [])
  | i :: bits, s =>
      if (pending s.dev).testBit i then
        let (s, c) := callHandler call (offset + i) s
        let (s, handled) := pendingLoop pending offset bits s
        (s, (offset + i, c) :: handled)
      else pendingLoop pending offset bits s

/-- The loop over a GPU register, if its bit in the basic one is set. -/
def gpuLoop (bit word offset : Nat) (s : Intctlr δ) : Intctlr δ × List Handled :=
  if (R.irqBasicPending s.dev).testBit bit then
    pendingLoop call (R.irqPending word) offset (List.range 32) s
  else (s, [])

/-- `_irqhandle` of the BCM2835. -/
def bcm2835Irqhandle (s : Intctlr δ) : Intctlr δ × List Handled :=
  let (s, gpu0) := gpuLoop R call bcm2835IntGpuirq0 0 0 s
  let (s, gpu1) := gpuLoop R call bcm2835IntGpuirq1 1 32 s
  let (s, arm) := pendingLoop call R.irqBasicPending bcm2835IntOffset (List.range 8) s
  (s, gpu0 ++ gpu1 ++ arm)

def irqhandle (kind : IntctlrKind) (s : Intctlr δ) : Intctlr δ × List Handled :=
  match kind with
  | .gic => gicIrqhandle R call s
  | .bcm2835 => bcm2835Irqhandle R call s

inductive IntctlrAct where
  | attach (intN callback intData : Nat)
  | irq
deriving Repr, DecidableEq

def intctlrStep (kind : IntctlrKind) (s : Intctlr δ) : IntctlrAct → Intctlr δ
  | .attach intN callback intData => (intctlrIntrAttach intN callback intData s).1
  | .irq => (irqhandle R call kind s).1

def intctlrRun (kind : IntctlrKind) (acts : List IntctlrAct) (s : Intctlr δ) : Intctlr δ :=
  acts.foldl (intctlrStep R call kind) s

/-- The handlers that are attached, in the order in which they were. -/
def Intctlr.attached (s : Intctlr δ) : List ArmCallback := taken ArmCallback.Free s.callbacks

/-- The interrupts of the first bits of a register. -/
def pendingBits (pending offset n : Nat) : List Nat :=
  ((List.range n).filter pending.testBit).map (offset + ·)

/-- The interrupts that the registers show, in the order in which they are handled. -/
def IntctlrRegs.interrupts (dev : δ) : IntctlrKind → List Nat
  | .gic => [(R.iar dev).1 &&& 0x00FFFFFF]
  | .bcm2835 =>
      (if (R.irqBasicPending dev).testBit bcm2835IntGpuirq0 then
        pendingBits (R.irqPending 0 dev) 0 32 else []) ++
      (if (R.irqBasicPending dev).testBit bcm2835IntGpuirq1 then
        pendingBits (R.irqPending 1 dev) 32 32 else []) ++
      pendingBits (R.irqBasicPending dev) bcm2835IntOffset 8

/-- Handlers leave the registers of pending interrupts as they are. -/
def KeepsPending : Prop :=
  ∀ f intN data s, R.irqBasicPending (call f intN data s).dev = R.irqBasicPending s.dev ∧
    ∀ word, R.irqPending word (call f intN data s).dev = R.irqPending word s.dev

end Intctlr

/-! ## The tables -/

section IdtTable

variable {δ : Type} {F : IdtFuncs δ} {s : Idt δ}

theorem idtAddCallback_puts (intN hdlr : Nat) (s : Idt δ) :
    Puts IdtCallback.Free s.callbacks (idtAddCallback intN hdlr s).1.callbacks := by
  unfold idtAddCallback
  split
  · rename_i hput
    exact .put _ .refl hput
  · exact .refl

theorem idtStep_puts (hF : F.OnlyAttach) (s : Idt δ) (act : IdtAct) :
    Puts IdtCallback.Free s.callbacks (idtStep F s act).callbacks := by
  cases act with
  | attach intN hdlr => exact idtAddCallback_puts intN hdlr s
  | interrupt intN => exact roundFrom_puts fun c s => hF (F.callback c.hdlr) c.hdlr s

theorem idtRun_puts (hF : F.OnlyAttach) (acts : List IdtAct) (s : Idt δ) :
    Puts IdtCallback.Free s.callbacks (idtRun F acts s).callbacks := by
  induction acts generalizing s with
  | nil => exact .refl
  | cons act acts ih => exact (idtStep_puts hF s act).trans (ih (idtStep F s act))

theorem idtInit_table (dev : δ) :
    SlotTable IdtCallback.Free x86IdtMaxCallbacks (idtInit dev).callbacks :=
  .of_free (fun _ hc => congrArg IdtCallback.hdlr (List.eq_of_mem_replicate hc))
    List.length_replicate

theorem idtAddCallback_room (h : SlotTable IdtCallback.Free x86IdtMaxCallbacks s.callbacks)
    (intN : Nat) {hdlr : Nat} (hne : hdlr ≠ 0) (hroom : s.attached.length < x86IdtMaxCallbacks) :
    (idtAddCallback intN hdlr s).2 = 0 ∧
      (idtAddCallback intN hdlr s).1.attached = s.attached ++ [⟨intN % 256, hdlr⟩] := by
  have hused : ¬ IdtCallback.Free ⟨intN % 256, hdlr⟩ := hne
  obtain ⟨t, hput, htaken⟩ := h.put hused hroom
  rw [idtAddCallback, hput]
  exact ⟨rfl, htaken⟩

theorem idtAddCallback_full (h : SlotTable IdtCallback.Free x86IdtMaxCallbacks s.callbacks)
    (intN hdlr : Nat) (hfull : x86IdtMaxCallbacks ≤ s.attached.length) :
    idtAddCallback intN hdlr s = (s, -1) := by
  rw [idtAddCallback, h.put_full hfull]

/-- At any time each interrupt calls the handlers that are attached to it and have a
function, each once and in the order in which they were attached, with those that are
attached while it is handled. A handler that is attached stays so; the seventeenth is
refused. -/
theorem idt_calls_attached (hF : F.OnlyAttach) (dev : δ) (acts : List IdtAct) (intN : Nat) :
    let s := idtRun F acts (idtInit dev)
    let r := idtHandleInterrupt F intN s
    s.attached <+: r.1.attached ∧ r.2 = r.1.attached.filter (IdtCallback.Called F intN) ∧
      ∀ hdlr ≠ 0, if s.attached.length < x86IdtMaxCallbacks then
          (idtAddCallback intN hdlr s).2 = 0 ∧
            (idtAddCallback intN hdlr s).1.attached = s.attached ++ [⟨intN % 256, hdlr⟩]
        else idtAddCallback intN hdlr s = (s, -1) := by
  intro s r
  have htable : SlotTable IdtCallback.Free x86IdtMaxCallbacks s.callbacks :=
    ((idtInit_table dev).puts (idtRun_puts hF acts _)).1
  have hserve : ∀ (c : IdtCallback) (s : Idt δ), Puts IdtCallback.Free s.callbacks
      (F.call (F.callback c.hdlr) c.hdlr s).callbacks := fun c s => hF _ _ s
  have hfree : ∀ c : IdtCallback, c.Free → ¬ IdtCallback.Called F intN c := fun c hfree hcalled =>
    hcalled.1 hfree
  obtain ⟨l', hpacked, hlen, hcalled⟩ := htable.packed.round (i := 0) hfree hserve
    htable.size.symm
  have hattached : r.1.attached = s.attached ++ l' := hpacked.taken_eq
  refine ⟨⟨l', hattached.symm⟩, ?_, fun hdlr hne => ?_⟩
  · rw [hattached]
    exact hcalled
  · split
    · rename_i hroom
      exact idtAddCallback_room htable intN hne hroom
    · rename_i hfull
      exact idtAddCallback_full htable intN hdlr (Nat.le_of_not_lt hfull)

/-- The handler at `1` attaches the one at `2` to the same interrupt. -/
def nestedFuncs : IdtFuncs Nat where
  callback := fun hdlr => 100 + hdlr
  call := fun _ hdlr s =>
    if hdlr = 1 then (idtAddCallback 32 2 s).1 else { s with dev := s.dev + 1 }

theorem idt_calls_nested :
    (idtHandleInterrupt nestedFuncs 32 (idtRun nestedFuncs [.attach 33 3, .attach 32 1]
      (idtInit 0))).2 = [⟨32, 1⟩, ⟨32, 2⟩] := by
  have hF : nestedFuncs.OnlyAttach := by
    intro f hdlr s
    dsimp only [nestedFuncs]
    split
    · exact idtAddCallback_puts 32 2 s
    · exact .refl
  rw [(idt_calls_attached hF 0 [.attach 33 3, .attach 32 1] 32).2.1]
  decide

end IdtTable

section IntctlrTable

variable {δ : Type} {R : IntctlrRegs δ} {call : Nat → Nat → Nat → Intctlr δ → Intctlr δ}
  {s : Intctlr δ}

/-- Handlers change the table only by attaching others. -/
def CallsAttach (call : Nat → Nat → Nat → Intctlr δ → Intctlr δ) : Prop :=
  ∀ f intN data s, Puts ArmCallback.Free s.callbacks (call f intN data s).callbacks

theorem intctlrIntrAttach_puts (intN callback intData : Nat) (s : Intctlr δ) :
    Puts ArmCallback.Free s.callbacks
      (intctlrIntrAttach intN callback intData s).1.callbacks := by
  unfold intctlrIntrAttach
  split
  · exact .refl
  · split
    · rename_i hput
      exact .put _ .refl hput
    · exact .refl

theorem callHandler_puts (hcall : CallsAttach call) (intN : Nat) (s : Intctlr δ) :
    Puts ArmCallback.Free s.callbacks (callHandler call intN s).1.callbacks := by
  unfold callHandler
  split
  · exact hcall ..
  · exact .refl

/-- While the table grew from the one to the other, the interrupt was handled by the
first slot that served it. -/
def HandledBetween (t t' : List ArmCallback) (e : Handled) : Prop :=
  ∃ mid, Puts ArmCallback.Free t mid ∧ Puts ArmCallback.Free mid t' ∧
    e.1 ≤ 0x00FFFFFF ∧ e.2 = mid.find? fun c => ArmCallback.Serves e.1 c

theorem HandledBetween.mono {t₀ t t' t₁ : List ArmCallback} {e : Handled}
    (h : HandledBetween t t' e) (hbefore : Puts ArmCallback.Free t₀ t)
    (hafter : Puts ArmCallback.Free t' t₁) : HandledBetween t₀ t₁ e := by
  obtain ⟨mid, hmid, hmid', he⟩ := h
  exact ⟨mid, hbefore.trans hmid, hmid'.trans hafter, he⟩

/-- What a piece of an interrupt handler does: it calls for each interrupt the first
slot that serves it. -/
def Handles (s : Intctlr δ) (r : Intctlr δ × List Handled) : Prop :=
  Puts ArmCallback.Free s.callbacks r.1.callbacks ∧
    ∀ e ∈ r.2, HandledBetween s.callbacks r.1.callbacks e

theorem Handles.nil (s : Intctlr δ) : Handles s (s, []) := ⟨.refl, by simp⟩

theorem Handles.append {r : Intctlr δ × List Handled} (h : Handles s r)
    {r' : Intctlr δ × List Handled} (h' : Handles r.1 r') :
    Handles s (r'.1, r.2 ++ r'.2) := by
  refine ⟨h.1.trans h'.1, fun e he => ?_⟩
  rcases List.mem_append.mp he with he | he
  · exact (h.2 e he).mono .refl h'.1
  · exact (h'.2 e he).mono h.1 .refl

theorem callHandler_handles (hcall : CallsAttach call) {intN : Nat} (hintN : intN ≤ 0x00FFFFFF)
    (s : Intctlr δ) :
    Handles s ((callHandler call intN s).1, [(intN, (callHandler call intN s).2)]) := by
  refine ⟨callHandler_puts hcall intN s, List.forall_mem_singleton.mpr ?_⟩
  refine ⟨s.callbacks, .refl, callHandler_puts hcall intN s, hintN, ?_⟩
  rw [callHandler]
  cases s.callbacks.find? fun c => ArmCallback.Serves intN c <;> rfl

theorem gicIrqhandle_handles (hcall : CallsAttach call) (s : Intctlr δ) :
    Handles s (gicIrqhandle R call s) :=
  callHandler_handles hcall Nat.and_le_right
    { s with dev := R.eoir ((R.iar s.dev).1 &&& 0x00FFFFFF) (R.iar s.dev).2 }

theorem pendingLoop_handles (hcall : CallsAttach call) (pending : δ → Nat) {offset : Nat}
    {bits : List Nat} (hbits : ∀ i ∈ bits, offset + i ≤ 0x00FFFFFF) (s : Intctlr δ) :
    Handles s (pendingLoop call pending offset bits s) := by
  induction bits generalizing s with
  | nil => exact Handles.nil s
  | cons i bits ih =>
    obtain ⟨hi, hbits⟩ := List.forall_mem_cons.mp hbits
    rw [pendingLoop]
    split
    · exact (callHandler_handles hcall hi s).append (ih hbits (callHandler call (offset + i) s).1)
    · exact ih hbits s

theorem gpuLoop_handles (hcall : CallsAttach call) (bit word : Nat) {offset : Nat}
    (hoffset : offset ≤ 32) (s : Intctlr δ) : Handles s (gpuLoop R call bit word offset s) := by
  rw [gpuLoop]
  split
  · refine pendingLoop_handles hcall _ (fun i hi => ?_) s
    have hlt := List.mem_range.mp hi
    omega
  · exact Handles.nil s

theorem bcm2835Irqhandle_eq {r₀ r₁ r₂ : Intctlr δ × List Handled}
    (h₀ : gpuLoop R call bcm2835IntGpuirq0 0 0 s = r₀)
    (h₁ : gpuLoop R call bcm2835IntGpuirq1 1 32 r₀.1 = r₁)
    (h₂ : pendingLoop call R.irqBasicPending bcm2835IntOffset (List.range 8) r₁.1 = r₂) :
    bcm2835Irqhandle R call s = (r₂.1, r₀.2 ++ r₁.2 ++ r₂.2) := by
  simp only [bcm2835Irqhandle, h₀, h₁, h₂]

theorem bcm2835Irqhandle_handles (hcall : CallsAttach call) (s : Intctlr δ) :
    Handles s (bcm2835Irqhandle R call s) := by
  obtain ⟨r₀, h₀⟩ := (⟨_, rfl⟩ : ∃ r, gpuLoop R call bcm2835IntGpuirq0 0 0 s = r)
  obtain ⟨r₁, h₁⟩ := (⟨_, rfl⟩ : ∃ r, gpuLoop R call bcm2835IntGpuirq1 1 32 r₀.1 = r)
  obtain ⟨r₂, h₂⟩ := (⟨_, rfl⟩ : ∃ r,
    pendingLoop call R.irqBasicPending bcm2835IntOffset (List.range 8) r₁.1 = r)
  have hbits : ∀ i ∈ List.range 8, bcm2835IntOffset + i ≤ 0x00FFFFFF := by
    intro i hi
    have hlt := List.mem_range.mp hi
    rw [bcm2835IntOffset]
    omega
  have hgpu0 := h₀ ▸ gpuLoop_handles (R := R) hcall bcm2835IntGpuirq0 0 (Nat.zero_le 32) s
  have hgpu1 := h₁ ▸ gpuLoop_handles (R := R) hcall bcm2835IntGpuirq1 1 (le_refl 32) r₀.1
  have harm := h₂ ▸ pendingLoop_handles hcall R.irqBasicPending hbits r₁.1
  rw [bcm2835Irqhandle_eq h₀ h₁ h₂]
  exact (hgpu0.append hgpu1).append harm

theorem irqhandle_handles (hcall : CallsAttach call) (kind : IntctlrKind) (s : Intctlr δ) :
    Handles s (irqhandle R call kind s) := by
  cases kind with
  | gic => exact gicIrqhandle_handles hcall s
  | bcm2835 => exact bcm2835Irqhandle_handles hcall s

theorem intctlrStep_puts (hcall : CallsAttach call) (kind : IntctlrKind) (s : Intctlr δ)
    (act : IntctlrAct) :
    Puts ArmCallback.Free s.callbacks (intctlrStep R call kind s act).callbacks := by
  cases act with
  | attach intN callback intData => exact intctlrIntrAttach_puts intN callback intData s
  | irq => exact (irqhandle_handles hcall kind s).1

theorem intctlrRun_puts (hcall : CallsAttach call) (kind : IntctlrKind) (acts : List IntctlrAct)
    (s : Intctlr δ) :
    Puts ArmCallback.Free s.callbacks (intctlrRun R call kind acts s).callbacks := by
  induction acts generalizing s with
  | nil => exact .refl
  | cons act acts ih => exact (intctlrStep_puts hcall kind s act).trans (ih _)

theorem intctlrInit_table (junk : Fin intctlrMaxCallbacks → ArmCallback) (dev : δ) :
    SlotTable ArmCallback.Free intctlrMaxCallbacks (intctlrInit junk dev).callbacks := by
  refine .of_free (fun c hc => ?_) ?_
  · obtain ⟨d, -, rfl⟩ := List.mem_map.mp hc
    rfl
  · rw [intctlrInit, List.length_map, List.length_ofFn]

theorem callHandler_keeps (hkeep : KeepsPending R call) (intN : Nat) (s : Intctlr δ) :
    R.irqBasicPending (callHandler call intN s).1.dev = R.irqBasicPending s.dev ∧
      ∀ word, R.irqPending word (callHandler call intN s).1.dev = R.irqPending word s.dev := by
  unfold callHandler
  split
  · exact hkeep ..
  · exact ⟨rfl, fun _ => rfl⟩

/-- Over registers that stay, the loop handles the bits that are set. -/
theorem pendingLoop_interrupts (hkeep : KeepsPending R call) {pending : δ → Nat}
    (hpending : ∀ intN s, pending (callHandler call intN s).1.dev = pending s.dev)
    (offset : Nat) (bits : List Nat) (s : Intctlr δ) :
    (pendingLoop call pending offset bits s).2.map Prod.fst =
        (bits.filter (pending s.dev).testBit).map (offset + ·) ∧
      R.irqBasicPending (pendingLoop call pending offset bits s).1.dev =
        R.irqBasicPending s.dev ∧
      ∀ word, R.irqPending word (pendingLoop call pending offset bits s).1.dev =
        R.irqPending word s.dev := by
  induction bits generalizing s with
  | nil => exact ⟨rfl, rfl, fun _ => rfl⟩
  | cons i bits ih =>
    rw [pendingLoop, List.filter_cons]
    split
    · obtain ⟨hmap, hbasic, hword⟩ := ih (callHandler call (offset + i) s).1
      obtain ⟨hbasic', hword'⟩ := callHandler_keeps hkeep (offset + i) s
      rw [hpending] at hmap
      exact ⟨congrArg ((offset + i) :: ·) hmap, hbasic.trans hbasic',
        fun word => (hword word).trans (hword' word)⟩
    · exact ih s

theorem gpuLoop_interrupts (hkeep : KeepsPending R call) (bit word offset : Nat)
    (s : Intctlr δ) :
    (gpuLoop R call bit word offset s).2.map Prod.fst =
        (if (R.irqBasicPending s.dev).testBit bit then
          pendingBits (R.irqPending word s.dev) offset 32 else []) ∧
      R.irqBasicPending (gpuLoop R call bit word offset s).1.dev = R.irqBasicPending s.dev ∧
      ∀ word', R.irqPending word' (gpuLoop R call bit word offset s).1.dev =
        R.irqPending word' s.dev := by
  rw [gpuLoop]
  split
  · exact pendingLoop_interrupts hkeep (fun intN s => (callHandler_keeps hkeep intN s).2 word)
      offset _ s
  · exact ⟨rfl, rfl, fun _ => rfl⟩

/-- Every interrupt that the registers show is handled. -/
theorem irqhandle_interrupts {kind : IntctlrKind} (hkeep : kind = .gic ∨ KeepsPending R call)
    (s : Intctlr δ) :
    (irqhandle R call kind s).2.map Prod.fst = R.interrupts s.dev kind := by
  cases kind with
  | gic => rfl
  | bcm2835 =>
    replace hkeep := hkeep.resolve_left nofun
    obtain ⟨r₀, h₀⟩ := (⟨_, rfl⟩ : ∃ r, gpuLoop R call bcm2835IntGpuirq0 0 0 s = r)
    obtain ⟨r₁, h₁⟩ := (⟨_, rfl⟩ : ∃ r, gpuLoop R call bcm2835IntGpuirq1 1 32 r₀.1 = r)
    obtain ⟨r₂, h₂⟩ := (⟨_, rfl⟩ : ∃ r,
      pendingLoop call R.irqBasicPending bcm2835IntOffset (List.range 8) r₁.1 = r)
    obtain ⟨hmap, hbasic, hword⟩ := gpuLoop_interrupts hkeep bcm2835IntGpuirq0 0 0 s
    obtain ⟨hmap', hbasic', -⟩ := gpuLoop_interrupts hkeep bcm2835IntGpuirq1 1 32 r₀.1
    obtain ⟨hmap'', -, -⟩ := pendingLoop_interrupts hkeep
      (fun intN s => (callHandler_keeps hkeep intN s).1) bcm2835IntOffset (List.range 8) r₁.1
    rw [h₀] at hmap hbasic hword
    rw [h₁, hbasic, hword] at hmap'
    rw [h₁] at hbasic'
    rw [h₂, hbasic', hbasic] at hmap''
    rw [irqhandle, bcm2835Irqhandle_eq h₀ h₁ h₂, List.map_append, List.map_append, hmap, hmap',
      hmap'']
    rfl

theorem intctlrIntrAttach_room (h : SlotTable ArmCallback.Free intctlrMaxCallbacks s.callbacks)
    {intN : Nat} (hintN : intN ≤ 255) (callback intData : Nat)
    (hroom : s.attached.length < intctlrMaxCallbacks) :
    (intctlrIntrAttach intN callback intData s).2 = 0 ∧
      (intctlrIntrAttach intN callback intData s).1.attached =
        s.attached ++ [⟨intN, intData, callback⟩] := by
  have hused : ¬ ArmCallback.Free ⟨intN, intData, callback⟩ := by
    intro hfree
    have hnum : intN = 0xFFFFFFFF := hfree
    omega
  obtain ⟨t, hput, htaken⟩ := h.put hused hroom
  rw [intctlrIntrAttach, if_neg (Nat.not_lt.mpr hintN), hput]
  exact ⟨rfl, htaken⟩

theorem intctlrIntrAttach_full (h : SlotTable ArmCallback.Free intctlrMaxCallbacks s.callbacks)
    {intN : Nat} (hintN : intN ≤ 255) (callback intData : Nat)
    (hfull : intctlrMaxCallbacks ≤ s.attached.length) :
    intctlrIntrAttach intN callback intData s = (s, -EUNSPEC) := by
  rw [intctlrIntrAttach, if_neg (Nat.not_lt.mpr hintN), h.put_full hfull]

/-- A free slot has no number that an interrupt has. -/
theorem find_taken {t : List ArmCallback} (h : SlotTable ArmCallback.Free intctlrMaxCallbacks t)
    {intN : Nat} (hintN : intN ≤ 0x00FFFFFF) :
    (t.find? fun c => ArmCallback.Serves intN c) =
      (taken ArmCallback.Free t).find? fun c => ArmCallback.Serves intN c := by
  obtain ⟨rest, htable, hrest⟩ := h.packed.slots
  have hnone : (rest.find? fun c => ArmCallback.Serves intN c) = none := by
    rw [List.find?_eq_none]
    intro c hc hserves
    have hnum := (of_decide_eq_true hserves).1
    have hfree : c.intN = 0xFFFFFFFF := hrest c hc
    omega
  conv_lhs => rw [htable]
  rw [List.find?_append, hnone, Option.or_none]

/-- What serves an interrupt first goes on doing so. -/
theorem find_taken_puts {t t' : List ArmCallback}
    (h : SlotTable ArmCallback.Free intctlrMaxCallbacks t) (hputs : Puts ArmCallback.Free t t')
    {intN : Nat} {c : ArmCallback}
    (hc : ((taken ArmCallback.Free t).find? fun c => ArmCallback.Serves intN c) = some c) :
    ((taken ArmCallback.Free t').find? fun c => ArmCallback.Serves intN c) = some c := by
  obtain ⟨l', hl'⟩ := (h.puts hputs).2
  rw [← hl', List.find?_append, hc, Option.some_or]

/-- The interrupts that are pending are handled; whenever one is, the first handler
with a function that is attached to it is called, and it stays the only one for good.
Another is only appended behind, and one too many is refused. -/
theorem intctlr_calls_first (hcall : CallsAttach call) (kind : IntctlrKind)
    (junk : Fin intctlrMaxCallbacks → ArmCallback) (dev : δ) (acts : List IntctlrAct) :
    let s := intctlrRun R call kind acts (intctlrInit junk dev)
    let r := irqhandle R call kind s
    s.attached <+: r.1.attached ∧
      (kind = .gic ∨ KeepsPending R call → r.2.map Prod.fst = R.interrupts s.dev kind) ∧
      (∀ e ∈ r.2,
        (∀ c, (s.attached.find? fun c => ArmCallback.Serves e.1 c) = some c → e.2 = some c) ∧
        ∀ c, e.2 = some c → ∀ acts',
          ((intctlrRun R call kind acts' r.1).attached.find? fun c => ArmCallback.Serves e.1 c) =
            some c) ∧
      ∀ intN callback intData,
        if 255 < intN then intctlrIntrAttach intN callback intData s = (s, -EINVAL)
        else if s.attached.length < intctlrMaxCallbacks then
          (intctlrIntrAttach intN callback intData s).2 = 0 ∧
            (intctlrIntrAttach intN callback intData s).1.attached =
              s.attached ++ [⟨intN, intData, callback⟩]
        else intctlrIntrAttach intN callback intData s = (s, -EUNSPEC) := by
  intro s r
  obtain ⟨htable, -⟩ :=
    (intctlrInit_table junk dev).puts (intctlrRun_puts (R := R) hcall kind acts _)
  obtain ⟨hputs, hhandled⟩ := irqhandle_handles (R := R) hcall kind s
  refine ⟨(htable.puts hputs).2, fun hkeep => irqhandle_interrupts hkeep s, fun e he => ?_,
    fun intN callback intData => ?_⟩
  · obtain ⟨mid, hmid, hmid', hnum, hfirst⟩ := hhandled e he
    have htable' := (htable.puts hmid).1
    rw [find_taken htable' hnum] at hfirst
    refine ⟨fun c hc => hfirst.trans (find_taken_puts htable hmid hc), fun c hc acts' => ?_⟩
    exact find_taken_puts htable' (hmid'.trans (intctlrRun_puts (R := R) hcall kind acts' _))
      (hfirst.symm.trans hc)
  · split
    · rename_i hbig
      rw [intctlrIntrAttach, if_pos hbig]
    · rename_i hintN
      split
      · rename_i hroom
        exact intctlrIntrAttach_room htable (Nat.le_of_not_lt hintN) callback intData hroom
      · rename_i hfull
        exact intctlrIntrAttach_full htable (Nat.le_of_not_lt hintN) callback intData
          (Nat.le_of_not_lt hfull)

def quietRegs : IntctlrRegs Nat where
  iar := fun dev => (5, dev)
  eoir := fun _ dev => dev
  irqBasicPending := fun _ => 256
  irqPending := fun _ _ => 32

def countCall (_ _ _ : Nat) (s : Intctlr Nat) : Intctlr Nat := { s with dev := s.dev + 1 }

/-- Of two handlers of the same interrupt the second is never called. -/
theorem intctlr_calls_first_of_two :
    (irqhandle quietRegs countCall .gic (intctlrRun quietRegs countCall .gic
      [.attach 5 7 0, .attach 5 8 0] (intctlrInit (fun _ => ⟨0, 0, 0⟩) 0))).2 =
        [(5, some ⟨5, 0, 7⟩)] ∧
    ∀ acts', ((intctlrRun quietRegs countCall .gic acts' (irqhandle quietRegs countCall .gic
      (intctlrRun quietRegs countCall .gic [.attach 5 7 0, .attach 5 8 0]
        (intctlrInit (fun _ => ⟨0, 0, 0⟩) 0))).1).attached.find?
          fun c => ArmCallback.Serves 5 c) = some ⟨5, 0, 7⟩ := by
  have hcall : CallsAttach countCall := fun _ _ _ _ => .refl
  have hrun : (irqhandle quietRegs countCall .gic (intctlrRun quietRegs countCall .gic
      [.attach 5 7 0, .attach 5 8 0] (intctlrInit (fun _ => ⟨0, 0, 0⟩) 0))).2 =
        [(5, some ⟨5, 0, 7⟩)] := by decide
  exact ⟨hrun, ((intctlr_calls_first (R := quietRegs) hcall .gic (fun _ => ⟨0, 0, 0⟩) 0
    [.attach 5 7 0, .attach 5 8 0]).2.2.1 (5, some ⟨5, 0, 7⟩)
      (hrun ▸ List.mem_singleton.mpr rfl)).2 ⟨5, 0, 7⟩ rfl⟩

end IntctlrTable

end LambdaOs
