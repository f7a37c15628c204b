import LambdaOs.TaskFrame
import LambdaOs.Turns

/-!
# Switching tasks

`do_task_switch` in `arch/x86/src/proc/tasking.c`, and the set-up of a thread's
registers by `arch_setup_thread`, `arch_setup_user_stack` and
`arch_postfork_setup`. The machine is the structures of `Tasks`, the part of
each thread that belongs to the architecture, and the registers of the CPU.

A thread that has not run yet does not own the registers: the boot code runs as
the idle thread, and `execve` as the thread it has just made, and what they leave
in the registers is dropped. So the threads take turns, in the sense of `Turns`,
with `KTHREAD_FLAG_RANONCE` saying whether the runner has its value. Whatever the
scheduler chooses, a thread goes on with the registers it was suspended or set up
with (`task_switch_faithful`), on its own table and its own kernel stack
(`task_switch_space`).
-/

namespace LambdaOs

/-! ## Registers -/

/-- The code a switch jumps to: `_thread_entrypoint`, `return_from_fork`, and
behind the call of `get_eip` in `do_task_switch`. -/
structure SwitchCode where
  threadEntrypoint : Nat
  returnFromFork : Nat
  afterGetEip : Nat
deriving Repr, DecidableEq

/-- The registers of a thread that does not run. -/
structure Context where
  esp : Nat
  ebp : Nat
  eip : Nat
deriving Repr, DecidableEq

/-- `kthread_arch_t`: of the stacks where they begin; without `syscall_regs`. -/
structure ThreadArch where
  esp : Nat
  ebp : Nat
  eip : Nat
  stackKern : Nat
  stackUser : Nat
  stackEntry : Nat
deriving Repr, DecidableEq

def ThreadArch.context (a : ThreadArch) : Context := ⟨a.esp, a.ebp, a.eip⟩

/-- After `memset`. -/
def zeroArch : ThreadArch := ⟨0, 0, 0, 0, 0, 0⟩

/-- Where the stacks made for a thread begin. -/
structure NewStacks where
  user : Nat
  kern : Nat
deriving Repr, DecidableEq

def archProcCreateUser (k : NewStacks) (a : ThreadArch) : ThreadArch :=
  { a with stackUser := k.user, ebp := k.user }

def archProcCreateKernelStack (k : NewStacks) (a : ThreadArch) : ThreadArch :=
  { a with stackKern := k.kern }

def archSetupThread (code : SwitchCode) (k : NewStacks) (a : ThreadArch) : ThreadArch :=
  let a := archProcCreateKernelStack k (archProcCreateUser k a)
  { a with eip := code.threadEntrypoint, esp := a.stackKern, stackEntry := a.stackUser }

/-- Three words are pushed. -/
def archSetupUserStack (a : ThreadArch) : ThreadArch :=
  let esp := u32 (a.ebp + 4294967296 - 12)
  { a with esp := esp, stackEntry := esp }

def ThreadArch.archPostforkSetup (child : ThreadArch) (code : SwitchCode) (parent : ThreadArch) :
    ThreadArch :=
  { child with
    ebp := parent.ebp
    esp := u32 (child.stackKern + 4294967296 - 52)
    eip := code.returnFromFork }

/-- The child's thread as `fork_clone_process` leaves it: without a slot in the
parent it gets nothing, and each step that fails is the last. -/
def archFork (code : SwitchCode) (k : NewStacks) (a : Tasks.Fork) (slot : Bool)
    (parent : ThreadArch) : ThreadArch :=
  if slot = false ∨ a.stackMade = false then zeroArch
  else
    let child := archProcCreateUser k zeroArch
    if a.kernelStackMade = false then child
    else
      let child := archProcCreateKernelStack k child
      if a.stackCopied && a.dataCopied then child.archPostforkSetup code parent else child

/-! ## The machine -/

/-- `esp0` is the field of the TSS. -/
structure SwitchMachine where
  tasks : Tasks
  arch : Nat → ThreadArch
  esp : Nat
  ebp : Nat
  cr3 : Nat
  esp0 : Nat

abbrev SwitchTrace := List (TurnEvent Nat Context)

namespace SwitchMachine

/-- The current thread has been switched to. -/
def ranOnce (m : SwitchMachine) : Bool :=
  (m.tasks.kthreads m.tasks.currThread).flags &&& kthreadFlagRanonce ≠ 0

def modArch (m : SwitchMachine) (t : Nat) (f : ThreadArch → ThreadArch) : SwitchMachine :=
  { m with arch := Function.update m.arch t (f (m.arch t)) }

def saveContext (c : Context) (a : ThreadArch) : ThreadArch :=
  { a with esp := c.esp, ebp := c.ebp, eip := c.eip }

/-- The table of a thread's process. -/
def table (s : Tasks) (t : Nat) : Nat := (s.kprocs (s.kthreads t).process).mmuTable

/-- `do_task_switch`, from the call to the jump. Without a current thread it
returns; a thread without a kernel stack is a panic, and so is what stops
`sched_next_process`. -/
def doTaskSwitch (code : SwitchCode) (fuel : Nat) (m : SwitchMachine) :
    Option (SwitchMachine × SwitchTrace) :=
  let thread := m.tasks.currThread
  if thread = 0 then some (m, [])
  else
    let regs : Context := ⟨m.esp, m.ebp, code.afterGetEip⟩
    let m' := if m.ranOnce then m.modArch thread (saveContext regs) else m
    match Tasks.schedNextProcess fuel m'.tasks 0 with
    | .error _ => none
    | .ok (tasks, next) =>
        let tasks := tasks.modThread next (Kthread.addFlags kthreadFlagRanonce)
        let a := m'.arch next
        if a.stackKern = 0 then none
        else
          some ({ m' with
              tasks := tasks
              esp0 := a.stackKern
              esp := a.esp
              ebp := a.ebp
              cr3 := table tasks next },
            (if m.ranOnce then [.suspended thread regs] else []) ++
              [.resumed next ⟨a.esp, a.ebp, a.eip⟩])

/-- The registers a call sets up for the thread it makes. -/
def callArch (code : SwitchCode) (m : SwitchMachine) (k : NewStacks) : Tasks.TaskCall → ThreadArch
  | .fork a =>
      archFork code k a ((m.tasks.kprocs m.tasks.currProcess).children.any (· = 0))
        (m.arch m.tasks.currThread)
  | .execve _ => archSetupUserStack (archSetupThread code k zeroArch)
  | _ => archSetupThread code k zeroArch

/-- The table in use once a call has replaced the image. -/
def callCr3 (m : SwitchMachine) : Tasks.TaskCall → Nat
  | .execve a => a.mmuTable
  | _ => m.cr3

/-- A call of the current process. A thread that it has allocated it has set up,
too. -/
def call (code : SwitchCode) (fuel : Nat) (k : NewStacks) (m : SwitchMachine) (c : Tasks.TaskCall) :
    Option (SwitchMachine × SwitchTrace) := do
  let tasks ← m.tasks.call fuel c
  match c.thread with
  | none => return ({ m with tasks := tasks }, [])
  | some t =>
      if Tasks.NewlyAllocated m.tasks tasks t then
        let a := m.callArch code k c
        return ({ m.modArch t fun _ => a with tasks := tasks, cr3 := m.callCr3 c },
          [.made t a.context])
      else return ({ m with tasks := tasks }, [])

/-- What happens: the code that runs changes its registers, it enters a system
call, it makes one of the calls of `TaskCall`, other parts of the kernel change
the structures, or tasks are switched. -/
inductive Act where
  | run (esp ebp : Nat)
  | syscall (pregs : Nat)
  | call (fuel : Nat) (k : NewStacks) (c : Tasks.TaskCall)
  | others (tasks : Tasks)
  | switch (fuel : Nat)

/-- `arch_syscall_interrupt` notes the stack pointer in the thread. -/
def step (code : SwitchCode) (m : SwitchMachine) : Act → Option (SwitchMachine × SwitchTrace)
  | .run esp ebp => some ({ m with esp := esp, ebp := ebp }, [])
  | .syscall pregs =>
      some (m.modArch m.tasks.currThread fun a => { a with esp := pregs }, [])
  | .call fuel k c => m.call code fuel k c
  | .others tasks => some ({ m with tasks := tasks }, [])
  | .switch fuel => m.doTaskSwitch code fuel

/-- A step with the trace so far. -/
def traceStep (code : SwitchCode) (r : SwitchMachine × SwitchTrace) (a : Act) :
    Option (SwitchMachine × SwitchTrace) :=
  (step code r.1 a).map fun r' => (r'.1, r.2 ++ r'.2)

/-- The thread that a switch would go to has not been destroyed. -/
def ChoosesAlive (s : Tasks) (fuel : Nat) : Prop :=
  ∀ r ∈ (Tasks.schedNextProcess fuel s 0).toOption, r.2 ∉ s.freed

instance (s : Tasks) (fuel : Nat) : Decidable (ChoosesAlive s fuel) :=
  inferInstanceAs (Decidable (∀ r ∈ _, _))

/-- System calls come from threads that run; calls are made by a thread and a
process that are there; other parts of the kernel keep who is current, and of it
what a switch looks at; and the scheduler does not choose a destroyed thread. -/
def Allowed (m : SwitchMachine) : Act → Prop
  | .run _ _ => True
  | .syscall _ => m.ranOnce = true
  | .call _ _ _ => m.tasks.currThread ∈ m.tasks.threadHeap ∧
      m.tasks.currProcess ∈ m.tasks.procHeap
  | .others tasks => Tasks.Leaves m.tasks.currThread m.tasks.currProcess m.tasks tasks ∧
      ∀ u ∈ m.tasks.freed, u ∈ tasks.freed
  | .switch fuel => ChoosesAlive m.tasks fuel

instance (m : SwitchMachine) : DecidablePred m.Allowed
  | .run _ _ => isTrue trivial
  | .syscall _ => inferInstanceAs (Decidable (_ = _))
  | .call _ _ _ => inferInstanceAs (Decidable (_ ∧ _))
  | .others tasks => decidable_of_iff
      (((tasks.sched.currThread = m.tasks.sched.currThread ∧
        (tasks.kthreads m.tasks.currThread).flags = (m.tasks.kthreads m.tasks.currThread).flags) ∧
        (tasks.kthreads m.tasks.currThread).process =
          (m.tasks.kthreads m.tasks.currThread).process ∧
        (tasks.kprocs m.tasks.currProcess).mmuTable =
          (m.tasks.kprocs m.tasks.currProcess).mmuTable) ∧
        ∀ u ∈ m.tasks.freed, u ∈ tasks.freed)
      (and_congr_left fun _ => ⟨fun h => ⟨h.1.1, h.1.2, h.2.1, h.2.2⟩,
        fun h => ⟨⟨h.curr, h.flags⟩, h.process, h.table⟩⟩)
  | .switch _ => inferInstanceAs (Decidable (ChoosesAlive _ _))

/-! ## Turns -/

/-- Who has which registers. -/
def turns (m : SwitchMachine) : Turns Nat Context :=
  ⟨m.tasks.currThread, m.ranOnce, fun t => (m.arch t).context⟩

variable {code : SwitchCode} {m m' : SwitchMachine} {trace : SwitchTrace} {init : Nat → Context}

theorem modArch_arch (m : SwitchMachine) (t u : Nat) (f : ThreadArch → ThreadArch) :
    ((m.modArch t f).arch u).context =
      Function.update (fun v => (m.arch v).context) t (f (m.arch t)).context u := by
  by_cases hu : u = t
  · subst hu
    simp [modArch]
  · simp [modArch, Function.update_of_ne hu]

/-- A machine with the arch of one thread changed, and the same runner. -/
theorem turns_put {t : Nat} {f : ThreadArch → ThreadArch}
    (harch : m'.arch = (m.modArch t f).arch) (hcurr : m'.tasks.currThread = m.tasks.currThread)
    (hran : m'.ranOnce = m.ranOnce) : m'.turns = m.turns.put t (f (m.arch t)).context := by
  rw [turns, Turns.put, turns, hcurr, hran, harch]
  congr 1
  exact funext fun u => modArch_arch m t u f

theorem turns_congr (harch : m'.arch = m.arch) (hcurr : m'.tasks.currThread = m.tasks.currThread)
    (hran : m'.ranOnce = m.ranOnce) : m'.turns = m.turns := by
  rw [turns, turns, hcurr, hran, harch]

theorem ranOnce_eq_of_leaves {p : Nat}
    (h : Tasks.Leaves m.tasks.currThread p m.tasks m'.tasks) : m'.ranOnce = m.ranOnce := by
  rw [ranOnce, ranOnce, h.currThread, h.flags]

/-! ### The switch -/

theorem afterNext_of_ok {fuel : Nat} {s : Tasks} {r : Tasks × Nat}
    (h : Tasks.schedNextProcess fuel s 0 = .ok r) : r.1 = s.afterNext 0 s.currThread r.2 := by
  obtain ⟨t, -, hret⟩ := Except.bind_eq_ok_iff.mp h
  cases hret
  rfl

/-- A null pointer in the list is a panic. -/
theorem nextLoop_nonnull {s : Tasks} {t : Nat} {fuel : Nat} {iter : LlistIterator}
    (h : s.nextLoop fuel iter = .ok t) : t ≠ 0 := by
  induction fuel generalizing iter with
  | zero => cases h
  | succ fuel ih =>
      unfold Tasks.nextLoop at h
      split at h
      · cases h
      · cases h
      dsimp only at h
      split at h
      · cases h
      rename_i h0
      split at h
      · cases h
      split at h
      · cases h
        exact h0
      · exact ih h

theorem nonnull_of_ok {fuel : Nat} {s : Tasks} {r : Tasks × Nat}
    (h : Tasks.schedNextProcess fuel s 0 = .ok r) : r.2 ≠ 0 := by
  obtain ⟨t, ht, hret⟩ := Except.bind_eq_ok_iff.mp h
  cases hret
  exact nextLoop_nonnull ht

theorem currThread_afterNext {s : Tasks} {c t : Nat} (h : s.currThread ≠ 0) :
    (s.afterNext 0 c t).currThread = t := by
  have hlen : 0 < s.sched.currThread.length := by
    refine Nat.pos_of_ne_zero fun h0 => h ?_
    rw [Tasks.currThread, List.length_eq_zero_iff.mp h0]
    rfl
  change (s.sched.currThread.set 0 t).getD 0 0 = t
  simp [List.getD_eq_getElem?_getD, hlen]

theorem addFlags_ranonce (k : Kthread) :
    (Kthread.addFlags kthreadFlagRanonce k).flags &&& kthreadFlagRanonce ≠ 0 := by
  have hself : kthreadFlagRanonce &&& kthreadFlagRanonce = kthreadFlagRanonce := by decide
  change (k.flags ||| kthreadFlagRanonce) &&& kthreadFlagRanonce ≠ 0
  rw [Nat.and_or_distrib_right, hself]
  exact fun h => absurd (Nat.or_eq_zero_iff.mp h).2 (by decide)

/-- The parts of a switch that gets to the jump. -/
structure Switched (code : SwitchCode) (m m' : SwitchMachine) (events : SwitchTrace) (next : Nat) :
    Prop where
  turns : m'.turns = m.turns.yield ⟨m.esp, m.ebp, code.afterGetEip⟩ next
  events : events = m.turns.yieldEvents ⟨m.esp, m.ebp, code.afterGetEip⟩ next
  freed : m'.tasks.freed = m.tasks.freed
  table : m'.cr3 = (m'.tasks.kprocs m'.tasks.currProcess).mmuTable
  stack : m'.esp0 = (m'.arch m'.tasks.currThread).stackKern

theorem doTaskSwitch_cases {fuel : Nat} {events : SwitchTrace}
    (h : m.doTaskSwitch code fuel = some (m', events)) :
    (m' = m ∧ events = []) ∨ ∃ r, Tasks.schedNextProcess fuel m.tasks 0 = .ok r ∧
      Switched code m m' events r.2 := by
  unfold doTaskSwitch at h
  dsimp only at h
  split at h
  · cases h
    exact .inl ⟨rfl, rfl⟩
  rename_i hcurr
  generalize hsaved : (if m.ranOnce = true then m.modArch m.tasks.currThread
    (saveContext ⟨m.esp, m.ebp, code.afterGetEip⟩) else m) = saved at h
  have htasks : saved.tasks = m.tasks := by
    subst hsaved
    split <;> rfl
  -- the registers are in the cell of the thread, if it has run
  have hleave : (fun t => (saved.arch t).context) =
      (m.turns.leave ⟨m.esp, m.ebp, code.afterGetEip⟩).saved := by
    subst hsaved
    by_cases hran : m.ranOnce = true
    · have hlive : m.turns.live = true := hran
      rw [if_pos hran, Turns.leave, if_pos hlive]
      exact funext fun u => modArch_arch m _ u _
    · have hlive : ¬ m.turns.live = true := hran
      rw [if_neg hran, Turns.leave, if_neg hlive]
      rfl
  rw [htasks] at h
  split at h
  · cases h
  rename_i tasks next hnext
  split at h
  · cases h
  cases h
  have htasks' := afterNext_of_ok hnext
  dsimp only at htasks'
  have hcurr' : (tasks.modThread next (Kthread.addFlags kthreadFlagRanonce)).currThread = next := by
    rw [htasks']
    exact currThread_afterNext hcurr
  have hran' : ((tasks.modThread next
      (Kthread.addFlags kthreadFlagRanonce)).kthreads next).flags &&& kthreadFlagRanonce ≠ 0 := by
    rw [Tasks.modThread_self]
    exact addFlags_ranonce _
  refine .inr ⟨(tasks, next), hnext, ?_, ?_, ?_, ?_, ?_⟩
  · rw [turns, Turns.yield, ranOnce]
    dsimp only
    rw [hcurr', hleave, decide_eq_true hran']
  · rw [Turns.yieldEvents, ← hleave]
    rfl
  · rw [htasks']
    rfl
  · dsimp only
    rw [Tasks.currProcess, hcurr', if_neg (nonnull_of_ok hnext)]
    rfl
  · dsimp only
    rw [hcurr']

/-! ### The other steps -/

theorem currThread_of_currProcess {s : Tasks} (h : s.currProcess ≠ 0) : s.currThread ≠ 0 := by
  intro h0
  rw [Tasks.currProcess, if_pos h0] at h
  exact h rfl

theorem currThread_of_replaces {a : Execve} {s s' : Tasks} (h : Tasks.ReplacesImage a s s') :
    s'.currThread = a.thread := by
  have hlen : 0 < s.sched.currThread.length := by
    refine Nat.pos_of_ne_zero fun h0 => currThread_of_currProcess h.caller ?_
    rw [Tasks.currThread, List.length_eq_zero_iff.mp h0]
    rfl
  rw [Tasks.currThread, h.curr]
  simp [List.getD_eq_getElem?_getD, hlen]

/-- What a call does to the turns. -/
inductive CallTurns (m m' : SwitchMachine) : SwitchTrace → Prop
  | same (hturns : m'.turns = m.turns)
      (hfreed : ∀ u ∈ m.tasks.freed, u ∈ m'.tasks.freed) : CallTurns m m' []
  | make (t : Nat) (c : Context) (hturns : m'.turns = m.turns.put t c)
      (hne : t ≠ m.tasks.currThread)
      (hfreed : ∀ u, u ≠ t → u ∈ m.tasks.freed → u ∈ m'.tasks.freed) :
      CallTurns m m' [.made t c]
  | replace (t : Nat) (c : Context) (hturns : m'.turns = m.turns.replace t c)
      (hold : m.tasks.currThread ∈ m'.tasks.freed)
      (hfreed : ∀ u, u ≠ t → u ∈ m.tasks.freed → u ∈ m'.tasks.freed) :
      CallTurns m m' [.made t c]

theorem call_turns {fuel : Nat} {k : NewStacks} {c : Tasks.TaskCall} {events : SwitchTrace}
    (ht : m.tasks.currThread ∈ m.tasks.threadHeap) (hp : m.tasks.currProcess ∈ m.tasks.procHeap)
    (h : m.call code fuel k c = some (m', events)) : CallTurns m m' events := by
  obtain ⟨tasks, htasks, h⟩ := Option.bind_eq_some_iff.mp h
  rcases Tasks.call_leaves ht hp htasks with ⟨hleaves, hfreed, -⟩ | ⟨a, rfl, hreplaces⟩
  · have hsame : ∀ arch cr3, ({ m with tasks := tasks, arch := arch, cr3 := cr3 } :
        SwitchMachine).ranOnce = m.ranOnce := fun _ _ => ranOnce_eq_of_leaves hleaves
    cases hthread : c.thread with
    | none =>
        rw [hthread] at h
        cases h
        refine .same (turns_congr rfl hleaves.currThread (hsame _ _)) fun u hu => ?_
        exact (hfreed u hu).resolve_right fun hnew => by simp [hthread] at hnew
    | some t =>
        simp only [hthread] at h
        split at h
        · rename_i hnew
          cases h
          have hput : SwitchMachine.turns { m.modArch t fun _ => m.callArch code k c with
              tasks := tasks, cr3 := m.callCr3 c } =
                m.turns.put t (m.callArch code k c).context :=
            turns_put (f := fun _ => m.callArch code k c) rfl hleaves.currThread (hsame _ _)
          refine .make t _ hput ?_ fun u hut hu => ?_
          · exact fun he => hnew.1 (he ▸ ht)
          · refine (hfreed u hu).resolve_right fun hnew' => hut ?_
            exact (Option.some.inj (hthread.symm.trans hnew'.1)).symm
        · rename_i hnew
          cases h
          refine .same (turns_congr rfl hleaves.currThread (hsame _ _)) fun u hu => ?_
          refine (hfreed u hu).resolve_right fun hnew' => hnew ?_
          exact Option.some.inj (hthread.symm.trans hnew'.1) ▸ hnew'.2
  · have hnew : Tasks.NewlyAllocated m.tasks tasks a.thread := ⟨hreplaces.fresh, hreplaces.alloc⟩
    have hcurr : tasks.currThread = a.thread := currThread_of_replaces hreplaces
    simp only [Tasks.TaskCall.thread, if_pos hnew] at h
    cases h
    refine .replace a.thread _ ?_ hreplaces.old fun u hut hu => hreplaces.freed u hu hut
    rw [turns, Turns.replace, ranOnce]
    dsimp only
    rw [hcurr, decide_eq_false (not_not_intro hreplaces.flags)]
    congr 1
    exact funext fun u => modArch_arch m _ u _

/-- The invariant of the trace: what is in the cells of threads that are not
destroyed. -/
def TraceInv (init : Nat → Context) (r : SwitchMachine × SwitchTrace) : Prop :=
  Turns.Inv init (· ∈ r.1.tasks.freed) r.1.turns r.2

theorem CallTurns.inv {events : SwitchTrace} (h : CallTurns m m' events)
    (hinv : TraceInv init (m, trace)) : TraceInv init (m', trace ++ events) := by
  cases h with
  | same hturns hfreed =>
      rw [List.append_nil, TraceInv, hturns]
      exact Turns.Inv.retire hinv hfreed
  | make t c hturns hne hfreed =>
      rw [TraceInv, hturns]
      exact Turns.Inv.make hinv (fun he => hne he.1) hfreed
  | replace t c hturns hold hfreed =>
      rw [TraceInv, hturns]
      exact Turns.Inv.replace hinv hfreed fun _ _ => hold

theorem traceStep_inv {a : Act} {r r' : SwitchMachine × SwitchTrace} (hinv : TraceInv init r)
    (hok : r.1.Allowed a) (h : traceStep code r a = some r') : TraceInv init r' := by
  obtain ⟨m, trace⟩ := r
  obtain ⟨⟨m', events⟩, hstep, rfl⟩ := Option.map_eq_some_iff.mp h
  cases a with
  | run esp ebp =>
      cases hstep
      rw [List.append_nil]
      exact hinv
  | syscall pregs =>
      cases hstep
      have hlive : m.turns.live = true := hok
      have hscratch := Turns.Inv.scratch hinv
        ({ m.arch m.tasks.currThread with esp := pregs } : ThreadArch).context
      have hput : (m.modArch m.tasks.currThread fun a => { a with esp := pregs }).turns =
          m.turns.put m.tasks.currThread _ := turns_put rfl rfl rfl
      rw [Turns.leave, if_pos hlive] at hscratch
      rw [List.append_nil, TraceInv, hput]
      exact hscratch
  | call fuel k c => exact (call_turns hok.1 hok.2 hstep).inv hinv
  | others tasks =>
      cases hstep
      have hsame : SwitchMachine.turns { m with tasks := tasks } = m.turns :=
        turns_congr rfl hok.1.currThread (ranOnce_eq_of_leaves hok.1)
      rw [List.append_nil, TraceInv, hsame]
      exact Turns.Inv.retire hinv hok.2
  | switch fuel =>
      rcases doTaskSwitch_cases hstep with ⟨rfl, rfl⟩ | ⟨r, hnext, hswitched⟩
      · rw [List.append_nil]
        exact hinv
      · rw [TraceInv, hswitched.turns, hswitched.events]
        have halive : r.2 ∉ m.tasks.freed := hok r (by rw [hnext]; rfl)
        simp only [hswitched.freed]
        exact Turns.Inv.yield hinv _ halive

/-! ## Runs -/

theorem traceInv_start (m : SwitchMachine) : TraceInv (fun t => (m.arch t).context) (m, []) :=
  Turns.Inv.start ..

/-- In every run, whatever the scheduler chooses, each thread that is switched to
goes on with the stack pointer, the base pointer and the address that it was
suspended with when it was last switched away from, or that it was set up with
since. -/
theorem task_switch_faithful {acts : List Act}
    (hok : Guarded (traceStep code) (fun r a => r.1.Allowed a) (m, []) acts)
    (hrun : exec (traceStep code) (m, []) acts = some (m', trace)) :
    Faithful (fun t => (m.arch t).context) trace :=
  (exec_guarded_inv (fun _ _ _ hinv hallowed h => traceStep_inv hinv hallowed h)
    (traceInv_start m) hok hrun).faithful

/-- The three threads of `threeThreads`, of which `32` waits, on the boot code. -/
def threeMachine : SwitchMachine where
  tasks := { Tasks.threeThreads with threadHeap := [16, 32, 48], procHeap := [8] }
  arch := fun t => ⟨t + 1, t + 2, 0x100, t + 3, t + 2, t + 2⟩
  esp := 0
  ebp := 0
  cr3 := 0
  esp0 := 0

def switchCode : SwitchCode := ⟨0x100, 0x200, 0x300⟩

/-- `48` runs, makes a thread, and is switched away from and back to. -/
def threeActs : List Act :=
  [.switch 5, .run 7 9, .call 5 ⟨0x7000, 0x9000⟩ (.threadSpawn ⟨0x4000, 0, [0x74], 0, 0, 64⟩),
    .switch 5, .run 5 6, .switch 5]

def threeTrace : SwitchTrace :=
  [.resumed 48 ⟨49, 50, 0x100⟩, .made 64 ⟨0x9000, 0x7000, 0x100⟩, .suspended 48 ⟨7, 9, 0x300⟩,
    .resumed 16 ⟨17, 18, 0x100⟩, .suspended 16 ⟨5, 6, 0x300⟩, .resumed 48 ⟨7, 9, 0x300⟩]

theorem task_switch_faithful_three :
    ∃ m', exec (traceStep switchCode) (threeMachine, []) threeActs = some (m', threeTrace) ∧
      Faithful (fun t => (threeMachine.arch t).context) threeTrace := by
  have htrace : (exec (traceStep switchCode) (threeMachine, []) threeActs).map Prod.snd =
      some threeTrace := by decide
  obtain ⟨⟨m', trace⟩, hrun, rfl⟩ := Option.map_eq_some_iff.mp htrace
  exact ⟨m', hrun, task_switch_faithful (by decide) hrun⟩

/-! ## Address spaces and kernel stacks -/

/-- A thread that has been switched to runs on the table of its process, and an
interrupt finds its kernel stack. -/
structure OwnSpace (m : SwitchMachine) : Prop where
  table : m.ranOnce = true → m.cr3 = (m.tasks.kprocs m.tasks.currProcess).mmuTable
  stack : m.ranOnce = true → m.esp0 = (m.arch m.tasks.currThread).stackKern

theorem OwnSpace.of_not_ran (h : m.ranOnce = false) : OwnSpace m :=
  ⟨fun hran => by simp [h] at hran, fun hran => by simp [h] at hran⟩

theorem currProcess_of_leaves {p : Nat} {s s' : Tasks} (h : Tasks.Leaves s.currThread p s s') :
    s'.currProcess = s.currProcess := by
  rw [Tasks.currProcess, Tasks.currProcess, h.currThread, h.process]

/-- The runner, its registers and its kernel stack stay as they are. -/
theorem OwnSpace.leaves (h : OwnSpace m)
    (hleaves : Tasks.Leaves m.tasks.currThread m.tasks.currProcess m.tasks m'.tasks)
    (hcr3 : m'.cr3 = m.cr3) (hesp0 : m'.esp0 = m.esp0)
    (harch : (m'.arch m.tasks.currThread).stackKern = (m.arch m.tasks.currThread).stackKern) :
    OwnSpace m' where
  table hran := by
    rw [hcr3, currProcess_of_leaves hleaves, hleaves.table]
    exact h.table ((ranOnce_eq_of_leaves hleaves).symm.trans hran)
  stack hran := by
    rw [hesp0, hleaves.currThread, harch]
    exact h.stack ((ranOnce_eq_of_leaves hleaves).symm.trans hran)

theorem call_space {fuel : Nat} {k : NewStacks} {c : Tasks.TaskCall} {events : SwitchTrace}
    (hspace : OwnSpace m) (ht : m.tasks.currThread ∈ m.tasks.threadHeap)
    (hp : m.tasks.currProcess ∈ m.tasks.procHeap)
    (h : m.call code fuel k c = some (m', events)) : OwnSpace m' := by
  obtain ⟨tasks, htasks, h⟩ := Option.bind_eq_some_iff.mp h
  rcases Tasks.call_leaves ht hp htasks with ⟨hleaves, -, hexec⟩ | ⟨a, rfl, hreplaces⟩
  · cases hthread : c.thread with
    | none =>
        rw [hthread] at h
        cases h
        exact hspace.leaves hleaves rfl rfl rfl
    | some t =>
        simp only [hthread] at h
        split at h
        · rename_i hnew
          cases h
          have hne : m.tasks.currThread ≠ t := fun he => hnew.1 (he ▸ ht)
          refine hspace.leaves hleaves ?_ rfl ?_
          · cases c with
            | execve a => exact absurd hnew.2 (hexec a rfl ▸ hnew.1)
            | _ => rfl
          · exact congrArg ThreadArch.stackKern (Function.update_of_ne hne ..)
        · cases h
          exact hspace.leaves hleaves rfl rfl rfl
  · have hnew : Tasks.NewlyAllocated m.tasks tasks a.thread := ⟨hreplaces.fresh, hreplaces.alloc⟩
    simp only [Tasks.TaskCall.thread, if_pos hnew] at h
    cases h
    refine OwnSpace.of_not_ran ?_
    rw [ranOnce]
    dsimp only
    rw [currThread_of_replaces hreplaces]
    exact decide_eq_false (not_not_intro hreplaces.flags)

def SpaceInv (r : SwitchMachine × SwitchTrace) : Prop := OwnSpace r.1

theorem traceStep_space {a : Act} {r r' : SwitchMachine × SwitchTrace} (hspace : SpaceInv r)
    (hok : r.1.Allowed a) (h : traceStep code r a = some r') : SpaceInv r' := by
  obtain ⟨m, trace⟩ := r
  obtain ⟨⟨m', events⟩, hstep, rfl⟩ := Option.map_eq_some_iff.mp h
  cases a with
  | run esp ebp =>
      cases hstep
      exact ⟨hspace.table, hspace.stack⟩
  | syscall pregs =>
      cases hstep
      refine hspace.leaves (Tasks.Leaves.refl ..) rfl rfl ?_
      simp [modArch]
  | call fuel k c => exact call_space hspace hok.1 hok.2 hstep
  | others tasks =>
      cases hstep
      exact hspace.leaves hok.1 rfl rfl rfl
  | switch fuel =>
      rcases doTaskSwitch_cases hstep with ⟨rfl, -⟩ | ⟨r, -, hswitched⟩
      · exact hspace
      · exact ⟨fun _ => hswitched.table, fun _ => hswitched.stack⟩

/-- From the first switch on, the code of a thread that has been switched to runs
on the table of the thread's process, and the processor enters the kernel on the
thread's own kernel stack, in every state of every run. -/
theorem task_switch_space {acts : List Act} (hstart : m.ranOnce = false)
    (hok : Guarded (traceStep code) (fun r a => r.1.Allowed a) (m, []) acts)
    (hrun : exec (traceStep code) (m, []) acts = some (m', trace)) (hran : m'.ranOnce = true) :
    m'.cr3 = (m'.tasks.kprocs m'.tasks.currProcess).mmuTable ∧
      m'.esp0 = (m'.arch m'.tasks.currThread).stackKern := by
  have hspace : SpaceInv (m', trace) := exec_guarded_inv
    (fun _ _ _ hinv hallowed h => traceStep_space hinv hallowed h)
    (OwnSpace.of_not_ran hstart) hok hrun
  exact ⟨hspace.table hran, hspace.stack hran⟩

theorem task_switch_space_three :
    ∃ r, exec (traceStep switchCode) (threeMachine, []) threeActs = some r ∧
      r.1.cr3 = (r.1.tasks.kprocs r.1.tasks.currProcess).mmuTable ∧ r.1.esp0 = 51 := by
  have hlast : (exec (traceStep switchCode) (threeMachine, []) threeActs).map (fun r =>
      (r.1.ranOnce, (r.1.arch r.1.tasks.currThread).stackKern)) = some (true, 51) := by decide
  obtain ⟨r, hrun, heq⟩ := Option.map_eq_some_iff.mp hlast
  obtain ⟨hran, hstack⟩ := Prod.mk.inj heq
  obtain ⟨hcr3, hesp0⟩ := task_switch_space (by decide) (by decide) hrun hran
  exact ⟨r, hrun, hcr3, hesp0.trans hstack⟩

end SwitchMachine

end LambdaOs
