import LambdaOs.Execve

/-!
# The calls of a process

`thread_spawn`, `exit` and `wait`, the searches `proc_by_pid` and
`thread_by_tid`, and `init_multitasking`, over the structures of `Tasks`.

`wait` is in two parts: where no child has exited yet it blocks, and goes on
behind `cond_wait` when it is scheduled again.
-/

namespace LambdaOs.Tasks

/-! ## Searching -/

/-- A loop over a list that returns the first data for which `visit` is not
`NULL`; `visit` may not return. -/
def searchLoop (m : Items) (visit : Nat → Option Nat) : Nat → LlistIterator → Option Nat
  | 0, _ => none
  | fuel + 1, iter =>
      match llistIterate m iter with
      | none => none
      | some (_, none) => some 0
      | some (iter, some data) => do
          let found ← visit data
          if found ≠ 0 then return found else searchLoop m visit fuel iter

def procByPid (fuel : Nat) (s : Tasks) (pid : Nat) : Option Nat :=
  if s.procs.list = 0 then some 0
  else
    searchLoop s.procItems (fun proc => some (if (s.kprocs proc).pid = pid then proc else 0)) fuel
      (llistIteratorInit s.procs)

def threadByTid (fuel : Nat) (s : Tasks) (tid : Nat) : Option Nat :=
  if s.procs.list = 0 then some 0
  else
    searchLoop s.procItems (fun proc =>
        searchLoop s.threadItems
          (fun thread => some (if (s.kthreads thread).tid = tid then thread else 0)) fuel
          (llistIteratorInit (s.kprocs proc).threads))
      fuel (llistIteratorInit s.procs)

/-! ## `thread_spawn` -/

/-- The arguments of `thread_spawn`; `thread` is what `kmalloc` returns. -/
structure Spawn where
  entrypoint : Nat
  data : Nat
  name : List UInt8
  stackSize : Nat
  prio : Int
  thread : Nat
deriving Repr, DecidableEq

def Kthread.withFlags (flags : Nat) (k : Kthread) : Kthread := { k with flags := flags }

def threadSpawn (s : Tasks) (a : Spawn) : Option (Tasks × Int) :=
  let proc := s.currProcess
  if proc = 0 then some (s, -EUNSPEC)
  else do
    let (s, thread) ← s.threadCreate a.thread a.entrypoint a.data a.name a.stackSize a.prio
    if thread = 0 then return (s, -EUNSPEC)
    else
      let s ← s.procAddThread proc thread
      let (s, _) ← (s.modThread thread (Kthread.withFlags
        (kthreadFlagRunnable ||| kthreadFlagRanonce))).schedEnqueueThread thread
      return (s, (s.kthreads thread).tid)

/-! ## `exit` and `wait` -/

def setCondThreads (s : Tasks) (cond : Nat) (threads : List Nat) : Tasks :=
  { s with condThreads := Function.update s.condThreads cond threads }

def Kthread.withCond (cond : Nat) (k : Kthread) : Kthread := { k with cond := cond }

/-- `cond_signal`: every thread on the list is unblocked. -/
def condSignal (s : Tasks) (cond : Nat) : Tasks :=
  ((s.condThreads cond).foldl (fun s t => s.modThread t (Kthread.withCond 0)) s).setCondThreads
    cond []

/-- `cond_wait`, up to `run_sched`. -/
def condWait (s : Tasks) (cond : Nat) : Tasks :=
  (s.setCondThreads cond (s.condThreads cond ++ [s.currThread])).modThread s.currThread
    (Kthread.withCond cond)

/-- A process that has ended. -/
def Process.exits (code : Int) (k : Process) : Process :=
  { k with type := clearFlag k.type typeRunnable ||| typeZombie, exitcode := code }

def Process.withWaitCond (cond : Nat) (k : Process) : Process := { k with waitCond := cond }

def Process.clearChild (slot : Nat) (k : Process) : Process :=
  { k with children := k.children.set slot 0 }

/-- `exit`, up to its loop. -/
def exit (fuel : Nat) (s : Tasks) (code : Int) : Option Tasks :=
  let proc := s.currProcess
  if proc = 0 then none
  else
    let s := s.modProc proc (Process.exits code)
    if (s.kprocs proc).parent = 0 then some s
    else do
      let parent ← s.procByPid fuel (s.kprocs proc).parent
      if parent = 0 then none
      else if (s.kprocs parent).waitCond = 0 then return s
      else
        return (s.condSignal (s.kprocs parent).waitCond).modProc parent (Process.withWaitCond 0)

/-- `_find_dead_child` -/
def findDeadChild (s : Tasks) (parent : Nat) : Option Nat :=
  (s.kprocs parent).children.findIdx? fun child =>
    child ≠ 0 && (s.kprocs child).type &&& typeZombie ≠ 0

/-- The end of `wait`, with a dead child in the slot `idx`. -/
def waitReap (fuel : Nat) (s : Tasks) (proc idx : Nat) : Option Tasks :=
  (s.modProc proc (Process.clearChild idx)).procDestroy fuel ((s.kprocs proc).children.getD idx 0)

/-- What `wait` does: it returns, or the caller is blocked. -/
inductive WaitOutcome where
  | returned (ret : Int)
  | blocked
deriving Repr, DecidableEq

/-- `cond` is the condition that is allocated if there is none. Without memory
for it, or for an item of its list, `wait` does not return. -/
def wait (fuel : Nat) (s : Tasks) (cond : Nat) (itemMade : Bool) : Option (Tasks × WaitOutcome) :=
  let proc := s.currProcess
  if proc = 0 then none
  else if ∀ c ∈ (s.kprocs proc).children, c = 0 then some (s, .returned (-EUNSPEC))
  else
    match s.findDeadChild proc with
    | some idx => (s.waitReap fuel proc idx).map fun s => (s, .returned 0)
    | none =>
        if (s.kprocs proc).waitCond ≠ 0 then
          if itemMade then some (s.condWait (s.kprocs proc).waitCond, .blocked) else none
        else if cond = 0 ∨ itemMade = false then none
        else
          some (((s.modProc proc (Process.withWaitCond cond)).setCondThreads cond []).condWait cond,
            .blocked)

/-- `wait` behind `cond_wait`. Without a dead child it panics. -/
def waitResume (fuel : Nat) (s : Tasks) : Option (Tasks × WaitOutcome) :=
  let proc := s.currProcess
  if proc = 0 then none
  else do
    let idx ← s.findDeadChild proc
    let s ← s.waitReap fuel proc idx
    return (s, .returned 0)

/-! ## `init_multitasking` -/

def prioIdle : Int := 0
def prioKernel : Int := 4
def procDomainKernel : Nat := 0

/-- `_cpu_add_thread` -/
def cpuAddThread (s : Tasks) (cpu thread : Nat) : Option Tasks := do
  let list ← s.sched.cpuThreads[cpu]?
  let r ← llistAppend s.sched.items list thread
  let sched := { s.sched with items := r.1, cpuThreads := s.sched.cpuThreads.set cpu r.2 }
  return s.setSched
    (if sched.currThread.getD cpu 0 = 0 then
      { sched with currThread := sched.currThread.set cpu thread }
    else sched)

/-- `thread->sched_item.data = thread`. -/
def schedItemData (s : Tasks) (thread : Nat) : Tasks :=
  s.setSched { s.sched with items := s.sched.items.setData thread thread }

/-- The decimal digits of a CPU's number, as `%03d` prints it. -/
def idleName (cpu : Nat) : List UInt8 :=
  ("idle_".toList ++ List.replicate (3 - (Nat.toDigits 10 cpu).length) '0' ++
    Nat.toDigits 10 cpu).map fun c => UInt8.ofNat c.toNat

/-- One round of `sched_idle_init`: the idle thread of a CPU. -/
def idleThread (s : Tasks) (proc entry cpu thread : Nat) : Option Tasks :=
  if thread = 0 then none
  else do
    let (s, thread) ← s.threadCreate thread entry 0 (idleName cpu) 0x200 prioIdle
    let s ← ((s.schedItemData thread).modProc proc (Process.addType typeRunnable)).procAddThread
      proc thread
    (s.modThread thread (Kthread.addFlags kthreadFlagRunnable)).cpuAddThread cpu thread

/-- `threads` are the allocations of the rounds. -/
def idleThreads (proc entry : Nat) : Nat → List Nat → Tasks → Option Tasks
  | _, [], s => some s
  | cpu, thread :: threads, s => do
      let s ← s.idleThread proc entry cpu thread
      idleThreads proc entry (cpu + 1) threads s

/-- What the allocations of `sched_idle_init` return, and `_idle_thread`. -/
structure IdleInit where
  proc : Nat
  cloned : Nat
  threads : List Nat
  entry : Nat
deriving Repr, DecidableEq

def schedIdleInit (s : Tasks) (a : IdleInit) : Option Tasks := do
  let (s, proc) ← s.procCreate a.proc ("idle".toList.map fun c => UInt8.ofNat c.toNat)
    procDomainKernel 0 a.cloned
  if proc = 0 ∨ a.threads.length ≠ s.sched.cpuThreads.length then none
  else
    let s ← idleThreads proc a.entry 0 a.threads s
    s.mtaskInsertProc proc

/-- `init_multitasking(process, name)`. -/
def initMultitasking (fuel : Nat) (s : Tasks) (idle : IdleInit) (a : AddTask) : Option Tasks := do
  let s ← ({ s with procs := llistInit } : Tasks).schedIdleInit idle
  let (s, tid) ← s.addTask { a with
    stackSize := 0x2000, pri := prioKernel, domain := procDomainKernel, mmuTable := 0 }
  let thread ← s.threadByTid fuel (tid % 4294967296).toNat
  if thread = 0 then none else return s

/-- The state behind `sched_init(n_cpus)`. -/
def boot (nCpus root : Nat) : Tasks where
  kprocs := fun _ => zeroProcess
  kthreads := fun _ => zeroThread
  procItems := fun _ => zeroItem
  threadItems := fun _ => zeroItem
  procs := llistInit
  sched :=
    { items := fun _ => zeroItem
      threadQueue := llistInit
      cpuThreads := List.replicate nCpus llistInit
      currThread := List.replicate nCpus 0
      kerneltime := 0
      calls := fun _ => .idle
      holder := none
      threads := [] }
  condThreads := fun _ => []
  creatTask := 0
  nextPid := 1
  root := root
  procHeap := []
  threadHeap := []
  freed := []
  overRelease := false

end LambdaOs.Tasks
