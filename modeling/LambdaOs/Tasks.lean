import LambdaOs.Proc
import LambdaOs.SchedQueue
import LambdaOs.TimeBlocks

/-!
# Processes, threads and the scheduler

`proc/proc.c`, `proc/thread.c`, `proc/mtask.c`, `proc/fork.c` and the rest of
`proc/sched.c`, at the level of the structures in memory: a process has a ring
of threads, the processes are a ring, and a thread is a member of one of the
scheduler's rings besides. (`Proc` has the same calls for processes with one
thread, over lists.)

A structure is named by its address, `0` being `NULL`. A thread has two list
items, one in the ring of its process and one for the scheduler; each kind of
item is a memory of its own, indexed by the structure the item is in, and so is
each kind of structure. The address `kmalloc` returns is an argument: `0`, or
one that no structure of the kind has.

A call returns `none` when it does not return: a panic, an access through a
null pointer, a lock that is never released.
-/

namespace LambdaOs

/-! ## Structures -/

def kthreadFlagRunnable : Nat := 0x80000000
def kthreadFlagRanonce : Nat := 2
def kthreadFlagStacksetup : Nat := 4
def typeRunnable : Nat := 1
def typeZombie : Nat := 2

/-- `word &= ~flag`, on 32 bits. -/
def clearFlag (word flag : Nat) : Nat := word &&& (0xFFFFFFFF ^^^ flag)

/-- `struct kthread_stats`. -/
structure KthreadStats where
  schedTimeLast : Nat
  schedTimeAccum : Nat
  schedCount : Nat
deriving Repr, DecidableEq

/-- `struct kthread`, without `arch` and the two list items. -/
structure Kthread where
  name : List UInt8
  tid : Nat
  flags : Nat
  prio : Int
  cond : Nat
  process : Nat
  entrypoint : Nat
  stackSize : Nat
  threadData : Nat
  stats : KthreadStats
deriving Repr, DecidableEq

/-- `struct kproc`, without `arch` and the list item. -/
structure Process where
  name : List UInt8
  pid : Nat
  uid : Int
  gid : Int
  parent : Nat
  type : Nat
  mmuTable : Nat
  domain : Nat
  children : List Nat
  threads : Llist
  cwd : Nat
  openFiles : List Nat
  filePosition : List Nat
  symbols : Nat
  elfData : Nat
  exitcode : Int
  mmap : Nat
  waitCond : Nat
deriving Repr, DecidableEq

/-- A thread after `memset`. -/
def zeroThread : Kthread := ⟨[], 0, 0, 0, 0, 0, 0, 0, 0, ⟨0, 0, 0⟩⟩

/-- A process after `memset`. -/
def zeroProcess : Process where
  name := []
  pid := 0
  uid := 0
  gid := 0
  parent := 0
  type := 0
  mmuTable := 0
  domain := 0
  children := List.replicate maxChildren 0
  threads := ⟨0, 0⟩
  cwd := 0
  openFiles := List.replicate maxOpenFiles 0
  filePosition := List.replicate maxOpenFiles 0
  symbols := 0
  elfData := 0
  exitcode := 0
  mmap := 0
  waitCond := 0

/-- A list item after `memset`. -/
def zeroItem : LlistItem := ⟨0, 0, 0⟩

/-- `strncpy` into a name, which ends in a `NUL` of its own. -/
def copyName (name : List UInt8) : List UInt8 := (name.takeWhile (· ≠ 0)).take 63

/-- `condThreads` gives the threads on the list of a condition. `root` is the
root directory. `procHeap` and `threadHeap`, what is allocated, and `freed`,
which threads `thread_destroy` has freed, are the allocator's; `overRelease`, that
`creat_task` was released by somebody who did not hold it, is not in the
code. -/
structure Tasks where
  kprocs : Nat → Process
  kthreads : Nat → Kthread
  procItems : Items
  threadItems : Items
  procs : Llist
  sched : Sched
  condThreads : Nat → List Nat
  creatTask : Nat
  nextPid : Nat
  root : Nat
  procHeap : List Nat
  threadHeap : List Nat
  freed : List Nat
  overRelease : Bool

/-! ## Changes of a structure -/

def Process.withParent (pid : Nat) (k : Process) : Process := { k with parent := pid }

def Process.withChild (slot child : Nat) (k : Process) : Process :=
  { k with children := k.children.set slot child }

def Process.withThreads (list : Llist) (k : Process) : Process := { k with threads := list }

def Process.addType (flag : Nat) (k : Process) : Process := { k with type := k.type ||| flag }

def Kthread.addFlags (flags : Nat) (k : Kthread) : Kthread := { k with flags := k.flags ||| flags }

/-- A thread gets its process and its identifier. -/
def Kthread.joins (process tid : Nat) (k : Kthread) : Kthread :=
  { k with process := process, tid := tid }

namespace Tasks

def modProc (s : Tasks) (p : Nat) (f : Process → Process) : Tasks :=
  { s with kprocs := Function.update s.kprocs p (f (s.kprocs p)) }

def modThread (s : Tasks) (t : Nat) (f : Kthread → Kthread) : Tasks :=
  { s with kthreads := Function.update s.kthreads t (f (s.kthreads t)) }

@[simp] theorem modProc_self (s : Tasks) (p : Nat) (f : Process → Process) :
    (s.modProc p f).kprocs p = f (s.kprocs p) := Function.update_self ..

@[simp] theorem modThread_self (s : Tasks) (t : Nat) (f : Kthread → Kthread) :
    (s.modThread t f).kthreads t = f (s.kthreads t) := Function.update_self ..

@[simp] theorem modThread_kprocs (s : Tasks) (t : Nat) (f : Kthread → Kthread) :
    (s.modThread t f).kprocs = s.kprocs := rfl

@[simp] theorem modProc_kthreads (s : Tasks) (p : Nat) (f : Process → Process) :
    (s.modProc p f).kthreads = s.kthreads := rfl

/-- `sched_get_curr_thread(0)`. -/
def currThread (s : Tasks) : Nat := s.sched.currThread.getD 0 0

/-- `mtask_get_curr_process`. -/
def currProcess (s : Tasks) : Nat :=
  if s.currThread = 0 then 0 else (s.kthreads s.currThread).process

def withLock (s : Tasks) : Tasks := { s with creatTask := 1 }

/-- `lock(&creat_task)`. -/
def lockTask (s : Tasks) : Option Tasks := if s.creatTask = 0 then some s.withLock else none

/-- `unlock(&creat_task)`. -/
def unlockTask (s : Tasks) : Tasks :=
  { s with creatTask := 0, overRelease := s.overRelease || s.creatTask == 0 }

def issuePid (s : Tasks) : Tasks := { s with nextPid := s.nextPid + 1 }

/-- `get_next_pid`, as long as the counter does not overflow. -/
def getNextPid (s : Tasks) : Option (Tasks × Nat) :=
  if s.nextPid < 2147483648 then some (s.issuePid, s.nextPid) else none

/-! ## Memory -/

def allocProc (s : Tasks) (p : Nat) : Tasks := { s with procHeap := p :: s.procHeap }

def allocThread (s : Tasks) (t : Nat) : Tasks :=
  { s with threadHeap := t :: s.threadHeap, freed := s.freed.filter (· ≠ t) }

/-- `kmalloc(sizeof(kproc_t))` has returned `p`, which is not `NULL`. -/
def kmallocProc (s : Tasks) (p : Nat) : Option Tasks :=
  if p ∈ s.procHeap then none else some (s.allocProc p)

/-- `kmalloc(sizeof(kthread_t))` likewise. -/
def kmallocThread (s : Tasks) (t : Nat) : Option Tasks :=
  if t ∈ s.threadHeap then none else some (s.allocThread t)

def kfreeProc (s : Tasks) (p : Nat) : Tasks := { s with procHeap := s.procHeap.erase p }

def kfreeThread (s : Tasks) (t : Nat) : Tasks := { s with threadHeap := s.threadHeap.erase t }

/-- `memset(proc, 0, sizeof(kproc_t))`. -/
def clearProc (s : Tasks) (p : Nat) : Tasks :=
  { s.modProc p fun _ => zeroProcess with
    procItems := Function.update s.procItems p zeroItem }

/-- `memset(thread, 0, sizeof(kthread_t))`. -/
def clearThread (s : Tasks) (t : Nat) : Tasks :=
  { s.modThread t fun _ => zeroThread with
    threadItems := Function.update s.threadItems t zeroItem
    sched := { s.sched with items := Function.update s.sched.items t zeroItem } }

/-! ## `proc.c` -/

def procAddChild (s : Tasks) (parent child : Nat) : Tasks × Int :=
  let s := s.modProc child (Process.withParent (s.kprocs parent).pid)
  match (s.kprocs parent).children.findIdx? (· = 0) with
  | some i => (s.modProc parent (Process.withChild i child), 0)
  | none => (s, -EUNSPEC)

/-- The process that `proc_create` makes. -/
def newProcess (root : Nat) (name : List UInt8) (pid domain mmuTable cloned : Nat) : Process :=
  { zeroProcess with
    name := copyName name
    pid := pid
    domain := domain % 256
    cwd := root
    mmuTable := if mmuTable ≠ 0 then mmuTable else cloned }

/-- `process` is what `kmalloc` returns, `cloned` the table that
`mmu_clone_table` makes when none is given. -/
def procCreate (s : Tasks) (process : Nat) (name : List UInt8) (domain mmuTable cloned : Nat) :
    Option (Tasks × Nat) :=
  if process = 0 then some (s, 0)
  else do
    let s ← s.kmallocProc process
    let (s, pid) ← (s.clearProc process).getNextPid
    return (s.modProc process fun _ => newProcess s.root name pid domain mmuTable cloned, process)

/-- The identifier `proc_add_thread` gives a thread. -/
def threadTid (s : Tasks) (proc thread : Nat) : Option (Tasks × Nat) :=
  if (s.kthreads thread).tid ≠ 0 then some (s, (s.kthreads thread).tid)
  else if (s.kprocs proc).threads.list ≠ 0 then s.getNextPid
  else some (s, (s.kprocs proc).pid)

/-- A thread with its process, its identifier and the list it is in. -/
def linkThread (s : Tasks) (proc thread tid : Nat) (r : Items × Llist) : Tasks :=
  { (s.modThread thread (Kthread.joins proc tid)).modProc proc (Process.withThreads r.2) with
    threadItems := r.1 }

def procAddThread (s : Tasks) (proc thread : Nat) : Option Tasks := do
  let (s, tid) ← s.threadTid proc thread
  let r ← llistAppend (s.threadItems.setData thread thread) (s.kprocs proc).threads thread
  return s.linkThread proc thread tid r

/-! ## `mtask.c` and `sched.c` -/

def setProcs (s : Tasks) (r : Items × Llist) : Tasks := { s with procItems := r.1, procs := r.2 }

def mtaskInsertProc (s : Tasks) (proc : Nat) : Option Tasks :=
  (llistAppend (s.procItems.setData proc proc) s.procs proc).map s.setProcs

def mtaskRemoveProc (s : Tasks) (proc : Nat) : Option Tasks :=
  (llistRemove s.procItems s.procs proc).map s.setProcs

end Tasks

namespace Sched

/-- `sched_enqueue_thread`, without other threads in between: a lock that is
held stays held. -/
def enqueueThread (s : Sched) (thread : Nat) : Option (Sched × Int) :=
  if thread = 0 then none
  else
    let s := { s with items := s.items.setData thread thread }
    if s.threadQueue.lock ≠ 0 then some (s, -ETIMEDOUT)
    else
      let r := llistAppendUnlocked s.items s.threadQueue thread
      some ({ s with items := r.1, threadQueue := r.2 }, 0)

/-- The loop of `sched_remove_thread`. An empty list is a null pointer for
`llist_get_position`. -/
def removeLoop (fuel thread : Nat) : List Nat → Sched → Option (Sched × Int)
  | [], s => some (s, -1)
  | i :: is, s => do
      let list ← s.cpuThreads[i]?
      if list.list = 0 then none
      else
        let pos ← llistGetPosition fuel s.items list thread
        if pos ≥ 0 then
          if list.lock ≠ 0 then some (s, -ETIMEDOUT)
          else
            let r := llistRemoveUnlocked s.items list thread
            some ({ s with items := r.1, cpuThreads := s.cpuThreads.set i r.2 }, 0)
        else removeLoop fuel thread is s

def removeThread (fuel : Nat) (s : Sched) (thread : Nat) : Option (Sched × Int) :=
  removeLoop fuel thread (List.range s.cpuThreads.length) s

/-- `sched_replace_thread`. -/
def replaceThread (s : Sched) (new : Nat) : Option Sched := do
  let old := s.currThread.getD 0 0
  let list ← s.cpuThreads[0]?
  let (m, list) ← llistRemove (s.items.setData new new) list old
  let (m, list) ← llistAppend m list new
  return { s with
    items := m
    cpuThreads := s.cpuThreads.set 0 list
    currThread := s.currThread.set 0 new }

end Sched

namespace Tasks

def setSched (s : Tasks) (sched : Sched) : Tasks := { s with sched := sched }

def schedEnqueueThread (s : Tasks) (thread : Nat) : Option (Tasks × Int) :=
  (s.sched.enqueueThread thread).map fun r => (s.setSched r.1, r.2)

/-! ## `thread.c` and `proc_destroy` -/

/-- `CONFIG_PROC_USER_STACK_SIZE` and `CONFIG_PROC_USER_STACK_SIZE_MAX`. -/
def userStackSize : Nat := 32768
def userStackSizeMax : Nat := 65536

/-- The thread that `thread_create` makes. -/
def newThread (entrypoint data : Nat) (name : List UInt8) (stackSize : Nat) (prio : Int) :
    Kthread :=
  { zeroThread with
    name := copyName name
    entrypoint := entrypoint
    prio := prio
    stackSize := if stackSize = 0 then userStackSize else stackSize
    threadData := data }

/-- `thread` is what `kmalloc` returns. -/
def threadCreate (s : Tasks) (thread entrypoint data : Nat) (name : List UInt8)
    (stackSize : Nat) (prio : Int) : Option (Tasks × Nat) :=
  if thread = 0 then some (s, 0)
  else if stackSize > userStackSizeMax then none
  else do
    let s ← s.kmallocThread thread
    return ((s.clearThread thread).modThread thread fun _ =>
      newThread entrypoint data name stackSize prio, thread)

def noteFreed (s : Tasks) (thread : Nat) : Tasks := { s with freed := thread :: s.freed }

/-- The result of `sched_remove_thread` is not used. -/
def threadDestroy (fuel : Nat) (s : Tasks) (thread : Nat) : Option Tasks :=
  (s.sched.removeThread fuel thread).map fun r =>
    ((s.setSched r.1).kfreeThread thread).noteFreed thread

/-- A process with its thread list changed. -/
def setThreads (s : Tasks) (proc : Nat) (r : Items × Llist) : Tasks :=
  { s.modProc proc (Process.withThreads r.2) with threadItems := r.1 }

/-- The loop of `proc_destroy`. -/
def destroyLoop (fuel proc : Nat) : Nat → Tasks → Option Tasks
  | 0, _ => none
  | rounds + 1, s =>
      let list := (s.kprocs proc).threads
      if list.list = 0 then some s
      else do
        let thread := (s.threadItems list.list).data
        let r ← llistRemove s.threadItems list list.list
        let s ← (s.setThreads proc r).threadDestroy fuel thread
        destroyLoop fuel proc rounds s

def procDestroy (fuel : Nat) (s : Tasks) (proc : Nat) : Option Tasks := do
  let s ← s.mtaskRemoveProc proc
  let s ← destroyLoop fuel proc fuel s
  return s.kfreeProc proc

/-! ## `add_task` -/

/-- The arguments of `add_task`, and what its allocations return. -/
structure AddTask where
  process : Nat
  name : List UInt8
  stackSize : Nat
  pri : Int
  domain : Nat
  mmuTable : Nat
  proc : Nat
  cloned : Nat
  thread : Nat
deriving Repr, DecidableEq

/-- The user, the group and the type `add_task` sets. -/
def startedProcess (k : Process) : Process := { k with uid := 0, gid := 0, type := typeRunnable }

/-- The end of `add_task`, once the process is made and in a slot of the caller.
`proc_add_thread` writes through the pointer to the thread. -/
def addTaskThread (s : Tasks) (a : AddTask) : Option (Tasks × Int) :=
  if a.thread = 0 then none
  else do
    let (s, thread) ← (s.modProc a.proc startedProcess).threadCreate a.thread a.process 0 a.name
      a.stackSize a.pri
    let s ← s.procAddThread a.proc thread
    let s ← (s.modThread thread (Kthread.addFlags (kthreadFlagRunnable ||| kthreadFlagRanonce))
      ).mtaskInsertProc a.proc
    let (s, _) ← s.schedEnqueueThread thread
    return (s.unlockTask, (s.kprocs a.proc).pid)

/-- The process goes into a slot of the caller, if there is a caller. -/
def addTaskChild (s : Tasks) (currProc proc : Nat) : Tasks × Int :=
  if currProc ≠ 0 then s.procAddChild currProc proc else (s, 0)

def addTask (s : Tasks) (a : AddTask) : Option (Tasks × Int) := do
  let s ← s.lockTask
  let (s', proc) ← s.procCreate a.proc a.name a.domain a.mmuTable a.cloned
  if proc = 0 then return (s', -EUNSPEC)
  else if (s'.addTaskChild s.currProcess proc).2 ≠ 0 then
    return ((s'.addTaskChild s.currProcess proc).1.unlockTask.kfreeProc proc, 0)
  else (s'.addTaskChild s.currProcess proc).1.addTaskThread a

/-! ## `fork` -/

/-- What the allocations of `fork` return, and whether the stacks were made and
the stack and the data copied. `mmap` is the child's list of `proc_copy_data`. -/
structure Fork where
  child : Nat
  cthread : Nat
  mmuTable : Nat
  stackMade : Bool
  kernelStackMade : Bool
  stackCopied : Bool
  dataCopied : Bool
  mmap : Nat
deriving Repr, DecidableEq

/-- `fork_clone_process` gets to `proc_copy_data`. -/
def Fork.reachesData (a : Fork) : Bool := a.stackMade && a.kernelStackMade && a.stackCopied

/-- The child's structure after the copies of `fork_clone_process`, and after
`proc_copy_data`. -/
def clonedProcess (a : Fork) (p : Process) (pid : Nat) (c : Process) : Process :=
  { c with
    name := copyName p.name
    pid := pid
    uid := p.uid
    gid := p.gid
    cwd := p.cwd
    domain := p.domain
    openFiles := p.openFiles
    filePosition := p.filePosition
    mmuTable := a.mmuTable
    mmap := if a.reachesData then a.mmap else c.mmap }

/-- The child's thread likewise. -/
def clonedThread (p : Kthread) (tid : Nat) (c : Kthread) : Kthread :=
  { c with tid := tid, prio := p.prio, entrypoint := p.entrypoint, stackSize := p.stackSize }

/-- `child->threads.list->data`. -/
def firstThread (s : Tasks) (p : Nat) : Nat := (s.threadItems (s.kprocs p).threads.list).data

/-- `fork_clone_process` behind `proc_add_child`. -/
def forkCopy (s : Tasks) (a : Fork) (child parent : Nat) : Option (Tasks × Int) := do
  let (s, pid) ← s.getNextPid
  let cthread := s.firstThread child
  let s' := (s.modProc child (clonedProcess a (s.kprocs parent) pid)).modThread cthread
    (clonedThread (s.kthreads s.currThread) pid)
  if a.reachesData && a.dataCopied then
    return (s'.modThread cthread (Kthread.addFlags kthreadFlagRanonce), 0)
  else return (s', -EUNSPEC)

def forkCloneProcess (s : Tasks) (a : Fork) (child parent : Nat) : Option (Tasks × Int) :=
  if (s.procAddChild parent child).2 ≠ 0 then
    some ((s.procAddChild parent child).1.unlockTask, -EUNSPEC)
  else (s.procAddChild parent child).1.forkCopy a child parent

/-- The two structures of `fork`. Without memory for one of them it panics. -/
def forkMake (s : Tasks) (a : Fork) : Option Tasks :=
  if a.child = 0 ∨ a.cthread = 0 then none
  else do
    let s ← s.lockTask
    let s ← s.kmallocProc a.child
    let s ← (s.clearProc a.child).kmallocThread a.cthread
    (s.clearThread a.cthread).procAddThread a.child a.cthread

/-- The end of `fork`. -/
def forkStart (s : Tasks) (a : Fork) : Option (Tasks × Int) := do
  let s ← ((s.modProc a.child (Process.addType typeRunnable)).modThread a.cthread
    (Kthread.addFlags kthreadFlagRunnable)).mtaskInsertProc a.child
  let (s, _) ← s.schedEnqueueThread a.cthread
  return (s.unlockTask, (s.kprocs a.child).pid)

def fork (s : Tasks) (a : Fork) : Option (Tasks × Int) :=
  if s.currProcess = 0 then none
  else do
    let s' ← s.forkMake a
    let (s', ret) ← s'.forkCloneProcess a a.child s.currProcess
    if ret ≠ 0 then return (s', -EUNSPEC) else s'.forkStart a

/-! ## Calls that return -/

section Returns

variable {s s' : Tasks} {p t : Nat}

theorem lockTask_eq_some : s.lockTask = some s' ↔ s.creatTask = 0 ∧ s.withLock = s' := by
  simp [lockTask]

theorem getNextPid_eq_some {r : Tasks × Nat} : s.getNextPid = some r ↔
    s.nextPid < 2147483648 ∧ (s.issuePid, s.nextPid) = r := by
  simp [getNextPid]

theorem kmallocProc_eq_some : s.kmallocProc p = some s' ↔
    p ∉ s.procHeap ∧ s.allocProc p = s' := by
  simp [kmallocProc]

theorem kmallocThread_eq_some : s.kmallocThread t = some s' ↔
    t ∉ s.threadHeap ∧ s.allocThread t = s' := by
  simp [kmallocThread]

theorem procCreate_eq_some {name : List UInt8} {domain mmuTable cloned : Nat} {r : Tasks × Nat}
    (hp : p ≠ 0) : s.procCreate p name domain mmuTable cloned = some r ↔
      ∃ s₁, s.kmallocProc p = some s₁ ∧ ∃ r₂, (s₁.clearProc p).getNextPid = some r₂ ∧
        (r₂.1.modProc p fun _ => newProcess r₂.1.root name r₂.2 domain mmuTable cloned, p) = r := by
  simp only [procCreate, if_neg hp, Option.bind_eq_bind, Option.bind_eq_some_iff, Option.pure_def,
    Option.some.injEq]

theorem threadCreate_eq_some {entry data size : Nat} {name : List UInt8} {prio : Int}
    {r : Tasks × Nat} (ht : t ≠ 0) : s.threadCreate t entry data name size prio = some r ↔
      size ≤ userStackSizeMax ∧ ∃ s₁, s.kmallocThread t = some s₁ ∧
        ((s₁.clearThread t).modThread t fun _ => newThread entry data name size prio, t) = r := by
  unfold threadCreate
  rw [if_neg ht]
  split
  · rename_i hsize
    simp [Nat.not_le.mpr hsize]
  · rename_i hsize
    simp only [Nat.not_lt.mp hsize, true_and, Option.bind_eq_bind, Option.bind_eq_some_iff,
      Option.pure_def, Option.some.injEq]

/-- The counter is all that a new identifier may change. -/
theorem threadTid_frame {r : Tasks × Nat} (h : s.threadTid p t = some r) :
    ∃ n, r.1 = { s with nextPid := n } := by
  unfold threadTid at h
  split at h
  · obtain rfl := Option.some.inj h
    exact ⟨_, rfl⟩
  · split at h
    · obtain ⟨-, rfl⟩ := getNextPid_eq_some.mp h
      exact ⟨_, rfl⟩
    · obtain rfl := Option.some.inj h
      exact ⟨_, rfl⟩

theorem procAddThread_eq_some : s.procAddThread p t = some s' ↔
    ∃ r₁, s.threadTid p t = some r₁ ∧
      ∃ r, llistAppend (r₁.1.threadItems.setData t t) (r₁.1.kprocs p).threads t = some r ∧
        r₁.1.linkThread p t r₁.2 r = s' := by
  simp only [procAddThread, Option.bind_eq_bind, Option.bind_eq_some_iff, Option.pure_def,
    Option.some.injEq]

theorem mtaskInsertProc_eq_some : s.mtaskInsertProc p = some s' ↔
    ∃ r, llistAppend (s.procItems.setData p p) s.procs p = some r ∧ s.setProcs r = s' :=
  Option.map_eq_some_iff

theorem schedEnqueueThread_eq_some {r : Tasks × Int} : s.schedEnqueueThread t = some r ↔
    ∃ r₁, s.sched.enqueueThread t = some r₁ ∧ (s.setSched r₁.1, r₁.2) = r :=
  Option.map_eq_some_iff

theorem addTaskThread_eq_some {a : AddTask} {r : Tasks × Int} : s.addTaskThread a = some r ↔
    a.thread ≠ 0 ∧ ∃ r₁, (s.modProc a.proc startedProcess).threadCreate a.thread a.process 0 a.name
      a.stackSize a.pri = some r₁ ∧ ∃ s₂, r₁.1.procAddThread a.proc r₁.2 = some s₂ ∧
      ∃ s₃, (s₂.modThread r₁.2 (Kthread.addFlags (kthreadFlagRunnable ||| kthreadFlagRanonce))
        ).mtaskInsertProc a.proc = some s₃ ∧ ∃ r₄, s₃.schedEnqueueThread r₁.2 = some r₄ ∧
      (r₄.1.unlockTask, ((r₄.1.kprocs a.proc).pid : Int)) = r := by
  unfold addTaskThread
  split
  · rename_i h0
    simp [h0]
  · rename_i h0
    simp only [ne_eq, h0, not_false_eq_true, true_and, Option.bind_eq_bind,
      Option.bind_eq_some_iff, Option.pure_def, Option.some.injEq]

theorem addTask_eq_some {a : AddTask} {r : Tasks × Int} : s.addTask a = some r ↔
    ∃ s₁, s.lockTask = some s₁ ∧
      ∃ r₂, s₁.procCreate a.proc a.name a.domain a.mmuTable a.cloned = some r₂ ∧
        (if r₂.2 = 0 then some (r₂.1, -EUNSPEC)
          else if (r₂.1.addTaskChild s₁.currProcess r₂.2).2 ≠ 0 then
            some ((r₂.1.addTaskChild s₁.currProcess r₂.2).1.unlockTask.kfreeProc r₂.2, 0)
          else (r₂.1.addTaskChild s₁.currProcess r₂.2).1.addTaskThread a) = some r := by
  simp only [addTask, Option.bind_eq_bind, Option.bind_eq_some_iff, Option.pure_def]

theorem forkCopy_eq_some {a : Fork} {c p : Nat} {r : Tasks × Int} : s.forkCopy a c p = some r ↔
    ∃ r₁, s.getNextPid = some r₁ ∧
      let s' := (r₁.1.modProc c (clonedProcess a (r₁.1.kprocs p) r₁.2)).modThread
        (r₁.1.firstThread c) (clonedThread (r₁.1.kthreads r₁.1.currThread) r₁.2)
      (if a.reachesData && a.dataCopied then
          (s'.modThread (r₁.1.firstThread c) (Kthread.addFlags kthreadFlagRanonce), (0 : Int))
        else (s', -EUNSPEC)) = r := by
  simp only [forkCopy, Option.bind_eq_bind, Option.bind_eq_some_iff, Option.pure_def]
  refine exists_congr fun r₁ => and_congr_right fun _ => ?_
  split
  · exact Option.some_inj
  · exact Option.some_inj

theorem llistAppend_init (m : Items) (ht : t ≠ 0) :
    llistAppend m ⟨0, 0⟩ t = some ((m.setNext t t).setPrev t t, ⟨t, 0⟩) := by
  simp [llistAppend, ht, Llist.acquire, llistAppendUnlocked, Llist.release]

/-- The two structures of `fork`, after `memset`. -/
def forkCleared (s : Tasks) (a : Fork) : Tasks :=
  (((s.withLock.allocProc a.child).clearProc a.child).allocThread a.cthread).clearThread a.cthread

/-- What `forkMake` leaves: the thread is the only one of its process, and has
its identifier, which is `0`. -/
def forkMade (s : Tasks) (a : Fork) : Tasks :=
  let m := (s.forkCleared a).threadItems.setData a.cthread a.cthread
  (s.forkCleared a).linkThread a.child a.cthread 0
    ((m.setNext a.cthread a.cthread).setPrev a.cthread a.cthread, ⟨a.cthread, 0⟩)

theorem forkCleared_process (s : Tasks) (a : Fork) :
    (s.forkCleared a).kprocs a.child = zeroProcess := Function.update_self ..

theorem forkCleared_thread (s : Tasks) (a : Fork) :
    (s.forkCleared a).kthreads a.cthread = zeroThread := Function.update_self ..

theorem forkMade_kprocs {a : Fork} {p : Nat} (hp : p ≠ a.child) :
    (s.forkMade a).kprocs p = s.kprocs p :=
  (Function.update_of_ne hp ..).trans (Function.update_of_ne hp ..)

theorem forkMake_eq_some {a : Fork} : s.forkMake a = some s' ↔
    a.child ≠ 0 ∧ a.cthread ≠ 0 ∧ s.creatTask = 0 ∧ a.child ∉ s.procHeap ∧
      a.cthread ∉ s.threadHeap ∧ s.forkMade a = s' := by
  unfold forkMake
  split
  · rename_i h0
    refine iff_of_false nofun ?_
    rintro ⟨hc, ht, -⟩
    exact h0.elim hc ht
  · rename_i h0
    rw [not_or] at h0
    have htid : (s.forkCleared a).threadTid a.child a.cthread = some (s.forkCleared a, 0) := by
      simp only [threadTid, forkCleared_process, forkCleared_thread]
      rfl
    have hadd : (s.forkCleared a).procAddThread a.child a.cthread = some (s.forkMade a) := by
      refine procAddThread_eq_some.mpr ⟨_, htid, _, ?_, rfl⟩
      rw [forkCleared_process]
      exact llistAppend_init _ h0.2
    simp only [ne_eq, h0, not_false_eq_true, true_and, Option.bind_eq_bind, Option.bind_eq_some_iff,
      lockTask_eq_some, kmallocProc_eq_some, kmallocThread_eq_some]
    constructor
    · rintro ⟨s₁, ⟨hlock, rfl⟩, s₂, ⟨hc, rfl⟩, s₃, ⟨ht, rfl⟩, h⟩
      exact ⟨hlock, hc, ht, Option.some.inj (hadd.symm.trans h)⟩
    · rintro ⟨hlock, hc, ht, rfl⟩
      exact ⟨_, ⟨hlock, rfl⟩, _, ⟨hc, rfl⟩, _, ⟨ht, rfl⟩, hadd⟩

theorem forkStart_eq_some {a : Fork} {r : Tasks × Int} : s.forkStart a = some r ↔
    ∃ s₁, ((s.modProc a.child (Process.addType typeRunnable)).modThread a.cthread
        (Kthread.addFlags kthreadFlagRunnable)).mtaskInsertProc a.child = some s₁ ∧
      ∃ r₂, s₁.schedEnqueueThread a.cthread = some r₂ ∧
        (r₂.1.unlockTask, ((r₂.1.kprocs a.child).pid : Int)) = r := by
  simp only [forkStart, Option.bind_eq_bind, Option.bind_eq_some_iff, Option.pure_def,
    Option.some.injEq]

theorem fork_eq_some {a : Fork} {r : Tasks × Int} : s.fork a = some r ↔
    s.currProcess ≠ 0 ∧ ∃ s₁, s.forkMake a = some s₁ ∧
      ∃ r₂, s₁.forkCloneProcess a a.child s.currProcess = some r₂ ∧
        (if r₂.2 ≠ 0 then some (r₂.1, -EUNSPEC) else r₂.1.forkStart a) = some r := by
  unfold fork
  split
  · rename_i h0
    simp [h0]
  · rename_i h0
    simp only [ne_eq, h0, not_false_eq_true, true_and, Option.bind_eq_bind,
      Option.bind_eq_some_iff, Option.pure_def]

end Returns

/-! ## `proc_add_child` -/

theorem procAddChild_frame (s : Tasks) (p c : Nat) :
    ∃ kprocs, (s.procAddChild p c).1 = { s with kprocs := kprocs } := by
  unfold procAddChild
  dsimp only
  split
  · exact ⟨_, rfl⟩
  · exact ⟨_, rfl⟩

theorem procAddChild_failed {s : Tasks} {p c : Nat} (h : (s.procAddChild p c).2 ≠ 0) :
    s.procAddChild p c = (s.modProc c (Process.withParent (s.kprocs p).pid), -EUNSPEC) := by
  unfold procAddChild at h ⊢
  dsimp only at h ⊢
  split
  · rename_i i hi
    rw [hi] at h
    exact absurd rfl h
  · rfl

theorem update_pid {m : Nat → Process} {p : Nat} {k : Process} (hk : k.pid = (m p).pid) (q : Nat) :
    (Function.update m p k q).pid = (m q).pid := by
  by_cases hq : q = p
  · rw [hq, Function.update_self, hk]
  · rw [Function.update_of_ne hq]

theorem procAddChild_pid (s : Tasks) (p c q : Nat) :
    ((s.procAddChild p c).1.kprocs q).pid = (s.kprocs q).pid := by
  unfold procAddChild
  dsimp only
  split
  · refine (update_pid ?_ q).trans (update_pid ?_ q)
    · rfl
    · rfl
  · refine update_pid ?_ q
    rfl

end Tasks
end LambdaOs
