import Mathlib.Logic.Function.Basic
import LambdaOs.Errno

/-!
# Processes

`proc/proc.c`, `proc/mtask.c`, `proc/fork.c`, `proc/exec.c`, `proc/wait.c` and
the open and close of `fs/procfs.c`: the process table and what the calls of
a process do to it. What `fork` does to memory is in `ForkData`.

A process is named by its `struct kproc`, `0` being `NULL`; memory of a
destroyed process is not handed out again, so that a stale pointer stays
stale, and so for file handles. A process has one thread. `procs` is the
list that its ring stands for; its head, the idle process, is never removed.

A call either finishes in one step or, in `wait`, goes to sleep and goes on
in a second one. What the calls depend on outside the process table is part
of the action: whether memory was found, a file opened, an image loaded.
-/

namespace LambdaOs

/-! ## The process table -/

def maxChildren : Nat := 8
def maxOpenFiles : Nat := 8

/-- Where the thread of a process is: about to make a call, asleep in `wait`,
or woken in it. -/
inductive ThreadPoint where
  | user
  | asleep
  | woken
deriving Repr, DecidableEq

/-- `struct kproc`. Slots hold pointers; `waitCond` lists the processes whose
thread waits on it. -/
structure Kproc where
  pid : Nat
  parent : Nat
  runnable : Bool
  zombie : Bool
  exitcode : Int
  children : List Nat
  openFiles : List Nat
  filePosition : List Nat
  cwd : Nat
  waitCond : Option (List Nat)
  thread : ThreadPoint
deriving Repr, DecidableEq

/-- The structure after `memset`. -/
def blankProc : Kproc where
  pid := 0
  parent := 0
  runnable := false
  zombie := false
  exitcode := 0
  children := List.replicate maxChildren 0
  openFiles := List.replicate maxOpenFiles 0
  filePosition := List.replicate maxOpenFiles 0
  cwd := 0
  waitCond := none
  thread := .user

/-- `handles` gives the file handles that are allocated, and whether they are
open. -/
structure ProcState where
  kprocs : Nat → Kproc
  procs : List Nat
  nextPid : Nat
  nextProc : Nat
  creatTask : Bool
  handles : Nat → Option Bool
  nextHand : Nat

/-- Why the machine stops, or an action is not taken. -/
inductive ProcStop where
  | notRunning
  | lockHeld
  | childMissing
  | nullParent
  | nullPointer
  | notAllocated
  | outOfTable
deriving Repr, DecidableEq

namespace ProcState

def setProc (s : ProcState) (p : Nat) (k : Kproc) : ProcState :=
  { s with kprocs := Function.update s.kprocs p k }

def setHandle (s : ProcState) (h : Nat) (v : Option Bool) : ProcState :=
  { s with handles := Function.update s.handles h v }

section Set

variable {s : ProcState} {p q h : Nat} {k : Kproc} {v : Option Bool}

@[simp] theorem setProc_self : (s.setProc p k).kprocs p = k := Function.update_self ..
@[simp] theorem setProc_of_ne (hne : q ≠ p) : (s.setProc p k).kprocs q = s.kprocs q :=
  Function.update_of_ne hne ..
/-- What the new structure keeps, the whole table keeps. -/
theorem setProc_keeps {α : Type} (f : Kproc → α) (hf : f k = f (s.kprocs p)) (q : Nat) :
    f ((s.setProc p k).kprocs q) = f (s.kprocs q) := by
  by_cases hq : q = p
  · rw [hq, setProc_self, hf]
  · rw [setProc_of_ne hq]

@[simp] theorem setProc_procs : (s.setProc p k).procs = s.procs := rfl
@[simp] theorem setProc_nextPid : (s.setProc p k).nextPid = s.nextPid := rfl
@[simp] theorem setProc_nextProc : (s.setProc p k).nextProc = s.nextProc := rfl
@[simp] theorem setProc_handles : (s.setProc p k).handles = s.handles := rfl
@[simp] theorem setProc_nextHand : (s.setProc p k).nextHand = s.nextHand := rfl
@[simp] theorem setHandle_kprocs : (s.setHandle h v).kprocs = s.kprocs := rfl
@[simp] theorem setHandle_procs : (s.setHandle h v).procs = s.procs := rfl
@[simp] theorem setHandle_nextPid : (s.setHandle h v).nextPid = s.nextPid := rfl
@[simp] theorem setHandle_nextProc : (s.setHandle h v).nextProc = s.nextProc := rfl
@[simp] theorem setHandle_nextHand : (s.setHandle h v).nextHand = s.nextHand := rfl

end Set

/-- The process can make a call. -/
def CanCall (s : ProcState) (p : Nat) : Prop :=
  p ∈ s.procs ∧ (s.kprocs p).runnable = true ∧ (s.kprocs p).thread = .user

instance (s : ProcState) (p : Nat) : Decidable (s.CanCall p) :=
  inferInstanceAs (Decidable (_ ∧ _))

def procByPid (s : ProcState) (pid : Nat) : Option Nat :=
  s.procs.find? fun p => (s.kprocs p).pid = pid

/-! ## `fork` and `execve` -/

/-- `copied` says whether `proc_copy_data` succeeded. When it fails the child
stays in its slot, and `creat_task` is not released. -/
def fork (s : ProcState) (p : Nat) (copied : Bool) : Except ProcStop (ProcState × Option Int) :=
  if s.creatTask then .error .lockHeld
  else
    let child := s.nextProc
    let k := s.kprocs p
    match k.children.findIdx? (· = 0) with
    | none =>
        .ok ({ s.setProc child { blankProc with parent := k.pid } with nextProc := child + 1 },
          some (-EUNSPEC))
    | some slot =>
        let c := { blankProc with
          pid := s.nextPid
          parent := k.pid
          runnable := copied
          cwd := k.cwd
          openFiles := k.openFiles
          filePosition := k.filePosition }
        let s := { (s.setProc p { k with children := k.children.set slot child }).setProc child c
          with nextProc := child + 1, nextPid := s.nextPid + 1 }
        if copied then .ok ({ s with procs := s.procs ++ [child] }, some c.pid)
        else .ok ({ s with creatTask := true }, some (-EUNSPEC))

/-- `failure` is the error of an image that could not be loaded. A new image
keeps what `_exec_replace_process_image` copies. -/
def execve (s : ProcState) (p : Nat) (failure : Option Int) : ProcState × Option Int :=
  match failure with
  | some err => (s, some err)
  | none =>
      let k := s.kprocs p
      (s.setProc p { blankProc with
        pid := k.pid
        runnable := k.runnable
        zombie := k.zombie
        parent := k.parent
        cwd := k.cwd
        children := k.children
        openFiles := k.openFiles
        filePosition := k.filePosition }, none)

end ProcState

/-! ## `exit` and `wait` -/

/-- How far `exit` gets: not runnable, a zombie, the parent's condition
signalled, or all of it. -/
inductive ExitPoint where
  | stopped
  | dead
  | signalled
  | done
deriving Repr, DecidableEq

namespace ProcState

/-- `cond_signal`: the waiting threads may run again. -/
def condSignal (s : ProcState) (waiting : List Nat) : ProcState :=
  waiting.foldr (fun q s => s.setProc q { s.kprocs q with thread := .woken }) s

@[simp] theorem condSignal_procs {s : ProcState} {waiting : List Nat} :
    (s.condSignal waiting).procs = s.procs := by
  induction waiting with
  | nil => rfl
  | cons q rest ih => exact ih

/-- `exit`, up to a point: once the process is not runnable, a tick that takes
the CPU from it does not give it back. -/
def exit (s : ProcState) (p : Nat) (code : Int) (upTo : ExitPoint) :
    Except ProcStop (ProcState × Option Int) :=
  let k := s.kprocs p
  if upTo = .stopped then .ok (s.setProc p { k with runnable := false }, none)
  else
    let s := s.setProc p { k with runnable := false, zombie := true, exitcode := code }
    if upTo = .dead ∨ k.parent = 0 then .ok (s, none)
    else
      match s.procByPid k.parent with
      | none => .error .nullParent
      | some q =>
          match (s.kprocs q).waitCond with
          | none => .ok (s, none)
          | some waiting =>
              let s := s.condSignal waiting
              let cond := if upTo = .signalled then some [] else none
              .ok (s.setProc q { s.kprocs q with waitCond := cond }, none)

def findDeadChild (s : ProcState) (p : Nat) : Option Nat :=
  (s.kprocs p).children.findIdx? fun c => c ≠ 0 ∧ (s.kprocs c).zombie = true

/-- The child in a slot of `p`. -/
def childAt (s : ProcState) (p slot : Nat) : Nat := (s.kprocs p).children.getD slot 0

/-- The end of `wait`, from `CHILD_FOUND` on: `cpid` was never assigned. -/
def reap (s : ProcState) (p slot : Nat) : ProcState × Option Int :=
  let k := s.kprocs p
  ({ s.setProc p { k with children := k.children.set slot 0, thread := .user } with
    procs := s.procs.erase (s.childAt p slot) }, some 0)

/-- The call up to where it finishes or sleeps. `condFound` and `itemFound`
say whether memory was found for the condition and for the entry of
`cond_wait`; without the entry `cond_wait` returns at once. -/
def wait (s : ProcState) (p : Nat) (condFound itemFound : Bool) :
    Except ProcStop (ProcState × Option Int) :=
  let k := s.kprocs p
  if k.children.all (· = 0) then .ok (s, some (-EUNSPEC))
  else
    match s.findDeadChild p with
    | some slot => .ok (s.reap p slot)
    | none =>
        if k.waitCond.isNone ∧ condFound = false then .error .nullPointer
        else if itemFound = false then .error .childMissing
        else .ok (s.setProc p { k with
          waitCond := some (k.waitCond.getD [] ++ [p]), thread := .asleep }, none)

/-- The rest of the call after `cond_wait`. -/
def wake (s : ProcState) (p : Nat) : Except ProcStop (ProcState × Option Int) :=
  match s.findDeadChild p with
  | some slot => .ok (s.reap p slot)
  | none => .error .childMissing

end ProcState

/-! ## Files -/

/-- How `fs_find_file`, `_open_check_flags`, `kmalloc` and `fs_open` answer. -/
inductive OpenOutcome where
  | notFound
  | notDir
  | noMemory
  | failed
  | opened
deriving Repr, DecidableEq

namespace ProcState

/-- `proc_add_file`: the process, and the descriptor. -/
def addFile (k : Kproc) (hand : Nat) : Kproc × Option Nat :=
  match k.openFiles.findIdx? (· = 0) with
  | some i =>
      ({ k with openFiles := k.openFiles.set i hand, filePosition := k.filePosition.set i 0 },
        some i)
  | none => (k, none)

theorem addFile_none {k : Kproc} {hand : Nat} (hfind : k.openFiles.findIdx? (· = 0) = none) :
    addFile k hand = (k, none) := by
  rw [addFile, hfind]

theorem addFile_some {k : Kproc} {hand i : Nat}
    (hfind : k.openFiles.findIdx? (· = 0) = some i) :
    addFile k hand = ({ k with
      openFiles := k.openFiles.set i hand, filePosition := k.filePosition.set i 0 }, some i) := by
  rw [addFile, hfind]

/-- A handle that `proc_add_file` put into slot `0` is freed like one it had
no slot for. -/
def procFsOpen (s : ProcState) (p : Nat) (o : OpenOutcome) :
    Except ProcStop (ProcState × Option Int) :=
  if (s.kprocs p).cwd = 0 then .ok (s, some (-EUNSPEC))
  else
    match o with
    | .notFound => .ok (s, some (-ENOENT))
    | .notDir => .ok (s, some (-ENOTDIR))
    | .noMemory => .error .nullPointer
    | .failed => .ok ({ s with nextHand := s.nextHand + 1 }, some (-EUNSPEC))
    | .opened =>
        let hand := s.nextHand
        let s := { s.setHandle hand (some true) with nextHand := hand + 1 }
        let r := addFile (s.kprocs p) hand
        let s := s.setProc p r.1
        if 0 < r.2.getD 0 then .ok (s, some (r.2.getD 0))
        else .ok (s.setHandle hand none, some (-ENFILE))

/-- A descriptor outside the table, but not too large, reads and writes what
is next to it: the position of file `0`, or the fields before the table. -/
def procFsClose (s : ProcState) (p : Nat) (desc : Int) :
    Except ProcStop (ProcState × Option Int) :=
  let k := s.kprocs p
  if desc > maxOpenFiles then .ok (s, some (-EBADF))
  else if desc < 0 then .error .outOfTable
  else if desc = maxOpenFiles then
    if k.filePosition.getD 0 0 = 0 then .ok (s, some (-EBADF)) else .error .outOfTable
  else
    let hand := k.openFiles.getD desc.toNat 0
    if hand = 0 then .ok (s, some (-EBADF))
    else if s.handles hand = none then .error .notAllocated
    else .ok ((s.setHandle hand none).setProc p
      { k with openFiles := k.openFiles.set desc.toNat 0 }, some 0)

end ProcState

/-! ## Steps -/

inductive ProcAct where
  | fork (p : Nat) (copied : Bool)
  | execve (p : Nat) (failure : Option Int)
  | exit (p : Nat) (code : Int) (upTo : ExitPoint)
  | wait (p : Nat) (condFound itemFound : Bool)
  | wake (p : Nat)
  | openFile (p : Nat) (o : OpenOutcome)
  | closeFile (p : Nat) (desc : Int)
deriving Repr, DecidableEq

/-- The state after an action, and what its call returns, if it does. -/
def procCall (s : ProcState) : ProcAct → Except ProcStop (ProcState × Option Int)
  | .fork p copied => if s.CanCall p then s.fork p copied else .error .notRunning
  | .execve p failure => if s.CanCall p then .ok (s.execve p failure) else .error .notRunning
  | .exit p code upTo => if s.CanCall p then s.exit p code upTo else .error .notRunning
  | .wait p condFound itemFound =>
      if s.CanCall p then s.wait p condFound itemFound else .error .notRunning
  | .wake p =>
      if p ∈ s.procs ∧ (s.kprocs p).thread = .woken then s.wake p else .error .notRunning
  | .openFile p o => if s.CanCall p then s.procFsOpen p o else .error .notRunning
  | .closeFile p desc => if s.CanCall p then s.procFsClose p desc else .error .notRunning

def procStep (s : ProcState) (a : ProcAct) : Option ProcState :=
  (procCall s a).toOption.map Prod.fst

theorem procStep_eq_some {s s' : ProcState} {a : ProcAct} :
    procStep s a = some s' ↔ ∃ r, procCall s a = .ok (s', r) := by
  rw [procStep]
  cases procCall s a with
  | error e => simp [Except.toOption]
  | ok sr =>
    obtain ⟨s₁, r⟩ := sr
    simp [Except.toOption]

/-- After `init_multitasking`, with the one CPU that `sched_init` is given: the
idle process, and the first task, its child. -/
def initMultitasking : ProcState where
  kprocs := fun p =>
    if p = 1 then
      { blankProc with
        pid := 1
        runnable := true
        cwd := 1
        children := blankProc.children.set 0 2 }
    else if p = 2 then
      { blankProc with
        pid := 2
        parent := 1
        runnable := true
        cwd := 1 }
    else blankProc
  procs := [1, 2]
  nextPid := 3
  nextProc := 3
  creatTask := false
  handles := fun _ => none
  nextHand := 1

end LambdaOs
