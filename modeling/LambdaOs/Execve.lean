import LambdaOs.Elf
import LambdaOs.Tasks
import LambdaOs.LlistRefine

/-!
# `execve`

`proc/exec.c`. The structure of the process is cleared and filled again from a
copy of it, still linked in `procs`; the current thread is replaced by a new one
with its identifier, in the process and on the CPU, and destroyed.

A call that fails returns before any of this (`execve_keeps_process`).
-/

namespace LambdaOs

/-! ## The file -/

def elfIdent : Nat := 0x464C457F

/-- `*(uint32_t *)exec_data->file_data`. -/
def ExecHead.magic (head : ExecHead) : Nat :=
  head.ident.getD 0 0 + head.ident.getD 1 0 * 0x100 + head.ident.getD 2 0 * 0x10000 +
    head.ident.getD 3 0 * 0x1000000

/-- The arguments of `execve`, and what it gets from elsewhere: `execData`, which
is freed again or leaked, and `thread` are allocated, `file` is the file that was
read, `name` is `argv[0]`, and the rest is what loading the file makes. -/
structure Execve where
  execData : Nat
  file : Option ExecHead
  name : List UInt8
  mmuTable : Nat
  symbols : Nat
  mmapEntries : Nat
  elfData : Nat
  thread : Nat
deriving Repr, DecidableEq

/-- `exec_elf`. -/
def execElf (a : Execve) (head : ExecHead) : Option Int :=
  if elfCheckHeader head ≠ 0 then some (-ENOEXEC)
  else if a.elfData = 0 then none
  else if head.entry = 0 then some (-EUNSPEC)
  else some 0

/-- A `#!` is not supported yet. -/
def execLoad (a : Execve) (head : ExecHead) : Option Int :=
  if head.magic = elfIdent then execElf a head else some (-EUNSPEC)

/-! ## The process and its thread -/

/-- The process once it is filled again from the copy `tmp`. -/
def execProcess (a : Execve) (tmp : Process) : Process :=
  { zeroProcess with
    name := copyName a.name
    pid := tmp.pid
    uid := tmp.uid
    gid := tmp.gid
    type := tmp.type
    domain := tmp.domain
    parent := tmp.parent
    cwd := tmp.cwd
    mmuTable := a.mmuTable
    symbols := a.symbols
    mmap := a.mmapEntries
    elfData := a.elfData
    children := tmp.children
    openFiles := tmp.openFiles
    filePosition := tmp.filePosition }

/-- The new thread of `proc`. -/
def execThread (name : List UInt8) (proc entry : Nat) (old : Kthread) : Kthread :=
  { zeroThread with
    name := copyName name
    process := proc
    entrypoint := entry
    prio := old.prio
    tid := old.tid
    stackSize := old.stackSize }

/-- The flags `arch_setup_user_stack` and `_exec_replace_process_image` set. -/
def execFlags (k : Kthread) : Kthread :=
  { k with
    flags := clearFlag (k.flags ||| kthreadFlagStacksetup ||| kthreadFlagRunnable)
      kthreadFlagRanonce }

namespace Tasks

/-- `memset` clears the list item of the process, and the copy restores it. -/
def execReplaceProcess (s : Tasks) (a : Execve) (proc : Nat) : Tasks :=
  let s' := (s.clearProc proc).modProc proc fun _ => execProcess a (s.kprocs proc)
  { s' with
    procItems := Items.setData (Function.update s'.procItems proc (s.procItems proc)) proc proc }

def schedReplaceThread (s : Tasks) (new : Nat) : Option Tasks :=
  (s.sched.replaceThread new).map s.setSched

/-- `_exec_replace_process_image`, up to `run_sched`. -/
def execReplaceProcessImage (fuel : Nat) (s : Tasks) (a : Execve) (entry : Nat) : Option Tasks :=
  let old := s.currThread
  let proc := s.currProcess
  if proc = 0 ∨ a.thread = 0 then none
  else do
    let s ← (s.execReplaceProcess a proc).kmallocThread a.thread
    let s ← ((s.clearThread a.thread).modThread a.thread fun _ =>
      execThread (s.kprocs proc).name proc entry (s.kthreads old)).procAddThread proc a.thread
    let s ← (s.modThread a.thread execFlags).schedReplaceThread a.thread
    s.threadDestroy fuel old

/-- What `execve` does: it returns an error, or the process goes on with the
new image. -/
inductive ExecOutcome where
  | error (ret : Int)
  | replaced
deriving Repr, DecidableEq

def execve (fuel : Nat) (s : Tasks) (a : Execve) : Option (Tasks × ExecOutcome) :=
  if a.execData = 0 then some (s, .error (-ENOMEM))
  else
    match a.file with
    | none => some (s, .error (-ENOENT))
    | some head => do
        let ret ← execLoad a head
        if ret ≠ 0 then return (s, .error ret)
        else
          let s ← s.execReplaceProcessImage fuel a head.entry
          return (s, .replaced)

/-! ## The scheduler -/

section Scheduler

variable {sc sc' : Sched} {new old : Nat} {pre post : List Nat} {css rest : List (List Nat)}

theorem replaceThread_eq_some : sc.replaceThread new = some sc' ↔
    ∃ l, sc.cpuThreads[0]? = some l ∧
      ∃ r₁, llistRemove (sc.items.setData new new) l (sc.currThread.getD 0 0) = some r₁ ∧
        ∃ r₂, llistAppend r₁.1 r₁.2 new = some r₂ ∧
          { sc with
            items := r₂.1
            cpuThreads := sc.cpuThreads.set 0 r₂.2
            currThread := sc.currThread.set 0 new } = sc' := by
  simp only [Sched.replaceThread, Option.bind_eq_bind, Option.bind_eq_some_iff, Option.pure_def,
    Option.some.injEq]

/-- The threads of each CPU. -/
structure CpuRings (sc : Sched) (css : List (List Nat)) : Prop where
  rep : List.Forall₂ (LlistRep sc.items) sc.cpuThreads css
  nodup : css.flatten.Nodup

theorem forall₂_llistRep_frame {m m' : Items} {ls : List Llist}
    (h : List.Forall₂ (LlistRep m) ls css) (hm : ∀ q ∈ css.flatten, m' q = m q) :
    List.Forall₂ (LlistRep m') ls css := by
  induction h with
  | nil => exact List.Forall₂.nil
  | cons hrep _ ih =>
      refine List.Forall₂.cons (hrep.frame fun q hq => hm q ?_) (ih fun q hq => hm q ?_)
      · exact List.mem_append_left _ hq
      · exact List.mem_append_right _ hq

theorem CpuRings.replace (h : CpuRings sc ((pre ++ old :: post) :: rest)) (hpre : pre ≠ [])
    (hcurr : sc.currThread.getD 0 0 = old) (hnew : new ∉ ((pre ++ old :: post) :: rest).flatten)
    (hnew0 : new ≠ 0) (hcall : sc.replaceThread new = some sc') :
    CpuRings sc' ((pre ++ post ++ [new]) :: rest) ∧ (sc'.items new).data = new ∧
      sc'.currThread = sc.currThread.set 0 new := by
  obtain ⟨l, hl, r₁, h₁, r₂, h₂, rfl⟩ := replaceThread_eq_some.mp hcall
  rw [hcurr] at h₁
  cases hls : sc.cpuThreads with
  | nil => simp [hls] at hl
  | cons l₀ ls =>
      have hrep := h.rep
      rw [hls] at hrep hl
      obtain ⟨hhead, htail⟩ := List.forall₂_cons.mp hrep
      cases hl
      have hnd : ((pre ++ old :: post) ++ rest.flatten).Nodup := h.nodup
      obtain ⟨-, hrest, hdisj⟩ := List.nodup_append'.mp hnd
      rw [List.flatten_cons, List.mem_append, not_or] at hnew
      have hnew₁ : new ∉ pre ++ post := fun hin => hnew.1 (by grind)
      have hremove := llistRemove_step (hhead.setData new new) hpre h₁
      have happend := llistAppend_step hremove.rep hnew0 hnew₁ h₂
      have hout : ∀ q ∈ rest.flatten, q ∉ pre ++ old :: post := fun q hq hin => hdisj hin hq
      have hframe : ∀ q ∈ rest.flatten, r₂.1 q = sc.items.setData new new q := by
        intro q hq
        have hqn : q ≠ new := fun he => hnew.2 (he ▸ hq)
        have hq₁ : q ∉ pre ++ post := fun hin => hout q hq (by grind)
        rw [happend.frame q hq₁ (by grind), hremove.frame q (hout q hq) hq₁]
      refine ⟨⟨?_, ?_⟩, ?_, rfl⟩
      · simp only [List.set_cons_zero]
        refine List.Forall₂.cons happend.rep (forall₂_llistRep_frame ?_ hframe)
        exact htail.imp fun _ _ hr => hr.setData new new
      · grind
      · rw [happend.data, hremove.data]
        rw [Items.setData, Function.update_self]

/-- A thread that is on no CPU is not removed. -/
theorem removeLoop_absent {fuel t : Nat} (h : List.Forall₂ (LlistRep sc.items) sc.cpuThreads css)
    (hfuel : ∀ xs ∈ css, xs.length ≤ fuel) (ht : t ∉ css.flatten) {r : Sched × Int}
    (is : List Nat) (hcall : Sched.removeLoop fuel t is sc = some r) : r = (sc, -1) := by
  induction is with
  | nil =>
      cases hcall
      rfl
  | cons i is ih =>
      obtain ⟨l, hl, hcall⟩ := Option.bind_eq_some_iff.mp hcall
      obtain ⟨hi, rfl⟩ := List.getElem?_eq_some_iff.mp hl
      have hi' : i < css.length := h.length_eq ▸ hi
      have hrep : LlistRep sc.items sc.cpuThreads[i] css[i] := h.get hi hi'
      have hin : css[i] ∈ css := List.getElem_mem hi'
      split at hcall
      · cases hcall
      · rename_i hne
        have hne' : css[i] ≠ [] := fun h0 => hne (hrep.list_eq_zero_iff.mpr h0)
        have hpos := llistGetPosition_eq t hrep hne' (hfuel _ hin)
        have habsent : t ∉ css[i] := fun hx => ht (List.mem_flatten_of_mem hin hx)
        rw [seqPosition, if_neg habsent] at hpos
        simp only [hpos] at hcall
        exact ih hcall

end Scheduler

/-! ## A call that succeeds -/

section Image

variable {s s' : Tasks} {a : Execve} {entry fuel : Nat}

/-- The new image with its thread, which is not linked in yet. -/
def execCleared (s : Tasks) (a : Execve) (entry : Nat) : Tasks :=
  let s₁ := (s.execReplaceProcess a s.currProcess).allocThread a.thread
  (s₁.clearThread a.thread).modThread a.thread fun _ =>
    execThread (s₁.kprocs s.currProcess).name s.currProcess entry (s₁.kthreads s.currThread)

/-- The thread is the only one of the process, and has the old identifier. -/
def execMade (s : Tasks) (a : Execve) (entry : Nat) : Tasks :=
  let m := (s.execCleared a entry).threadItems.setData a.thread a.thread
  (s.execCleared a entry).linkThread s.currProcess a.thread (s.kthreads s.currThread).tid
    ((m.setNext a.thread a.thread).setPrev a.thread a.thread, ⟨a.thread, 0⟩)

theorem execCleared_process (s : Tasks) (a : Execve) (entry : Nat) :
    (s.execCleared a entry).kprocs s.currProcess = execProcess a (s.kprocs s.currProcess) :=
  Function.update_self ..

theorem execCleared_thread (s : Tasks) (a : Execve) (entry : Nat) :
    (s.execCleared a entry).kthreads a.thread =
      execThread (copyName a.name) s.currProcess entry (s.kthreads s.currThread) := by
  have hname : ((s.execReplaceProcess a s.currProcess).allocThread a.thread).kprocs s.currProcess =
      execProcess a (s.kprocs s.currProcess) := Function.update_self ..
  unfold execCleared
  dsimp only
  rw [modThread_self, hname]
  rfl

theorem execReplaceProcessImage_eq_some (htid : (s.kthreads s.currThread).tid ≠ 0) :
    s.execReplaceProcessImage fuel a entry = some s' ↔
      s.currProcess ≠ 0 ∧ a.thread ≠ 0 ∧ a.thread ∉ s.threadHeap ∧
        ∃ s₁, ((s.execMade a entry).modThread a.thread execFlags).schedReplaceThread a.thread =
          some s₁ ∧ s₁.threadDestroy fuel s.currThread = some s' := by
  unfold execReplaceProcessImage
  dsimp only
  split
  · rename_i h0
    refine iff_of_false nofun ?_
    rintro ⟨hp, ht, -⟩
    exact h0.elim hp ht
  · rename_i h0
    rw [not_or] at h0
    have hadd : (s.execCleared a entry).procAddThread s.currProcess a.thread =
        some (s.execMade a entry) := by
      refine procAddThread_eq_some.mpr ⟨(s.execCleared a entry, (s.kthreads s.currThread).tid),
        ?_, _, ?_, rfl⟩
      · rw [threadTid, execCleared_thread]
        exact if_pos htid
      · rw [execCleared_process]
        exact llistAppend_init _ h0.2
    simp only [ne_eq, h0, not_false_eq_true, true_and, Option.bind_eq_bind, Option.bind_eq_some_iff,
      kmallocThread_eq_some]
    constructor
    · rintro ⟨s₁, ⟨hfresh, rfl⟩, s₂, h₂, h₃⟩
      obtain rfl : s.execMade a entry = s₂ := Option.some.inj (hadd.symm.trans h₂)
      exact ⟨hfresh, h₃⟩
    · rintro ⟨hfresh, h₃⟩
      exact ⟨_, ⟨hfresh, rfl⟩, _, hadd, h₃⟩

theorem execMade_process (s : Tasks) (a : Execve) (entry : Nat) :
    (s.execMade a entry).kprocs s.currProcess =
      Process.withThreads ⟨a.thread, 0⟩ (execProcess a (s.kprocs s.currProcess)) := by
  rw [← execCleared_process s a entry]
  exact Function.update_self ..

theorem execMade_kprocs {q : Nat} (hq : q ≠ s.currProcess) :
    (s.execMade a entry).kprocs q = s.kprocs q :=
  (Function.update_of_ne hq ..).trans
    ((Function.update_of_ne hq ..).trans (Function.update_of_ne hq ..))

/-- The list item of the process is put back where it was. -/
theorem execMade_procItems (s : Tasks) (a : Execve) (entry : Nat) :
    (s.execMade a entry).procItems = s.procItems.setData s.currProcess s.currProcess := by
  have hback : Function.update (Function.update s.procItems s.currProcess zeroItem) s.currProcess
      (s.procItems s.currProcess) = s.procItems := by
    rw [Function.update_idem, Function.update_eq_self]
  exact congrArg (fun m => Items.setData m s.currProcess s.currProcess) hback

theorem execMade_thread (s : Tasks) (a : Execve) (entry : Nat) :
    (s.execMade a entry).kthreads a.thread =
      Kthread.joins s.currProcess (s.kthreads s.currThread).tid
        (execThread (copyName a.name) s.currProcess entry (s.kthreads s.currThread)) := by
  rw [← execCleared_thread s a entry]
  exact Function.update_self ..

theorem execMade_threads (ht : a.thread ≠ 0) :
    LlistRep (s.execMade a entry).threadItems ⟨a.thread, 0⟩ [a.thread] := by
  refine ⟨IsRing.singleton ?_ ?_, ?_, rfl⟩
  · simp [execMade, linkThread]
  · simp [execMade, linkThread]
  · simpa using Ne.symm ht

end Image

/-- The fields of a process that `execve` keeps. -/
structure SameProcess (k k' : Process) : Prop where
  pid : k'.pid = k.pid
  uid : k'.uid = k.uid
  gid : k'.gid = k.gid
  type : k'.type = k.type
  domain : k'.domain = k.domain
  parent : k'.parent = k.parent
  cwd : k'.cwd = k.cwd
  children : k'.children = k.children
  openFiles : k'.openFiles = k.openFiles
  filePosition : k'.filePosition = k.filePosition

/-- The thread `old` of the process `p` is current, and is in the ring of CPU 0
behind `pre`; the other CPUs have `rest`. -/
structure ExecCaller (s : Tasks) (p old : Nat) (pre post : List Nat) (rest : List (List Nat)) :
    Prop where
  process : s.currProcess = p
  thread : s.currThread = old
  tid : (s.kthreads old).tid ≠ 0
  rings : CpuRings s.sched ((pre ++ old :: post) :: rest)
  behind : pre ≠ []
  allocated : ∀ t ∈ ((pre ++ old :: post) :: rest).flatten, t ∈ s.threadHeap

/-- The process goes on with `new` in the place of its threads. -/
structure Replaced (s s' : Tasks) (p old new : Nat) (pre post : List Nat)
    (rest : List (List Nat)) : Prop where
  process : SameProcess (s.kprocs p) (s'.kprocs p)
  others : ∀ q, q ≠ p → s'.kprocs q = s.kprocs q
  procs : ∀ xs, LlistRep s.procItems s.procs xs → LlistRep s'.procItems s'.procs xs
  threads : LlistRep s'.threadItems (s'.kprocs p).threads [new]
  owner : (s'.kthreads new).process = p
  tid : (s'.kthreads new).tid = (s.kthreads old).tid
  prio : (s'.kthreads new).prio = (s.kthreads old).prio
  rings : CpuRings s'.sched ((pre ++ post ++ [new]) :: rest)
  data : (s'.sched.items new).data = new
  curr : s'.currThread = new

section Theorem

variable {s s' : Tasks} {a : Execve} {fuel p old : Nat} {pre post : List Nat}
  {rest : List (List Nat)}

theorem execReplaceProcessImage_replaced {entry : Nat} (h : ExecCaller s p old pre post rest)
    (hfuel : ∀ xs ∈ (pre ++ old :: post) :: rest, xs.length ≤ fuel)
    (hcall : s.execReplaceProcessImage fuel a entry = some s') :
    Replaced s s' p old a.thread pre post rest := by
  obtain rfl := h.process
  obtain rfl := h.thread
  obtain ⟨hp, ht, hfresh, s₁, h₁, h₂⟩ := (execReplaceProcessImage_eq_some h.tid).mp hcall
  obtain ⟨sched, hsched, rfl⟩ := Option.map_eq_some_iff.mp h₁
  obtain ⟨r, hr, rfl⟩ := Option.map_eq_some_iff.mp h₂
  have hnew : a.thread ∉ ((pre ++ s.currThread :: post) :: rest).flatten := fun hin =>
    hfresh (h.allocated _ hin)
  -- clearing the new thread clears its item, which is in no ring
  have hcleared : CpuRings (s.execMade a entry).sched
      ((pre ++ s.currThread :: post) :: rest) := by
    refine ⟨forall₂_llistRep_frame h.rings.rep ?_, h.rings.nodup⟩
    intro q hq
    have hq : q ≠ a.thread := fun he => hnew (he ▸ hq)
    exact Function.update_of_ne hq ..
  obtain ⟨hrings, hdata, hcurr⟩ := hcleared.replace h.behind rfl hnew ht hsched
  have hne : s.currThread ≠ a.thread := fun he => hnew (by simp [he])
  have hgone : s.currThread ∉ ((pre ++ post ++ [a.thread]) :: rest).flatten := by
    obtain ⟨hhead, -, hdisj⟩ := List.nodup_append'.mp h.rings.nodup
    have hmid := (List.nodup_cons.mp (List.nodup_middle.mp hhead)).1
    have hrest := hdisj (List.mem_append_right pre List.mem_cons_self)
    simp only [List.flatten_cons, List.mem_append, List.mem_singleton] at hmid ⊢
    tauto
  have hlength : ∀ xs ∈ (pre ++ post ++ [a.thread]) :: rest, xs.length ≤ fuel := by
    intro xs hxs
    rcases List.mem_cons.mp hxs with rfl | hxs
    · have hring := hfuel _ List.mem_cons_self
      simp only [List.length_append, List.length_cons, List.length_nil] at hring ⊢
      omega
    · exact hfuel xs (List.mem_cons_of_mem _ hxs)
  have habsent : r = (sched, -1) := removeLoop_absent hrings.rep hlength hgone _ hr
  subst habsent
  have hthread : ((s.execMade a entry).modThread a.thread execFlags).kthreads a.thread =
      execFlags (Kthread.joins s.currProcess (s.kthreads s.currThread).tid
        (execThread (copyName a.name) s.currProcess entry (s.kthreads s.currThread))) := by
    rw [modThread_self, execMade_thread]
  have hprocess := execMade_process s a entry
  refine ⟨?_, fun q hq => execMade_kprocs hq, ?_, ?_, ?_, ?_, ?_, hrings, hdata, ?_⟩
  · have hkept : SameProcess (s.kprocs s.currProcess)
        ((s.execMade a entry).kprocs s.currProcess) := by
      rw [hprocess]
      exact ⟨rfl, rfl, rfl, rfl, rfl, rfl, rfl, rfl, rfl, rfl⟩
    exact hkept
  · intro xs hxs
    have hkept : LlistRep (s.execMade a entry).procItems s.procs xs := by
      rw [execMade_procItems]
      exact hxs.setData s.currProcess s.currProcess
    exact hkept
  · have hlist : ((s.execMade a entry).kprocs s.currProcess).threads = ⟨a.thread, 0⟩ := by
      rw [hprocess]
      rfl
    exact hlist ▸ execMade_threads ht
  · exact (congrArg Kthread.process hthread :)
  · exact (congrArg Kthread.tid hthread :)
  · exact (congrArg Kthread.prio hthread :)
  · have hset : sched.currThread.getD 0 0 = a.thread := by
      have hcurr0 : s.sched.currThread.getD 0 0 ≠ 0 := fun h0 => hp (if_pos h0)
      rw [hcurr]
      change (s.sched.currThread.set 0 a.thread).getD 0 0 = a.thread
      cases hlist : s.sched.currThread with
      | nil => simp [hlist] at hcurr0
      | cons c cs => rfl
    exact hset

/-- `execve` replaces the threads of the process and keeps the rest, or fails
and changes nothing. -/
theorem execve_keeps_process (h : ExecCaller s p old pre post rest)
    (hfuel : ∀ xs ∈ (pre ++ old :: post) :: rest, xs.length ≤ fuel) {o : ExecOutcome}
    (hcall : s.execve fuel a = some (s', o)) :
    match o with
    | .replaced => Replaced s s' p old a.thread pre post rest
    | .error _ => s' = s := by
  unfold execve at hcall
  split at hcall
  · cases hcall
    rfl
  split at hcall
  · cases hcall
    rfl
  obtain ⟨ret, -, hcall⟩ := Option.bind_eq_some_iff.mp hcall
  split at hcall
  · cases hcall
    rfl
  obtain ⟨s₁, h₁, hcall⟩ := Option.bind_eq_some_iff.mp hcall
  cases hcall
  exact execReplaceProcessImage_replaced h hfuel h₁

/-- The process at `1` with the thread at `2`, which is current; the idle thread
is at `5`, the head of the ring. -/
def shellTask : Tasks where
  kprocs := Function.update (fun _ => zeroProcess) 1
    { zeroProcess with pid := 2, type := typeRunnable, threads := ⟨2, 0⟩ }
  kthreads := Function.update (fun _ => zeroThread) 2
    { zeroThread with tid := 2, flags := kthreadFlagRunnable, prio := 1, process := 1 }
  procItems := Function.update (fun _ => zeroItem) 1 ⟨1, 1, 1⟩
  threadItems := Function.update (fun _ => zeroItem) 2 ⟨2, 2, 2⟩
  procs := ⟨1, 0⟩
  sched :=
    { items := Function.update (Function.update (fun _ => zeroItem) 2 ⟨2, 5, 5⟩) 5 ⟨5, 2, 2⟩
      threadQueue := ⟨0, 0⟩
      cpuThreads := [⟨5, 0⟩]
      currThread := [2]
      kerneltime := 0
      calls := fun _ => .idle
      holder := none
      threads := [2, 5] }
  condThreads := fun _ => []
  creatTask := 0
  nextPid := 3
  root := 0
  procHeap := [1]
  threadHeap := [2, 5]
  freed := []
  overRelease := false

theorem shellTask_caller : ExecCaller shellTask 1 2 [5] [] [] := by
  have hring : IsRing (fun p => (shellTask.sched.items p).next)
      (fun p => (shellTask.sched.items p).prev) [5, 2] :=
    ⟨by decide, by simp [Linked, shellTask], by simp [Linked, shellTask]⟩
  exact ⟨rfl, rfl, by decide, ⟨List.Forall₂.cons ⟨hring, by decide, rfl⟩ List.Forall₂.nil,
    by decide⟩, by decide, by decide⟩

def shellExec : Execve where
  execData := 7
  file := some ⟨[0x7F, 0x45, 0x4C, 0x46, 1], 3, 0x1000⟩
  name := [0x73, 0x68]
  mmuTable := 8
  symbols := 0
  mmapEntries := 9
  elfData := 10
  thread := 11

theorem execve_keeps_process_shell : ∃ s', shellTask.execve 2 shellExec = some (s', .replaced) ∧
    Replaced shellTask s' 1 2 11 [5] [] [] := by
  have hcall : (shellTask.execve 2 shellExec).map (·.2) = some .replaced := by decide
  obtain ⟨⟨s', o⟩, hr, rfl⟩ := Option.map_eq_some_iff.mp hcall
  exact ⟨s', hr, execve_keeps_process shellTask_caller (by decide) hr⟩

end Theorem

end Tasks
end LambdaOs
