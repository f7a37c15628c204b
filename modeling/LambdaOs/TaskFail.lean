import LambdaOs.Tasks
import LambdaOs.LlistRefine

/-!
# Task creation that fails

`add_task` and `fork` take `creat_task` and link the new process into a slot of
the caller before they are through. Where no slot is free both release the
lock, and nothing is left. The other exits forget it: `add_task` without memory
for the process returns with the lock held, and so does `fork` when a stack
could not be made or a copy failed, with the child in its slot besides
(`failed_task_undone_iff`).
-/

namespace LambdaOs.Tasks

/-! ## What should be left of a failed call -/

/-- The processes of `procs` are allocated, and so is the caller. -/
structure Live (xs : List Nat) (s : Tasks) : Prop where
  list : LlistRep s.procItems s.procs xs
  heap : ∀ p ∈ xs, p ∈ s.procHeap
  caller : s.currProcess ≠ 0 → s.currProcess ∈ s.procHeap
  pid : 0 < s.nextPid

/-- Every child slot of a process is empty or refers to a process. -/
def SlotsIn (xs : List Nat) (s : Tasks) : Prop :=
  ∀ p ∈ xs, ∀ c ∈ (s.kprocs p).children, c = 0 ∨ c ∈ xs

/-- What a call that has failed should leave; `xs` are the processes. -/
structure Undone (xs : List Nat) (s s' : Tasks) : Prop where
  unlocked : s'.creatTask = 0
  children : (s'.kprocs s.currProcess).children = (s.kprocs s.currProcess).children
  procs : LlistRep s'.procItems s'.procs xs
  slots : SlotsIn xs s → SlotsIn xs s'
  held : s'.overRelease = s.overRelease

variable {s s' : Tasks} {xs : List Nat}

/-! ## No free slot -/

theorem procAddChild_full {p c : Nat} (h : 0 ∉ (s.kprocs p).children) (hne : p ≠ c) :
    s.procAddChild p c = (s.modProc c (Process.withParent (s.kprocs p).pid), -EUNSPEC) := by
  have hnone : (s.kprocs p).children.findIdx? (· = 0) = none := by
    rw [List.findIdx?_eq_none_iff]
    intro x hx
    exact decide_eq_false fun h0 => h (h0 ▸ hx)
  simp only [procAddChild, modProc, Function.update_of_ne hne, hnone]

theorem procAddChild_room {p c : Nat} (h : 0 ∈ (s.kprocs p).children) (hne : p ≠ c) :
    (s.procAddChild p c).2 = 0 := by
  have hsome : ((s.kprocs p).children.findIdx? (· = 0)).isSome := by
    rw [List.findIdx?_isSome]
    exact List.any_eq_true.mpr ⟨0, h, by simp⟩
  obtain ⟨i, hi⟩ := Option.isSome_iff_exists.mp hsome
  simp only [procAddChild, modProc, Function.update_of_ne hne, hi]

/-- A structure at an address that was not in use is all that has changed. -/
theorem Live.undone {c : Nat} (h : Live xs s) (hc : c ∉ s.procHeap) (hc0 : c ≠ 0)
    (hkprocs : ∀ p, p ≠ c → s'.kprocs p = s.kprocs p)
    (hitems : ∀ p, p ≠ c → s'.procItems p = s.procItems p) (hprocs : s'.procs = s.procs)
    (hlock : s'.creatTask = 0) (hheld : s'.overRelease = s.overRelease) : Undone xs s s' := by
  have hne : ∀ p ∈ xs, p ≠ c := fun p hp he => hc (he ▸ h.heap p hp)
  refine ⟨hlock, ?_, ?_, ?_, hheld⟩
  · rw [hkprocs]
    intro he
    exact hc (he ▸ h.caller (he ▸ hc0))
  · rw [hprocs]
    exact h.list.frame fun p hp => hitems p (hne p hp)
  · intro hslots p hp x hx
    rw [hkprocs p (hne p hp)] at hx
    exact hslots p hp x hx

/-! ## What a call that is through returns -/

theorem procAddThread_pid {p t : Nat} (h : s.procAddThread p t = some s') (q : Nat) :
    (s'.kprocs q).pid = (s.kprocs q).pid := by
  obtain ⟨r₁, h₁, r, -, rfl⟩ := procAddThread_eq_some.mp h
  have hsame : r₁.1.kprocs = s.kprocs := by
    unfold threadTid at h₁
    split at h₁
    · cases h₁
      rfl
    · split at h₁
      · obtain ⟨-, rfl⟩ := getNextPid_eq_some.mp h₁
        rfl
      · cases h₁
        rfl
  rw [← hsame]
  refine update_pid ?_ q
  rfl

theorem mtaskInsertProc_kprocs {p : Nat} (h : s.mtaskInsertProc p = some s') :
    s'.kprocs = s.kprocs := by
  obtain ⟨r, -, rfl⟩ := mtaskInsertProc_eq_some.mp h
  rfl

theorem schedEnqueueThread_kprocs {t : Nat} {r : Tasks × Int}
    (h : s.schedEnqueueThread t = some r) : r.1.kprocs = s.kprocs := by
  obtain ⟨r₁, -, rfl⟩ := schedEnqueueThread_eq_some.mp h
  rfl

theorem addTaskThread_ret {a : AddTask} {r : Tasks × Int} (h : s.addTaskThread a = some r) :
    r.2 = ((s.kprocs a.proc).pid : Int) := by
  obtain ⟨ht, r₁, h₁, s₂, h₂, s₃, h₃, r₄, h₄, rfl⟩ := addTaskThread_eq_some.mp h
  obtain ⟨-, s₅, h₅, rfl⟩ := (threadCreate_eq_some ht).mp h₁
  obtain ⟨-, rfl⟩ := kmallocThread_eq_some.mp h₅
  have hpid : (r₄.1.kprocs a.proc).pid = (s.kprocs a.proc).pid := by
    rw [schedEnqueueThread_kprocs h₄, mtaskInsertProc_kprocs h₃]
    refine (procAddThread_pid h₂ a.proc).trans (update_pid ?_ a.proc)
    rfl
  simp only [hpid]

theorem forkStart_ret {a : Fork} {r : Tasks × Int} (h : s.forkStart a = some r) :
    r.2 = ((s.kprocs a.child).pid : Int) := by
  obtain ⟨s₁, h₁, r₂, h₂, rfl⟩ := forkStart_eq_some.mp h
  have hpid : (r₂.1.kprocs a.child).pid = (s.kprocs a.child).pid := by
    rw [schedEnqueueThread_kprocs h₂, mtaskInsertProc_kprocs h₁]
    refine update_pid ?_ a.child
    rfl
  simp only [hpid]

/-! ## `add_task` -/

theorem addTaskChild_pid (s : Tasks) (p c q : Nat) :
    ((s.addTaskChild p c).1.kprocs q).pid = (s.kprocs q).pid := by
  unfold addTaskChild
  split
  · exact procAddChild_pid s p c q
  · rfl

theorem addTask_undone_iff (h : Live xs s) {a : AddTask} {r : Int}
    (hcall : s.addTask a = some (s', r)) : (r ≤ 0 → Undone xs s s') ↔ a.proc ≠ 0 := by
  obtain ⟨s₁, h₁, r₂, h₂, h₃⟩ := addTask_eq_some.mp hcall
  obtain ⟨-, rfl⟩ := lockTask_eq_some.mp h₁
  by_cases hp : a.proc = 0
  · -- no memory for the process: the lock is kept
    simp only [procCreate, hp, if_true, Option.some.injEq] at h₂
    subst h₂
    simp only [if_true, Option.some.injEq, Prod.mk.injEq] at h₃
    obtain ⟨rfl, rfl⟩ := h₃
    refine iff_of_false ?_ (fun hne => hne hp)
    intro hall
    have hfree := (hall (by decide)).unlocked
    cases hfree
  · refine iff_of_true ?_ hp
    intro hr
    obtain ⟨s₃, hm, r₄, hn, rfl⟩ := (procCreate_eq_some hp).mp h₂
    obtain ⟨hfresh, rfl⟩ := kmallocProc_eq_some.mp hm
    obtain ⟨-, rfl⟩ := getNextPid_eq_some.mp hn
    simp only [hp, if_false] at h₃
    split at h₃
    · -- no slot
      rename_i hslot
      cases h₃
      unfold addTaskChild at hslot ⊢
      split at hslot
      · rename_i hcurr
        rw [if_pos hcurr, procAddChild_failed hslot]
        refine h.undone hfresh hp ?_ ?_ rfl rfl ?_
        · intro p hpp
          exact (Function.update_of_ne hpp ..).trans
            ((Function.update_of_ne hpp ..).trans (Function.update_of_ne hpp ..))
        · intro p hpp
          exact Function.update_of_ne hpp ..
        · exact Bool.or_false _
      · exact absurd rfl hslot
    · -- the process is made, and its identifier returned
      exfalso
      have hret : r = _ := addTaskThread_ret h₃
      rw [addTaskChild_pid] at hret
      have hpid : r = (s.nextPid : Int) := by
        rw [hret, modProc_self]
        rfl
      have hpos := h.pid
      omega

/-! ## `fork` -/

/-- Behind `proc_add_child` the copies decide: the lock is kept if one fails. -/
theorem forkCopied {a : Fork} {p : Nat} {r₂ : Tasks × Int} {r : Int} (hpid : 0 < s.nextPid)
    (hlock : s.creatTask = 1) (hcopy : s.forkCopy a a.child p = some r₂)
    (hend : (if r₂.2 ≠ 0 then some (r₂.1, -EUNSPEC) else r₂.1.forkStart a) = some (s', r)) :
    if (a.reachesData && a.dataCopied) = true then 0 < r else r ≤ 0 ∧ s'.creatTask = 1 := by
  obtain ⟨r₃, h₃, h₄⟩ := forkCopy_eq_some.mp hcopy
  obtain ⟨-, rfl⟩ := getNextPid_eq_some.mp h₃
  dsimp only at h₄
  split at h₄
  · rename_i hcopied
    subst h₄
    rw [if_pos hcopied]
    have hret : r = _ := forkStart_ret hend
    have hchild : r = (s.nextPid : Int) := by
      rw [hret]
      simp only [modThread_kprocs, modProc_self]
      rfl
    omega
  · rename_i hcopied
    subst h₄
    cases hend
    rw [if_neg hcopied]
    exact ⟨by decide, hlock⟩

theorem fork_undone_iff (h : Live xs s) {a : Fork} {r : Int} (hcall : s.fork a = some (s', r)) :
    (r ≤ 0 → Undone xs s s') ↔
      0 ∉ (s.kprocs s.currProcess).children ∨ (a.reachesData && a.dataCopied) = true := by
  obtain ⟨hcurr, s₁, h₁, r₂, h₂, h₃⟩ := fork_eq_some.mp hcall
  obtain ⟨hc0, -, -, hfresh, -, rfl⟩ := forkMake_eq_some.mp h₁
  have hne : s.currProcess ≠ a.child := fun he => hfresh (he ▸ h.caller hcurr)
  have hparent := forkMade_kprocs (s := s) hne
  unfold forkCloneProcess at h₂
  split at h₂
  · -- no slot
    rename_i hslot
    have hfull : 0 ∉ (s.kprocs s.currProcess).children := fun h0 =>
      hslot (procAddChild_room (by rwa [hparent]) hne)
    rw [procAddChild_failed hslot] at h₂
    cases h₂
    cases h₃
    refine iff_of_true (fun _ => ?_) (.inl hfull)
    refine h.undone hfresh hc0 ?_ (fun p hp => Function.update_of_ne hp ..) rfl rfl
      (Bool.or_false _)
    intro p hp
    exact (Function.update_of_ne hp ..).trans (forkMade_kprocs hp)
  · rename_i hslot
    have hroom : 0 ∈ (s.kprocs s.currProcess).children := by
      by_contra hfull
      refine hslot ?_
      rw [procAddChild_full (by rwa [hparent]) hne]
      exact (by decide : (-EUNSPEC : Int) ≠ 0)
    obtain ⟨m, hm⟩ := procAddChild_frame (s.forkMade a) s.currProcess a.child
    have hcopied := forkCopied (by rw [hm]; exact h.pid) (by rw [hm]; rfl) h₂ h₃
    split at hcopied
    · rename_i hdone
      exact iff_of_true (fun hr => absurd hr (Int.not_le.mpr hcopied)) (.inr hdone)
    · rename_i hdone
      refine iff_of_false ?_ (fun hor => hor.elim (fun hfull => hfull hroom) hdone)
      intro hall
      have hfree := (hall hcopied.1).unlocked
      rw [hcopied.2] at hfree
      cases hfree

/-- A call that fails is undone in full exactly if memory for the process was
found (`add_task`), and if the caller has no free slot or neither the stacks
nor the copies fail (`fork`), when the call does not fail. -/
theorem failed_task_undone_iff (h : Live xs s) :
    (∀ (a : AddTask) (s' : Tasks) (r : Int), s.addTask a = some (s', r) →
      ((r ≤ 0 → Undone xs s s') ↔ a.proc ≠ 0)) ∧
    (∀ (a : Fork) (s' : Tasks) (r : Int), s.fork a = some (s', r) →
      ((r ≤ 0 → Undone xs s s') ↔
        0 ∉ (s.kprocs s.currProcess).children ∨ (a.reachesData && a.dataCopied) = true)) :=
  ⟨fun _ _ _ hcall => addTask_undone_iff h hcall, fun _ _ _ hcall => fork_undone_iff h hcall⟩

/-- One process, at `1`, with the thread at `2`, which is current. -/
def oneTask (children : List Nat) : Tasks where
  kprocs := Function.update (fun _ => zeroProcess) 1
    { zeroProcess with pid := 1, type := typeRunnable, children := children, threads := ⟨2, 0⟩ }
  kthreads := Function.update (fun _ => zeroThread) 2
    { zeroThread with tid := 1, flags := kthreadFlagRunnable, process := 1 }
  procItems := Function.update (fun _ => zeroItem) 1 ⟨1, 1, 1⟩
  threadItems := Function.update (fun _ => zeroItem) 2 ⟨2, 2, 2⟩
  procs := ⟨1, 0⟩
  sched :=
    { items := Function.update (fun _ => zeroItem) 2 ⟨2, 2, 2⟩
      threadQueue := ⟨0, 0⟩
      cpuThreads := [⟨2, 0⟩]
      currThread := [2]
      kerneltime := 0
      calls := fun _ => .idle
      holder := none
      threads := [2] }
  condThreads := fun _ => []
  creatTask := 0
  nextPid := 2
  root := 0
  procHeap := [1]
  threadHeap := [2]
  freed := []
  overRelease := false

theorem oneTask_live (children : List Nat) : Live [1] (oneTask children) := by
  refine ⟨⟨IsRing.singleton ?_ ?_, by decide, ?_⟩, ?_, fun _ => ?_, ?_⟩
  · rfl
  · rfl
  · rfl
  · intro p hp
    rw [List.mem_singleton.mp hp]
    exact List.mem_cons_self
  · exact List.mem_cons_self
  · exact Nat.zero_lt_two

/-- A `fork` whose stack cannot be made. -/
def stackless : Fork where
  child := 3
  cthread := 4
  mmuTable := 5
  stackMade := false
  kernelStackMade := false
  stackCopied := false
  dataCopied := false
  mmap := 0

theorem failed_task_undone_full : ∃ s',
    (oneTask (List.replicate maxChildren 1)).fork stackless = some (s', -EUNSPEC) ∧
      Undone [1] (oneTask (List.replicate maxChildren 1)) s' := by
  have hcall : ((oneTask (List.replicate maxChildren 1)).fork stackless).map (·.2) =
      some (-EUNSPEC) := by decide
  obtain ⟨⟨s', ret⟩, hr, rfl⟩ := Option.map_eq_some_iff.mp hcall
  refine ⟨s', hr, ?_⟩
  exact ((failed_task_undone_iff (oneTask_live _)).2 stackless s' (-EUNSPEC) hr).mpr
    (.inl (by decide)) (by decide)

/-- An `add_task` without memory for the process. -/
def homeless : AddTask where
  process := 0
  name := []
  stackSize := 0
  pri := 0
  domain := 0
  mmuTable := 0
  proc := 0
  cloned := 0
  thread := 0

/-- Neither call undoes all that it has done: both keep the lock, and `fork`
leaves the child, which is not in `procs`, in its slot. -/
theorem failed_task_not_undone :
    (∃ s', (oneTask (List.replicate maxChildren 0)).addTask homeless = some (s', -EUNSPEC) ∧
      s'.creatTask = 1 ∧ ¬ Undone [1] (oneTask (List.replicate maxChildren 0)) s') ∧
    (∃ s', (oneTask (List.replicate maxChildren 0)).fork stackless = some (s', -EUNSPEC) ∧
      s'.creatTask = 1 ∧ 3 ∈ (s'.kprocs 1).children ∧ s'.procs.list = 1 ∧
      (s'.procItems 1).next = 1 ∧ ¬ Undone [1] (oneTask (List.replicate maxChildren 0)) s') := by
  have hadd : ((oneTask (List.replicate maxChildren 0)).addTask homeless).map
      (fun r => (r.1.creatTask, r.2)) = some (1, -EUNSPEC) := by decide
  have hfork : ((oneTask (List.replicate maxChildren 0)).fork stackless).map
      (fun r => (r.1.creatTask, (r.1.kprocs 1).children, r.1.procs.list, (r.1.procItems 1).next,
        r.2)) = some (1, [3, 0, 0, 0, 0, 0, 0, 0], 1, 1, -EUNSPEC) := by decide
  have hkept : ∀ {s s' : Tasks}, s'.creatTask = 1 → ¬ Undone [1] s s' := by
    intro s s' hlock hundone
    rw [hundone.unlocked] at hlock
    cases hlock
  constructor
  · obtain ⟨⟨s', ret⟩, hr, heq⟩ := Option.map_eq_some_iff.mp hadd
    obtain ⟨hlock, rfl⟩ := Prod.mk.inj heq
    exact ⟨s', hr, hlock, hkept hlock⟩
  · obtain ⟨⟨s', ret⟩, hr, heq⟩ := Option.map_eq_some_iff.mp hfork
    simp only [Prod.mk.injEq] at heq
    obtain ⟨hlock, hslot, hprocs, hnext, rfl⟩ := heq
    refine ⟨s', hr, hlock, ?_, hprocs, hnext, hkept hlock⟩
    rw [hslot]
    exact List.mem_cons_self

end LambdaOs.Tasks
