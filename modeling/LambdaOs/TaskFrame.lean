import LambdaOs.TaskIds

/-!
# What a call leaves alone

A call of a process makes and destroys threads and processes. Of the thread
that makes it, it keeps the flags and the process, and of that process the
table (`Leaves`); it makes one thread at most, and what is destroyed stays so
until its memory is allocated again (`call_leaves`). `execve` is the exception,
when it replaces the image (`execve_replaces`).
-/

namespace LambdaOs.Tasks

variable {s s' s'' : Tasks} {t p : Nat}

/-- The thread `t` and the process `p` as far as a switch to them is concerned,
and who is current. -/
structure Leaves (t p : Nat) (s s' : Tasks) : Prop where
  curr : s'.sched.currThread = s.sched.currThread
  flags : (s'.kthreads t).flags = (s.kthreads t).flags
  process : (s'.kthreads t).process = (s.kthreads t).process
  table : (s'.kprocs p).mmuTable = (s.kprocs p).mmuTable

theorem Leaves.refl (t p : Nat) (s : Tasks) : Leaves t p s s := ⟨rfl, rfl, rfl, rfl⟩

theorem Leaves.trans (h : Leaves t p s s') (h' : Leaves t p s' s'') : Leaves t p s s'' :=
  ⟨h'.curr.trans h.curr, h'.flags.trans h.flags, h'.process.trans h.process,
    h'.table.trans h.table⟩

theorem Leaves.currThread (h : Leaves t p s s') : s'.currThread = s.currThread :=
  congrArg (fun c => List.getD c 0 0) h.curr

/-- Neither threads nor processes change. -/
theorem leaves_of_eq (hthreads : s'.kthreads = s.kthreads) (hprocs : s'.kprocs = s.kprocs)
    (hcurr : s'.sched.currThread = s.sched.currThread) : Leaves t p s s' :=
  ⟨hcurr, by rw [hthreads], by rw [hthreads], by rw [hprocs]⟩

theorem leaves_modProc {q : Nat} {f : Process → Process}
    (hf : q ≠ p ∨ ∀ k, (f k).mmuTable = k.mmuTable) : Leaves t p s (s.modProc q f) := by
  refine ⟨rfl, rfl, rfl, ?_⟩
  by_cases hq : p = q
  · subst hq
    rw [modProc_self]
    exact (hf.resolve_left fun hne => hne rfl) _
  · exact congrArg Process.mmuTable (Function.update_of_ne hq ..)

theorem leaves_modThread_of_ne {u : Nat} {f : Kthread → Kthread} (hu : u ≠ t) :
    Leaves t p s (s.modThread u f) :=
  ⟨rfl, congrArg Kthread.flags (Function.update_of_ne hu.symm ..),
    congrArg Kthread.process (Function.update_of_ne hu.symm ..), rfl⟩

theorem leaves_modThread {u : Nat} {f : Kthread → Kthread}
    (hf : ∀ k, (f k).flags = k.flags ∧ (f k).process = k.process) :
    Leaves t p s (s.modThread u f) := by
  by_cases hu : u = t
  · subst hu
    refine ⟨rfl, ?_, ?_, rfl⟩
    · rw [modThread_self]
      exact (hf _).1
    · rw [modThread_self]
      exact (hf _).2
  · exact leaves_modThread_of_ne hu

theorem clearProc_leaves {q : Nat} (hne : q ≠ p) : Leaves t p s (s.clearProc q) :=
  (leaves_modProc (f := fun _ => zeroProcess) (.inl hne)).trans (leaves_of_eq rfl rfl rfl)

theorem clearThread_leaves {u : Nat} (hne : u ≠ t) : Leaves t p s (s.clearThread u) :=
  (leaves_modThread_of_ne (f := fun _ => zeroThread) hne).trans (leaves_of_eq rfl rfl rfl)

theorem linkThread_leaves {q u tid : Nat} {r : Items × Llist} (hne : u ≠ t) :
    Leaves t p s (s.linkThread q u tid r) :=
  ((leaves_modThread_of_ne hne).trans (leaves_modProc (q := q) (f := Process.withThreads r.2)
    (.inr fun _ => rfl))).trans (leaves_of_eq rfl rfl rfl)

/-! ## What is allocated -/

/-- What the allocator knows of threads. -/
def SameHeap (s s' : Tasks) : Prop := s'.threadHeap = s.threadHeap ∧ s'.freed = s.freed

theorem SameHeap.trans (h : SameHeap s s') (h' : SameHeap s' s'') : SameHeap s s'' :=
  ⟨h'.1.trans h.1, h'.2.trans h.2⟩

/-- The thread `u` is allocated, which it was not. -/
structure Allocates (u : Nat) (s s' : Tasks) : Prop where
  fresh : u ∉ s.threadHeap
  heap : s'.threadHeap = u :: s.threadHeap
  freed : s'.freed = s.freed.filter (· ≠ u)

theorem Allocates.after {u : Nat} (h : Allocates u s s') (h' : SameHeap s' s'') :
    Allocates u s s'' := ⟨h.fresh, h'.1.trans h.heap, h'.2.trans h.freed⟩

theorem Allocates.before {u : Nat} (h : SameHeap s s') (h' : Allocates u s' s'') :
    Allocates u s s'' := ⟨h.1 ▸ h'.fresh, h.1 ▸ h'.heap, h.2 ▸ h'.freed⟩

/-! ## The parts of the calls -/

theorem threadCreate_leaves {u entry data size : Nat} {name : List UInt8} {prio : Int}
    {r : Tasks × Nat} (hu : u ≠ 0) (hne : u ≠ t)
    (hcall : s.threadCreate u entry data name size prio = some r) :
    Leaves t p s r.1 ∧ Allocates u s r.1 ∧ r.2 = u := by
  obtain ⟨-, s₁, h₁, rfl⟩ := (threadCreate_eq_some hu).mp hcall
  obtain ⟨hfresh, rfl⟩ := kmallocThread_eq_some.mp h₁
  have halloc : Leaves t p s (s.allocThread u) := leaves_of_eq rfl rfl rfl
  have hclear : Leaves t p (s.allocThread u) ((s.allocThread u).clearThread u) :=
    clearThread_leaves hne
  have hset : Leaves t p ((s.allocThread u).clearThread u)
      (((s.allocThread u).clearThread u).modThread u
        fun _ => newThread entry data name size prio) :=
    leaves_modThread_of_ne hne
  exact ⟨(halloc.trans hclear).trans hset, ⟨hfresh, rfl, rfl⟩, rfl⟩

theorem procAddThread_leaves {q u : Nat} (hne : u ≠ t) (hcall : s.procAddThread q u = some s') :
    Leaves t p s s' ∧ SameHeap s s' := by
  obtain ⟨r₁, htid, r, -, rfl⟩ := procAddThread_eq_some.mp hcall
  obtain ⟨n, hn⟩ := threadTid_frame htid
  have hstart : Leaves t p s r₁.1 := by
    rw [hn]
    exact leaves_of_eq rfl rfl rfl
  refine ⟨hstart.trans (linkThread_leaves hne), ?_⟩
  rw [hn]
  exact ⟨rfl, rfl⟩

theorem mtaskInsertProc_leaves {q : Nat} (hcall : s.mtaskInsertProc q = some s') :
    Leaves t p s s' ∧ SameHeap s s' := by
  obtain ⟨r, -, rfl⟩ := mtaskInsertProc_eq_some.mp hcall
  exact ⟨leaves_of_eq rfl rfl rfl, rfl, rfl⟩

theorem enqueueThread_currThread {sc sc' : Sched} {u : Nat} {ret : Int}
    (hcall : sc.enqueueThread u = some (sc', ret)) : sc'.currThread = sc.currThread := by
  unfold Sched.enqueueThread at hcall
  split at hcall
  · cases hcall
  dsimp only at hcall
  split at hcall
  · cases hcall
    rfl
  · cases hcall
    rfl

theorem schedEnqueueThread_leaves {u : Nat} {r : Tasks × Int}
    (hcall : s.schedEnqueueThread u = some r) : Leaves t p s r.1 ∧ SameHeap s r.1 := by
  obtain ⟨⟨sc, ret⟩, h, rfl⟩ := schedEnqueueThread_eq_some.mp hcall
  exact ⟨leaves_of_eq rfl rfl (enqueueThread_currThread h), rfl, rfl⟩

theorem procCreate_leaves {q domain mmuTable cloned : Nat} {name : List UInt8} {r : Tasks × Nat}
    (hp : p ∈ s.procHeap) (hcall : s.procCreate q name domain mmuTable cloned = some r) :
    Leaves t p s r.1 ∧ SameHeap s r.1 ∧ (r.2 = 0 ∨ r.2 = q) := by
  by_cases hq : q = 0
  · rw [procCreate, if_pos hq] at hcall
    cases hcall
    exact ⟨Leaves.refl t p s, ⟨rfl, rfl⟩, .inl rfl⟩
  obtain ⟨s₁, h₁, r₂, h₂, rfl⟩ := (procCreate_eq_some hq).mp hcall
  obtain ⟨hfresh, rfl⟩ := kmallocProc_eq_some.mp h₁
  obtain ⟨-, rfl⟩ := getNextPid_eq_some.mp h₂
  have hne : q ≠ p := fun he => hfresh (he ▸ hp)
  have hclear : Leaves t p (s.allocProc q) ((s.allocProc q).clearProc q) := clearProc_leaves hne
  have hissue : Leaves t p ((s.allocProc q).clearProc q) ((s.allocProc q).clearProc q).issuePid :=
    leaves_of_eq rfl rfl rfl
  have hset : Leaves t p ((s.allocProc q).clearProc q).issuePid
      (((s.allocProc q).clearProc q).issuePid.modProc q fun _ =>
        newProcess s.root name s.nextPid domain mmuTable cloned) := leaves_modProc (.inl hne)
  have halloc : Leaves t p s (s.allocProc q) := leaves_of_eq rfl rfl rfl
  exact ⟨((halloc.trans hclear).trans hissue).trans hset, ⟨rfl, rfl⟩, .inr rfl⟩

theorem procAddChild_leaves (s : Tasks) (t p q c : Nat) :
    Leaves t p s (s.procAddChild q c).1 ∧ SameHeap s (s.procAddChild q c).1 := by
  have hparent : Leaves t p s (s.modProc c (Process.withParent (s.kprocs q).pid)) :=
    leaves_modProc (.inr fun _ => rfl)
  unfold procAddChild
  dsimp only
  split
  · exact ⟨hparent.trans (leaves_modProc (.inr fun _ => rfl)), rfl, rfl⟩
  · exact ⟨hparent, rfl, rfl⟩

theorem addTaskChild_leaves (s : Tasks) (t p q c : Nat) :
    Leaves t p s (s.addTaskChild q c).1 ∧ SameHeap s (s.addTaskChild q c).1 := by
  unfold addTaskChild
  split
  · exact procAddChild_leaves s t p q c
  · exact ⟨Leaves.refl t p s, rfl, rfl⟩

/-! ## The calls -/

theorem addTask_leaves {a : AddTask} {r : Tasks × Int} (hp : p ∈ s.procHeap) (ht : t ∈ s.threadHeap)
    (hcall : s.addTask a = some r) :
    Leaves t p s r.1 ∧ (SameHeap s r.1 ∨ Allocates a.thread s r.1) := by
  obtain ⟨s₁, h₁, r₂, h₂, hcall⟩ := addTask_eq_some.mp hcall
  obtain ⟨-, rfl⟩ := lockTask_eq_some.mp h₁
  have hlock : Leaves t p s s.withLock := leaves_of_eq rfl rfl rfl
  obtain ⟨hmake, hheap, -⟩ := procCreate_leaves (t := t) (s := s.withLock) hp h₂
  have hmake := hlock.trans hmake
  split at hcall
  · cases hcall
    exact ⟨hmake, .inl hheap⟩
  obtain ⟨hchild, hheap'⟩ := addTaskChild_leaves r₂.1 t p s.withLock.currProcess r₂.2
  have hchild := hmake.trans hchild
  have hheap := hheap.trans hheap'
  split at hcall
  · cases hcall
    exact ⟨hchild.trans (leaves_of_eq rfl rfl rfl), .inl hheap⟩
  obtain ⟨ht0, r₃, h₃, s₄, h₄, s₅, h₅, r₆, h₆, rfl⟩ := addTaskThread_eq_some.mp hcall
  generalize r₂.1.addTaskChild s.withLock.currProcess r₂.2 = r at hchild hheap h₃
  have hne : a.thread ≠ t := by
    rintro rfl
    obtain ⟨-, s', hs', -⟩ := (threadCreate_eq_some ht0).mp h₃
    exact (kmallocThread_eq_some.mp hs').1 (hheap.1 ▸ ht)
  have hstart : Leaves t p r.1 (r.1.modProc a.proc startedProcess) :=
    leaves_modProc (.inr fun _ => rfl)
  obtain ⟨hthread, halloc, hr₃⟩ := threadCreate_leaves (p := p) ht0 hne h₃
  obtain ⟨hadd, haddheap⟩ := procAddThread_leaves (p := p) (hr₃ ▸ hne) h₄
  let started := s₄.modThread r₃.2 (Kthread.addFlags (kthreadFlagRunnable ||| kthreadFlagRanonce))
  have hflags : Leaves t p s₄ started := leaves_modThread_of_ne (hr₃ ▸ hne)
  have hflagsheap : SameHeap s₄ started := ⟨rfl, rfl⟩
  obtain ⟨hinsert, hinsertheap⟩ := mtaskInsertProc_leaves (t := t) (p := p) h₅
  obtain ⟨henq, henqheap⟩ := schedEnqueueThread_leaves (t := t) (p := p) h₆
  have hunlock : Leaves t p r₆.1 r₆.1.unlockTask := leaves_of_eq rfl rfl rfl
  refine ⟨((((((hchild.trans hstart).trans hthread).trans hadd).trans hflags).trans hinsert).trans
    henq).trans hunlock, .inr ?_⟩
  have hmade := (((halloc.after haddheap).after hflagsheap).after hinsertheap).after henqheap
  have hstartheap : SameHeap r.1 (r.1.modProc a.proc startedProcess) := ⟨rfl, rfl⟩
  have hunlockheap : SameHeap r₆.1 r₆.1.unlockTask := ⟨rfl, rfl⟩
  exact Allocates.before hheap ((Allocates.before hstartheap hmade).after hunlockheap)

theorem threadSpawn_leaves {a : Spawn} {r : Tasks × Int} (ht : t ∈ s.threadHeap)
    (hcall : s.threadSpawn a = some r) :
    Leaves t p s r.1 ∧ (SameHeap s r.1 ∨ Allocates a.thread s r.1) := by
  unfold threadSpawn at hcall
  dsimp only at hcall
  split at hcall
  · cases hcall
    exact ⟨Leaves.refl t p s, .inl ⟨rfl, rfl⟩⟩
  obtain ⟨r₁, h₁, hcall⟩ := Option.bind_eq_some_iff.mp hcall
  by_cases ht0 : a.thread = 0
  · rw [ht0, threadCreate, if_pos rfl] at h₁
    cases h₁
    rw [if_pos rfl] at hcall
    cases hcall
    exact ⟨Leaves.refl t p s, .inl ⟨rfl, rfl⟩⟩
  have hne : a.thread ≠ t := by
    rintro rfl
    obtain ⟨-, s', hs', -⟩ := (threadCreate_eq_some ht0).mp h₁
    exact (kmallocThread_eq_some.mp hs').1 ht
  obtain ⟨hthread, halloc, hr₁⟩ := threadCreate_leaves (p := p) ht0 hne h₁
  rw [hr₁, if_neg ht0] at hcall
  obtain ⟨s₂, h₂, hcall⟩ := Option.bind_eq_some_iff.mp hcall
  obtain ⟨r₃, h₃, hcall⟩ := Option.bind_eq_some_iff.mp hcall
  cases hcall
  obtain ⟨hadd, haddheap⟩ := procAddThread_leaves (p := p) hne h₂
  let started := s₂.modThread a.thread
    (Kthread.withFlags (kthreadFlagRunnable ||| kthreadFlagRanonce))
  have hflags : Leaves t p s₂ started := leaves_modThread_of_ne hne
  have hflagsheap : SameHeap s₂ started := ⟨rfl, rfl⟩
  obtain ⟨henq, henqheap⟩ := schedEnqueueThread_leaves (t := t) (p := p) h₃
  refine ⟨((hthread.trans hadd).trans hflags).trans henq, .inr ?_⟩
  exact ((halloc.after haddheap).after hflagsheap).after henqheap

theorem condSignal_leaves (s : Tasks) (t p cond : Nat) :
    Leaves t p s (s.condSignal cond) ∧ SameHeap s (s.condSignal cond) := by
  have hloop : ∀ (threads : List Nat) (s : Tasks),
      let s' := threads.foldl (fun s t => s.modThread t (Kthread.withCond 0)) s
      Leaves t p s s' ∧ SameHeap s s' := by
    intro threads
    induction threads with
    | nil => exact fun s => ⟨Leaves.refl t p s, rfl, rfl⟩
    | cons u threads ih =>
        intro s
        obtain ⟨hrest, hheap⟩ := ih (s.modThread u (Kthread.withCond 0))
        have hfirst : Leaves t p s (s.modThread u (Kthread.withCond 0)) :=
          leaves_modThread fun _ => ⟨rfl, rfl⟩
        exact ⟨hfirst.trans hrest, hheap⟩
  obtain ⟨hrest, hheap⟩ := hloop (s.condThreads cond) s
  exact ⟨hrest.trans (leaves_of_eq rfl rfl rfl), hheap⟩

theorem exit_leaves {fuel : Nat} {code : Int} (hcall : s.exit fuel code = some s') :
    Leaves t p s s' ∧ SameHeap s s' := by
  unfold exit at hcall
  dsimp only at hcall
  split at hcall
  · cases hcall
  have hexit : Leaves t p s (s.modProc s.currProcess (Process.exits code)) :=
    leaves_modProc (.inr fun _ => rfl)
  split at hcall
  · cases hcall
    exact ⟨hexit, rfl, rfl⟩
  obtain ⟨parent, -, hcall⟩ := Option.bind_eq_some_iff.mp hcall
  split at hcall
  · cases hcall
  split at hcall
  · cases hcall
    exact ⟨hexit, rfl, rfl⟩
  · cases hcall
    obtain ⟨hsignal, hheap⟩ := condSignal_leaves (s.modProc s.currProcess (Process.exits code)) t p
      ((s.modProc s.currProcess (Process.exits code)).kprocs parent).waitCond
    exact ⟨(hexit.trans hsignal).trans (leaves_modProc (.inr fun _ => rfl)), hheap⟩

/-! ### `fork` -/

theorem forkMade_leaves {a : Fork} (hp : a.child ≠ p) (ht : a.cthread ≠ t) :
    Leaves t p s (s.forkMade a) := by
  have hlock : Leaves t p s (s.withLock.allocProc a.child) := leaves_of_eq rfl rfl rfl
  have hproc : Leaves t p (s.withLock.allocProc a.child)
      (((s.withLock.allocProc a.child).clearProc a.child).allocThread a.cthread) :=
    (clearProc_leaves hp).trans (leaves_of_eq rfl rfl rfl)
  exact ((hlock.trans hproc).trans (clearThread_leaves ht)).trans (linkThread_leaves ht)

/-- The child's only thread, once the child is in a slot of its parent. -/
theorem forkMade_firstThread {a : Fork} {q : Nat} (hq : a.child ≠ q) :
    ((s.forkMade a).procAddChild q a.child).1.firstThread a.child = a.cthread := by
  have hchild : (s.forkMade a).kprocs a.child =
      Process.withThreads ⟨a.cthread, 0⟩ zeroProcess := by
    rw [← forkCleared_process s a]
    exact Function.update_self ..
  obtain ⟨m, hm⟩ := procAddChild_frame (s.forkMade a) q a.child
  have hitems : ((s.forkMade a).procAddChild q a.child).1.threadItems =
      (s.forkMade a).threadItems := by rw [hm]
  rw [firstThread, procAddChild_child hq, hitems, hchild]
  change ((s.forkMade a).threadItems a.cthread).data = a.cthread
  simp [forkMade, linkThread, Items.setData]

theorem forkCopy_leaves {a : Fork} {c q : Nat} {r : Tasks × Int} (hc : c ≠ p)
    (hfirst : s.firstThread c ≠ t) (hcall : s.forkCopy a c q = some r) :
    Leaves t p s r.1 ∧ SameHeap s r.1 := by
  obtain ⟨r₁, h₁, h₂⟩ := forkCopy_eq_some.mp hcall
  obtain ⟨-, rfl⟩ := getNextPid_eq_some.mp h₁
  have hissue : Leaves t p s s.issuePid := leaves_of_eq rfl rfl rfl
  have hproc : Leaves t p s.issuePid (s.issuePid.modProc c
      (clonedProcess a (s.issuePid.kprocs q) s.nextPid)) := leaves_modProc (.inl hc)
  have hcopied := (hissue.trans hproc).trans (leaves_modThread_of_ne
    (f := clonedThread (s.issuePid.kthreads s.issuePid.currThread) s.nextPid) hfirst)
  dsimp only at h₂
  split at h₂
  · subst h₂
    exact ⟨hcopied.trans (leaves_modThread_of_ne hfirst), rfl, rfl⟩
  · subst h₂
    exact ⟨hcopied, rfl, rfl⟩

theorem forkStart_leaves {a : Fork} {r : Tasks × Int} (ht : a.cthread ≠ t)
    (hcall : s.forkStart a = some r) : Leaves t p s r.1 ∧ SameHeap s r.1 := by
  obtain ⟨s₁, h₁, r₂, h₂, rfl⟩ := forkStart_eq_some.mp hcall
  have hproc : Leaves t p s (s.modProc a.child (Process.addType typeRunnable)) :=
    leaves_modProc (.inr fun _ => rfl)
  have hflags := hproc.trans (leaves_modThread_of_ne
    (f := Kthread.addFlags kthreadFlagRunnable) ht)
  obtain ⟨hinsert, hinsertheap⟩ := mtaskInsertProc_leaves (t := t) (p := p) h₁
  obtain ⟨henq, henqheap⟩ := schedEnqueueThread_leaves (t := t) (p := p) h₂
  have hunlock : Leaves t p r₂.1 r₂.1.unlockTask := leaves_of_eq rfl rfl rfl
  have hheap := hinsertheap.trans henqheap
  exact ⟨((hflags.trans hinsert).trans henq).trans hunlock, hheap.1, hheap.2⟩

theorem fork_leaves {a : Fork} {r : Tasks × Int} (hp : s.currProcess ∈ s.procHeap)
    (ht : s.currThread ∈ s.threadHeap) (hcall : s.fork a = some r) :
    Leaves s.currThread s.currProcess s r.1 ∧ Allocates a.cthread s r.1 := by
  obtain ⟨-, s₁, h₁, r₂, h₂, h₃⟩ := fork_eq_some.mp hcall
  obtain ⟨-, -, -, hheap, hfresh, rfl⟩ := forkMake_eq_some.mp h₁
  have hc : a.child ≠ s.currProcess := fun he => hheap (he ▸ hp)
  have hct : a.cthread ≠ s.currThread := fun he => hfresh (he ▸ ht)
  have hmade : Leaves s.currThread s.currProcess s (s.forkMade a) := forkMade_leaves hc hct
  have halloc : Allocates a.cthread s (s.forkMade a) := ⟨hfresh, rfl, rfl⟩
  obtain ⟨hchild, hchildheap⟩ := procAddChild_leaves (s.forkMade a) s.currThread s.currProcess
    s.currProcess a.child
  unfold forkCloneProcess at h₂
  split at h₂
  · cases h₂
    cases h₃
    exact ⟨(hmade.trans hchild).trans (leaves_of_eq rfl rfl rfl),
      (halloc.after hchildheap).after ⟨rfl, rfl⟩⟩
  · obtain ⟨hcopy, hcopyheap⟩ := forkCopy_leaves (t := s.currThread) hc
      ((forkMade_firstThread hc).trans_ne hct) h₂
    have hcopied := (hmade.trans hchild).trans hcopy
    have hcopiedheap := (halloc.after hchildheap).after hcopyheap
    split at h₃
    · cases h₃
      exact ⟨hcopied, hcopiedheap⟩
    · obtain ⟨hstart, hstartheap⟩ := forkStart_leaves (p := s.currProcess) hct h₃
      exact ⟨hcopied.trans hstart, hcopiedheap.after hstartheap⟩

/-! ### `wait` -/

theorem removeLoop_currThread {fuel u : Nat} (is : List Nat) {sc sc' : Sched} {ret : Int}
    (hcall : Sched.removeLoop fuel u is sc = some (sc', ret)) : sc'.currThread = sc.currThread := by
  induction is generalizing sc with
  | nil =>
      cases hcall
      rfl
  | cons i is ih =>
      obtain ⟨list, -, hcall⟩ := Option.bind_eq_some_iff.mp hcall
      dsimp only at hcall
      split at hcall
      · cases hcall
      obtain ⟨pos, -, hcall⟩ := Option.bind_eq_some_iff.mp hcall
      split at hcall
      · split at hcall
        · cases hcall
          rfl
        · cases hcall
          rfl
      · exact ih hcall

theorem threadDestroy_leaves {fuel u : Nat} (hcall : s.threadDestroy fuel u = some s') :
    Leaves t p s s' ∧ s'.freed = u :: s.freed := by
  obtain ⟨⟨sc, ret⟩, h, rfl⟩ := Option.map_eq_some_iff.mp hcall
  exact ⟨leaves_of_eq rfl rfl (removeLoop_currThread _ h), rfl⟩

theorem destroyLoop_leaves {fuel q : Nat} (rounds : Nat)
    (hcall : destroyLoop fuel q rounds s = some s') :
    Leaves t p s s' ∧ ∀ u ∈ s.freed, u ∈ s'.freed := by
  induction rounds generalizing s with
  | zero => cases hcall
  | succ rounds ih =>
      unfold destroyLoop at hcall
      dsimp only at hcall
      split at hcall
      · cases hcall
        exact ⟨Leaves.refl t p _, fun _ hu => hu⟩
      obtain ⟨r, -, hcall⟩ := Option.bind_eq_some_iff.mp hcall
      obtain ⟨s₁, h₁, hcall⟩ := Option.bind_eq_some_iff.mp hcall
      obtain ⟨hrest, hfreed⟩ := ih hcall
      have hset : Leaves t p s (s.setThreads q r) :=
        (leaves_modProc (f := Process.withThreads r.2) (.inr fun _ => rfl)).trans
          (leaves_of_eq rfl rfl rfl)
      obtain ⟨hdestroy, hnoted⟩ := threadDestroy_leaves (t := t) (p := p) h₁
      refine ⟨(hset.trans hdestroy).trans hrest, fun u hu => hfreed u ?_⟩
      rw [hnoted]
      exact List.mem_cons_of_mem _ hu

theorem waitReap_leaves {fuel q idx : Nat} (hcall : s.waitReap fuel q idx = some s') :
    Leaves t p s s' ∧ ∀ u ∈ s.freed, u ∈ s'.freed := by
  have hslot : Leaves t p s (s.modProc q (Process.clearChild idx)) :=
    leaves_modProc (.inr fun _ => rfl)
  obtain ⟨s₁, h₁, hcall⟩ := Option.bind_eq_some_iff.mp hcall
  obtain ⟨s₂, h₂, hcall⟩ := Option.bind_eq_some_iff.mp hcall
  cases hcall
  obtain ⟨r, -, rfl⟩ := Option.map_eq_some_iff.mp h₁
  obtain ⟨hloop, hfreed⟩ := destroyLoop_leaves (t := t) (p := p) fuel h₂
  have hremove : Leaves t p (s.modProc q (Process.clearChild idx))
      ((s.modProc q (Process.clearChild idx)).setProcs r) := leaves_of_eq rfl rfl rfl
  exact ⟨((hslot.trans hremove).trans hloop).trans (leaves_of_eq rfl rfl rfl), hfreed⟩

theorem condWait_leaves (s : Tasks) (t p cond : Nat) : Leaves t p s (s.condWait cond) := by
  have hlist : Leaves t p s (s.setCondThreads cond (s.condThreads cond ++ [s.currThread])) :=
    leaves_of_eq rfl rfl rfl
  exact hlist.trans (leaves_modThread fun _ => ⟨rfl, rfl⟩)

theorem wait_leaves {fuel cond : Nat} {itemMade : Bool} {r : Tasks × WaitOutcome}
    (hcall : s.wait fuel cond itemMade = some r) :
    Leaves t p s r.1 ∧ ∀ u ∈ s.freed, u ∈ r.1.freed := by
  unfold wait at hcall
  dsimp only at hcall
  split at hcall
  · cases hcall
  split at hcall
  · cases hcall
    exact ⟨Leaves.refl t p s, fun _ hu => hu⟩
  split at hcall
  · obtain ⟨s₁, h₁, rfl⟩ := Option.map_eq_some_iff.mp hcall
    exact waitReap_leaves h₁
  split at hcall
  · split at hcall
    · cases hcall
      exact ⟨condWait_leaves s t p _, fun _ hu => hu⟩
    · cases hcall
  split at hcall
  · cases hcall
  · cases hcall
    have hset : Leaves t p s ((s.modProc s.currProcess (Process.withWaitCond cond)).setCondThreads
        cond []) :=
      (leaves_modProc (f := Process.withWaitCond cond) (.inr fun _ => rfl)).trans
        (leaves_of_eq rfl rfl rfl)
    exact ⟨hset.trans (condWait_leaves _ t p cond), fun _ hu => hu⟩

theorem waitResume_leaves {fuel : Nat} {r : Tasks × WaitOutcome}
    (hcall : s.waitResume fuel = some r) :
    Leaves t p s r.1 ∧ ∀ u ∈ s.freed, u ∈ r.1.freed := by
  unfold waitResume at hcall
  dsimp only at hcall
  split at hcall
  · cases hcall
  obtain ⟨idx, -, hcall⟩ := Option.bind_eq_some_iff.mp hcall
  obtain ⟨s₁, h₁, hcall⟩ := Option.bind_eq_some_iff.mp hcall
  cases hcall
  exact waitReap_leaves h₁

/-! ### `execve` -/

/-- The image of the current process is replaced: by a new thread, which has not
run, and a new table. The old thread is destroyed. -/
structure ReplacesImage (a : Execve) (s s' : Tasks) : Prop where
  curr : s'.sched.currThread = s.sched.currThread.set 0 a.thread
  caller : s.currProcess ≠ 0
  flags : (s'.kthreads a.thread).flags &&& kthreadFlagRanonce = 0
  process : (s'.kthreads a.thread).process = s.currProcess
  table : (s'.kprocs s.currProcess).mmuTable = a.mmuTable
  fresh : a.thread ∉ s.threadHeap
  alloc : a.thread ∈ s'.threadHeap
  old : s.currThread ∈ s'.freed
  freed : ∀ u ∈ s.freed, u ≠ a.thread → u ∈ s'.freed

theorem execFlags_not_ran (k : Kthread) : (execFlags k).flags &&& kthreadFlagRanonce = 0 := by
  have hmask : (0xFFFFFFFF ^^^ kthreadFlagRanonce) &&& kthreadFlagRanonce = 0 := by decide
  change (_ &&& (0xFFFFFFFF ^^^ kthreadFlagRanonce)) &&& kthreadFlagRanonce = 0
  rw [Nat.and_assoc, hmask, Nat.and_zero]

theorem execReplaceProcessImage_replaces {fuel entry : Nat} {a : Execve}
    (ht : s.currThread ∈ s.threadHeap)
    (hcall : s.execReplaceProcessImage fuel a entry = some s') : ReplacesImage a s s' := by
  unfold execReplaceProcessImage at hcall
  dsimp only at hcall
  split at hcall
  · cases hcall
  rename_i h0
  obtain ⟨s₁, h₁, hcall⟩ := Option.bind_eq_some_iff.mp hcall
  obtain ⟨hfresh, rfl⟩ := kmallocThread_eq_some.mp h₁
  obtain ⟨s₂, h₂, hcall⟩ := Option.bind_eq_some_iff.mp hcall
  obtain ⟨s₃, h₃, h₄⟩ := Option.bind_eq_some_iff.mp hcall
  have hne : a.thread ≠ s.currThread := fun he => hfresh (he ▸ ht)
  generalize hs₁ : (s.execReplaceProcess a s.currProcess).allocThread a.thread = s₁ at h₂
  have hcleared : Leaves s.currThread s.currProcess s₁ (((s₁.clearThread a.thread).modThread
      a.thread fun _ => execThread (s₁.kprocs s.currProcess).name s.currProcess entry
        (s₁.kthreads s.currThread))) :=
    (clearThread_leaves hne).trans (leaves_modThread_of_ne hne)
  obtain ⟨hadd, haddheap⟩ := procAddThread_leaves (p := s.currProcess) hne h₂
  obtain ⟨r₂, -, r, -, rfl⟩ := procAddThread_eq_some.mp h₂
  obtain ⟨sc, hsc, rfl⟩ := Option.map_eq_some_iff.mp h₃
  obtain ⟨l, -, r₃, -, r₄, -, rfl⟩ := replaceThread_eq_some.mp hsc
  obtain ⟨hdestroy, hfreed⟩ := threadDestroy_leaves (t := a.thread) (p := s.currProcess) h₄
  have hlinked := hcleared.trans hadd
  have hflags : Leaves s.currThread s.currProcess (r₂.1.linkThread s.currProcess a.thread r₂.2 r)
      ((r₂.1.linkThread s.currProcess a.thread r₂.2 r).modThread a.thread execFlags) :=
    leaves_modThread_of_ne hne
  have hnew : ((r₂.1.linkThread s.currProcess a.thread r₂.2 r).modThread a.thread
      execFlags).kthreads a.thread =
        execFlags (Kthread.joins s.currProcess r₂.2 (r₂.1.kthreads a.thread)) :=
    (modThread_self ..).trans (congrArg execFlags (Function.update_self ..))
  have hheap : s'.threadHeap = (a.thread :: s.threadHeap).erase s.currThread := by
    obtain ⟨r₅, -, rfl⟩ := Option.map_eq_some_iff.mp h₄
    exact congrArg (fun heap => List.erase heap s.currThread) (haddheap.1.trans (by subst hs₁; rfl))
  have hfreed' : s'.freed = s.currThread :: s.freed.filter (· ≠ a.thread) := by
    rw [hfreed]
    exact congrArg (s.currThread :: ·) (haddheap.2.trans (by subst hs₁; rfl))
  refine ⟨?_, fun hp0 => h0 (.inl hp0), ?_, ?_, ?_, hfresh, ?_, ?_, ?_⟩
  · rw [hdestroy.curr]
    change List.set _ 0 a.thread = _
    rw [(hlinked.trans hflags).curr, ← hs₁]
    rfl
  · rw [hdestroy.flags]
    change (((r₂.1.linkThread _ _ _ _).modThread _ _).kthreads a.thread).flags &&& _ = 0
    rw [hnew]
    exact execFlags_not_ran _
  · rw [hdestroy.process]
    change (((r₂.1.linkThread _ _ _ _).modThread _ _).kthreads a.thread).process = _
    rw [hnew]
    rfl
  · rw [hdestroy.table]
    refine (hlinked.trans hflags).table.trans ?_
    rw [← hs₁]
    exact congrArg Process.mmuTable (modProc_self (s.clearProc s.currProcess) s.currProcess fun _ =>
      execProcess a (s.kprocs s.currProcess))
  · rw [hheap]
    exact (List.mem_erase_of_ne hne).mpr List.mem_cons_self
  · rw [hfreed']
    exact List.mem_cons_self
  · intro u hu hua
    rw [hfreed']
    exact List.mem_cons_of_mem _ (List.mem_filter.mpr ⟨hu, by simpa using hua⟩)

theorem execve_cases {fuel : Nat} {a : Execve} {r : Tasks × ExecOutcome}
    (ht : s.currThread ∈ s.threadHeap) (hcall : s.execve fuel a = some r) :
    r.1 = s ∨ ReplacesImage a s r.1 := by
  unfold execve at hcall
  split at hcall
  · cases hcall
    exact .inl rfl
  split at hcall
  · cases hcall
    exact .inl rfl
  obtain ⟨ret, -, hcall⟩ := Option.bind_eq_some_iff.mp hcall
  split at hcall
  · cases hcall
    exact .inl rfl
  · obtain ⟨s₁, h₁, hcall⟩ := Option.bind_eq_some_iff.mp hcall
    cases hcall
    exact .inr (execReplaceProcessImage_replaces ht h₁)

/-! ### All calls -/

/-- The thread a call allocates, if it gets so far. -/
def TaskCall.thread : TaskCall → Option Nat
  | .addTask a => some a.thread
  | .fork a => some a.cthread
  | .threadSpawn a => some a.thread
  | .execve a => some a.thread
  | _ => none

/-- It did. -/
def NewlyAllocated (s s' : Tasks) (u : Nat) : Prop := u ∉ s.threadHeap ∧ u ∈ s'.threadHeap

instance (s s' : Tasks) (u : Nat) : Decidable (NewlyAllocated s s' u) :=
  inferInstanceAs (Decidable (_ ∧ _))

/-- What is destroyed stays so, but for the thread the call allocates. -/
def KeepsFreed (c : TaskCall) (s s' : Tasks) : Prop :=
  ∀ u ∈ s.freed, u ∈ s'.freed ∨ c.thread = some u ∧ NewlyAllocated s s' u

theorem SameHeap.keepsFreed {c : TaskCall} (h : SameHeap s s') : KeepsFreed c s s' :=
  fun _ hu => .inl (h.2 ▸ hu)

theorem Allocates.keepsFreed {c : TaskCall} {u : Nat} (h : Allocates u s s')
    (hc : c.thread = some u) : KeepsFreed c s s' := by
  intro v hv
  by_cases hvu : v = u
  · subst hvu
    exact .inr ⟨hc, h.fresh, h.heap ▸ List.mem_cons_self⟩
  · rw [h.freed]
    exact .inl (List.mem_filter.mpr ⟨hv, by simpa using hvu⟩)

theorem call_leaves {fuel : Nat} {c : TaskCall} (ht : s.currThread ∈ s.threadHeap)
    (hp : s.currProcess ∈ s.procHeap) (hcall : s.call fuel c = some s') :
    (Leaves s.currThread s.currProcess s s' ∧ KeepsFreed c s s' ∧ ∀ a, c = .execve a → s' = s) ∨
      ∃ a, c = .execve a ∧ ReplacesImage a s s' := by
  cases c with
  | addTask a =>
      obtain ⟨r, hr, rfl⟩ := Option.map_eq_some_iff.mp hcall
      obtain ⟨hleaves, hheap⟩ := addTask_leaves hp ht hr
      exact .inl ⟨hleaves, hheap.elim SameHeap.keepsFreed fun h => h.keepsFreed rfl, nofun⟩
  | fork a =>
      obtain ⟨r, hr, rfl⟩ := Option.map_eq_some_iff.mp hcall
      obtain ⟨hleaves, hheap⟩ := fork_leaves hp ht hr
      exact .inl ⟨hleaves, hheap.keepsFreed rfl, nofun⟩
  | threadSpawn a =>
      obtain ⟨r, hr, rfl⟩ := Option.map_eq_some_iff.mp hcall
      obtain ⟨hleaves, hheap⟩ := threadSpawn_leaves (p := s.currProcess) ht hr
      exact .inl ⟨hleaves, hheap.elim SameHeap.keepsFreed fun h => h.keepsFreed rfl, nofun⟩
  | execve a =>
      obtain ⟨r, hr, rfl⟩ := Option.map_eq_some_iff.mp hcall
      rcases execve_cases ht hr with hsame | hreplaces
      · rw [hsame]
        exact .inl ⟨Leaves.refl .., fun _ hu => .inl hu, fun _ _ => rfl⟩
      · exact .inr ⟨a, rfl, hreplaces⟩
  | exit code =>
      obtain ⟨hleaves, hheap⟩ := exit_leaves hcall
      exact .inl ⟨hleaves, hheap.keepsFreed, nofun⟩
  | wait cond itemMade =>
      obtain ⟨r, hr, rfl⟩ := Option.map_eq_some_iff.mp hcall
      obtain ⟨hleaves, hfreed⟩ := wait_leaves hr
      exact .inl ⟨hleaves, fun u hu => .inl (hfreed u hu), nofun⟩
  | waitResume =>
      obtain ⟨r, hr, rfl⟩ := Option.map_eq_some_iff.mp hcall
      obtain ⟨hleaves, hfreed⟩ := waitResume_leaves hr
      exact .inl ⟨hleaves, fun u hu => .inl (hfreed u hu), nofun⟩

end LambdaOs.Tasks
