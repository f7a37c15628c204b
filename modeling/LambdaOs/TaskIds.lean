import LambdaOs.TaskIdents
import LambdaOs.SchedNext

/-!
# Identifiers stay unique

Every call of a process keeps what `TaskIdents` says of the identifiers, from
`init_multitasking` on: one lemma for each call, and one for a run of them in
any order. So no two processes in `procs` have one `pid`, no two threads of
theirs one `tid`, and the searches find the only one (`ids_unique`).
-/

namespace LambdaOs.Tasks

/-- What holds between calls. -/
structure TasksInv (ps : List Nat) (ts : Nat → List Nat) (s : Tasks) : Prop where
  ids : Ids ps ts s.idents
  ring : LlistRep s.procItems s.procs ps
  data : ∀ p ∈ ps, (s.procItems p).data = p
  filled : ∀ p ∈ ps, ts p ≠ []

variable {s s' : Tasks} {ps : List Nat} {ts : Nat → List Nat} {fuel : Nat}

/-- A thread that can run is a thread of a process, with an identifier. -/
theorem TasksInv.caller (h : TasksInv ps ts s) (hruns : s.Runs s.currThread) :
    (s.kthreads s.currThread).process ∈ ps ∧ (s.kthreads s.currThread).tid ≠ 0 :=
  ⟨h.ids.runnable _ hruns.1, h.ids.runs _ hruns.2.1⟩

theorem currProcess_eq (h0 : s.currProcess ≠ 0) :
    s.currProcess = (s.kthreads s.currThread).process := by
  unfold currProcess at h0 ⊢
  split
  · rename_i hnull
    exact absurd (if_pos hnull) h0
  · rfl

/-- Nothing happens to `procs`. -/
structure SameProcs (s s' : Tasks) : Prop where
  items : s'.procItems = s.procItems
  list : s'.procs = s.procs

theorem TasksInv.of_ids (h : TasksInv ps ts s) {ts' : Nat → List Nat} (hids : Ids ps ts' s'.idents)
    (hprocs : SameProcs s s') (hfilled : ∀ p ∈ ps, ts' p ≠ []) : TasksInv ps ts' s' := by
  refine ⟨hids, ?_, ?_, hfilled⟩
  · rw [hprocs.items, hprocs.list]
    exact h.ring
  · intro p hp
    rw [hprocs.items]
    exact h.data p hp

theorem TasksInv.of_idents (h : TasksInv ps ts s) (hids : s'.idents = s.idents)
    (hprocs : SameProcs s s') : TasksInv ps ts s' :=
  h.of_ids (hids ▸ h.ids) hprocs h.filled

theorem TasksInv.setSched (h : TasksInv ps ts s) (sched : Sched) :
    TasksInv ps ts (s.setSched sched) := h.of_idents rfl ⟨rfl, rfl⟩

theorem filled_update {p : Nat} {xs : List Nat} (h : ∀ q ∈ ps, q ≠ p → ts q ≠ []) (hxs : xs ≠ []) :
    ∀ q ∈ ps, Function.update ts p xs q ≠ [] := by
  intro q hq
  by_cases hqp : q = p
  · rw [hqp, Function.update_self]
    exact hxs
  · rw [Function.update_of_ne hqp]
    exact h q hq hqp

theorem procAddThread_made {p t : Nat} (h : s.procAddThread p t = some s') :
    ∃ tid r n, s' = { s.linkThread p t tid r with nextPid := n } := by
  obtain ⟨r₁, h₁, r, -, rfl⟩ := procAddThread_eq_some.mp h
  unfold threadTid at h₁
  split at h₁
  · cases h₁
    exact ⟨_, r, _, rfl⟩
  · split at h₁
    · obtain ⟨-, rfl⟩ := getNextPid_eq_some.mp h₁
      exact ⟨_, r, _, rfl⟩
    · cases h₁
      exact ⟨_, r, _, rfl⟩

theorem procAddThread_procs {p t : Nat} (h : s.procAddThread p t = some s') : SameProcs s s' := by
  obtain ⟨tid, r, n, rfl⟩ := procAddThread_made h
  exact ⟨rfl, rfl⟩

/-! ## `thread_spawn` -/

theorem threadSpawn_inv (h : TasksInv ps ts s)
    (hproc : s.currProcess ≠ 0 → s.currProcess ∈ ps) {a : Spawn} {r : Int}
    (hcall : s.threadSpawn a = some (s', r)) : ∃ ts', TasksInv ps ts' s' := by
  unfold threadSpawn at hcall
  dsimp only at hcall
  split at hcall
  · cases hcall
    exact ⟨ts, h⟩
  rename_i hp0
  obtain ⟨r₁, h₁, hcall⟩ := Option.bind_eq_some_iff.mp hcall
  by_cases ht : a.thread = 0
  · simp only [threadCreate, ht, if_true, Option.some.injEq] at h₁
    subst h₁
    cases hcall
    exact ⟨ts, h⟩
  obtain ⟨-, s₁, hm, rfl⟩ := (threadCreate_eq_some ht).mp h₁
  obtain ⟨hfresh, rfl⟩ := kmallocThread_eq_some.mp hm
  simp only [ht, if_false] at hcall
  obtain ⟨s₂, h₂, hcall⟩ := Option.bind_eq_some_iff.mp hcall
  obtain ⟨r₃, h₃, hcall⟩ := Option.bind_eq_some_iff.mp hcall
  cases hcall
  obtain ⟨r₄, -, rfl⟩ := schedEnqueueThread_eq_some.mp h₃
  have hp := hproc hp0
  have hnew := h.ids.newThread (k := newThread a.entrypoint a.data a.name a.stackSize a.prio)
    hfresh rfl rfl
  obtain ⟨hadded, htid⟩ := hnew.procAddThread hp ht (h.ids.not_listed hfresh) List.mem_cons_self
    (congrArg Kthread.tid (modThread_self ..)) (fun h0 => absurd h0 (h.filled _ hp)) h₂
  have hflags := hadded.modThread_flags (t := a.thread) (g := Kthread.withFlags
    (kthreadFlagRunnable ||| kthreadFlagRanonce)) rfl rfl htid
  have hprocs := procAddThread_procs h₂
  exact ⟨_, h.of_ids hflags ⟨hprocs.items, hprocs.list⟩
    (filled_update (fun q hq _ => h.filled q hq) (by simp))⟩

/-! ## `exit` -/

theorem exits_not_runnable (code : Int) (k : Process) :
    (Process.exits code k).type &&& typeRunnable = 0 := by
  change (k.type &&& (0xFFFFFFFF ^^^ 1) ||| 2) &&& 1 = 0
  have hmask : (0xFFFFFFFF ^^^ 1) &&& 1 = 0 := by decide
  rw [Nat.and_or_distrib_right, Nat.and_assoc, hmask, Nat.and_zero]
  rfl

theorem foldl_withCond (threads : List Nat) : ∀ s : Tasks,
    (threads.foldl (fun s t => s.modThread t (Kthread.withCond 0)) s).idents = s.idents ∧
      SameProcs s (threads.foldl (fun s t => s.modThread t (Kthread.withCond 0)) s) := by
  induction threads with
  | nil => exact fun s => ⟨rfl, rfl, rfl⟩
  | cons t threads ih =>
      intro s
      obtain ⟨hids, hprocs⟩ := ih (s.modThread t (Kthread.withCond 0))
      exact ⟨hids.trans (modThread_idents_same rfl rfl rfl), hprocs.items, hprocs.list⟩

theorem TasksInv.condSignal (h : TasksInv ps ts s) (cond : Nat) :
    TasksInv ps ts (s.condSignal cond) := by
  obtain ⟨hids, hprocs⟩ := foldl_withCond (s.condThreads cond) s
  exact h.of_idents hids ⟨hprocs.items, hprocs.list⟩

theorem TasksInv.condWait (h : TasksInv ps ts s) (cond : Nat) : TasksInv ps ts (s.condWait cond) :=
  h.of_idents (modThread_idents_same (s := s.setCondThreads cond _) rfl rfl rfl) ⟨rfl, rfl⟩

theorem TasksInv.withWaitCond (h : TasksInv ps ts s) (p cond : Nat) :
    TasksInv ps ts (s.modProc p (Process.withWaitCond cond)) :=
  h.of_idents (modProc_idents_same rfl rfl rfl rfl) ⟨rfl, rfl⟩

theorem exit_inv (h : TasksInv ps ts s) (hproc : s.currProcess ≠ 0 → s.currProcess ∈ ps)
    {code : Int} (hcall : s.exit fuel code = some s') : TasksInv ps ts s' := by
  unfold exit at hcall
  dsimp only at hcall
  split at hcall
  · cases hcall
  rename_i hp0
  have hexit : TasksInv ps ts (s.modProc s.currProcess (Process.exits code)) := by
    refine h.of_ids (h.ids.modProc_type (hproc hp0) rfl rfl rfl fun _ => ?_) ⟨rfl, rfl⟩ h.filled
    exact exits_not_runnable code _
  split at hcall
  · cases hcall
    exact hexit
  obtain ⟨parent, -, hcall⟩ := Option.bind_eq_some_iff.mp hcall
  split at hcall
  · cases hcall
  split at hcall
  · cases hcall
    exact hexit
  · cases hcall
    exact (hexit.condSignal _).withWaitCond _ _

/-! ## `wait` -/

/-- What is left to drain of the ring `xs`: nothing, or from the head on, which
is still where it was, or out of the ring already. -/
def Draining (m : Items) (l : Llist) (xs : List Nat) : Prop :=
  l.list = 0 ∨ (l.list ∈ xs ∧ (m l.list).data = l.list ∧
    ((m l.list).next = (m l.list).prev ∨ ((m l.list).next ∈ xs ∧ (m l.list).prev ∈ xs)))

theorem draining_step {m : Items} {l : Llist} {xs : List Nat} {r : Items × Llist}
    (h : Draining m l xs) (hl : l.list ≠ 0) (hcall : llistRemove m l l.list = some r) :
    Draining r.1 r.2 xs ∧ ∀ q, q ∉ xs → r.1 q = m q := by
  obtain ⟨hin, hdata, hlinks⟩ := h.resolve_left hl
  unfold llistRemove at hcall
  rw [if_neg (not_or.mpr ⟨hl, hl⟩)] at hcall
  obtain ⟨l₁, hl₁, rfl⟩ := Option.map_eq_some_iff.mp hcall
  have hlist := acquire_list hl₁
  unfold llistRemoveUnlocked
  rw [if_neg (by rw [hlist]; exact not_or.mpr ⟨hl, hl⟩)]
  have hout : ∀ {q x : Nat}, q ∉ xs → x ∈ xs → q ≠ x := fun hq hx he => hq (he ▸ hx)
  dsimp only
  split
  · -- the list is empty now
    refine ⟨.inl rfl, ?_⟩
    intro q hq
    simp [hout hq hin]
  · -- the head is out of the ring, and is the head still
    rename_i hsame
    have hne : ¬(m l.list).next = (m l.list).prev := fun he => hsame ⟨hlist, he⟩
    obtain ⟨hnext, hprev⟩ := hlinks.resolve_left hne
    refine ⟨.inr ⟨?_, ?_, .inl ?_⟩, ?_⟩
    · simpa [Llist.release, hlist] using hin
    · simpa [Llist.release, hlist] using hdata
    · simp [Llist.release, hlist]
    · intro q hq
      simp [hout hq hin, hout hq hnext, hout hq hprev]

theorem draining_of_rep {m : Items} {l : Llist} {xs : List Nat} (h : LlistRep m l xs)
    (hdata : ∀ t ∈ xs, (m t).data = t) : Draining m l xs := by
  by_cases h0 : l.list = 0
  · exact .inl h0
  · have hin : l.list ∈ xs := by
      cases xs with
      | nil => exact absurd h.head h0
      | cons x xs => exact h.head ▸ List.mem_cons_self
    exact .inr ⟨hin, hdata _ hin, .inr ⟨h.ring.next_mem hin, h.ring.prev_mem hin⟩⟩

/-- What `proc_destroy` leaves alone while it destroys threads. -/
structure Destroying (s s' : Tasks) : Prop where
  procs : SameProcs s s'
  heap : s'.procHeap = s.procHeap
  children : ∀ q, (s'.kprocs q).children = (s.kprocs q).children

theorem setThreads_idents (s : Tasks) (c : Nat) (r : Items × Llist) :
    (s.setThreads c r).idents = { s.idents with
      items := r.1
      threads := Function.update s.idents.threads c r.2 } := by
  have hset : (s.setThreads c r).idents =
      { (s.modProc c (Process.withThreads r.2)).idents with items := r.1 } := rfl
  rw [hset, modProc_idents]
  dsimp only [Process.withThreads]
  rw [keep_pid, keep_type, keep_children]

theorem Ids.setThreads_out (h : Ids ps ts s.idents) {c : Nat} {r : Items × Llist} (hc : c ∉ ps)
    (hitems : ∀ p ∈ ps, ∀ t ∈ ts p, r.1 t = s.threadItems t) :
    Ids ps ts (s.setThreads c r).idents := by
  rw [setThreads_idents]
  have hset := h.setItems hitems
  refine { hset with rep := ?_ }
  intro p hp
  have hpc : p ≠ c := fun he => hc (he ▸ hp)
  simpa [Function.update_of_ne hpc] using hset.rep p hp

theorem setThreads_children (s : Tasks) (c : Nat) (r : Items × Llist) (q : Nat) :
    ((s.setThreads c r).kprocs q).children = (s.kprocs q).children := by
  by_cases hqc : q = c
  · rw [hqc]
    exact (congrArg Process.children (modProc_self s c (Process.withThreads r.2)) :)
  · exact congrArg Process.children (Function.update_of_ne hqc ..)

theorem destroyLoop_ids {c : Nat} {xs : List Nat} (hc : c ∉ ps)
    (hxs : ∀ x ∈ xs, ∀ p ∈ ps, x ∉ ts p) (rounds : Nat) {s s' : Tasks}
    (h : Ids ps ts s.idents) (hdrain : Draining s.threadItems (s.kprocs c).threads xs)
    (hcall : destroyLoop fuel c rounds s = some s') :
    Ids ps ts s'.idents ∧ Destroying s s' := by
  induction rounds generalizing s with
  | zero => cases hcall
  | succ rounds ih =>
      unfold destroyLoop at hcall
      dsimp only at hcall
      split at hcall
      · cases hcall
        exact ⟨h, ⟨rfl, rfl⟩, rfl, fun _ => rfl⟩
      rename_i hl
      obtain ⟨r, hr, hcall⟩ := Option.bind_eq_some_iff.mp hcall
      obtain ⟨s₁, h₁, hcall⟩ := Option.bind_eq_some_iff.mp hcall
      obtain ⟨r₂, -, rfl⟩ := Option.map_eq_some_iff.mp h₁
      obtain ⟨hin, hdata, -⟩ := hdrain.resolve_left hl
      obtain ⟨hdrain', hframe⟩ := draining_step hdrain hl hr
      have hset : Ids ps ts (s.setThreads c r).idents :=
        h.setThreads_out hc fun p hp t ht => hframe t fun hx => hxs t hx p hp ht
      rw [hdata] at hcall
      have hfreed : Ids ps ts ((((s.setThreads c r).setSched r₂.1).kfreeThread
          (s.kprocs c).threads.list).noteFreed (s.kprocs c).threads.list).idents :=
        hset.freeThread (hxs _ hin)
      have hlist : ((s.setThreads c r).kprocs c).threads = r.2 :=
        congrArg Process.threads (modProc_self s c (Process.withThreads r.2))
      obtain ⟨hids, hrest⟩ := ih hfreed (hlist ▸ hdrain') hcall
      exact ⟨hids, ⟨hrest.procs.items, hrest.procs.list⟩, hrest.heap,
        fun q => (hrest.children q).trans (setThreads_children s c r q)⟩

theorem procDestroy_inv {pre post : List Nat} {c : Nat} (h : TasksInv (pre ++ c :: post) ts s)
    (hpre : pre ≠ []) (htype : (s.kprocs c).type &&& typeRunnable = 0)
    (hslot : ∀ q ∈ pre ++ c :: post, ∀ j : Nat, ((s.kprocs q).children)[j]? ≠ some c)
    (hcall : s.procDestroy fuel c = some s') : TasksInv (pre ++ post) ts s' := by
  have hsub : ∀ {p}, p ∈ pre ++ post → p ∈ pre ++ c :: post := fun hp => by
    rw [List.mem_append] at hp ⊢
    exact hp.imp_right (List.mem_cons_of_mem _)
  have hc : c ∉ pre ++ post := (List.nodup_cons.mp (List.nodup_middle.mp h.ids.nodup)).1
  have hin : c ∈ pre ++ c :: post := List.mem_append_right _ List.mem_cons_self
  obtain ⟨s₁, h₁, hcall⟩ := Option.bind_eq_some_iff.mp hcall
  obtain ⟨s₂, h₂, hcall⟩ := Option.bind_eq_some_iff.mp hcall
  cases hcall
  obtain ⟨r, hr, rfl⟩ := Option.map_eq_some_iff.mp h₁
  have hring := llistRemove_step h.ring hpre hr
  have hids : Ids (pre ++ post) ts (s.setProcs r).idents := h.ids.retire hpre htype hslot
  have hothers : ∀ x ∈ ts c, ∀ p ∈ pre ++ post, x ∉ ts p := fun x hx p hp hxp =>
    (h.ids.other hin (hsub hp) (fun he => hc (he ▸ hp)) hx hxp).1 rfl
  obtain ⟨hids₂, hrest⟩ := destroyLoop_ids hc hothers fuel hids
    (draining_of_rep (h.ids.rep c hin) (h.ids.data c hin)) h₂
  refine ⟨hids₂.freeProc hc ?_, ?_, ?_, fun p hp => h.filled p (hsub hp)⟩
  · intro q hq j
    change ((s₂.kprocs q).children)[j]? ≠ some c
    rw [hrest.children]
    exact hslot q (hsub hq) j
  · change LlistRep s₂.procItems s₂.procs _
    rw [hrest.procs.items, hrest.procs.list]
    exact hring.rep
  · intro p hp
    change (s₂.procItems p).data = p
    rw [hrest.procs.items]
    exact (hring.data p).trans (h.data p (hsub hp))

theorem findDeadChild_spec {p idx : Nat} (h : s.findDeadChild p = some idx) :
    ∃ c, ((s.kprocs p).children)[idx]? = some c ∧ c ≠ 0 ∧
      (s.kprocs c).type &&& typeZombie ≠ 0 := by
  obtain ⟨hlt, hfound, -⟩ := List.findIdx?_eq_some_iff_getElem.mp h
  simp only [ne_eq, Bool.and_eq_true, decide_eq_true_eq] at hfound
  exact ⟨_, List.getElem?_eq_getElem hlt, hfound.1, hfound.2⟩

theorem waitReap_inv (h : TasksInv ps ts s) {p idx : Nat} (hp : p ∈ ps)
    (hdead : s.findDeadChild p = some idx) (hcall : s.waitReap fuel p idx = some s') :
    ∃ ps', TasksInv ps' ts s' := by
  obtain ⟨c, hslot, hc0, hzombie⟩ := findDeadChild_spec hdead
  obtain ⟨-, hhead, htyped⟩ := h.ids.slot p hp c (List.mem_of_getElem? hslot) hc0
  have htype0 : (s.kprocs c).type ≠ 0 := fun h0 => hzombie (by rw [h0]; rfl)
  obtain ⟨pre, post, rfl⟩ := List.append_of_mem (htyped htype0)
  have hpre : pre ≠ [] := by
    rintro rfl
    exact hhead rfl
  obtain ⟨hids, hout⟩ := h.ids.clearSlot hp hc0 hslot
  have hclear : (s.modProc p (Process.clearChild idx)).idents = { s.idents with
      children := Function.update s.idents.children p ((s.idents.children p).set idx 0) } := by
    rw [modProc_idents]
    dsimp only [Process.clearChild]
    rw [keep_pid, keep_type, keep_threads]
    rfl
  have hcleared : TasksInv (pre ++ c :: post) ts (s.modProc p (Process.clearChild idx)) :=
    h.of_ids (hclear ▸ hids) ⟨rfl, rfl⟩ h.filled
  have hchild : (s.kprocs p).children.getD idx 0 = c := by
    rw [List.getD_eq_getElem?_getD, hslot]
    rfl
  unfold waitReap at hcall
  rw [hchild] at hcall
  have htypes : ∀ q, ((s.modProc p (Process.clearChild idx)).kprocs q).type = (s.kprocs q).type :=
    congrFun (congrArg Idents.type hclear)
  have hslots : ∀ q, ((s.modProc p (Process.clearChild idx)).kprocs q).children =
      Function.update s.idents.children p ((s.idents.children p).set idx 0) q :=
    congrFun (congrArg Idents.children hclear)
  refine ⟨_, procDestroy_inv hcleared hpre ?_ ?_ hcall⟩
  · rw [htypes]
    exact h.ids.zombie c hzombie
  · intro q hq j
    rw [hslots]
    exact hout q hq j

theorem wait_inv (h : TasksInv ps ts s) (hproc : s.currProcess ≠ 0 → s.currProcess ∈ ps)
    {cond : Nat} {itemMade : Bool} {r : Tasks × WaitOutcome}
    (hcall : s.wait fuel cond itemMade = some r) : ∃ ps', TasksInv ps' ts r.1 := by
  unfold wait at hcall
  dsimp only at hcall
  split at hcall
  · cases hcall
  rename_i hp0
  split at hcall
  · cases hcall
    exact ⟨ps, h⟩
  split at hcall
  · rename_i idx hdead
    obtain ⟨s₁, h₁, rfl⟩ := Option.map_eq_some_iff.mp hcall
    exact waitReap_inv h (hproc hp0) hdead h₁
  split at hcall
  · split at hcall
    · cases hcall
      exact ⟨ps, h.condWait _⟩
    · cases hcall
  split at hcall
  · cases hcall
  · cases hcall
    have hset : TasksInv ps ts
        ((s.modProc s.currProcess (Process.withWaitCond cond)).setCondThreads cond []) :=
      (h.withWaitCond _ _).of_idents rfl ⟨rfl, rfl⟩
    exact ⟨ps, hset.condWait cond⟩

theorem waitResume_inv (h : TasksInv ps ts s) (hproc : s.currProcess ≠ 0 → s.currProcess ∈ ps)
    {r : Tasks × WaitOutcome} (hcall : s.waitResume fuel = some r) :
    ∃ ps', TasksInv ps' ts r.1 := by
  unfold waitResume at hcall
  dsimp only at hcall
  split at hcall
  · cases hcall
  rename_i hp0
  obtain ⟨idx, hdead, hcall⟩ := Option.bind_eq_some_iff.mp hcall
  obtain ⟨s₁, h₁, hcall⟩ := Option.bind_eq_some_iff.mp hcall
  cases hcall
  exact waitReap_inv h (hproc hp0) hdead h₁

/-! ## `execve` -/

theorem execReplaceProcess_idents (s : Tasks) (a : Execve) (p : Nat) :
    (s.execReplaceProcess a p).idents =
      { s.idents with threads := Function.update s.idents.threads p ⟨0, 0⟩ } := by
  have hkprocs : (s.execReplaceProcess a p).kprocs =
      (s.modProc p fun _ => execProcess a (s.kprocs p)).kprocs := Function.update_idem ..
  have hsame : (s.execReplaceProcess a p).idents =
      (s.modProc p fun _ => execProcess a (s.kprocs p)).idents := by
    unfold idents
    rw [hkprocs]
    rfl
  rw [hsame, modProc_idents]
  dsimp only [execProcess]
  rw [keep_pid, keep_type, keep_children]
  rfl

theorem execMade_ids (h : Ids ps ts s.idents) {a : Execve} {entry : Nat}
    (hp : s.currProcess ∈ ps) (howner : (s.kthreads s.currThread).process = s.currProcess)
    (htid : (s.kthreads s.currThread).tid ≠ 0) (ht0 : a.thread ≠ 0)
    (hfresh : a.thread ∉ s.threadHeap) :
    Ids ps (Function.update (Function.update ts s.currProcess []) s.currProcess [a.thread])
      (s.execMade a entry).idents := by
  -- the process without a thread
  have hempty : Ids ps (Function.update ts s.currProcess [])
      (s.execReplaceProcess a s.currProcess).idents := by
    rw [execReplaceProcess_idents]
    refine h.relist hp (llistRep_init _) ?_ ?_ ?_ ?_ ?_ fun q _ _ t _ => rfl
    all_goals exact fun t ht => absurd ht List.not_mem_nil
  have hout := hempty.not_listed hfresh
  have hcleared : Ids ps (Function.update ts s.currProcess [])
      (((s.execReplaceProcess a s.currProcess).allocThread a.thread).clearThread a.thread).idents :=
    Ids.clearThread (hempty.allocThread a.thread) hout
  have hcleared' : Ids ps (Function.update ts s.currProcess []) (s.execCleared a entry).idents := by
    unfold execCleared
    dsimp only
    refine hcleared.modThread_out hout ?_ ?_ fun _ => ?_
    · exact h.tid_lt s.currThread
    · intro _ u hu he
      rw [show (((s.execReplaceProcess a s.currProcess).allocThread a.thread).clearThread
        a.thread).kthreads u = s.kthreads u from Function.update_of_ne hu ..] at he ⊢
      exact (h.same u s.currThread he (ne_of_eq_of_ne he htid)).trans howner
    · exact htid
  have hthread : ∀ u, u ≠ a.thread → (s.execCleared a entry).kthreads u = s.kthreads u :=
    fun u hu => (Function.update_of_ne hu ..).trans (Function.update_of_ne hu ..)
  have hlt : (s.kthreads s.currThread).tid < (s.execCleared a entry).nextPid :=
    h.tid_lt s.currThread
  have hlink := hcleared'.link (t := a.thread) hp ht0 hout List.mem_cons_self hlt htid
    (fun u hu he => ?_) (fun u hu => ?_)
    (show llistAppend _ ((s.execCleared a entry).kprocs s.currProcess).threads a.thread = some _ by
      rw [execCleared_process]; exact llistAppend_init _ ht0)
  · rw [Function.update_self] at hlink
    exact hlink
  · rw [hthread u hu] at he ⊢
    exact (h.same u s.currThread he (ne_of_eq_of_ne he htid)).trans howner
  · rw [Function.update_self] at hu
    cases hu

theorem execReplaceProcessImage_inv (h : TasksInv ps ts s) (hruns : s.Runs s.currThread)
    (halloc : s.currThread ∈ s.threadHeap) {a : Execve} {entry : Nat}
    (hcall : s.execReplaceProcessImage fuel a entry = some s') : ∃ ts', TasksInv ps ts' s' := by
  obtain ⟨hp, htid⟩ := h.caller hruns
  obtain ⟨hp0, ht, hfresh, s₂, h₂, h₃⟩ := (execReplaceProcessImage_eq_some htid).mp hcall
  have howner := currProcess_eq hp0
  rw [← howner] at hp
  obtain ⟨sched, -, rfl⟩ := Option.map_eq_some_iff.mp h₂
  obtain ⟨r, -, rfl⟩ := Option.map_eq_some_iff.mp h₃
  have hmade : Ids ps _ (s.execMade a entry).idents :=
    execMade_ids h.ids hp howner.symm htid ht hfresh
  have htid' : ((s.execMade a entry).kthreads a.thread).tid ≠ 0 := by
    rw [execMade_thread]
    exact htid
  have hflags := hmade.modThread_flags (t := a.thread) (g := execFlags) rfl rfl htid'
  have hne : s.currThread ≠ a.thread := fun he => hfresh (he ▸ halloc)
  have hfreed := hflags.freeThread (t := s.currThread) fun q hq hin => ?_
  · refine ⟨_, hfreed, ?_, ?_, filled_update ?_ (by simp)⟩
    · change LlistRep (s.execMade a entry).procItems s.procs ps
      rw [execMade_procItems]
      exact h.ring.setData _ _
    · intro q hq
      change ((s.execMade a entry).procItems q).data = q
      rw [execMade_procItems]
      by_cases hqp : q = s.currProcess
      · rw [hqp, Items.setData, Function.update_self]
      · rw [Items.setData, Function.update_of_ne hqp]
        exact h.data q hq
    · intro q hq hqp
      rw [Function.update_of_ne hqp]
      exact h.filled q hq
  · by_cases hqp : q = s.currProcess
    · rw [hqp, Function.update_self, List.mem_singleton] at hin
      exact hne hin
    · rw [Function.update_of_ne hqp, Function.update_of_ne hqp] at hin
      exact hqp ((h.ids.owner q hq _ hin).symm.trans howner.symm)

theorem execve_inv (h : TasksInv ps ts s) (hruns : s.Runs s.currThread)
    (halloc : s.currThread ∈ s.threadHeap) {a : Execve} {o : ExecOutcome}
    (hcall : s.execve fuel a = some (s', o)) : ∃ ts', TasksInv ps ts' s' := by
  unfold execve at hcall
  split at hcall
  · cases hcall
    exact ⟨ts, h⟩
  split at hcall
  · cases hcall
    exact ⟨ts, h⟩
  obtain ⟨ret, -, hcall⟩ := Option.bind_eq_some_iff.mp hcall
  split at hcall
  · cases hcall
    exact ⟨ts, h⟩
  obtain ⟨s₁, h₁, hcall⟩ := Option.bind_eq_some_iff.mp hcall
  cases hcall
  exact execReplaceProcessImage_inv h hruns halloc h₁

/-! ## Processes that are made -/

/-- A process that is made and not in the list yet. -/
structure NewProc (ps : List Nat) (s : Tasks) (c : Nat) : Prop where
  nonnull : c ≠ 0
  out : c ∉ ps
  heap : c ∈ s.procHeap
  pid_pos : 0 < (s.kprocs c).pid
  pid_lt : (s.kprocs c).pid < s.nextPid
  pid_new : ∀ p ∈ ps, (s.kprocs p).pid ≠ (s.kprocs c).pid
  children : ∀ d ∈ (s.kprocs c).children, d = 0
  type : (s.kprocs c).type = 0

/-- No slot refers to `c`. -/
def Slotless (ps : List Nat) (s : Tasks) (c : Nat) : Prop :=
  ∀ q ∈ ps, ∀ j : Nat, ((s.kprocs q).children)[j]? ≠ some c

theorem TasksInv.head_ne (_h : TasksInv ps ts s) {c : Nat} (hc0 : c ≠ 0) (hc : c ∉ ps) :
    c ≠ ps.headD 0 := by
  intro he
  cases ps with
  | nil => exact hc0 he
  | cons p ps => exact hc (he ▸ List.mem_cons_self)

theorem TasksInv.clearProc (h : TasksInv ps ts s) {c : Nat} (hc : c ∉ ps) :
    TasksInv ps ts ((s.allocProc c).clearProc c) := by
  have hne : ∀ p ∈ ps, p ≠ c := fun p hp he => hc (he ▸ hp)
  refine ⟨Ids.clearProc (h.ids.allocProc c) hc, h.ring.frame ?_, ?_,
    h.filled⟩
  · intro p hp
    exact Function.update_of_ne (hne p hp) ..
  · intro p hp
    exact (congrArg LlistItem.data (Function.update_of_ne (hne p hp) ..)).trans (h.data p hp)

theorem procAddChild_procs (s : Tasks) (p c : Nat) : SameProcs s (s.procAddChild p c).1 := by
  obtain ⟨m, hm⟩ := procAddChild_frame s p c
  rw [hm]
  exact ⟨rfl, rfl⟩

/-- The child itself gets its parent only. -/
theorem procAddChild_child {p c : Nat} (hne : c ≠ p) :
    (s.procAddChild p c).1.kprocs c = Process.withParent (s.kprocs p).pid (s.kprocs c) := by
  unfold procAddChild
  dsimp only
  split
  · exact (Function.update_of_ne hne ..).trans (Function.update_self ..)
  · exact Function.update_self ..

/-- A process is inserted in `procs`. -/
theorem insert_inv {c : Nat} (hids : Ids (ps ++ [c]) ts s.idents)
    (hring : LlistRep s.procItems s.procs ps) (hdata : ∀ p ∈ ps, (s.procItems p).data = p)
    (hc0 : c ≠ 0) (hc : c ∉ ps) (hfilled : ∀ p ∈ ps ++ [c], ts p ≠ [])
    (hcall : s.mtaskInsertProc c = some s') : TasksInv (ps ++ [c]) ts s' := by
  obtain ⟨r, hr, rfl⟩ := mtaskInsertProc_eq_some.mp hcall
  have hstep := llistAppend_step (hring.setData c c) hc0 hc hr
  refine ⟨hids, hstep.rep, ?_, hfilled⟩
  intro p hp
  refine (hstep.data p).trans ?_
  by_cases hpc : p = c
  · rw [hpc, Items.setData, Function.update_self]
  · rw [Items.setData, Function.update_of_ne hpc]
    have hp' : p ∈ ps ∨ p = c := by simpa using hp
    exact hdata p (hp'.resolve_right hpc)

/-! ## `add_task` -/

theorem addTaskThread_inv (h : TasksInv ps ts s) {a : AddTask} (hc : NewProc ps s a.proc)
    (hthreads : (s.kprocs a.proc).threads = ⟨0, 0⟩)
    (hfresh : ∀ u, (s.kthreads u).tid ≠ (s.kprocs a.proc).pid) {r : Int}
    (hcall : s.addTaskThread a = some (s', r)) : ∃ ts', TasksInv (ps ++ [a.proc]) ts' s' := by
  obtain ⟨ht, r₁, h₁, s₂, h₂, s₃, h₃, r₄, h₄, hend⟩ := addTaskThread_eq_some.mp hcall
  cases hend
  obtain ⟨-, s₅, hm, rfl⟩ := (threadCreate_eq_some ht).mp h₁
  obtain ⟨hheap, rfl⟩ := kmallocThread_eq_some.mp hm
  obtain ⟨r₅, -, rfl⟩ := schedEnqueueThread_eq_some.mp h₄
  have hin : a.proc ∈ ps ++ [a.proc] := List.mem_append_right _ (List.mem_singleton_self _)
  -- the process, without a thread
  have hpublished : Ids (ps ++ [a.proc]) (Function.update ts a.proc []) s.idents := by
    refine h.ids.publish hc.out hc.heap hc.pid_pos hc.pid_lt hc.pid_new
      ?_ ?_ ?_ ?_ ?_ ?_ hc.children
    · change LlistRep s.threadItems (s.kprocs a.proc).threads []
      rw [hthreads]
      exact llistRep_init _
    all_goals exact fun t ht => absurd ht List.not_mem_nil
  have htyped : Ids (ps ++ [a.proc]) (Function.update ts a.proc [])
      (s.modProc a.proc startedProcess).idents :=
    hpublished.modProc_type hin rfl rfl rfl fun h0 =>
      absurd (by decide : typeRunnable &&& typeZombie = 0) h0
  -- its thread
  have hnew := htyped.newThread (t := a.thread)
    (k := newThread a.process 0 a.name a.stackSize a.pri) hheap rfl rfl
  have hpid : (((((s.modProc a.proc startedProcess).allocThread a.thread).clearThread
      a.thread).modThread a.thread fun _ => newThread a.process 0 a.name a.stackSize
        a.pri).kprocs a.proc).pid = (s.kprocs a.proc).pid :=
    (congrArg Process.pid (modProc_self s a.proc startedProcess) :)
  have hfirst : ∀ u, (((((s.modProc a.proc startedProcess).allocThread a.thread).clearThread
      a.thread).modThread a.thread fun _ => newThread a.process 0 a.name a.stackSize
        a.pri).kthreads u).tid ≠ (s.kprocs a.proc).pid := by
    intro u
    by_cases hut : u = a.thread
    · rw [hut, modThread_self]
      exact Nat.ne_of_lt hc.pid_pos
    · refine ne_of_eq_of_ne (congrArg Kthread.tid ?_) (hfresh u)
      exact (Function.update_of_ne hut ..).trans (Function.update_of_ne hut ..)
  obtain ⟨hadded, htid⟩ := hnew.procAddThread hin ht (htyped.not_listed hheap) List.mem_cons_self
    (congrArg Kthread.tid (modThread_self ..)) (fun _ u => hpid ▸ hfirst u) h₂
  have hflags := hadded.modThread_flags (t := a.thread) (g := Kthread.addFlags
    (kthreadFlagRunnable ||| kthreadFlagRanonce)) rfl rfl htid
  have hprocs := procAddThread_procs h₂
  have hfilled : ∀ q ∈ ps ++ [a.proc], Function.update (Function.update ts a.proc []) a.proc
      (Function.update ts a.proc [] a.proc ++ [a.thread]) q ≠ [] := by
    refine filled_update ?_ (by simp)
    intro q hq hqc
    rw [Function.update_of_ne hqc]
    exact h.filled q ((List.mem_append.mp hq).resolve_right fun he =>
      hqc (List.mem_singleton.mp he))
  have hinsert := insert_inv hflags (hprocs.items ▸ hprocs.list ▸ h.ring) (hprocs.items ▸ h.data)
    hc.nonnull hc.out hfilled h₃
  exact ⟨_, hinsert.of_idents rfl ⟨rfl, rfl⟩⟩

theorem TasksInv.addChild (h : TasksInv ps ts s) {p c : Nat} (hc : c ∈ s.procHeap) (hc0 : c ≠ 0)
    (hout : c ∉ ps) (htype : (s.kprocs c).type = 0) (hslot : Slotless ps s c) :
    TasksInv ps ts (s.procAddChild p c).1 :=
  h.of_ids (h.ids.procAddChild hc (h.head_ne hc0 hout) htype hslot) (procAddChild_procs s p c)
    h.filled

theorem NewProc.addChild {p c : Nat} (h : NewProc ps s c) (hp : p ∈ ps) :
    NewProc ps (s.procAddChild p c).1 c := by
  have hchild := procAddChild_child (s := s) (p := p) (c := c) fun he => h.out (he ▸ hp)
  obtain ⟨m, hm⟩ := procAddChild_frame s p c
  refine ⟨h.nonnull, h.out, ?_, ?_, ?_, ?_, ?_, ?_⟩
  · rw [hm]
    exact h.heap
  · rw [procAddChild_pid]
    exact h.pid_pos
  · rw [procAddChild_pid, hm]
    exact h.pid_lt
  · intro q hq
    rw [procAddChild_pid, procAddChild_pid]
    exact h.pid_new q hq
  · rw [hchild]
    exact h.children
  · rw [hchild]
    exact h.type

/-- The state with a new process at `c`, which is `k`. -/
def procMade (s : Tasks) (c : Nat) (k : Process) : Tasks :=
  ((s.allocProc c).clearProc c).issuePid.modProc c fun _ => k

theorem procMade_self (s : Tasks) (c : Nat) (k : Process) : (s.procMade c k).kprocs c = k :=
  modProc_self ..

theorem procMade_of_ne (k : Process) {c q : Nat} (hq : q ≠ c) :
    (s.procMade c k).kprocs q = s.kprocs q :=
  (Function.update_of_ne hq ..).trans (Function.update_of_ne hq ..)

theorem procCreate_made {c domain mmuTable cloned : Nat} {name : List UInt8} (hc0 : c ≠ 0)
    {r : Tasks × Nat} (hcall : s.procCreate c name domain mmuTable cloned = some r) :
    ∃ k, r = (s.procMade c k, c) ∧ c ∉ s.procHeap ∧ k.pid = s.nextPid ∧ k.type = 0 ∧
      (∀ d ∈ k.children, d = 0) ∧ k.threads = ⟨0, 0⟩ := by
  obtain ⟨s₁, h₁, r₂, h₂, rfl⟩ := (procCreate_eq_some hc0).mp hcall
  obtain ⟨hheap, rfl⟩ := kmallocProc_eq_some.mp h₁
  obtain ⟨-, rfl⟩ := getNextPid_eq_some.mp h₂
  exact ⟨_, rfl, hheap, rfl, rfl, fun d hd => List.eq_of_mem_replicate hd, rfl⟩

/-- A new process with the next identifier, before it goes into a slot. -/
theorem procMade_inv (h : TasksInv ps ts s) {c : Nat} {k : Process} (hc0 : c ≠ 0)
    (hheap : c ∉ s.procHeap) (hpid : k.pid = s.nextPid) (htype : k.type = 0)
    (hchildren : ∀ d ∈ k.children, d = 0) :
    TasksInv ps ts (s.procMade c k) ∧ NewProc ps (s.procMade c k) c ∧
      Slotless ps (s.procMade c k) c := by
  have hout : c ∉ ps := fun hin => hheap (h.ids.heap c hin)
  have hne : ∀ q ∈ ps, q ≠ c := fun q hq he => hout (he ▸ hq)
  have hself := procMade_self s c k
  have hcleared := h.clearProc hout
  refine ⟨hcleared.of_ids (Ids.modProc_out (s := ((s.allocProc c).clearProc c).issuePid)
    hcleared.ids.issue hout htype) ⟨rfl, rfl⟩ h.filled,
    ⟨hc0, hout, List.mem_cons_self, ?_, ?_, ?_, ?_, ?_⟩, ?_⟩
  · rw [hself, hpid]
    exact h.ids.next
  · rw [hself, hpid]
    exact Nat.lt_succ_self _
  · intro q hq
    rw [hself, hpid, procMade_of_ne k (hne q hq)]
    exact Nat.ne_of_lt (h.ids.pid_lt q hq)
  · rw [hself]
    exact hchildren
  · rw [hself]
    exact htype
  · intro q hq j hj
    rw [procMade_of_ne k (hne q hq)] at hj
    exact hheap (h.ids.slot q hq c (List.mem_of_getElem? hj) hc0).1

theorem addTask_inv (h : TasksInv ps ts s) (hproc : s.currProcess ≠ 0 → s.currProcess ∈ ps)
    {a : AddTask} {r : Int} (hcall : s.addTask a = some (s', r)) :
    ∃ ps' ts', TasksInv ps' ts' s' := by
  obtain ⟨s₁, h₁, r₂, h₂, h₃⟩ := addTask_eq_some.mp hcall
  obtain ⟨-, rfl⟩ := lockTask_eq_some.mp h₁
  have hlock : TasksInv ps ts s.withLock := h.of_idents rfl ⟨rfl, rfl⟩
  by_cases hc0 : a.proc = 0
  · simp only [procCreate, hc0, if_true, Option.some.injEq] at h₂
    subst h₂
    cases h₃
    exact ⟨ps, ts, hlock⟩
  obtain ⟨k, rfl, hheap, hpid, htype, hchildren, hthreads⟩ := procCreate_made hc0 h₂
  obtain ⟨hmade, hnew, hslot⟩ := procMade_inv hlock hc0 hheap hpid htype hchildren
  have hself := procMade_self s.withLock a.proc k
  have hfresh : ∀ u, (s.kthreads u).tid ≠ k.pid := fun u =>
    ne_of_ne_of_eq (Nat.ne_of_lt (h.ids.tid_lt u)) hpid.symm
  simp only [hc0, if_false] at h₃
  by_cases hcur : s.currProcess = 0
  · -- the first process has no parent
    have hchild : ∀ s₁ : Tasks, s₁.addTaskChild s.withLock.currProcess a.proc = (s₁, 0) :=
      fun s₁ => if_neg (not_not.mpr hcur)
    rw [hchild, if_neg (not_not.mpr rfl)] at h₃
    obtain ⟨ts', hinv⟩ := addTaskThread_inv hmade hnew (by rw [hself]; exact hthreads)
      (by rw [hself]; exact hfresh) h₃
    exact ⟨_, ts', hinv⟩
  · have hchild : ∀ s₁ : Tasks, s₁.addTaskChild s.withLock.currProcess a.proc =
        s₁.procAddChild s.currProcess a.proc := fun s₁ => if_pos hcur
    rw [hchild] at h₃
    have hp := hproc hcur
    have hadded := hmade.addChild (p := s.currProcess) hnew.heap hc0 hnew.out hnew.type hslot
    split at h₃
    · -- no slot
      rename_i hfull
      cases h₃
      rw [procAddChild_failed hfull] at hadded ⊢
      refine ⟨ps, ts, hadded.ids.freeProc hnew.out ?_, hadded.ring, hadded.data,
        hadded.filled⟩
      intro q hq j
      have hqc : q ≠ a.proc := fun he => hnew.out (he ▸ hq)
      exact ne_of_eq_of_ne (congrArg (fun k : Process => k.children[j]?)
        (Function.update_of_ne hqc ..)) (hslot q hq j)
    · have hchild := procAddChild_child (s := s.withLock.procMade a.proc k) (p := s.currProcess)
        (c := a.proc) fun he => hnew.out (he ▸ hp)
      rw [hself] at hchild
      obtain ⟨m, hm⟩ := procAddChild_frame (s.withLock.procMade a.proc k) s.currProcess a.proc
      obtain ⟨ts', hinv⟩ := addTaskThread_inv hadded (hnew.addChild hp)
        (by rw [hchild]; exact hthreads) (by rw [hchild, hm]; exact hfresh) h₃
      exact ⟨_, ts', hinv⟩

/-! ## `fork` -/

/-- The child `c` with its thread `t`, before they have identifiers. -/
structure ForkChild (ps : List Nat) (ts : Nat → List Nat) (s : Tasks) (c t : Nat) : Prop where
  nonnull : c ≠ 0
  out : c ∉ ps
  heap : c ∈ s.procHeap
  type : (s.kprocs c).type = 0
  children : ∀ d ∈ (s.kprocs c).children, d = 0
  threads : (s.kprocs c).threads = ⟨t, 0⟩
  rep : LlistRep s.threadItems ⟨t, 0⟩ [t]
  data : (s.threadItems t).data = t
  owner : (s.kthreads t).process = c
  alloc : t ∈ s.threadHeap
  unlisted : ∀ p ∈ ps, t ∉ ts p

theorem forkMake_inv (h : TasksInv ps ts s) {a : Fork} (hc0 : a.child ≠ 0) (ht0 : a.cthread ≠ 0)
    (hheap : a.child ∉ s.procHeap) (hfresh : a.cthread ∉ s.threadHeap) :
    TasksInv ps ts (s.forkMade a) ∧ ForkChild ps ts (s.forkMade a) a.child a.cthread ∧
      Slotless ps (s.forkMade a) a.child := by
  have hlock : TasksInv ps ts s.withLock := h.of_idents rfl ⟨rfl, rfl⟩
  have hout : a.child ∉ ps := fun hin => hheap (h.ids.heap _ hin)
  have hcleared := hlock.clearProc hout
  have hnone := hcleared.ids.not_listed hfresh
  have hthread : Ids ps ts (s.forkCleared a).idents :=
    Ids.clearThread (hcleared.ids.allocThread a.cthread) hnone
  have hitems : ∀ u, u ≠ a.cthread →
      (s.forkMade a).threadItems u = (s.forkCleared a).threadItems u := by
    intro u hu
    simp only [forkMade, linkThread, Items.setPrev_of_ne _ _ hu, Items.setNext_of_ne _ _ hu]
    exact Function.update_of_ne hu ..
  have hchild : (s.forkMade a).kprocs a.child =
      Process.withThreads ⟨a.cthread, 0⟩ zeroProcess := by
    rw [← forkCleared_process s a]
    exact Function.update_self ..
  refine ⟨hcleared.of_ids (hthread.link_out hout ?_ hnone hitems ?_) ⟨rfl, rfl⟩ h.filled,
    ⟨hc0, hout, List.mem_cons_self, ?_, ?_, ?_, ⟨IsRing.singleton ?_ ?_, ?_, rfl⟩, ?_, ?_,
      List.mem_cons_self, hnone⟩, ?_⟩
  · rw [forkCleared_process]
    rfl
  · rw [forkCleared_thread]
    rfl
  · rw [hchild]
    rfl
  · rw [hchild]
    exact fun d hd => List.eq_of_mem_replicate hd
  · rw [hchild]
    rfl
  · simp [forkMade, linkThread]
  · simp [forkMade, linkThread]
  · simpa using Ne.symm ht0
  · simp [forkMade, linkThread, Items.setData]
  · exact (congrArg Kthread.process (modThread_self (s.forkCleared a) a.cthread
      (Kthread.joins a.child 0)) :)
  · intro q hq j hj
    have hqc : q ≠ a.child := fun he => hout (he ▸ hq)
    rw [forkMade_kprocs hqc] at hj
    exact hheap (h.ids.slot q hq _ (List.mem_of_getElem? hj) hc0).1

theorem ForkChild.addChild {c t p : Nat} (h : ForkChild ps ts s c t) (hp : p ∈ ps) :
    ForkChild ps ts (s.procAddChild p c).1 c t := by
  have hchild := procAddChild_child (s := s) (p := p) (c := c) fun he => h.out (he ▸ hp)
  obtain ⟨m, hm⟩ := procAddChild_frame s p c
  have hsame : (s.procAddChild p c).1.threadItems = s.threadItems := by rw [hm]
  refine ⟨h.nonnull, h.out, ?_, ?_, ?_, ?_, ?_, ?_, ?_, ?_, h.unlisted⟩
  · rw [hm]
    exact h.heap
  · rw [hchild]
    exact h.type
  · rw [hchild]
    exact h.children
  · rw [hchild]
    exact h.threads
  · rw [hsame]
    exact h.rep
  · rw [hsame]
    exact h.data
  · rw [hm]
    exact h.owner
  · rw [hm]
    exact h.alloc

/-- Once the child has an identifier, its flags may change. -/
theorem addFlags_inv (h : TasksInv ps ts s) {t : Nat} (htid : (s.kthreads t).tid ≠ 0)
    (flags : Nat) : TasksInv ps ts (s.modThread t (Kthread.addFlags flags)) :=
  h.of_ids (h.ids.modThread_flags rfl rfl htid) ⟨rfl, rfl⟩ h.filled

/-- Both get the next identifier, whether the copies succeed or not. -/
theorem forkNamed_inv (h : TasksInv ps ts s) (a : Fork) {c t : Nat} (parent : Process)
    (pthread : Kthread) (hc : ForkChild ps ts s c t) :
    let s' := (s.issuePid.modProc c (clonedProcess a parent s.nextPid)).modThread t
      (clonedThread pthread s.nextPid)
    TasksInv ps ts s' ∧ ForkChild ps ts s' c t ∧ NewProc ps s' c ∧ (s'.kthreads t).tid ≠ 0 := by
  intro s'
  have hproc : s'.kprocs c = clonedProcess a parent s.nextPid (s.kprocs c) := modProc_self ..
  have hthread : s'.kthreads t = clonedThread pthread s.nextPid (s.kthreads t) := modThread_self ..
  have hthreads : (s'.kprocs c).threads = ⟨t, 0⟩ := by
    rw [hproc]
    exact hc.threads
  have hchildren : ∀ d ∈ (s'.kprocs c).children, d = 0 := by
    rw [hproc]
    exact hc.children
  have htype : (s'.kprocs c).type = 0 := by
    rw [hproc]
    exact hc.type
  have howner : (s'.kthreads t).process = c := by
    rw [hthread]
    exact hc.owner
  have hpid : (s'.kprocs c).pid = s.nextPid := by
    rw [hproc]
    rfl
  have htid : (s'.kthreads t).tid = s.nextPid := by
    rw [hthread]
    rfl
  have hothers : ∀ q ∈ ps, s'.kprocs q = s.kprocs q := fun q hq => by
    have hqc : q ≠ c := fun he => hc.out (he ▸ hq)
    exact Function.update_of_ne hqc ..
  have hids : Ids ps ts s'.idents := by
    have hcloned : Ids ps ts (s.issuePid.modProc c (clonedProcess a parent s.nextPid)).idents :=
      Ids.modProc_out (s := s.issuePid) h.ids.issue hc.out hc.type
    refine hcloned.modThread_out hc.unlisted (Nat.lt_succ_self s.nextPid) ?_
      fun _ => Nat.ne_of_gt h.ids.next
    intro _ u _ he
    exact absurd he (Nat.ne_of_lt (h.ids.tid_lt u))
  refine ⟨h.of_ids hids ⟨rfl, rfl⟩ h.filled, ⟨hc.nonnull, hc.out, hc.heap, htype, hchildren,
    hthreads, hc.rep, hc.data, howner, hc.alloc, hc.unlisted⟩, ⟨hc.nonnull, hc.out, hc.heap, ?_, ?_,
      ?_, hchildren, htype⟩, ?_⟩
  · rw [hpid]
    exact h.ids.next
  · rw [hpid]
    exact Nat.lt_succ_self s.nextPid
  · intro q hq
    rw [hpid, hothers q hq]
    exact Nat.ne_of_lt (h.ids.pid_lt q hq)
  · rw [htid]
    exact Nat.ne_of_gt h.ids.next

theorem forkCopy_inv (h : TasksInv ps ts s) {a : Fork} {c t p : Nat} (hc : ForkChild ps ts s c t)
    {r : Tasks × Int} (hcall : s.forkCopy a c p = some r) :
    TasksInv ps ts r.1 ∧ ForkChild ps ts r.1 c t ∧ NewProc ps r.1 c ∧ (r.1.kthreads t).tid ≠ 0 := by
  obtain ⟨r₁, h₁, h₂⟩ := forkCopy_eq_some.mp hcall
  obtain ⟨-, rfl⟩ := getNextPid_eq_some.mp h₁
  have hfirst : s.issuePid.firstThread c = t := by
    change (s.threadItems (s.kprocs c).threads.list).data = t
    rw [hc.threads]
    exact hc.data
  obtain ⟨hinv, hchild, hnew, htid⟩ := forkNamed_inv h a (s.kprocs p)
    (s.kthreads s.currThread) hc
  rw [hfirst] at h₂
  dsimp only at h₂
  split at h₂
  · subst h₂
    have hthread := modThread_self ((s.issuePid.modProc c
      (clonedProcess a (s.kprocs p) s.nextPid)).modThread t
        (clonedThread (s.kthreads s.currThread) s.nextPid)) t (Kthread.addFlags kthreadFlagRanonce)
    refine ⟨addFlags_inv hinv htid _, ⟨hchild.nonnull, hchild.out, hchild.heap, hchild.type,
      hchild.children, hchild.threads, hchild.rep, hchild.data, ?_, hchild.alloc,
        hchild.unlisted⟩, ⟨hnew.nonnull, hnew.out, hnew.heap, hnew.pid_pos, hnew.pid_lt,
          hnew.pid_new, hnew.children, hnew.type⟩, ?_⟩
    · exact (congrArg Kthread.process hthread).trans hchild.owner
    · exact ne_of_eq_of_ne (congrArg Kthread.tid hthread) htid
  · subst h₂
    exact ⟨hinv, hchild, hnew, htid⟩

theorem forkStart_inv (h : TasksInv ps ts s) {a : Fork} (hc : ForkChild ps ts s a.child a.cthread)
    (hnew : NewProc ps s a.child) (htid : (s.kthreads a.cthread).tid ≠ 0) {r : Int}
    (hcall : s.forkStart a = some (s', r)) : ∃ ts', TasksInv (ps ++ [a.child]) ts' s' := by
  obtain ⟨s₁, h₁, r₂, h₂, hend⟩ := forkStart_eq_some.mp hcall
  cases hend
  obtain ⟨r₃, -, rfl⟩ := schedEnqueueThread_eq_some.mp h₂
  have hin : a.child ∈ ps ++ [a.child] := List.mem_append_right _ (List.mem_singleton_self _)
  have hpublished : Ids (ps ++ [a.child]) (Function.update ts a.child [a.cthread]) s.idents := by
    refine h.ids.publish hnew.out hnew.heap hnew.pid_pos hnew.pid_lt hnew.pid_new
      ?_ ?_ ?_ ?_ ?_ ?_ hnew.children
    · change LlistRep s.threadItems (s.kprocs a.child).threads _
      rw [hc.threads]
      exact hc.rep
    · exact List.forall_mem_singleton.mpr hc.data
    · exact List.forall_mem_singleton.mpr hc.owner
    · exact List.forall_mem_singleton.mpr hc.alloc
    · exact List.forall_mem_singleton.mpr htid
    · intro t ht u hu _
      rw [List.mem_singleton.mp ht, List.mem_singleton.mp hu]
  have htype : (Process.addType typeRunnable (s.kprocs a.child)).type = typeRunnable := by
    change (s.kprocs a.child).type ||| typeRunnable = typeRunnable
    rw [hnew.type]
    rfl
  have htyped : Ids (ps ++ [a.child]) (Function.update ts a.child [a.cthread])
      (s.modProc a.child (Process.addType typeRunnable)).idents := by
    refine hpublished.modProc_type hin rfl rfl rfl ?_
    intro h0
    rw [htype] at h0
    exact absurd (by decide) h0
  have hflags := htyped.modThread_flags (t := a.cthread)
    (g := Kthread.addFlags kthreadFlagRunnable) rfl rfl htid
  have hfilled : ∀ q ∈ ps ++ [a.child], Function.update ts a.child [a.cthread] q ≠ [] :=
    filled_update (fun q hq hqc => h.filled q ((List.mem_append.mp hq).resolve_right fun he =>
      hqc (List.mem_singleton.mp he))) (by simp)
  have hinsert := insert_inv hflags h.ring h.data hnew.nonnull hnew.out hfilled h₁
  exact ⟨_, hinsert.of_idents rfl ⟨rfl, rfl⟩⟩

theorem fork_inv (h : TasksInv ps ts s) (hproc : s.currProcess ≠ 0 → s.currProcess ∈ ps) {a : Fork}
    {r : Int} (hcall : s.fork a = some (s', r)) : ∃ ps' ts', TasksInv ps' ts' s' := by
  obtain ⟨hcurr, s₁, h₁, r₂, h₂, h₃⟩ := fork_eq_some.mp hcall
  obtain ⟨hc0, ht0, -, hheap, hfresh, rfl⟩ := forkMake_eq_some.mp h₁
  obtain ⟨hmade, hchild, hslot⟩ := forkMake_inv h hc0 ht0 hheap hfresh
  have hp := hproc hcurr
  have hadded := hmade.addChild (p := s.currProcess) hchild.heap hc0 hchild.out hchild.type hslot
  unfold forkCloneProcess at h₂
  split at h₂
  · cases h₂
    cases h₃
    exact ⟨ps, ts, hadded.of_idents rfl ⟨rfl, rfl⟩⟩
  · obtain ⟨hcopied, hchild', hnew, htid⟩ := forkCopy_inv hadded (hchild.addChild hp) h₂
    split at h₃
    · cases h₃
      exact ⟨ps, ts, hcopied⟩
    · obtain ⟨ts', hinv⟩ := forkStart_inv hcopied hchild' hnew htid h₃
      exact ⟨_, ts', hinv⟩

/-! ## `init_multitasking` -/

theorem boot_inv (nCpus root : Nat) : TasksInv [] (fun _ => []) (boot nCpus root) where
  ids :=
    { next := Nat.one_pos
      nodup := List.nodup_nil
      heap := nofun
      pid_pos := nofun
      pid_lt := nofun
      pid_inj := nofun
      rep := nofun
      data := nofun
      owner := nofun
      alloc := nofun
      tid_pos := nofun
      tid_inj := nofun
      same := fun _ _ _ h0 => absurd rfl h0
      tid_lt := fun _ => Nat.one_pos
      runs := fun _ h0 => absurd (Nat.zero_and _) h0
      runnable := fun _ h0 => absurd (Nat.zero_and _) h0
      zombie := fun _ h0 => absurd (Nat.zero_and _) h0
      slot := nofun
      once := nofun }
  ring := llistRep_init _
  data := nofun
  filled := nofun

/-- `sched_idle_init` between two rounds: `c` is the idle process, which is not
in `procs` yet, and has the threads `ts c`. -/
structure IdleInv (c : Nat) (ts : Nat → List Nat) (s : Tasks) : Prop where
  ids : Ids [c] ts s.idents
  procs : s.procs = llistInit
  first : ts c = [] → ∀ u, (s.kthreads u).tid ≠ (s.kprocs c).pid
  type : (s.kprocs c).type &&& typeZombie = 0
  curr : s.currThread = 0 ∨ (s.kthreads s.currThread).process = c

theorem getD_set_or (xs : List Nat) (i a : Nat) :
    (xs.set i a).getD 0 0 = xs.getD 0 0 ∨ (xs.set i a).getD 0 0 = a := by
  cases xs with
  | nil => exact .inl rfl
  | cons x xs =>
      cases i with
      | zero => exact .inr rfl
      | succ i => exact .inl rfl

theorem cpuAddThread_made {cpu t : Nat} (h : s.cpuAddThread cpu t = some s') :
    ∃ sched, s' = s.setSched sched ∧ (s'.currThread = s.currThread ∨ s'.currThread = t) := by
  obtain ⟨list, -, h⟩ := Option.bind_eq_some_iff.mp h
  obtain ⟨r, -, h⟩ := Option.bind_eq_some_iff.mp h
  cases h
  refine ⟨_, rfl, ?_⟩
  unfold currThread setSched
  dsimp only
  split
  · exact getD_set_or s.sched.currThread cpu t
  · exact .inl rfl

/-- The idle thread `t` of a CPU, before it joins the idle process `c`. -/
def idleMade (s : Tasks) (c entry cpu t : Nat) : Tasks :=
  ((((s.allocThread t).clearThread t).modThread t fun _ =>
    newThread entry 0 (idleName cpu) 0x200 prioIdle).schedItemData t).modProc c
      (Process.addType typeRunnable)

theorem idleMade_process (s : Tasks) (c entry cpu t : Nat) :
    (s.idleMade c entry cpu t).kprocs c = Process.addType typeRunnable (s.kprocs c) :=
  modProc_self ..

theorem idleMade_thread (s : Tasks) (c entry cpu t : Nat) :
    (s.idleMade c entry cpu t).kthreads t = newThread entry 0 (idleName cpu) 0x200 prioIdle :=
  Function.update_self ..

theorem idleMade_of_ne {c entry cpu t u : Nat} (hu : u ≠ t) :
    (s.idleMade c entry cpu t).kthreads u = s.kthreads u :=
  (Function.update_of_ne hu ..).trans (Function.update_of_ne hu ..)

theorem idleMade_ids {c entry cpu t : Nat} (h : IdleInv c ts s) (hfresh : t ∉ s.threadHeap) :
    Ids [c] ts (s.idleMade c entry cpu t).idents := by
  have hnew := h.ids.newThread (k := newThread entry 0 (idleName cpu) 0x200 prioIdle) hfresh rfl rfl
  have htype : ((s.kprocs c).type ||| typeRunnable) &&& typeZombie = 0 := by
    rw [Nat.and_or_distrib_right, h.type]
    rfl
  exact Ids.modProc_type (s := (((s.allocThread t).clearThread t).modThread t fun _ =>
    newThread entry 0 (idleName cpu) 0x200 prioIdle).schedItemData t) hnew
      (List.mem_singleton_self c) rfl rfl rfl fun h0 => absurd htype h0

theorem idleThread_inv {c entry cpu t : Nat} (h : IdleInv c ts s)
    (hcall : s.idleThread c entry cpu t = some s') :
    IdleInv c (Function.update ts c (ts c ++ [t])) s' := by
  unfold idleThread at hcall
  split at hcall
  · cases hcall
  rename_i ht0
  obtain ⟨r₁, h₁, hcall⟩ := Option.bind_eq_some_iff.mp hcall
  obtain ⟨s₂, h₂, hcall⟩ := Option.bind_eq_some_iff.mp hcall
  obtain ⟨-, s₁, hm, rfl⟩ := (threadCreate_eq_some ht0).mp h₁
  obtain ⟨hfresh, rfl⟩ := kmallocThread_eq_some.mp hm
  obtain ⟨sched, rfl, hcurr⟩ := cpuAddThread_made hcall
  have hin : c ∈ [c] := List.mem_singleton_self c
  have hmade : Ids [c] ts (s.idleMade c entry cpu t).idents := idleMade_ids h hfresh
  have hfirst : ts c = [] → ∀ u, ((s.idleMade c entry cpu t).kthreads u).tid ≠
      ((s.idleMade c entry cpu t).kprocs c).pid := by
    intro hnil u
    rw [idleMade_process]
    by_cases hut : u = t
    · rw [hut, idleMade_thread]
      exact Nat.ne_of_lt (h.ids.pid_pos c hin)
    · rw [idleMade_of_ne hut]
      exact h.first hnil u
  have htid₀ : ((s.idleMade c entry cpu t).kthreads t).tid = 0 := by
    rw [idleMade_thread]
    rfl
  change (s.idleMade c entry cpu t).procAddThread c t = some s₂ at h₂
  obtain ⟨hadded, htid⟩ := hmade.procAddThread hin ht0 (h.ids.not_listed hfresh)
    List.mem_cons_self htid₀ hfirst h₂
  have hflags := hadded.modThread_flags (t := t) (g := Kthread.addFlags kthreadFlagRunnable)
    rfl rfl htid
  obtain ⟨tid, r, n, rfl⟩ := procAddThread_made h₂
  have howner : ∀ u, u = t ∨ (s.kthreads u).process = c → ((({ (s.idleMade c entry cpu t).linkThread
      c t tid r with nextPid := n } : Tasks).modThread t
        (Kthread.addFlags kthreadFlagRunnable)).kthreads u).process = c := by
    intro u hu
    by_cases hut : u = t
    · rw [hut, modThread_self]
      exact (congrArg Kthread.process (modThread_self (s.idleMade c entry cpu t) t
        (Kthread.joins c tid)) :)
    · refine Eq.trans (congrArg Kthread.process ?_) (hu.resolve_left hut)
      exact (Function.update_of_ne hut ..).trans
        ((Function.update_of_ne hut ..).trans (idleMade_of_ne hut))
  refine ⟨hflags, h.procs, ?_, ?_, ?_⟩
  · intro hnil
    rw [Function.update_self] at hnil
    exact absurd hnil (by simp)
  · have htype : ((s.idleMade c entry cpu t).kprocs c).type &&& typeZombie = 0 := by
      rw [idleMade_process]
      change ((s.kprocs c).type ||| typeRunnable) &&& typeZombie = 0
      rw [Nat.and_or_distrib_right, h.type]
      rfl
    have hlinked : ((s.idleMade c entry cpu t).linkThread c t tid r).kprocs c =
        Process.withThreads r.2 ((s.idleMade c entry cpu t).kprocs c) := Function.update_self ..
    change (((s.idleMade c entry cpu t).linkThread c t tid r).kprocs c).type &&& typeZombie = 0
    rw [hlinked]
    exact htype
  · rcases hcurr with hcurr | hcurr
    · rw [hcurr]
      exact h.curr.imp_right fun hc => howner _ (.inr hc)
    · rw [hcurr]
      exact .inr (howner _ (.inl rfl))

theorem idleThreads_inv {c entry : Nat} {threads : List Nat} {cpu : Nat} {s : Tasks}
    {ts : Nat → List Nat} (h : IdleInv c ts s)
    (hcall : idleThreads c entry cpu threads s = some s') :
    ∃ ts', IdleInv c ts' s' ∧ (threads ≠ [] ∨ ts c ≠ [] → ts' c ≠ []) := by
  induction threads generalizing cpu s ts with
  | nil =>
      cases hcall
      exact ⟨ts, h, fun hor => hor.resolve_left (not_not.mpr rfl)⟩
  | cons t threads ih =>
      obtain ⟨s₁, h₁, hcall⟩ := Option.bind_eq_some_iff.mp hcall
      obtain ⟨ts', hinv, hfilled⟩ := ih (idleThread_inv h h₁) hcall
      exact ⟨ts', hinv, fun _ => hfilled (.inr (by simp))⟩

theorem schedIdleInit_inv (h : TasksInv [] ts s) (hprocs : s.procs = llistInit)
    (hcurr : s.currThread = 0) (hcpus : s.sched.cpuThreads ≠ []) {a : IdleInit}
    (hcall : s.schedIdleInit a = some s') :
    ∃ ts', TasksInv [a.proc] ts' s' ∧ (s'.currProcess ≠ 0 → s'.currProcess ∈ [a.proc]) := by
  obtain ⟨r, h₁, hcall⟩ := Option.bind_eq_some_iff.mp hcall
  dsimp only at hcall
  split at hcall
  · cases hcall
  rename_i hok
  rw [not_or, not_not] at hok
  by_cases hc0 : a.proc = 0
  · simp only [procCreate, hc0, if_true, Option.some.injEq] at h₁
    subst h₁
    exact absurd rfl hok.1
  obtain ⟨k, rfl, hheap, hpid, htype, hchildren, hthreads⟩ := procCreate_made hc0 h₁
  obtain ⟨hmade, hnew, -⟩ := procMade_inv h hc0 hheap hpid htype hchildren
  obtain ⟨s₁, h₂, h₃⟩ := Option.bind_eq_some_iff.mp hcall
  have hself := procMade_self s a.proc k
  have hpublished : Ids [a.proc] (Function.update ts a.proc []) (s.procMade a.proc k).idents := by
    refine hmade.ids.publish hnew.out hnew.heap hnew.pid_pos hnew.pid_lt hnew.pid_new
      ?_ ?_ ?_ ?_ ?_ ?_ hnew.children
    · change LlistRep s.threadItems ((s.procMade a.proc k).kprocs a.proc).threads []
      rw [hself, hthreads]
      exact llistRep_init _
    all_goals exact fun t ht => absurd ht List.not_mem_nil
  have hidle : IdleInv a.proc (Function.update ts a.proc []) (s.procMade a.proc k) := by
    refine ⟨hpublished, hprocs, ?_, ?_, .inl hcurr⟩
    · intro _ u
      rw [hself, hpid]
      exact Nat.ne_of_lt (h.ids.tid_lt u)
    · rw [hself, htype]
      rfl
  obtain ⟨ts', hinv, hfilled⟩ := idleThreads_inv hidle h₂
  have hthreads : a.threads ≠ [] := by
    intro hnil
    have hlen := hok.2
    rw [hnil] at hlen
    exact hcpus (List.eq_nil_of_length_eq_zero hlen.symm)
  have hinsert := insert_inv (show Ids ([] ++ [a.proc]) _ _ from hinv.ids)
    (hinv.procs ▸ llistRep_init _) (fun _ hp => absurd hp List.not_mem_nil) hc0
    List.not_mem_nil (fun p hp => by
      rw [List.mem_singleton.mp hp]
      exact hfilled (.inl hthreads)) h₃
  obtain ⟨r₃, -, rfl⟩ := mtaskInsertProc_eq_some.mp h₃
  refine ⟨ts', hinsert, ?_⟩
  intro hcurr0
  have hcurr0' : s₁.currThread ≠ 0 := fun h0 => hcurr0 (if_pos h0)
  rw [currProcess_eq hcurr0]
  exact List.mem_singleton.mpr (hinv.curr.resolve_left hcurr0')

theorem initMultitasking_inv {nCpus root : Nat} (hcpus : 0 < nCpus) {idle : IdleInit} {a : AddTask}
    (hcall : (boot nCpus root).initMultitasking fuel idle a = some s) :
    ∃ ps ts, TasksInv ps ts s := by
  obtain ⟨s₁, h₁, hcall⟩ := Option.bind_eq_some_iff.mp hcall
  obtain ⟨r₂, h₂, hcall⟩ := Option.bind_eq_some_iff.mp hcall
  obtain ⟨thread, -, hcall⟩ := Option.bind_eq_some_iff.mp hcall
  split at hcall
  · cases hcall
  cases hcall
  have hboot : TasksInv [] (fun _ => []) ({ boot nCpus root with procs := llistInit } : Tasks) :=
    boot_inv nCpus root
  have hcurr : (boot nCpus root).currThread = 0 := by
    cases nCpus with
    | zero => rfl
    | succ n => rfl
  have hne : (boot nCpus root).sched.cpuThreads ≠ [] := by
    cases nCpus with
    | zero => cases hcpus
    | succ n => exact List.cons_ne_nil _ _
  obtain ⟨ts', hinv, hproc⟩ := schedIdleInit_inv hboot rfl hcurr hne h₁
  exact addTask_inv hinv hproc h₂

/-! ## Runs -/

/-- A call of a process, with what it gets from elsewhere. -/
inductive TaskCall where
  | addTask (a : AddTask)
  | fork (a : Fork)
  | threadSpawn (a : Spawn)
  | execve (a : Execve)
  | exit (code : Int)
  | wait (cond : Nat) (itemMade : Bool)
  | waitResume

/-- The state a call leaves, once it has returned or waits for the scheduler. -/
def call (fuel : Nat) (s : Tasks) : TaskCall → Option Tasks
  | .addTask a => (s.addTask a).map Prod.fst
  | .fork a => (s.fork a).map Prod.fst
  | .threadSpawn a => (s.threadSpawn a).map Prod.fst
  | .execve a => (s.execve fuel a).map Prod.fst
  | .exit code => s.exit fuel code
  | .wait cond itemMade => (s.wait fuel cond itemMade).map Prod.fst
  | .waitResume => (s.waitResume fuel).map Prod.fst

/-- The calls of a run, each by the thread that the scheduler has made current:
one that is there and can run. Of the scheduler's own structures nothing else
is assumed. -/
inductive CallRun : Tasks → Tasks → Prop
  | nil (s : Tasks) : CallRun s s
  | cons {s s' s'' : Tasks} (sched : Sched) (fuel : Nat) (c : TaskCall) : CallRun s s' →
      (s'.setSched sched).currThread ∈ s'.threadHeap →
      (s'.setSched sched).Runs (s'.setSched sched).currThread →
      (s'.setSched sched).call fuel c = some s'' → CallRun s s''

theorem call_inv (h : TasksInv ps ts s) (halloc : s.currThread ∈ s.threadHeap)
    (hruns : s.Runs s.currThread) {c : TaskCall} (hcall : s.call fuel c = some s') :
    ∃ ps' ts', TasksInv ps' ts' s' := by
  have hproc : s.currProcess ≠ 0 → s.currProcess ∈ ps := fun h0 =>
    currProcess_eq h0 ▸ (h.caller hruns).1
  cases c with
  | addTask a =>
      obtain ⟨r, hr, rfl⟩ := Option.map_eq_some_iff.mp hcall
      exact addTask_inv h hproc hr
  | fork a =>
      obtain ⟨r, hr, rfl⟩ := Option.map_eq_some_iff.mp hcall
      exact fork_inv h hproc hr
  | threadSpawn a =>
      obtain ⟨r, hr, rfl⟩ := Option.map_eq_some_iff.mp hcall
      exact ⟨ps, threadSpawn_inv h hproc hr⟩
  | execve a =>
      obtain ⟨r, hr, rfl⟩ := Option.map_eq_some_iff.mp hcall
      exact ⟨ps, execve_inv h hruns halloc hr⟩
  | exit code => exact ⟨ps, ts, exit_inv h hproc hcall⟩
  | wait cond itemMade =>
      obtain ⟨r, hr, rfl⟩ := Option.map_eq_some_iff.mp hcall
      obtain ⟨ps', hinv⟩ := wait_inv h hproc hr
      exact ⟨ps', ts, hinv⟩
  | waitResume =>
      obtain ⟨r, hr, rfl⟩ := Option.map_eq_some_iff.mp hcall
      obtain ⟨ps', hinv⟩ := waitResume_inv h hproc hr
      exact ⟨ps', ts, hinv⟩

theorem CallRun.inv (hrun : CallRun s s') :
    (∃ ps ts, TasksInv ps ts s) → ∃ ps ts, TasksInv ps ts s' := by
  induction hrun with
  | nil => exact id
  | cons sched fuel c _ halloc hruns hcall ih =>
      intro h
      obtain ⟨ps, ts, hinv⟩ := ih h
      have hsched := hinv.setSched sched
      exact call_inv hsched halloc hruns hcall

/-! ## The searches -/

/-- What a search finds among the data `ds`. -/
def firstFound (visit : Nat → Nat) : List Nat → Nat
  | [] => 0
  | d :: ds => if visit d ≠ 0 then visit d else firstFound visit ds

theorem searchLoop_eq {m : Items} {visit : Nat → Option Nat} {found : Nat → Nat} (fuel : Nat)
    {iter : LlistIterator} {ds : List Nat} (h : iterateAll m fuel iter = some ds)
    (hvisit : ∀ d ∈ ds, visit d = some (found d)) :
    searchLoop m visit fuel iter = some (firstFound found ds) := by
  induction fuel generalizing iter ds with
  | zero => cases h
  | succ fuel ih =>
      unfold iterateAll at h
      unfold searchLoop
      split
      · rename_i hiter
        simp [hiter] at h
      · rename_i hiter
        simp only [hiter, Option.some.injEq] at h
        subst h
        rfl
      · rename_i iter' d hiter
        simp only [hiter] at h
        obtain ⟨rest, hrest, rfl⟩ := Option.map_eq_some_iff.mp h
        have hlater := ih hrest fun d hd => hvisit d (List.mem_cons_of_mem _ hd)
        rw [hvisit d List.mem_cons_self]
        simp only [Option.bind_eq_bind, Option.bind_some, firstFound]
        split
        · rfl
        · exact hlater

/-- The only data a search accepts is what it finds. -/
theorem firstFound_unique {found : Nat → Nat} {x : Nat} (hx0 : found x ≠ 0) {ds : List Nat}
    (hx : x ∈ ds) (huniq : ∀ d ∈ ds, found d ≠ 0 → d = x) : firstFound found ds = found x := by
  induction ds with
  | nil => cases hx
  | cons d ds ih =>
      unfold firstFound
      split
      · rename_i hd
        rw [huniq d List.mem_cons_self hd]
      · rename_i hd
        have hxd : x ≠ d := fun he => hd (he ▸ hx0)
        exact ih ((List.mem_cons.mp hx).resolve_left hxd) fun e he =>
          huniq e (List.mem_cons_of_mem _ he)

theorem firstFound_none {found : Nat → Nat} {ds : List Nat} (h : ∀ d ∈ ds, found d = 0) :
    firstFound found ds = 0 := by
  induction ds with
  | nil => rfl
  | cons d ds ih =>
      unfold firstFound
      rw [if_neg (not_not.mpr (h d List.mem_cons_self))]
      exact ih fun e he => h e (List.mem_cons_of_mem _ he)

/-- The visit of `proc_by_pid`, and of the inner loop of `thread_by_tid`. -/
def matching (id : Nat → Nat) (n a : Nat) : Nat := if id a = n then a else 0

theorem matching_of_eq {id : Nat → Nat} {n a : Nat} (h : id a = n) : matching id n a = a := if_pos h

theorem matching_of_ne {id : Nat → Nat} {n a : Nat} (h : id a ≠ n) : matching id n a = 0 := if_neg h

theorem firstFound_matching {id : Nat → Nat} {n x : Nat} {ds : List Nat} (hx : x ∈ ds)
    (hx0 : x ≠ 0) (hn : id x = n) (huniq : ∀ d ∈ ds, id d = id x → d = x) :
    firstFound (matching id n) ds = x := by
  have hfound := matching_of_eq hn
  have hone : firstFound (matching id n) ds = matching id n x :=
    firstFound_unique (by rwa [hfound]) hx fun d hd hd0 =>
      huniq d hd (by_contra fun hne => hd0 (matching_of_ne (hn ▸ hne)))
  rw [hone, hfound]

theorem firstFound_matching_none {id : Nat → Nat} {n : Nat} {ds : List Nat}
    (h : ∀ d ∈ ds, id d ≠ n) : firstFound (matching id n) ds = 0 :=
  firstFound_none fun d hd => matching_of_ne (h d hd)

theorem map_data {m : Items} {xs : List Nat} (h : ∀ x ∈ xs, (m x).data = x) :
    (xs.map fun x => (m x).data) = xs := by
  rw [List.map_congr_left h, List.map_id']

theorem procByPid_eq (h : TasksInv ps ts s) (hfuel : ps.length < fuel) (pid : Nat) :
    s.procByPid fuel pid = some (firstFound (matching (fun p => (s.kprocs p).pid) pid) ps) := by
  have hall := iterateAll_eq h.ring hfuel
  rw [map_data h.data] at hall
  unfold procByPid
  split
  · rename_i hempty
    rw [h.ring.list_eq_zero_iff.mp hempty]
    rfl
  · exact searchLoop_eq fuel hall fun _ _ => rfl

theorem threadByTid_eq (h : TasksInv ps ts s) (hfuel : ps.length < fuel)
    (hfuels : ∀ p ∈ ps, (ts p).length < fuel) (tid : Nat) :
    s.threadByTid fuel tid = some (firstFound (fun p =>
      firstFound (matching (fun t => (s.kthreads t).tid) tid) (ts p)) ps) := by
  have hall := iterateAll_eq h.ring hfuel
  rw [map_data h.data] at hall
  unfold threadByTid
  split
  · rename_i hempty
    rw [h.ring.list_eq_zero_iff.mp hempty]
    rfl
  · refine searchLoop_eq fuel hall ?_
    intro p hp
    have hinner := iterateAll_eq (h.ids.rep p hp) (hfuels p hp)
    rw [map_data (h.ids.data p hp)] at hinner
    exact searchLoop_eq fuel hinner fun _ _ => rfl

/-! ## Uniqueness -/

/-- `ps` are the processes in `procs`, and `ts p` the threads in the list of
`p`. No identifier is used twice, and each search finds what has it. -/
structure Unique (ps : List Nat) (ts : Nat → List Nat) (s : Tasks) : Prop where
  procs : LlistRep s.procItems s.procs ps
  threads : ∀ p ∈ ps, LlistRep s.threadItems (s.kprocs p).threads (ts p)
  pid_pos : ∀ p ∈ ps, 0 < (s.kprocs p).pid
  pid_nodup : (ps.map fun p => (s.kprocs p).pid).Nodup
  tid_pos : ∀ t ∈ ps.flatMap ts, 0 < (s.kthreads t).tid
  tid_nodup : ((ps.flatMap ts).map fun t => (s.kthreads t).tid).Nodup
  byPid : ∀ fuel pid, ps.length < fuel →
    (∀ p ∈ ps, (s.kprocs p).pid = pid → s.procByPid fuel pid = some p) ∧
      ((∀ p ∈ ps, (s.kprocs p).pid ≠ pid) → s.procByPid fuel pid = some 0)
  byTid : ∀ fuel tid, ps.length < fuel → (∀ p ∈ ps, (ts p).length < fuel) →
    (∀ t ∈ ps.flatMap ts, (s.kthreads t).tid = tid → s.threadByTid fuel tid = some t) ∧
      ((∀ t ∈ ps.flatMap ts, (s.kthreads t).tid ≠ tid) → s.threadByTid fuel tid = some 0)

theorem TasksInv.tid_inj (h : TasksInv ps ts s) {p q t u : Nat} (hp : p ∈ ps) (hq : q ∈ ps)
    (ht : t ∈ ts p) (hu : u ∈ ts q) (he : (s.kthreads t).tid = (s.kthreads u).tid) :
    p = q ∧ t = u := by
  by_cases hpq : p = q
  · subst hpq
    exact ⟨rfl, h.ids.tid_inj p hp t ht u hu he⟩
  · exact absurd he (h.ids.other hp hq hpq ht hu).2

theorem TasksInv.unique (h : TasksInv ps ts s) : Unique ps ts s := by
  refine ⟨h.ring, h.ids.rep, h.ids.pid_pos, ?_, ?_, ?_, ?_,
    ?_⟩
  · exact h.ids.nodup.map_on fun p hp q hq he => h.ids.pid_inj p hp q hq he
  · intro t ht
    obtain ⟨p, hp, htp⟩ := List.mem_flatMap.mp ht
    exact Nat.pos_of_ne_zero (h.ids.tid_pos p hp t htp)
  · have hnd : (ps.flatMap ts).Nodup := by
      refine List.nodup_flatMap.mpr ⟨fun p hp => (h.ids.rep p hp).ring.nodup, ?_⟩
      refine h.ids.nodup.pairwise_of_forall_ne ?_
      intro p hp q hq hpq t ht hu
      exact (h.ids.other hp hq hpq ht hu).1 rfl
    refine hnd.map_on ?_
    intro t ht u hu he
    obtain ⟨p, hp, htp⟩ := List.mem_flatMap.mp ht
    obtain ⟨q, hq, huq⟩ := List.mem_flatMap.mp hu
    exact (h.tid_inj hp hq htp huq he).2
  · intro fuel pid hfuel
    rw [procByPid_eq h hfuel]
    refine ⟨?_, ?_⟩
    · intro p hp hpid
      have hp0 : p ≠ 0 := fun h0 => h.ring.nonnull (h0 ▸ hp)
      exact congrArg some (firstFound_matching hp hp0 hpid fun q hq => h.ids.pid_inj q hq p hp)
    · intro hne
      exact congrArg some (firstFound_matching_none hne)
  · intro fuel tid hfuel hfuels
    rw [threadByTid_eq h hfuel hfuels]
    refine ⟨?_, ?_⟩
    · intro t ht htid
      obtain ⟨p, hp, htp⟩ := List.mem_flatMap.mp ht
      have ht0 : t ≠ 0 := fun h0 => (h.ids.rep p hp).nonnull (h0 ▸ htp)
      have hfound : firstFound (matching (fun t => (s.kthreads t).tid) tid) (ts p) = t :=
        firstFound_matching htp ht0 htid fun u hu => h.ids.tid_inj p hp u hu t htp
      rw [firstFound_unique (by rwa [hfound]) hp fun q hq hfound' => ?_, hfound]
      by_contra hqp
      refine hfound' (firstFound_matching_none fun u hu he => hqp ?_)
      exact (h.tid_inj hq hp hu htp (he.trans htid.symm)).1
    · intro hne
      rw [firstFound_none fun p hp => firstFound_matching_none fun t ht =>
        hne t (List.mem_flatMap.mpr ⟨p, hp, ht⟩)]

/-- From `init_multitasking` on, identifiers are unique. -/
theorem ids_unique {nCpus root : Nat} (hcpus : 0 < nCpus) {idle : IdleInit} {a : AddTask}
    (hinit : (boot nCpus root).initMultitasking fuel idle a = some s) (hrun : CallRun s s') :
    ∃ ps ts, Unique ps ts s' := by
  obtain ⟨ps, ts, hinv⟩ := hrun.inv (initMultitasking_inv hcpus hinit)
  exact ⟨ps, ts, hinv.unique⟩

/-! A boot with one CPU, and a `fork` by the first task. -/

def bootIdle : IdleInit where
  proc := 1
  cloned := 0x1000
  threads := [2]
  entry := 0x2000

def kernelTask : AddTask where
  process := 0x3000
  name := [0x6B]
  stackSize := 0
  pri := 0
  domain := 0
  mmuTable := 0
  proc := 3
  cloned := 0x1000
  thread := 4

def kernelFork : Fork where
  child := 5
  cthread := 6
  mmuTable := 0x1000
  stackMade := true
  kernelStackMade := true
  stackCopied := true
  dataCopied := true
  mmap := 0

/-- The scheduler has switched to the first task. -/
def kernelRuns (s : Tasks) : Tasks := s.setSched { s.sched with currThread := [4] }

theorem ids_unique_forked : ∃ s s' ps ts,
    (boot 1 7).initMultitasking 4 bootIdle kernelTask = some s ∧
      (kernelRuns s).fork kernelFork = some (s', 3) ∧ Unique ps ts s' := by
  have hboot : ((boot 1 7).initMultitasking 4 bootIdle kernelTask).bind (fun s =>
      ((kernelRuns s).fork kernelFork).map fun r =>
        (r.2, decide (4 ∈ s.threadHeap), decide ((kernelRuns s).Runs 4))) =
      some (3, true, true) := by decide
  obtain ⟨s, hinit, hfork⟩ := Option.bind_eq_some_iff.mp hboot
  obtain ⟨⟨s', ret⟩, hcall, heq⟩ := Option.map_eq_some_iff.mp hfork
  simp only [Prod.mk.injEq, decide_eq_true_eq] at heq
  obtain ⟨rfl, halloc, hruns⟩ := heq
  have hrun : CallRun s s' :=
    .cons { s.sched with currThread := [4] } 4 (.fork kernelFork) (.nil s) halloc hruns
      (Option.map_eq_some_iff.mpr ⟨_, hcall, rfl⟩)
  obtain ⟨ps, ts, hunique⟩ := ids_unique (by decide) hinit hrun
  exact ⟨s, s', ps, ts, hinit, hcall, hunique⟩

end LambdaOs.Tasks
