import LambdaOs.LlistRefine
import LambdaOs.Run

/-!
# Handing threads to the scheduler

`proc/sched.c`: `sched_enqueue_thread` puts a new thread on `_thread_queue`
under the queue's lock, which it takes with `lock_for`. The timer tick calls
`sched_processes`, which moves the queue to the CPUs' lists and takes the
lock with `lock_try`.

Calls of `sched_enqueue_thread` are interleaved at every access to memory
that is shared: each exchange on the lock, the test for an empty list, each
store that links the item, the release. A tick runs in the interrupt handler
and is not interrupted.

`lock_try` answers the wrong way round: it returns `0`, success, exactly when
the lock is held by somebody else. So a tick either takes the lock and leaves
without releasing it, or empties a queue it has no right to and releases a
lock it does not hold. Without ticks the calls hand their threads over
properly (`thread_handoff_iff_no_tick`).
-/

namespace LambdaOs

/-! ## Stores of an append -/

/-- The stores of `llist_append_unlocked`, in order. -/
inductive LinkStore where
  | lastNext
  | itemPrev
  | headPrev
  | itemNext
  | head
  | selfNext
  | selfPrev
deriving Repr, DecidableEq

def runStore (item : Nat) (ml : Items × Llist) : LinkStore → Items × Llist
  | .lastNext => (ml.1.setNext (ml.1 ml.2.list).prev item, ml.2)
  | .itemPrev => (ml.1.setPrev item (ml.1 ml.2.list).prev, ml.2)
  | .headPrev => (ml.1.setPrev ml.2.list item, ml.2)
  | .itemNext => (ml.1.setNext item ml.2.list, ml.2)
  | .head => (ml.1, { ml.2 with list := item })
  | .selfNext => (ml.1.setNext item item, ml.2)
  | .selfPrev => (ml.1.setPrev item item, ml.2)

/-- The branch taken for a list. -/
def appendStores (list : Llist) : List LinkStore :=
  if list.list ≠ 0 then [.lastNext, .itemPrev, .headPrev, .itemNext]
  else [.head, .selfNext, .selfPrev]

theorem appendStores_run (m : Items) (list : Llist) {item : Nat} (h : item ≠ 0) :
    (appendStores list).foldl (runStore item) (m, list) = llistAppendUnlocked m list item := by
  unfold appendStores llistAppendUnlocked
  rw [if_neg h]
  split <;> rfl

/-! ## The state -/

/-- Who may hold the lock of the queue. -/
inductive Party where
  | call (c : Nat)
  | tick
deriving Repr, DecidableEq

/-- Where a call of `sched_enqueue_thread` is: not made, in `lock_for` until
time `stop`, past it, linking its item with some stores to go, returned. -/
inductive EnqueueCall where
  | idle
  | locking (thread stop : Nat)
  | locked (thread : Nat)
  | linking (thread : Nat) (stores : List LinkStore)
  | returned (thread : Nat) (ret : Int)
deriving Repr, DecidableEq

/-- The scheduler. A thread is named by its `sched_item`. Two fields are not
in the code: `holder`, who acquired the queue's lock and has not released it,
and `threads`, all threads made so far. -/
structure Sched where
  items : Items
  threadQueue : Llist
  cpuThreads : List Llist
  currThread : List Nat
  kerneltime : Nat
  calls : Nat → EnqueueCall
  holder : Option Party
  threads : List Nat

/-- `p->data = v`. -/
def Items.setData (m : Items) (p v : Nat) : Items :=
  Function.update m p { m p with data := v }

/-! ## `sched_enqueue_thread` -/

/-- The milliseconds given to `lock_for`, which adds them to `kerneltime`. -/
def enqueueTimeout : Nat := 2000

namespace Sched

def setCall (s : Sched) (c : Nat) (e : EnqueueCall) : Sched :=
  { s with calls := Function.update s.calls c e }

/-- Entering the call, up to the first exchange. Callers pass a thread they
have just made; a `NULL` thread panics. -/
def enter (s : Sched) (c thread : Nat) : Option Sched :=
  if s.calls c = .idle ∧ thread ≠ 0 ∧ thread ∉ s.threads then
    some { s.setCall c (.locking thread (s.kerneltime + enqueueTimeout)) with
      items := s.items.setData thread thread
      threads := thread :: s.threads }
  else none

/-- The next access of a call. Between two failed exchanges `run_sched` lets
others run. -/
def runCall (s : Sched) (c : Nat) : Option Sched :=
  match s.calls c with
  | .idle => none
  | .returned _ _ => none
  | .locking thread stop =>
      if s.threadQueue.lock = 0 then
        some { s.setCall c (.locked thread) with
          threadQueue := { s.threadQueue with lock := 1 }
          holder := some (.call c) }
      else if s.kerneltime ≥ stop then some (s.setCall c (.returned thread (-ETIMEDOUT)))
      else some s
  | .locked thread => some (s.setCall c (.linking thread (appendStores s.threadQueue)))
  | .linking thread (st :: stores) =>
      let ml := runStore thread (s.items, s.threadQueue) st
      some { s.setCall c (.linking thread stores) with items := ml.1, threadQueue := ml.2 }
  | .linking thread [] =>
      some { s.setCall c (.returned thread 0) with
        threadQueue := s.threadQueue.release
        holder := none }

/-! ## `sched_processes` -/

/-- `_cpu_add_thread`. -/
def cpuAddThread (s : Sched) (cpu thread : Nat) : Option Sched := do
  let list ← s.cpuThreads[cpu]?
  let (m, list) ← llistAppend s.items list thread
  return { s with
    items := m
    cpuThreads := s.cpuThreads.set cpu list
    currThread := if s.currThread.getD cpu 0 = 0 then s.currThread.set cpu thread
      else s.currThread }

/-- The CPU chosen by `_schedule_thread`. Its loop reads the count of CPU
`_n_cpus`, past the end of the array, in every round: `past`. -/
def chooseCpu (count past nCpus : Nat) : Nat :=
  ((List.range' 1 (nCpus - 1)).foldl (fun cc i => if past < cc.1 then (past, i) else cc)
    (count, 0)).2

def scheduleThread (fuel past : Nat) (s : Sched) (thread : Nat) : Option Sched :=
  if thread = 0 then none
  else do
    let list ← s.cpuThreads[0]?
    let count ← llistCount fuel s.items list
    s.cpuAddThread (chooseCpu count.toNat past s.cpuThreads.length) thread

/-- The loop of `sched_processes`. -/
def drainQueue (fuel past : Nat) : Nat → Sched → Option Sched
  | 0, _ => none
  | rounds + 1, s =>
      let r := llistPopUnlocked s.items s.threadQueue
      let s := { s with items := r.1, threadQueue := r.2.1 }
      if r.2.2 = 0 then some s
      else do
        let s ← s.scheduleThread fuel past (s.items r.2.2).data
        drainQueue fuel past rounds s

end Sched

/-- The return value of `lock_try` on a lock with the given value. -/
def lockTry (lock : Nat) : Int := if lock ≠ 0 then 0 else -EUNSPEC

namespace Sched

/-- The exchange of `lock_try` on the queue's lock. -/
def tryQueue (s : Sched) : Sched :=
  { s with
    threadQueue := { s.threadQueue with lock := 1 }
    holder := if s.threadQueue.lock = 0 then some .tick else s.holder }

def schedProcesses (fuel past : Nat) (s : Sched) : Option Sched :=
  if lockTry s.threadQueue.lock ≠ 0 then some s.tryQueue
  else do
    let s ← s.tryQueue.drainQueue fuel past fuel
    return { s with threadQueue := s.threadQueue.release, holder := none }

/-- What a tick adds to `kerneltime`. -/
def tickTime : Nat := 10000000

end Sched

/-! ## Runs -/

/-- A call is entered, a call makes its next access, or the timer ticks.
`fuel` bounds the loops of a tick: one that runs longer does not return. -/
inductive SchedAct where
  | enter (c thread : Nat)
  | run (c : Nat)
  | tick (fuel past : Nat)
deriving Repr, DecidableEq

def SchedAct.IsTick : SchedAct → Prop
  | .tick _ _ => True
  | _ => False

def schedStep (s : Sched) : SchedAct → Option Sched
  | .enter c thread => s.enter c thread
  | .run c => s.runCall c
  | .tick fuel past =>
      { s with kerneltime := s.kerneltime + Sched.tickTime }.schedProcesses fuel past

/-! ## What a hand-off should be -/

/-- Who reads or modifies the list of the queue in a step. -/
def Sched.touches (s : Sched) : SchedAct → Option Party
  | .enter _ _ => none
  | .run c =>
      match s.calls c with
      | .locked _ => some (.call c)
      | .linking _ (_ :: _) => some (.call c)
      | _ => none
  | .tick _ _ => if lockTry s.threadQueue.lock = 0 then some .tick else none

/-- Who holds the lock at that point of the step. A tick has just tried to
take it. -/
def Sched.holderIn (s : Sched) : SchedAct → Option Party
  | .tick _ _ => s.tryQueue.holder
  | _ => s.holder

/-- The queue is touched only by the holder of its lock, and a tick returns
with the lock as it found it. -/
structure HandOffStep (s : Sched) (a : SchedAct) (s' : Sched) : Prop where
  owned : ∀ p, s.touches a = some p → s.holderIn a = some p
  lockKept : a.IsTick → s'.threadQueue.lock = s.threadQueue.lock

/-- Whenever no call is in the middle of linking, the lists are well formed
and every thread whose call has returned is in exactly one place. -/
def Placed (s : Sched) : Prop :=
  (∀ c t stores, s.calls c ≠ .linking t stores) →
    ∃ qs css, LlistRep s.items s.threadQueue qs ∧
      List.Forall₂ (LlistRep s.items) s.cpuThreads css ∧
      ∀ c t ret, s.calls c = .returned t ret → (qs ++ css.flatten).count t = 1

/-- All steps and states of a run. -/
def HandsOff : Sched → List SchedAct → Prop
  | s, [] => Placed s
  | s, a :: as => Placed s ∧ ∀ s', schedStep s a = some s' → HandOffStep s a s' ∧ HandsOff s' as

/-- After `sched_init` and `sched_idle_init`: nothing queued, no call made,
the CPUs' lists well formed and without common threads. -/
structure SchedBoot (s : Sched) : Prop where
  queue : s.threadQueue = llistInit
  free : s.holder = none
  idle : ∀ c, s.calls c = .idle
  cpus : ∃ css, List.Forall₂ (LlistRep s.items) s.cpuThreads css ∧ css.flatten.Nodup ∧
    ∀ t ∈ css.flatten, t ∈ s.threads

/-! ## Data fields -/

theorem LlistRep.setData {m : Items} {l : Llist} {xs : List Nat} (h : LlistRep m l xs) (p v : Nat) :
    LlistRep (m.setData p v) l xs := by
  have hnext : ∀ q, (m.setData p v q).next = (m q).next := by
    intro q
    by_cases hq : q = p
    · subst hq; simp [Items.setData]
    · simp [Items.setData, hq]
  have hprev : ∀ q, (m.setData p v q).prev = (m q).prev := by
    intro q
    by_cases hq : q = p
    · subst hq; simp [Items.setData]
    · simp [Items.setData, hq]
  exact ⟨h.ring.congr (fun q _ => hnext q) (fun q _ => hprev q), h.nonnull, h.head⟩

theorem Items.setNext_setData (m : Items) (p v q w : Nat) :
    (m.setData p v).setNext q w = (m.setNext q w).setData p v := by
  funext x
  by_cases hxq : x = q <;> by_cases hxp : x = p <;> by_cases hqp : q = p <;>
    simp_all [Items.setData, Items.setNext, Function.update_apply]

theorem Items.setPrev_setData (m : Items) (p v q w : Nat) :
    (m.setData p v).setPrev q w = (m.setPrev q w).setData p v := by
  funext x
  by_cases hxq : x = q <;> by_cases hxp : x = p <;> by_cases hqp : q = p <;>
    simp_all [Items.setData, Items.setPrev, Function.update_apply]

theorem Items.setData_prev (m : Items) (p v q : Nat) : (m.setData p v q).prev = (m q).prev := by
  by_cases hq : q = p
  · subst hq; simp [Items.setData]
  · simp [Items.setData, hq]

/-- The stores do not read data fields. -/
theorem runStores_setData (item : Nat) (m : Items) (l : Llist) (p v : Nat) :
    ∀ stores : List LinkStore, stores.foldl (runStore item) (m.setData p v, l) =
      ((stores.foldl (runStore item) (m, l)).1.setData p v,
        (stores.foldl (runStore item) (m, l)).2) := by
  intro stores
  induction stores generalizing m l with
  | nil => rfl
  | cons st stores ih =>
    have hstep : runStore item (m.setData p v, l) st =
        ((runStore item (m, l) st).1.setData p v, (runStore item (m, l) st).2) := by
      cases st <;>
        simp only [runStore, Items.setNext_setData, Items.setPrev_setData, Items.setData_prev]
    rw [List.foldl_cons, List.foldl_cons, hstep, ih]

/-! ## Stores -/

theorem runStore_lock (item : Nat) (ml : Items × Llist) (st : LinkStore) :
    (runStore item ml st).2.lock = ml.2.lock := by
  cases st <;> rfl

/-- No prefix of an append touches an item outside the list. -/
theorem appendStores_frame {m : Items} {l : Llist} {xs : List Nat} (h : LlistRep m l xs)
    {item q : Nat} (hq : q ∉ xs) (hqi : q ≠ item) {pre : List LinkStore}
    (hpre : pre <+: appendStores l) : (pre.foldl (runStore item) (m, l)).1 q = m q := by
  unfold appendStores at hpre
  split at hpre
  · rename_i hne
    -- the last item and the head are in the list
    have hxs : xs ≠ [] := fun hnil => hne (h.list_eq_zero_iff.mpr hnil)
    have hhead : l.list ∈ xs := by
      rw [h.head]
      cases xs with
      | nil => exact absurd rfl hxs
      | cons x xs => exact List.mem_cons_self ..
    have hlast : (m l.list).prev ∈ xs := by
      cases xs with
      | nil => exact absurd rfl hxs
      | cons x xs =>
        have hx : l.list = x := h.head
        rw [hx]
        exact h.ring.prev_head_mem
    have hqh : q ≠ l.list := fun heq => hq (heq ▸ hhead)
    have hql : q ≠ (m l.list).prev := fun heq => hq (heq ▸ hlast)
    simp only [List.prefix_cons_iff, List.prefix_nil] at hpre
    rcases hpre with rfl | ⟨_, rfl, rfl | ⟨_, rfl, rfl | ⟨_, rfl, rfl | ⟨_, rfl, rfl⟩⟩⟩⟩ <;>
      simp [runStore, hqi, hqh, hql]
  · simp only [List.prefix_cons_iff, List.prefix_nil] at hpre
    rcases hpre with rfl | ⟨_, rfl, rfl | ⟨_, rfl, rfl | ⟨_, rfl, rfl⟩⟩⟩ <;>
      simp [runStore, hqi]

/-! ## The invariant of the calls -/

/-- The thread of a call that has not linked it yet. -/
def EnqueueCall.pending : EnqueueCall → Option Nat
  | .locking t _ => some t
  | .locked t => some t
  | .linking t _ => some t
  | _ => none

/-- The call is between its acquire and its release. -/
def EnqueueCall.Inside : EnqueueCall → Prop
  | .locked _ => True
  | .linking _ _ => True
  | _ => False

/-- The stores to go make the list of `qs` one longer, and leave `rest`
alone. -/
structure LinkRest (qs rest : List Nat) (thread : Nat) (stores : List LinkStore)
    (ml : Items × Llist) : Prop where
  done : LlistRep (stores.foldl (runStore thread) ml).1 (stores.foldl (runStore thread) ml).2
    (qs ++ [thread])
  frame : ∀ pre, pre <+: stores → ∀ q ∈ rest, (pre.foldl (runStore thread) ml).1 q = ml.1 q

/-- The queue as the call that holds the lock has it. -/
def QueueState (qs rest : List Nat) (s : Sched) : EnqueueCall → Prop
  | .linking t stores => LinkRest qs rest t stores (s.items, s.threadQueue)
  | _ => LlistRep s.items s.threadQueue qs

/-- The threads are on the queue, on a CPU (`rest`), or still with their
call. -/
structure CallsInv (qs rest threads : List Nat) (kerneltime : Nat) (calls : Nat → EnqueueCall) :
    Prop where
  nodup : (qs ++ rest).Nodup
  known : ∀ t ∈ qs ++ rest, t ∈ threads
  pendingKnown : ∀ c t, (calls c).pending = some t → t ∈ threads ∧ t ≠ 0
  pendingOut : ∀ c t, (calls c).pending = some t → t ∉ qs ++ rest
  pendingOne : ∀ c c' t, (calls c).pending = some t → (calls c').pending = some t → c = c'
  done : ∀ c t ret, calls c = .returned t ret → t ∈ qs
  inTime : ∀ c t stop, calls c = .locking t stop → kerneltime < stop

/-- A run without ticks: the lock is held by the one call inside, if any. -/
structure SchedInv (qs : List Nat) (css : List (List Nat)) (s : Sched) : Prop where
  calls : CallsInv qs css.flatten s.threads s.kerneltime s.calls
  cpus : List.Forall₂ (LlistRep s.items) s.cpuThreads css
  owner : (s.holder = none ∧ s.threadQueue.lock = 0 ∧ (∀ c, ¬ (s.calls c).Inside) ∧
      LlistRep s.items s.threadQueue qs) ∨
    ∃ c, s.holder = some (.call c) ∧ s.threadQueue.lock = 1 ∧
      (∀ c', (s.calls c').Inside ↔ c' = c) ∧ QueueState qs css.flatten s (s.calls c)

theorem SchedBoot.inv {s : Sched} (h : SchedBoot s) : ∃ css, SchedInv [] css s := by
  obtain ⟨css, hcpus, hnd, hknown⟩ := h.cpus
  have hidle : s.calls = fun _ => .idle := funext h.idle
  refine ⟨css, ?_, hcpus, Or.inl ⟨h.free, ?_, ?_, ?_⟩⟩
  · rw [hidle]
    exact ⟨hnd, hknown, nofun, nofun, nofun, nofun, nofun⟩
  · rw [h.queue]
    rfl
  · rw [hidle]
    exact fun _ => id
  · rw [h.queue]
    exact llistRep_init _

theorem SchedInv.placed {qs : List Nat} {css : List (List Nat)} {s : Sched}
    (h : SchedInv qs css s) : Placed s := by
  intro hquiet
  refine ⟨qs, css, ?_, h.cpus, ?_⟩
  · rcases h.owner with ⟨-, -, -, hrep⟩ | ⟨c, -, -, hin, hq⟩
    · exact hrep
    · cases hc : s.calls c with
      | linking t stores => exact absurd hc (hquiet c t stores)
      | _ => rw [hc] at hq; exact hq
  · intro c t ret hr
    exact List.count_eq_one_of_mem h.calls.nodup
      (List.mem_append_left _ (h.calls.done c t ret hr))

/-! ## Steps of the calls -/

section Calls

variable {qs rest threads : List Nat} {kerneltime : Nat} {calls : Nat → EnqueueCall}

/-- The pending thread of each call after one call moved. -/
theorem pending_update {c : Nat} {e : EnqueueCall} {c' u : Nat}
    (h : (Function.update calls c e c').pending = some u) :
    (c' = c ∧ e.pending = some u) ∨ (c' ≠ c ∧ (calls c').pending = some u) := by
  by_cases hc : c' = c
  · rw [hc, Function.update_self] at h
    exact Or.inl ⟨hc, h⟩
  · rw [Function.update_of_ne hc] at h
    exact Or.inr ⟨hc, h⟩

theorem CallsInv.enter (h : CallsInv qs rest threads kerneltime calls) {c t : Nat} (ht0 : t ≠ 0)
    (hnew : t ∉ threads) :
    CallsInv qs rest (t :: threads) kerneltime
      (Function.update calls c (.locking t (kerneltime + enqueueTimeout))) := by
  have hpend : ∀ {c' u}, (Function.update calls c (.locking t (kerneltime + enqueueTimeout))
      c').pending = some u → (c' = c ∧ t = u) ∨ (calls c').pending = some u := fun hp =>
    (pending_update hp).imp (fun hp => ⟨hp.1, Option.some.inj hp.2⟩) fun hp => hp.2
  refine ⟨h.nodup, fun u hu => List.mem_cons_of_mem _ (h.known u hu), ?_, ?_, ?_, ?_, ?_⟩
  · intro c' u hp
    rcases hpend hp with ⟨-, rfl⟩ | hp
    · exact ⟨List.mem_cons_self .., ht0⟩
    · exact ⟨List.mem_cons_of_mem _ (h.pendingKnown c' u hp).1, (h.pendingKnown c' u hp).2⟩
  · intro c' u hp hmem
    rcases hpend hp with ⟨-, rfl⟩ | hp
    · exact hnew (h.known _ hmem)
    · exact h.pendingOut c' u hp hmem
  · intro c₁ c₂ u h₁ h₂
    rcases hpend h₁ with ⟨hc₁, ht₁⟩ | hp₁ <;> rcases hpend h₂ with ⟨hc₂, ht₂⟩ | hp₂
    · exact hc₁.trans hc₂.symm
    · exact absurd (h.pendingKnown c₂ u hp₂).1 (ht₁ ▸ hnew)
    · exact absurd (h.pendingKnown c₁ u hp₁).1 (ht₂ ▸ hnew)
    · exact h.pendingOne c₁ c₂ u hp₁ hp₂
  · intro c' u ret hr
    by_cases hc : c' = c
    · rw [hc, Function.update_self] at hr
      cases hr
    · rw [Function.update_of_ne hc] at hr
      exact h.done c' u ret hr
  · intro c' u stop hl
    by_cases hc : c' = c
    · rw [hc, Function.update_self] at hl
      obtain ⟨-, rfl⟩ := EnqueueCall.locking.inj hl
      exact Nat.lt_add_of_pos_right (by decide)
    · rw [Function.update_of_ne hc] at hl
      exact h.inTime c' u stop hl

/-- A call goes on with its thread, inside the lock. -/
theorem CallsInv.go (h : CallsInv qs rest threads kerneltime calls) {c t : Nat} {e : EnqueueCall}
    (hc : (calls c).pending = some t) (he : e.pending = some t) (hin : e.Inside) :
    CallsInv qs rest threads kerneltime (Function.update calls c e) := by
  have hpend : ∀ {c' u}, (Function.update calls c e c').pending = some u →
      (calls c').pending = some u := by
    intro c' u hp
    rcases pending_update hp with ⟨rfl, hu⟩ | ⟨-, hp⟩
    · rw [hc, ← he, hu]
    · exact hp
  refine ⟨h.nodup, h.known, fun c' u hp => h.pendingKnown c' u (hpend hp),
    fun c' u hp => h.pendingOut c' u (hpend hp),
    fun c₁ c₂ u h₁ h₂ => h.pendingOne c₁ c₂ u (hpend h₁) (hpend h₂), ?_, ?_⟩
  · intro c' u ret hr
    by_cases heq : c' = c
    · rw [heq, Function.update_self] at hr
      rw [hr] at hin
      exact hin.elim
    · rw [Function.update_of_ne heq] at hr
      exact h.done c' u ret hr
  · intro c' u stop hl
    by_cases heq : c' = c
    · rw [heq, Function.update_self] at hl
      rw [hl] at hin
      exact hin.elim
    · rw [Function.update_of_ne heq] at hl
      exact h.inTime c' u stop hl

/-- A call returns, with its thread on the queue. -/
theorem CallsInv.finish (h : CallsInv qs rest threads kerneltime calls) {c t : Nat} {ret : Int}
    (hc : (calls c).pending = some t) :
    CallsInv (qs ++ [t]) rest threads kerneltime (Function.update calls c (.returned t ret)) := by
  have hout := h.pendingOut c t hc
  have hmem : ∀ u, u ∈ qs ++ [t] ++ rest ↔ u = t ∨ u ∈ qs ++ rest := by
    intro u
    simp only [List.mem_append, List.mem_singleton]
    exact ⟨fun hu => hu.elim (fun hu => hu.elim (fun hu => Or.inr (Or.inl hu)) Or.inl)
      fun hu => Or.inr (Or.inr hu), fun hu => hu.elim (fun hu => Or.inl (Or.inr hu))
      fun hu => hu.imp Or.inl id⟩
  have hpend : ∀ {c' u}, (Function.update calls c (.returned t ret) c').pending = some u →
      c' ≠ c ∧ (calls c').pending = some u := fun hp =>
    (pending_update hp).elim (fun hp => nomatch hp.2) id
  refine ⟨?_, ?_, fun c' u hp => h.pendingKnown c' u (hpend hp).2,
    ?_, fun c₁ c₂ u h₁ h₂ => h.pendingOne c₁ c₂ u (hpend h₁).2 (hpend h₂).2,
    ?_, ?_⟩
  · rw [List.append_assoc, List.singleton_append, List.nodup_middle, List.nodup_cons]
    exact ⟨hout, h.nodup⟩
  · intro u hu
    rcases (hmem u).mp hu with rfl | hu
    · exact (h.pendingKnown c u hc).1
    · exact h.known u hu
  · intro c' u hp hu
    obtain ⟨hne, hp'⟩ := hpend hp
    rcases (hmem u).mp hu with rfl | hu
    · exact hne (h.pendingOne c' c u hp' hc)
    · exact h.pendingOut c' u hp' hu
  · intro c' u ret' hr
    by_cases heq : c' = c
    · rw [heq, Function.update_self] at hr
      obtain ⟨rfl, -⟩ := EnqueueCall.returned.inj hr
      exact List.mem_append_right _ (List.mem_singleton.mpr rfl)
    · rw [Function.update_of_ne heq] at hr
      exact List.mem_append_left _ (h.done c' u ret' hr)
  · intro c' u stop hl
    by_cases heq : c' = c
    · rw [heq, Function.update_self] at hl
      cases hl
    · rw [Function.update_of_ne heq] at hl
      exact h.inTime c' u stop hl

end Calls

theorem LinkRest.setData {qs rest : List Nat} {t : Nat} {stores : List LinkStore} {m : Items}
    {l : Llist} (h : LinkRest qs rest t stores (m, l)) (p v : Nat) :
    LinkRest qs rest t stores (m.setData p v, l) := by
  constructor
  · rw [runStores_setData]
    exact h.done.setData p v
  · intro pre hpre q hq
    rw [runStores_setData]
    have heq := h.frame pre hpre q hq
    by_cases hqp : q = p
    · subst hqp
      simp only [Items.setData, Function.update_self, heq]
    · simp only [Items.setData, Function.update_of_ne hqp, heq]

/-- The first store of the rest. -/
theorem LinkRest.step {qs rest : List Nat} {t : Nat} {st : LinkStore} {stores : List LinkStore}
    {ml : Items × Llist} (h : LinkRest qs rest t (st :: stores) ml) :
    LinkRest qs rest t stores (runStore t ml st) ∧
      ∀ q ∈ rest, (runStore t ml st).1 q = ml.1 q := by
  have hfirst : ∀ q ∈ rest, (runStore t ml st).1 q = ml.1 q :=
    h.frame [st] (List.prefix_cons_iff.mpr (Or.inr ⟨[], rfl, List.nil_prefix⟩))
  refine ⟨⟨h.done, ?_⟩, hfirst⟩
  intro pre hpre q hq
  rw [hfirst q hq]
  exact h.frame (st :: pre) (List.prefix_cons_iff.mpr (Or.inr ⟨pre, rfl, hpre⟩)) q hq

/-- Linking starts. -/
theorem LinkRest.start {qs rest : List Nat} {t : Nat} {m : Items} {l : Llist}
    (h : LlistRep m l qs) (ht0 : t ≠ 0) (ht : t ∉ qs) (hrest : ∀ q ∈ rest, q ∉ qs ∧ q ≠ t) :
    LinkRest qs rest t (appendStores l) (m, l) := by
  constructor
  · rw [appendStores_run m l ht0]
    exact llistRep_append h ht0 ht
  · intro pre hpre q hq
    exact appendStores_frame h (hrest q hq).1 (hrest q hq).2 hpre

section Step

variable {qs : List Nat} {css : List (List Nat)} {s s' : Sched} {c : Nat}

theorem Sched.enter_inv {t : Nat} (h : SchedInv qs css s) (hs : s.enter c t = some s') :
    SchedInv qs css s' := by
  unfold Sched.enter at hs
  split at hs
  · rename_i hnew
    obtain ⟨hidle, ht0, hnew⟩ := hnew
    obtain rfl := Option.some.inj hs
    refine ⟨h.calls.enter ht0 hnew, h.cpus.imp fun _ _ hrep => hrep.setData t t, ?_⟩
    have hinside : ∀ c', (Function.update s.calls c (.locking t (s.kerneltime + enqueueTimeout))
        c').Inside ↔ (s.calls c').Inside := by
      intro c'
      by_cases hc : c' = c
      · rw [hc, Function.update_self, hidle]
        exact Iff.rfl
      · rw [Function.update_of_ne hc]
    rcases h.owner with ⟨hh, hl, hout, hrep⟩ | ⟨c₀, hh, hl, hin, hq⟩
    · exact Or.inl ⟨hh, hl, fun c' hc' => hout c' ((hinside c').mp hc'), hrep.setData t t⟩
    · refine Or.inr ⟨c₀, hh, hl, fun c' => (hinside c').trans (hin c'), ?_⟩
      have hne : c₀ ≠ c := by
        rintro rfl
        have hcon := (hin c₀).mpr rfl
        rw [hidle] at hcon
        exact hcon
      simp only [Sched.setCall, Function.update_of_ne hne]
      cases hc₀ : s.calls c₀ with
      | linking u stores =>
        rw [hc₀] at hq
        exact LinkRest.setData hq t t
      | _ =>
        rw [hc₀] at hq
        exact LlistRep.setData hq t t
  · cases hs

/-- The call inside is the holder. -/
theorem SchedInv.inside (h : SchedInv qs css s) (hin : (s.calls c).Inside) :
    s.holder = some (.call c) ∧ s.threadQueue.lock = 1 ∧ (∀ c', (s.calls c').Inside ↔ c' = c) ∧
      QueueState qs css.flatten s (s.calls c) := by
  rcases h.owner with ⟨-, -, hout, -⟩ | ⟨c₀, hh, hl, hin₀, hq⟩
  · exact absurd hin (hout c)
  · obtain rfl := (hin₀ c).mp hin
    exact ⟨hh, hl, hin₀, hq⟩

/-- Others are inside as before, the call itself as its new state says. -/
theorem inside_update {calls : Nat → EnqueueCall} {e : EnqueueCall} (he : e.Inside)
    (hin : ∀ c', (calls c').Inside ↔ c' = c) (c' : Nat) :
    (Function.update calls c e c').Inside ↔ c' = c := by
  by_cases hc : c' = c
  · rw [hc, Function.update_self]
    exact iff_of_true he rfl
  · rw [Function.update_of_ne hc]
    exact hin c'

/-- One access of a call: the thread it hands over, if it returns. -/
theorem Sched.runCall_inv (h : SchedInv qs css s) (hs : s.runCall c = some s') :
    ∃ qs', SchedInv qs' css s' := by
  unfold Sched.runCall at hs
  cases hc : s.calls c with
  | idle => rw [hc] at hs; cases hs
  | returned t ret => rw [hc] at hs; cases hs
  | locking t stop =>
    rw [hc] at hs
    have hp : (s.calls c).pending = some t := by rw [hc]; rfl
    by_cases hl : s.threadQueue.lock = 0
    · -- the lock is free, so no call is inside
      simp only [if_pos hl] at hs
      obtain rfl := Option.some.inj hs
      rcases h.owner with ⟨-, -, hout, hrep⟩ | ⟨c₀, -, hl₁, -, -⟩
      · refine ⟨qs, h.calls.go hp rfl trivial, h.cpus, Or.inr ⟨c, rfl, rfl, ?_, ?_⟩⟩
        · intro c'
          by_cases heq : c' = c
          · rw [heq]
            simp only [Sched.setCall, Function.update_self]
            exact iff_of_true trivial trivial
          · simp only [Sched.setCall, Function.update_of_ne heq]
            exact iff_of_false (hout c') heq
        · simp only [Sched.setCall, Function.update_self]
          exact hrep.of_list_eq _ rfl
      · rw [hl] at hl₁
        cases hl₁
    · simp only [if_neg hl] at hs
      -- time does not pass without ticks
      rw [if_neg (Nat.not_le.mpr (h.calls.inTime c t stop hc))] at hs
      obtain rfl := Option.some.inj hs
      exact ⟨qs, h⟩
  | locked t =>
    rw [hc] at hs
    obtain rfl := Option.some.inj hs
    have hp : (s.calls c).pending = some t := by rw [hc]; rfl
    obtain ⟨hh, hl, hin, hq⟩ := h.inside (c := c) (by rw [hc]; trivial)
    rw [hc] at hq
    refine ⟨qs, h.calls.go hp rfl trivial, h.cpus,
      Or.inr ⟨c, hh, hl, inside_update trivial hin, ?_⟩⟩
    simp only [Sched.setCall, Function.update_self]
    have hout := h.calls.pendingOut c t hp
    refine LinkRest.start hq (h.calls.pendingKnown c t hp).2
      (fun hmem => hout (List.mem_append_left _ hmem)) fun q hq' => ⟨?_, ?_⟩
    · intro hqs
      exact (List.nodup_append'.mp h.calls.nodup).2.2 hqs hq'
    · rintro rfl
      exact hout (List.mem_append_right _ hq')
  | linking t stores =>
    have hp : (s.calls c).pending = some t := by rw [hc]; rfl
    obtain ⟨hh, hl, hin, hq⟩ := h.inside (c := c) (by rw [hc]; trivial)
    rw [hc] at hq hs
    cases stores with
    | cons st stores =>
      obtain rfl := Option.some.inj hs
      obtain ⟨hrest, hframe⟩ := LinkRest.step hq
      refine ⟨qs, h.calls.go hp rfl trivial, ?_,
        Or.inr ⟨c, hh, (runStore_lock ..).trans hl, inside_update trivial hin, ?_⟩⟩
      · refine List.forall₂_iff_get.mpr ⟨h.cpus.length_eq, ?_⟩
        intro i hi hi'
        refine (h.cpus.get hi hi').frame fun p hp' => hframe p ?_
        exact List.mem_flatten.mpr ⟨_, List.get_mem css ⟨i, hi'⟩, hp'⟩
      · simp only [Sched.setCall, Function.update_self]
        exact hrest
    | nil =>
      obtain rfl := Option.some.inj hs
      refine ⟨qs ++ [t], h.calls.finish hp, h.cpus, Or.inl ⟨rfl, rfl, ?_, ?_⟩⟩
      · intro c' hc'
        by_cases heq : c' = c
        · rw [heq] at hc'
          simp only [Sched.setCall, Function.update_self] at hc'
          exact hc'
        · simp only [Sched.setCall, Function.update_of_ne heq] at hc'
          exact heq ((hin c').mp hc')
      · exact hq.done.of_list_eq _ rfl

theorem schedStep_inv {a : SchedAct} (h : SchedInv qs css s) (ha : ¬ a.IsTick)
    (hs : schedStep s a = some s') : HandOffStep s a s' ∧ ∃ qs', SchedInv qs' css s' := by
  cases a with
  | enter c t => exact ⟨⟨nofun, nofun⟩, qs, Sched.enter_inv h hs⟩
  | run c =>
    refine ⟨⟨?_, nofun⟩, Sched.runCall_inv h hs⟩
    intro p hp
    -- a call that touches the queue is inside
    have hin : (s.calls c).Inside ∧ p = .call c := by
      simp only [Sched.touches] at hp
      split at hp
      · rename_i hc
        exact ⟨by rw [hc]; trivial, (Option.some.inj hp).symm⟩
      · rename_i hc
        exact ⟨by rw [hc]; trivial, (Option.some.inj hp).symm⟩
      · cases hp
    obtain ⟨hin, rfl⟩ := hin
    exact (h.inside hin).1
  | tick fuel past => exact absurd trivial ha

/-- A tick that finds the lock free keeps it; one that finds it held empties
the queue of another. -/
theorem tick_not_handOff {fuel past : Nat} (h : SchedInv qs css s)
    (hs : schedStep s (.tick fuel past) = some s') : ¬ HandOffStep s (.tick fuel past) s' := by
  intro hok
  rcases h.owner with ⟨-, hl, -, -⟩ | ⟨c, hh, hl, -, -⟩
  · have hkept := hok.lockKept trivial
    have hret : lockTry s.threadQueue.lock ≠ 0 := by
      rw [hl]
      decide
    simp only [schedStep, Sched.schedProcesses] at hs
    rw [if_pos hret] at hs
    obtain rfl := Option.some.inj hs
    rw [hl] at hkept
    cases hkept
  · have hret : lockTry s.threadQueue.lock = 0 := by
      rw [hl]
      rfl
    have howned := hok.owned .tick (if_pos hret)
    have hkeep : s.holderIn (.tick fuel past) = s.holder := if_neg (by rw [hl]; decide)
    rw [hkeep, hh] at howned
    cases howned

end Step

/-! ## Whole runs -/

theorem handsOff_iff_of_inv {css : List (List Nat)} {acts : List SchedAct} {qs : List Nat}
    {s t : Sched} (h : SchedInv qs css s) (hrun : exec schedStep s acts = some t) :
    HandsOff s acts ↔ ∀ a ∈ acts, ¬ a.IsTick := by
  induction acts generalizing qs s with
  | nil => exact iff_of_true h.placed nofun
  | cons a acts ih =>
    obtain ⟨s', hstep, hrest⟩ := exec_cons_eq_some.mp hrun
    have hcons : HandsOff s (a :: acts) ↔ HandOffStep s a s' ∧ HandsOff s' acts := by
      refine ⟨fun hall => hall.2 s' hstep, fun hok => ⟨h.placed, ?_⟩⟩
      intro s'' hs''
      obtain rfl := Option.some.inj (hstep.symm.trans hs'')
      exact hok
    rw [hcons, List.forall_mem_cons]
    by_cases ha : a.IsTick
    · refine iff_of_false ?_ fun hall => hall.1 ha
      intro hok
      cases a with
      | tick fuel past => exact tick_not_handOff h hstep hok.1
      | _ => exact ha
    · obtain ⟨hok, qs', h'⟩ := schedStep_inv h ha hstep
      rw [ih h' hrest]
      exact ⟨fun hall => ⟨ha, hall.2⟩, fun hall => ⟨hok, hall.2⟩⟩

/-- **Threads are handed over properly exactly in the runs without ticks.** -/
theorem thread_handoff_iff_no_tick {s t : Sched} (hboot : SchedBoot s) {acts : List SchedAct}
    (hrun : exec schedStep s acts = some t) :
    HandsOff s acts ↔ ∀ a ∈ acts, ¬ a.IsTick := by
  obtain ⟨css, h⟩ := hboot.inv
  exact handsOff_iff_of_inv h hrun

/-- One CPU with its idle thread at `16`. -/
def idleSched : Sched where
  items := fun p => if p = 16 then ⟨16, 16, 16⟩ else ⟨0, 0, 0⟩
  threadQueue := llistInit
  cpuThreads := [⟨16, 0⟩]
  currThread := [16]
  kerneltime := 0
  calls := fun _ => .idle
  holder := none
  threads := [16]

theorem idleSched_boot : SchedBoot idleSched := by
  refine ⟨rfl, rfl, fun _ => rfl, [[16]], ?_, by simp, by simp [idleSched]⟩
  refine List.Forall₂.cons ⟨IsRing.singleton rfl rfl, by simp, rfl⟩ List.Forall₂.nil

/-- Two calls, one after the other. -/
def twoCalls : List SchedAct :=
  [.enter 0 32, .enter 1 48] ++ List.replicate 6 (.run 0) ++ List.replicate 7 (.run 1)

theorem thread_handoff_iff_no_tick_calls :
    ∃ t, exec schedStep idleSched twoCalls = some t ∧ HandsOff idleSched twoCalls ∧
      t.calls 0 = .returned 32 0 ∧ t.calls 1 = .returned 48 0 := by
  have hsome : ((exec schedStep idleSched twoCalls).any fun t =>
      t.calls 0 = .returned 32 0 ∧ t.calls 1 = .returned 48 0) = true := by
    decide +kernel
  obtain ⟨t, hrun, ht⟩ := (Option.any_eq_true _ _).mp hsome
  refine ⟨t, hrun, (thread_handoff_iff_no_tick idleSched_boot hrun).mpr ?_, of_decide_eq_true ht⟩
  simp [twoCalls, SchedAct.IsTick]

/-- A call, and a tick before it tries the lock. -/
def tickedCall : List SchedAct := [.enter 0 32, .tick 4 0, .run 0]

/-- The tick takes the lock and keeps it: the call times out, and its thread is
in no list. -/
theorem tick_keeps_lock_and_loses_thread :
    ((exec schedStep idleSched tickedCall).any fun t =>
      t.calls 0 = .returned 32 (-ETIMEDOUT) ∧ t.threadQueue = ⟨0, 1⟩ ∧
        t.cpuThreads = [⟨16, 0⟩] ∧ (t.items 16).next = 16) = true ∧
    ¬ ∀ acts t, exec schedStep idleSched acts = some t → HandsOff idleSched acts := by
  have hsome : ((exec schedStep idleSched tickedCall).any fun t =>
      t.calls 0 = .returned 32 (-ETIMEDOUT) ∧ t.threadQueue = ⟨0, 1⟩ ∧
        t.cpuThreads = [⟨16, 0⟩] ∧ (t.items 16).next = 16) = true := by
    decide +kernel
  refine ⟨hsome, ?_⟩
  intro hall
  obtain ⟨t, hrun, -⟩ := (Option.any_eq_true _ _).mp hsome
  obtain ⟨css, h⟩ := idleSched_boot.inv
  have hno := (handsOff_iff_of_inv h hrun).mp (hall _ _ hrun)
  exact hno (.tick 4 0) (by simp [tickedCall]) trivial

end LambdaOs
