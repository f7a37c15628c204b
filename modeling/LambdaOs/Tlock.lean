import LambdaOs.Cbuff
import LambdaOs.Cond
import LambdaOs.SchedQueue

/-!
# Thread locks

`proc/atomic/tlock.c`: a lock whose word stays set while it changes hands. A
thread that finds it taken writes a pointer to a condition of its own into a
circular buffer and is to wait for that condition; a release reads the oldest
pointer and signals it, or, when there is none, clears the lock word.

Threads are interleaved at their accesses: the exchange on the lock word, each
exchange and store on `thread_lock`, the write and the read of the buffer
under it, the test of `count`, and the accesses of `cond_wait` and
`cond_signal`.

Two things go wrong. The loop of `tlock_acquire` declares a second `ret`
inside, so that the first never changes and the loop never ends: a thread that
finds the lock taken writes its entry again and again and never gets to
`cond_wait` (`tlock_never_waits`). And between its exchange and its entry the
lock may be released, which leaves the entry in the queue of a free lock
(`tlock_hands_over_fails`). Outside of these the lock is handed over in order
(`tlock_hands_over`).
-/

namespace LambdaOs

/-! ## The state -/

/-- `CONFIG_PROC_TLOCK_THREADS`. -/
def tlockThreads : Nat := 4

/-- The bytes of a `tlock_thread_t`, whose only field is the pointer to the
condition. -/
def tlockThread (cond : Nat) : List UInt8 :=
  [UInt8.ofNat cond, UInt8.ofNat (cond / 256), UInt8.ofNat (cond / 65536),
    UInt8.ofNat (cond / 16777216)]

/-- The field `cond` of these bytes. -/
def tlockThreadCond : List UInt8 → Nat
  | [a, b, c, d] => a.toNat + 256 * b.toNat + 65536 * c.toNat + 16777216 * d.toNat
  | _ => 0

/-- `struct tlock_struct`. -/
structure Tlock where
  lock : Nat
  threadLock : Nat
  threads : Cbuff
deriving Repr, DecidableEq

/-- Where a thread is. `ret` is the outer variable of that name in
`tlock_acquire`. -/
inductive TlockCall where
  /-- Outside, without the lock. -/
  | out
  /-- At the head of the loop of `tlock_acquire`, and in `lock` below it. -/
  | loop (cond : Nat) (ret : Int)
  /-- With `thread_lock`, before the write. -/
  | writing (cond : Nat) (ret : Int)
  /-- Before the release of `thread_lock`. -/
  | written (cond : Nat) (ret : Int)
  /-- In `cond_wait`. -/
  | waiting (cond : Nat)
  /-- Between the two calls. -/
  | inside
  /-- In `tlock_release`, before `thread_lock`. -/
  | releasing
  /-- With `thread_lock`, before the test of `count`. -/
  | checking
  /-- `count` was `0`: before the release of `thread_lock`, and of the lock. -/
  | leaving
  | freeing
  /-- `count` was not `0`: before the read, and the release of `thread_lock`. -/
  | reading
  | handing (cond : Nat)
  /-- In `cond_signal`. -/
  | signalling (cond : Nat)
deriving Repr, DecidableEq

/-- A thread lock and its threads. Four fields are not in the code: `made`, the
conditions that are allocated; `owner`, the thread that has the lock; `placed`,
the conditions of the entries written so far, and `handed`, of those read. -/
structure TlockSys where
  tlock : Tlock
  conds : CondSys
  call : Nat → TlockCall
  made : List Nat
  owner : Option Nat
  placed : List Nat
  handed : List Nat

namespace TlockSys

def setCall (s : TlockSys) (t : Nat) (p : TlockCall) : TlockSys :=
  { s with call := Function.update s.call t p }

/-! ## `tlock_acquire` -/

/-- Up to the loop. `cond` is what `kmalloc` returns in `cond_create`: `NULL`
panics, anything else is not in use. -/
def acquire (s : TlockSys) (t cond : Nat) : Option TlockSys :=
  let ret := lockTry s.tlock.lock
  let s : TlockSys := { s with tlock := { s.tlock with lock := 1 } }
  if ret ≠ 0 then some { s.setCall t .inside with owner := some t }
  else if cond = 0 ∨ cond ∈ s.made ∨ cond ≥ 4294967296 then none
  else some { s.setCall t (.loop cond 1) with
    conds := s.conds.setCond cond condInit
    made := cond :: s.made }

/-- `while(ret)`, and `lock(&tlock->thread_lock)` in its body or `cond_wait`
behind it. `item` is what `kmalloc` returns there. -/
def turn (s : TlockSys) (t cond : Nat) (ret : Int) (item : Nat) : Option TlockSys :=
  if ret ≠ 0 then
    if s.tlock.threadLock ≠ 0 then some s
    else some { s.setCall t (.writing cond ret) with tlock := { s.tlock with threadLock := 1 } }
  else
    (condStep s.conds (.wait t cond item)).map fun conds =>
      { s.setCall t (.waiting cond) with conds := conds }

/-- The write. The result goes to the inner `ret`. -/
def write (s : TlockSys) (t cond : Nat) (ret : Int) : Option TlockSys :=
  let r := cbuffWrite (some (tlockThread cond)) s.tlock.threads
  if r.2 ≠ 0 ∧ r.2 ≠ -ENOMEM then none
  else some { s.setCall t (.written cond ret) with
    tlock := { s.tlock with threads := r.1 }
    placed := if r.2 = 0 then s.placed ++ [cond] else s.placed }

/-- `unlock(&tlock->thread_lock)`, on the way to a point. -/
def unlockThreads (s : TlockSys) (t : Nat) (p : TlockCall) : TlockSys :=
  { s.setCall t p with tlock := { s.tlock with threadLock := 0 } }

/-- The next access of `cond_wait`, or what follows it. -/
def await (s : TlockSys) (t cond : Nat) : Option TlockSys :=
  match s.conds.call t with
  | .out _ => some { s.setCall t .inside with made := s.made.erase cond, owner := some t }
  | _ => (condStep s.conds (.run t)).map fun conds => { s with conds := conds }

/-! ## `tlock_release` -/

def lockThreads (s : TlockSys) (t : Nat) : TlockSys :=
  if s.tlock.threadLock ≠ 0 then s
  else { s.setCall t .checking with tlock := { s.tlock with threadLock := 1 } }

def free (s : TlockSys) (t : Nat) : TlockSys :=
  { s.setCall t .out with tlock := { s.tlock with lock := 0 }, owner := none }

def read (s : TlockSys) (t : Nat) : Option TlockSys :=
  let r := cbuffRead (some 4) s.tlock.threads
  if r.2.1 ≠ 0 then none
  else
    let cond := tlockThreadCond r.2.2
    some { s.setCall t (.handing cond) with
      tlock := { s.tlock with threads := r.1 }
      owner := none
      handed := s.handed ++ [cond] }

/-- The release of `thread_lock`, and the entry of `cond_signal`. -/
def hand (s : TlockSys) (t cond : Nat) : Option TlockSys :=
  (condStep s.conds (.signal t cond)).map fun conds =>
    { s.unlockThreads t (.signalling cond) with conds := conds }

/-- The next access of `cond_signal`, or the return behind it. -/
def signal (s : TlockSys) (t : Nat) : Option TlockSys :=
  match s.conds.call t with
  | .out _ => some (s.setCall t .out)
  | _ => (condStep s.conds (.run t)).map fun conds => { s with conds := conds }

end TlockSys

/-! ## Runs -/

/-- A thread outside calls `tlock_acquire`, one inside `tlock_release`, or a
thread makes its next access. -/
inductive TlockAct where
  | acquire (t cond : Nat)
  | release (t : Nat)
  | run (t item : Nat)
deriving Repr, DecidableEq

def tlockStep (s : TlockSys) : TlockAct → Option TlockSys
  | .acquire t cond => if s.call t = .out then s.acquire t cond else none
  | .release t => if s.call t = .inside then some (s.setCall t .releasing) else none
  | .run t item =>
      match s.call t with
      | .out => none
      | .loop cond ret => s.turn t cond ret item
      | .writing cond ret => s.write t cond ret
      | .written cond ret => some (s.unlockThreads t (.loop cond ret))
      | .waiting cond => s.await t cond
      | .inside => none
      | .releasing => some (s.lockThreads t)
      | .checking =>
          some (s.setCall t (if s.tlock.threads.count = 0 then .leaving else .reading))
      | .leaving => some (s.unlockThreads t .freeing)
      | .freeing => some (s.free t)
      | .reading => s.read t
      | .handing cond => s.hand t cond
      | .signalling _ => s.signal t

/-- After `tlock_init`: the lock free, its queue empty, nobody in a call. -/
structure TlockBoot (s : TlockSys) : Prop where
  free : s.tlock.lock = 0
  threadsFree : s.tlock.threadLock = 0
  empty : HoldsFifo (tlockThreads * 4) s.tlock.threads []
  out : ∀ t, s.call t = .out
  fresh : s.made = [] ∧ s.owner = none ∧ s.placed = [] ∧ s.handed = []
  conds : CondBoot s.conds

/-! ## What a hand-over should be -/

/-- At most one thread is inside. No entry is placed twice, and an acquire whose
entry is placed is not about to place one. The queue holds the entries placed
and not handed over, oldest first, and while it holds any, the lock is set. -/
structure TlockOk (s : TlockSys) : Prop where
  exclusive : ∀ t u, s.call t = .inside → s.call u = .inside → t = u
  once : s.placed.Nodup
  settled : ∀ t cond ret, s.call t = .writing cond ret → cond ∉ s.placed
  queue : ∃ q, HoldsFifo (tlockThreads * 4) s.tlock.threads (q.flatMap tlockThread) ∧
    s.placed = s.handed ++ q ∧ (q ≠ [] → s.tlock.lock ≠ 0)

/-- A release frees the lock when the queue is empty, and else takes the oldest
entry and signals its condition. Nothing else frees the lock. -/
structure ReleaseOk (s : TlockSys) (a : TlockAct) (s' : TlockSys) : Prop where
  frees : ∀ t item, a = .run t item → s.call t = .freeing →
    s.tlock.threads.count = 0 ∧ s'.tlock.lock = 0
  hands : ∀ t item, a = .run t item → s.call t = .reading →
    ∃ cond q, s.placed = s.handed ++ cond :: q ∧ s'.handed = s.handed ++ [cond] ∧
      s'.call t = .handing cond
  signals : ∀ t item cond, a = .run t item → s.call t = .handing cond →
    condStep s.conds (.signal t cond) = some s'.conds
  kept : s.tlock.lock ≠ 0 → s'.tlock.lock = 0 → ∃ t item, a = .run t item ∧ s.call t = .freeing

/-- The thread is in `tlock_release`. -/
def TlockCall.Releases : TlockCall → Prop
  | .releasing | .checking | .leaving | .freeing | .reading | .handing _ | .signalling _ => True
  | _ => False

/-- No acquire that has placed its entry begins another turn of its loop, and an
entry is written only while the lock is set and its owner has not found the
queue empty. -/
def TurnsOnce (s : TlockSys) : TlockAct → Prop
  | .run t _ =>
      match s.call t with
      | .loop cond ret => ret ≠ 0 → cond ∉ s.placed
      | .writing _ _ => s.tlock.lock ≠ 0 ∧ ∀ u ∈ s.owner, s.call u ≠ .freeing
      | _ => True
  | _ => True

instance (s : TlockSys) : DecidablePred (TurnsOnce s)
  | .acquire _ _ => isTrue trivial
  | .release _ => isTrue trivial
  | .run t _ =>
      match h : s.call t with
      | .loop cond ret =>
          decidable_of_iff (ret ≠ 0 → cond ∉ s.placed) (by simp only [TurnsOnce, h])
      | .writing _ _ =>
          decidable_of_iff (s.tlock.lock ≠ 0 ∧ ∀ u ∈ s.owner, s.call u ≠ .freeing)
            (by simp only [TurnsOnce, h])
      | .out | .written _ _ | .waiting _ | .inside | .releasing | .checking | .leaving
      | .freeing | .reading | .handing _ | .signalling _ => isTrue (by simp only [TurnsOnce, h])

/-! ## Entries -/

theorem tlockThread_length (cond : Nat) : (tlockThread cond).length = 4 := rfl

theorem tlockThreadCond_eq {cond : Nat} (h : cond < 4294967296) :
    tlockThreadCond (tlockThread cond) = cond := by
  simp only [tlockThreadCond, tlockThread, UInt8.toNat_ofNat']
  omega

theorem entries_length (q : List Nat) : (q.flatMap tlockThread).length = 4 * q.length := by
  induction q with
  | nil => rfl
  | cons cond q ih =>
    rw [List.flatMap_cons, List.length_append, tlockThread_length, ih, List.length_cons]
    omega

/-! ## Points -/

/-- The thread has the lock. -/
def TlockCall.Owns : TlockCall → Prop
  | .inside | .releasing | .checking | .leaving | .freeing | .reading => True
  | _ => False

/-- The thread has `thread_lock`. -/
def TlockCall.Locks : TlockCall → Prop
  | .writing _ _ | .written _ _ | .checking | .leaving | .reading | .handing _ => True
  | _ => False

/-- The thread is in `tlock_acquire`, with a condition. -/
def TlockCall.Acquires (cond : Nat) : TlockCall → Prop
  | .loop c _ | .writing c _ | .written c _ | .waiting c => c = cond
  | _ => False

/-- The outer `ret` is as it was set. -/
def TlockCall.Turns : TlockCall → Prop
  | .loop _ ret | .writing _ ret | .written _ ret => ret = 1
  | .waiting _ => False
  | _ => True

/-- Outside of `cond_wait`. -/
def CondCall.InSignal : CondCall → Prop
  | .out _ | .locking _ | .popping _ => True
  | _ => False

/-! ## The invariant -/

/-- In every run; `q` is what the queue holds. -/
structure TlockInv (q : List Nat) (s : TlockSys) : Prop where
  fifo : HoldsFifo (tlockThreads * 4) s.tlock.threads (q.flatMap tlockThread)
  log : s.placed = s.handed ++ q
  conds : ∀ c ∈ q, c ≠ 0 ∧ c < 4294967296
  owner : ∀ t, (s.call t).Owns → s.owner = some t
  held : s.owner ≠ none → s.tlock.lock ≠ 0
  key : ∀ t u, (s.call t).Locks → (s.call u).Locks → t = u
  locked : ∀ t, (s.call t).Locks → s.tlock.threadLock ≠ 0
  turns : ∀ t, (s.call t).Turns
  made : ∀ t c, (s.call t).Acquires c → c ∈ s.made ∧ c ≠ 0 ∧ c < 4294967296
  own : ∀ t u c, (s.call t).Acquires c → (s.call u).Acquires c → t = u
  waiters : ∀ t, s.call t = .reading → q ≠ []
  nobody : ∀ t, s.call t = .leaving → q = []
  handing : ∀ t c, s.call t = .handing c → c ≠ 0
  signals : ∀ t, (s.conds.call t).InSignal
  quiet : ∀ t, (∀ c, s.call t ≠ .signalling c) → ∃ ret, s.conds.call t = .out ret

/-- In the runs whose acquires take one turn. -/
structure TlockOrder (q : List Nat) (s : TlockSys) : Prop where
  once : s.placed.Nodup
  made : ∀ c ∈ s.placed, c ∈ s.made
  settled : ∀ t c ret, s.call t = .writing c ret → c ∉ s.placed
  held : q ≠ [] → s.tlock.lock ≠ 0
  empty : ∀ t, s.call t = .freeing → q = []

theorem TlockBoot.inv {s : TlockSys} (h : TlockBoot s) : TlockInv [] s := by
  obtain ⟨-, howner, hplaced, hhanded⟩ := h.fresh
  have hout := h.out
  exact {
    fifo := h.empty
    log := by rw [hplaced, hhanded]; rfl
    conds := nofun
    owner := fun t ht => by simp [hout, TlockCall.Owns] at ht
    held := fun hne => absurd howner hne
    key := fun t u ht => by simp [hout, TlockCall.Locks] at ht
    locked := fun t ht => by simp [hout, TlockCall.Locks] at ht
    turns := fun t => by simp [hout, TlockCall.Turns]
    made := fun t c ht => by simp [hout, TlockCall.Acquires] at ht
    own := fun t u c ht => by simp [hout, TlockCall.Acquires] at ht
    waiters := fun t ht => by simp [hout] at ht
    nobody := fun t ht => by simp [hout] at ht
    handing := fun t c ht => by simp [hout] at ht
    signals := fun t => by
      obtain ⟨ret, hret⟩ := h.conds.out t
      rw [hret]
      trivial
    quiet := fun t _ => h.conds.out t }

theorem TlockBoot.order {s : TlockSys} (h : TlockBoot s) : TlockOrder [] s := by
  obtain ⟨-, -, hplaced, -⟩ := h.fresh
  exact {
    once := by rw [hplaced]; exact List.nodup_nil
    made := by rw [hplaced]; exact nofun
    settled := fun t c ret ht => by simp [h.out] at ht
    held := fun hne => absurd rfl hne
    empty := fun t ht => by simp [h.out] at ht }

/-! ## The steps -/

section Steps

variable {q : List Nat} {s s' : TlockSys} {t : Nat} {p : TlockCall}

/-- What the invariant asks of a step in which `t` goes on to `p`, part by
part. -/
theorem TlockInv.owner_step (h : TlockInv q s) (hcall : s'.call = Function.update s.call t p)
    (hp : p.Owns → s'.owner = some t)
    (hu : s'.owner = s.owner ∨ (s.call t).Owns ∨ s.tlock.lock = 0) :
    ∀ u, (s'.call u).Owns → s'.owner = some u := by
  intro u hown
  rw [hcall] at hown
  by_cases hut : u = t
  · subst hut
    rw [Function.update_self] at hown
    exact hp hown
  · rw [Function.update_of_ne hut] at hown
    have hsome := h.owner u hown
    rcases hu with heq | hown' | hfree
    · rw [heq, hsome]
    · exact absurd (Option.some.inj (hsome.symm.trans (h.owner t hown'))) hut
    · exact absurd hfree (h.held (by simp [hsome]))

theorem TlockInv.key_step (h : TlockInv q s) (hcall : s'.call = Function.update s.call t p)
    (hp : p.Locks → (s.call t).Locks ∨ s.tlock.threadLock = 0) :
    ∀ u v, (s'.call u).Locks → (s'.call v).Locks → u = v := by
  have hnew : ∀ u, (s'.call u).Locks → u = t ∨ (s.call u).Locks := by
    intro u hu
    by_cases hut : u = t
    · exact .inl hut
    · rw [hcall, Function.update_of_ne hut] at hu
      exact .inr hu
  have hself : ∀ u, (s'.call t).Locks → (s.call u).Locks → u = t := by
    intro u ht hu
    rw [hcall, Function.update_self] at ht
    rcases hp ht with hold | hfree
    · exact h.key u t hu hold
    · exact absurd hfree (h.locked u hu)
  intro u v hu hv
  rcases hnew u hu with rfl | hu'
  · rcases hnew v hv with rfl | hv'
    · rfl
    · exact (hself v hu hv').symm
  · rcases hnew v hv with rfl | hv'
    · exact hself u hv hu'
    · exact h.key u v hu' hv'

theorem TlockInv.locked_step (h : TlockInv q s) (hcall : s'.call = Function.update s.call t p)
    (hp : p.Locks → s'.tlock.threadLock ≠ 0)
    (hu : s'.tlock.threadLock = s.tlock.threadLock ∨ s'.tlock.threadLock ≠ 0 ∨
      (s.call t).Locks) :
    ∀ u, (s'.call u).Locks → s'.tlock.threadLock ≠ 0 := by
  intro u hlocks
  rw [hcall] at hlocks
  by_cases hut : u = t
  · subst hut
    rw [Function.update_self] at hlocks
    exact hp hlocks
  · rw [Function.update_of_ne hut] at hlocks
    rcases hu with heq | hne | hlocks'
    · rw [heq]
      exact h.locked u hlocks
    · exact hne
    · exact absurd (h.key u t hlocks hlocks') hut

theorem TlockInv.acquire_step (h : TlockInv q s) (hcall : s'.call = Function.update s.call t p)
    (hmade : s.made ⊆ s'.made)
    (hp : ∀ c, p.Acquires c → (s.call t).Acquires c ∨
      (c ∉ s.made ∧ c ∈ s'.made ∧ c ≠ 0 ∧ c < 4294967296)) :
    (∀ u c, (s'.call u).Acquires c → c ∈ s'.made ∧ c ≠ 0 ∧ c < 4294967296) ∧
      ∀ u v c, (s'.call u).Acquires c → (s'.call v).Acquires c → u = v := by
  have hnew : ∀ u c, (s'.call u).Acquires c → (s.call u).Acquires c ∨
      (u = t ∧ c ∉ s.made ∧ c ∈ s'.made ∧ c ≠ 0 ∧ c < 4294967296) := by
    intro u c hu
    rw [hcall] at hu
    by_cases hut : u = t
    · subst hut
      rw [Function.update_self] at hu
      exact (hp c hu).imp_right fun hc => ⟨rfl, hc⟩
    · rw [Function.update_of_ne hut] at hu
      exact .inl hu
  constructor
  · intro u c hu
    rcases hnew u c hu with hold | ⟨-, -, hc⟩
    · exact (h.made u c hold).imp_left fun hc => hmade hc
    · exact hc
  · intro u v c hu hv
    rcases hnew u c hu with hold | ⟨rfl, hc, -⟩
    · rcases hnew v c hv with hold' | ⟨-, hc, -⟩
      · exact h.own u v c hold hold'
      · exact absurd (h.made u c hold).1 hc
    · rcases hnew v c hv with hold' | ⟨rfl, -⟩
      · exact absurd (h.made v c hold').1 hc
      · rfl

end Steps

/-- What the invariant asks of a step in which `t` goes on to `p`. -/
structure TlockMove (q q' : List Nat) (s : TlockSys) (t : Nat) (p : TlockCall) (s' : TlockSys) :
    Prop where
  call : s'.call = Function.update s.call t p
  fifo : HoldsFifo (tlockThreads * 4) s'.tlock.threads (q'.flatMap tlockThread)
  log : s'.placed = s'.handed ++ q'
  conds : ∀ c ∈ q', c ≠ 0 ∧ c < 4294967296
  queue : q' = q ∨ (s.call t).Locks
  owns : p.Owns → s'.owner = some t := by nofun
  owner : s'.owner = s.owner ∨ (s.call t).Owns ∨ s.tlock.lock = 0
  held : s'.owner ≠ none → s'.tlock.lock ≠ 0
  locks : p.Locks → s'.tlock.threadLock ≠ 0 ∧ ((s.call t).Locks ∨ s.tlock.threadLock = 0) := by
    nofun
  threadLock : s'.tlock.threadLock = s.tlock.threadLock ∨ s'.tlock.threadLock ≠ 0 ∨
    (s.call t).Locks
  turns : p.Turns := by trivial
  made : s.made ⊆ s'.made
  acquires : ∀ c, p.Acquires c → (s.call t).Acquires c ∨
    (c ∉ s.made ∧ c ∈ s'.made ∧ c ≠ 0 ∧ c < 4294967296) := by nofun
  waiters : p = .reading → q' ≠ [] := by nofun
  nobody : p = .leaving → q' = [] := by nofun
  handing : ∀ c, p = .handing c → c ≠ 0 := by nofun
  others : ∀ u, u ≠ t → s'.conds.call u = s.conds.call u
  signals : (s'.conds.call t).InSignal
  quiet : (∀ c, p ≠ .signalling c) → ∃ ret, s'.conds.call t = .out ret

theorem TlockInv.move {q q' : List Nat} {s s' : TlockSys} {t : Nat} {p : TlockCall}
    (h : TlockInv q s) (m : TlockMove q q' s t p s') : TlockInv q' s' := by
  have hself : s'.call t = p := by rw [m.call, Function.update_self]
  have hother : ∀ u, u ≠ t → s'.call u = s.call u := fun u hu => by
    rw [m.call, Function.update_of_ne hu]
  obtain ⟨hmade, hown⟩ := h.acquire_step m.call m.made m.acquires
  exact {
    fifo := m.fifo, log := m.log, conds := m.conds, held := m.held, made := hmade, own := hown
    owner := h.owner_step m.call m.owns m.owner
    key := h.key_step m.call fun hp => (m.locks hp).2
    locked := h.locked_step m.call (fun hp => (m.locks hp).1) m.threadLock
    turns := fun u => by
      by_cases hut : u = t
      · rw [hut, hself]
        exact m.turns
      · rw [hother u hut]
        exact h.turns u
    waiters := fun u hu => by
      by_cases hut : u = t
      · rw [hut, hself] at hu
        exact m.waiters hu
      · -- the queue is as it was, or `t` has the key that `u` has
        rw [hother u hut] at hu
        rcases m.queue with rfl | hlocks
        · exact h.waiters u hu
        · exact absurd (h.key u t (by rw [hu]; trivial) hlocks) hut
    nobody := fun u hu => by
      by_cases hut : u = t
      · rw [hut, hself] at hu
        exact m.nobody hu
      · rw [hother u hut] at hu
        rcases m.queue with rfl | hlocks
        · exact h.nobody u hu
        · exact absurd (h.key u t (by rw [hu]; trivial) hlocks) hut
    handing := fun u c hu => by
      by_cases hut : u = t
      · rw [hut, hself] at hu
        exact m.handing c hu
      · rw [hother u hut] at hu
        exact h.handing u c hu
    signals := fun u => by
      by_cases hut : u = t
      · rw [hut]
        exact m.signals
      · rw [m.others u hut]
        exact h.signals u
    quiet := fun u hu => by
      by_cases hut : u = t
      · rw [hut]
        rw [hut, hself] at hu
        exact m.quiet hu
      · rw [m.others u hut]
        rw [hother u hut] at hu
        exact h.quiet u hu }

/-- The same for the runs whose acquires take one turn, when no entry is
written. -/
theorem TlockOrder.move {q q' : List Nat} {s s' : TlockSys} {t : Nat} {p : TlockCall}
    (o : TlockOrder q s) (hcall : s'.call = Function.update s.call t p)
    (hplaced : s'.placed = s.placed) (hmade : s.made ⊆ s'.made) (hq : q = [] → q' = [])
    (hheld : q' ≠ [] → s'.tlock.lock ≠ 0) (hwriting : ∀ c ret, p = .writing c ret → c ∉ s.placed)
    (hfreeing : p = .freeing → q' = []) : TlockOrder q' s' := by
  refine ⟨hplaced ▸ o.once, fun c hc => hmade (o.made c (hplaced ▸ hc)), ?_,
    hheld, ?_⟩
  · intro u c ret hu
    rw [hcall] at hu
    rw [hplaced]
    by_cases hut : u = t
    · subst hut
      rw [Function.update_self] at hu
      exact hwriting c ret hu
    · rw [Function.update_of_ne hut] at hu
      exact o.settled u c ret hu
  · intro u hu
    rw [hcall] at hu
    by_cases hut : u = t
    · subst hut
      rw [Function.update_self] at hu
      exact hfreeing hu
    · rw [Function.update_of_ne hut] at hu
      exact hq (o.empty u hu)

/-! ## Signals -/

theorem condStep_signal {conds : CondSys} {t c : Nat} {ret : Int} (h : conds.call t = .out ret)
    (hc : c ≠ 0) : condStep conds (.signal t c) = some (conds.setCall t (.locking c)) := by
  simp only [condStep, h, hc, ne_eq, not_false_eq_true, if_true]

/-- A thread in `cond_signal` goes on, and moves no other. -/
theorem condStep_inSignal {conds : CondSys} {t : Nat} (h : (conds.call t).InSignal)
    (hne : ∀ ret, conds.call t ≠ .out ret) :
    ∃ conds', condStep conds (.run t) = some conds' ∧ (conds'.call t).InSignal ∧
      ∀ u, u ≠ t → conds'.call u = conds.call u := by
  cases hcall : conds.call t with
  | out ret => exact absurd hcall (hne ret)
  | entered c item =>
    rw [hcall] at h
    exact h.elim
  | appended c =>
    rw [hcall] at h
    exact h.elim
  | yielded c =>
    rw [hcall] at h
    exact h.elim
  | locking c =>
    by_cases hlock : (conds.conds c).lock = 0
    · refine ⟨(conds.setCond c { conds.conds c with lock := 1 }).setCall t (.popping c), ?_, ?_,
        ?_⟩
      · simp only [condStep, hcall, hlock, ne_eq, not_true_eq_false, if_false]
      · simp [CondSys.setCall, CondCall.InSignal]
      · intro u hu
        simp [CondSys.setCall, CondSys.setCond, hu]
    · refine ⟨conds, ?_, ?_, fun _ _ => rfl⟩
      · simp only [condStep, hcall, hlock, ne_eq, not_false_eq_true, if_true]
      · rw [hcall]
        trivial
  | popping c =>
    refine ⟨conds.pop t c, by simp only [condStep, hcall], ?_, ?_⟩
    · unfold CondSys.pop
      dsimp only
      split
      · simp [CondSys.leave, CondSys.setCall, CondCall.InSignal]
      · simp [CondSys.unblockThread, CondSys.setCond, hcall, CondCall.InSignal]
    · intro u hu
      unfold CondSys.pop
      dsimp only
      split
      · simp [CondSys.leave, CondSys.setCall, CondSys.setCond, hu]
      · simp [CondSys.unblockThread, CondSys.setCond]

/-! ## One step -/

section Step

variable {q : List Nat} {s s' : TlockSys} {t : Nat}

/-- What a step leaves. `ok` is the condition on the step. -/
def Keeps (q : List Nat) (s : TlockSys) (ok : Prop) (s' : TlockSys) : Prop :=
  ∃ q', TlockInv q' s' ∧ (TlockOrder q s → ok → TlockOrder q' s')

theorem acquire_keeps (h : TlockInv q s) (hcall : s.call t = .out) {cond : Nat}
    (hstep : s.acquire t cond = some s') : Keeps q s True s' := by
  have hquiet := h.quiet t (by rw [hcall]; exact nofun)
  simp only [TlockSys.acquire] at hstep
  split at hstep
  · -- the lock was free
    rename_i hret
    have hfree : s.tlock.lock = 0 := by
      by_contra hne
      exact hret (by rw [lockTry, if_pos hne])
    cases hstep
    refine ⟨q, h.move (t := t) (p := .inside) ?_, ?_⟩
    · exact {
        call := rfl, fifo := h.fifo, log := h.log, conds := h.conds, queue := .inl rfl
        owns := fun _ => rfl, owner := .inr (.inr hfree), held := fun _ => Nat.one_ne_zero
        threadLock := .inl rfl, made := fun _ hc => hc, others := fun _ _ => rfl
        turns := trivial, locks := nofun, acquires := nofun, waiters := nofun, nobody := nofun
        handing := nofun
        signals := h.signals t, quiet := fun _ => hquiet }
    · intro o _
      exact o.move rfl rfl (fun _ hc => hc) id (fun _ => Nat.one_ne_zero) nofun nofun
  split at hstep
  · cases hstep
  · rename_i hcond
    simp only [not_or, Nat.not_le] at hcond
    cases hstep
    refine ⟨q, h.move (t := t) (p := .loop cond 1) ?_, ?_⟩
    · exact {
        call := rfl, fifo := h.fifo, log := h.log, conds := h.conds, queue := .inl rfl
        owner := .inl rfl, held := fun _ => Nat.one_ne_zero
        threadLock := .inl rfl, made := fun _ hc => List.mem_cons_of_mem _ hc
        turns := rfl
        acquires := fun c hc => by
          obtain rfl : cond = c := hc
          exact .inr ⟨hcond.2.1, List.mem_cons_self, hcond.1, hcond.2.2⟩
        owns := nofun, locks := nofun, waiters := nofun, nobody := nofun, handing := nofun
        others := fun _ _ => rfl, signals := h.signals t, quiet := fun _ => hquiet }
    · intro o _
      exact o.move rfl rfl (fun _ hc => List.mem_cons_of_mem _ hc) id (fun _ => Nat.one_ne_zero)
        nofun nofun

/-- A step that changes only where `t` is. -/
theorem setCall_keeps (h : TlockInv q s) {p : TlockCall} {ok : Prop}
    (hquiet : ∃ ret, s.conds.call t = .out ret)
    (howns : p.Owns → (s.call t).Owns) (hlocks : p.Locks → (s.call t).Locks) (hturns : p.Turns)
    (hacquires : ∀ c, p.Acquires c → (s.call t).Acquires c)
    (hwaiters : p = .reading → q ≠ []) (hnobody : p = .leaving → q = [])
    (hhanding : ∀ c, p ≠ .handing c) (hwriting : ∀ c ret, p ≠ .writing c ret)
    (hfreeing : p ≠ .freeing) : Keeps q s ok (s.setCall t p) := by
  refine ⟨q, h.move (t := t) (p := p) ?_, ?_⟩
  · exact {
      call := rfl, fifo := h.fifo, log := h.log, conds := h.conds, queue := .inl rfl
      owns := fun hp => h.owner t (howns hp), owner := .inl rfl, held := h.held
      locks := fun hp => ⟨h.locked t (hlocks hp), .inl (hlocks hp)⟩
      threadLock := .inl rfl, turns := hturns, made := fun _ hc => hc
      acquires := fun c hc => .inl (hacquires c hc), waiters := hwaiters, nobody := hnobody
      handing := fun c hc => absurd hc (hhanding c), others := fun _ _ => rfl
      signals := h.signals t, quiet := fun _ => hquiet }
  · intro o _
    exact o.move rfl rfl (fun _ hc => hc) id o.held (fun c ret hp => absurd hp (hwriting c ret))
      fun hp => absurd hp hfreeing

theorem turn_keeps (h : TlockInv q s) {cond item : Nat} {ret : Int}
    (hcall : s.call t = .loop cond ret) (hstep : s.turn t cond ret item = some s') :
    Keeps q s (ret ≠ 0 → cond ∉ s.placed) s' := by
  obtain rfl : ret = 1 := by
    have hturns := h.turns t
    rwa [hcall] at hturns
  have hquiet := h.quiet t (by rw [hcall]; exact nofun)
  rw [TlockSys.turn, if_pos (by decide)] at hstep
  split at hstep
  · cases hstep
    exact ⟨q, h, fun o _ => o⟩
  · rename_i hfree
    cases hstep
    refine ⟨q, h.move (t := t) (p := .writing cond 1) ?_, ?_⟩
    · exact {
        call := rfl, fifo := h.fifo, log := h.log, conds := h.conds, queue := .inl rfl
        owner := .inl rfl, held := h.held
        locks := fun _ => ⟨Nat.one_ne_zero, .inr (not_not.mp hfree)⟩
        threadLock := .inr (.inl Nat.one_ne_zero), turns := rfl, made := fun _ hc => hc
        acquires := fun c hc => .inl (by rw [hcall]; exact hc)
        owns := nofun, waiters := nofun, nobody := nofun, handing := nofun
        others := fun _ _ => rfl, signals := h.signals t, quiet := fun _ => hquiet }
    · intro o hok
      refine o.move rfl rfl (fun _ hc => hc) id o.held ?_ nofun
      intro c ret hp
      cases hp
      exact hok (by decide)

theorem lockThreads_keeps (h : TlockInv q s) (hcall : s.call t = .releasing) :
    Keeps q s True (s.lockThreads t) := by
  have hquiet := h.quiet t (by rw [hcall]; exact nofun)
  unfold TlockSys.lockThreads
  split
  · exact ⟨q, h, fun o _ => o⟩
  · rename_i hfree
    refine ⟨q, h.move (t := t) (p := .checking) ?_, ?_⟩
    · exact {
        call := rfl, fifo := h.fifo, log := h.log, conds := h.conds, queue := .inl rfl
        owns := fun _ => h.owner t (by rw [hcall]; trivial), owner := .inl rfl, held := h.held
        locks := fun _ => ⟨Nat.one_ne_zero, .inr (not_not.mp hfree)⟩
        threadLock := .inr (.inl Nat.one_ne_zero), made := fun _ hc => hc
        turns := trivial, acquires := nofun, waiters := nofun, nobody := nofun, handing := nofun
        others := fun _ _ => rfl, signals := h.signals t, quiet := fun _ => hquiet }
    · intro o _
      exact o.move rfl rfl (fun _ hc => hc) id o.held nofun nofun

/-- The release of `thread_lock`, on the way to a point of the same call. -/
theorem unlockThreads_keeps (h : TlockInv q s) {p : TlockCall} (hlocks : (s.call t).Locks)
    (hquiet : ∃ ret, s.conds.call t = .out ret) (howns : p.Owns → (s.call t).Owns)
    (hp : ¬ p.Locks) (hturns : p.Turns) (hacquires : ∀ c, p.Acquires c → (s.call t).Acquires c)
    (hfreeing : p = .freeing → q = []) : Keeps q s True (s.unlockThreads t p) := by
  refine ⟨q, h.move (t := t) (p := p) ?_, ?_⟩
  · exact {
      call := rfl, fifo := h.fifo, log := h.log, conds := h.conds, queue := .inl rfl
      owns := fun hp => h.owner t (howns hp), owner := .inl rfl, held := h.held
      locks := fun hp' => absurd hp' hp, threadLock := .inr (.inr hlocks), turns := hturns
      made := fun _ hc => hc, acquires := fun c hc => .inl (hacquires c hc)
      waiters := fun hp' => absurd (by rw [hp']; trivial) hp
      nobody := fun hp' => absurd (by rw [hp']; trivial) hp
      handing := fun c hp' => absurd (by rw [hp']; trivial) hp
      others := fun _ _ => rfl, signals := h.signals t, quiet := fun _ => hquiet }
  · intro o _
    exact o.move rfl rfl (fun _ hc => hc) id o.held
      (fun c ret hp' => absurd (by rw [hp']; trivial) hp) hfreeing

theorem free_keeps (h : TlockInv q s) (hcall : s.call t = .freeing) :
    Keeps q s True (s.free t) := by
  have hquiet := h.quiet t (by rw [hcall]; exact nofun)
  refine ⟨q, h.move (t := t) (p := .out) ?_, ?_⟩
  · exact {
      call := rfl, fifo := h.fifo, log := h.log, conds := h.conds, queue := .inl rfl
      owner := .inr (.inl (by rw [hcall]; trivial)), held := fun hne => absurd rfl hne
      threadLock := .inl rfl, made := fun _ hc => hc
      turns := trivial, owns := nofun, locks := nofun, acquires := nofun, waiters := nofun
      nobody := nofun, handing := nofun
      others := fun _ _ => rfl, signals := h.signals t, quiet := fun _ => hquiet }
  · intro o _
    exact o.move rfl rfl (fun _ hc => hc) id (fun hne => absurd (o.empty t hcall) hne) nofun nofun

theorem write_keeps (h : TlockInv q s) {cond : Nat} {ret : Int}
    (hcall : s.call t = .writing cond ret) (hstep : s.write t cond ret = some s') :
    Keeps q s (s.tlock.lock ≠ 0 ∧ ∀ u ∈ s.owner, s.call u ≠ .freeing) s' := by
  have hquiet := h.quiet t (by rw [hcall]; exact nofun)
  have hlocks : (s.call t).Locks := by rw [hcall]; trivial
  have hacq : (s.call t).Acquires cond := by rw [hcall]; rfl
  have hturns : ret = 1 := by
    have hturns := h.turns t
    rwa [hcall] at hturns
  obtain ⟨hmade, hc0, hclt⟩ := h.made t cond hacq
  obtain ⟨hinv, hsize, hcont⟩ := h.fifo
  have hspec := cbuffWrite_spec hinv (tlockThread cond)
  simp only [TlockSys.write] at hstep
  split at hspec
  · -- the entry is placed
    obtain ⟨hret, hinv', hsize', hcont'⟩ := hspec
    simp only [hret, ne_eq, not_true_eq_false, false_and, if_false, if_true] at hstep
    cases hstep
    refine ⟨q ++ [cond], h.move (t := t) (p := .written cond ret) ?_, ?_⟩
    · exact {
        call := rfl
        fifo := ⟨hinv', hsize'.trans hsize, by
          rw [hcont', hcont, List.flatMap_append, List.flatMap_singleton]⟩
        log := by
          dsimp only [TlockSys.setCall]
          rw [h.log, List.append_assoc]
        conds := fun c hc => by
          rcases List.mem_append.mp hc with hc | hc
          · exact h.conds c hc
          · rw [List.mem_singleton.mp hc]
            exact ⟨hc0, hclt⟩
        queue := .inr hlocks, owner := .inl rfl, held := h.held
        locks := fun _ => ⟨h.locked t hlocks, .inl hlocks⟩, threadLock := .inl rfl
        turns := hturns, made := fun _ hc => hc
        acquires := fun c hc => .inl (by rw [hcall]; exact hc)
        owns := nofun, waiters := nofun, nobody := nofun, handing := nofun
        others := fun _ _ => rfl, signals := h.signals t, quiet := fun _ => hquiet }
    · intro o hok
      have hnew : cond ∉ s.placed := o.settled t cond ret hcall
      refine ⟨?_, ?_, ?_, fun _ => hok.1, ?_⟩
      · exact List.nodup_append'.mpr ⟨o.once, List.nodup_singleton cond,
          fun _ hc hc' => hnew (List.mem_singleton.mp hc' ▸ hc)⟩
      · intro c hc
        rcases List.mem_append.mp hc with hc | hc
        · exact o.made c hc
        · rw [List.mem_singleton.mp hc]
          exact hmade
      · intro u c r hu
        by_cases hut : u = t
        · subst hut
          simp only [TlockSys.setCall, Function.update_self] at hu
          cases hu
        · simp only [TlockSys.setCall, Function.update_of_ne hut] at hu
          intro hc
          rcases List.mem_append.mp hc with hc | hc
          · exact o.settled u c r hu hc
          · -- another acquire has another condition
            obtain rfl := List.mem_singleton.mp hc
            exact hut (h.own u t c (by rw [hu]; rfl) hacq)
      · intro u hu
        by_cases hut : u = t
        · subst hut
          simp only [TlockSys.setCall, Function.update_self] at hu
          cases hu
        · simp only [TlockSys.setCall, Function.update_of_ne hut] at hu
          exact absurd hu (hok.2 u (h.owner u (by rw [hu]; trivial)))
  · -- the queue is full
    have hne : ¬ (-ENOMEM : Int) = 0 := by decide
    simp only [hspec, ne_eq, hne, not_true_eq_false, and_false, if_false] at hstep
    cases hstep
    refine ⟨q, h.move (t := t) (p := .written cond ret) ?_, ?_⟩
    · exact {
        call := rfl, fifo := h.fifo, log := h.log, conds := h.conds, queue := .inl rfl
        owner := .inl rfl, held := h.held
        locks := fun _ => ⟨h.locked t hlocks, .inl hlocks⟩, threadLock := .inl rfl
        turns := hturns, made := fun _ hc => hc
        acquires := fun c hc => .inl (by rw [hcall]; exact hc)
        owns := nofun, waiters := nofun, nobody := nofun, handing := nofun
        others := fun _ _ => rfl, signals := h.signals t, quiet := fun _ => hquiet }
    · intro o _
      exact o.move rfl rfl (fun _ hc => hc) id o.held nofun nofun

/-- The read of a queue that holds an entry takes the oldest. -/
theorem read_eq (h : TlockInv q s) (hcall : s.call t = .reading) :
    ∃ cond rest b, q = cond :: rest ∧
      HoldsFifo (tlockThreads * 4) b (rest.flatMap tlockThread) ∧
      s.read t = some { s.setCall t (.handing cond) with
        tlock := { s.tlock with threads := b }
        owner := none
        handed := s.handed ++ [cond] } := by
  obtain ⟨cond, rest, rfl⟩ := List.exists_cons_of_ne_nil (h.waiters t hcall)
  obtain ⟨hinv, hsize, hcont⟩ := h.fifo
  have hspec := cbuffRead_spec hinv 4
  have hcount : 4 ≤ s.tlock.threads.count := by
    rw [← contents_length, hcont, entries_length, List.length_cons]
    omega
  have hcond : tlockThreadCond (tlockThread cond) = cond :=
    tlockThreadCond_eq (h.conds cond List.mem_cons_self).2
  rw [if_pos hcount, hcont, List.flatMap_cons, List.take_left' (tlockThread_length cond),
    List.drop_left' (tlockThread_length cond)] at hspec
  obtain ⟨hret, hinv', hsize', hcont'⟩ := hspec
  refine ⟨cond, rest, (cbuffRead (some 4) s.tlock.threads).1, rfl,
    ⟨hinv', hsize'.trans hsize, hcont'⟩, ?_⟩
  simp only [TlockSys.read, hret, hcond, ne_eq, not_true_eq_false, if_false]

theorem read_keeps (h : TlockInv q s) (hcall : s.call t = .reading)
    (hstep : s.read t = some s') : Keeps q s True s' := by
  have hquiet := h.quiet t (by rw [hcall]; exact nofun)
  have hlocks : (s.call t).Locks := by rw [hcall]; trivial
  obtain ⟨cond, rest, b, rfl, hfifo, heq⟩ := read_eq h hcall
  rw [heq] at hstep
  cases hstep
  refine ⟨rest, h.move (t := t) (p := .handing cond) ?_, ?_⟩
  · exact {
      call := rfl, fifo := hfifo
      log := by
        dsimp only [TlockSys.setCall]
        rw [h.log, List.append_assoc, List.singleton_append]
      conds := fun c hc => h.conds c (List.mem_cons_of_mem _ hc), queue := .inr hlocks
      owner := .inr (.inl (by rw [hcall]; trivial)), held := fun hne => absurd rfl hne
      locks := fun _ => ⟨h.locked t hlocks, .inl hlocks⟩, threadLock := .inl rfl
      made := fun _ hc => hc
      handing := fun c hc => by
        cases hc
        exact (h.conds cond List.mem_cons_self).1
      turns := trivial, owns := nofun, acquires := nofun, waiters := nofun, nobody := nofun
      others := fun _ _ => rfl, signals := h.signals t, quiet := fun _ => hquiet }
  · intro o _
    exact o.move rfl rfl (fun _ hc => hc) nofun (fun _ => o.held (List.cons_ne_nil _ _)) nofun nofun

theorem hand_eq (h : TlockInv q s) {cond : Nat} (hcall : s.call t = .handing cond) :
    s.hand t cond = some { s.unlockThreads t (.signalling cond) with
      conds := s.conds.setCall t (.locking cond) } := by
  obtain ⟨ret, hret⟩ := h.quiet t (by rw [hcall]; exact nofun)
  rw [TlockSys.hand, condStep_signal hret (h.handing t cond hcall)]
  rfl

theorem hand_keeps (h : TlockInv q s) {cond : Nat} (hcall : s.call t = .handing cond)
    (hstep : s.hand t cond = some s') : Keeps q s True s' := by
  have hlocks : (s.call t).Locks := by rw [hcall]; trivial
  rw [hand_eq h hcall] at hstep
  cases hstep
  refine ⟨q, h.move (t := t) (p := .signalling cond) ?_, ?_⟩
  · exact {
      call := rfl, fifo := h.fifo, log := h.log, conds := h.conds, queue := .inl rfl
      owner := .inl rfl, held := h.held, threadLock := .inr (.inr hlocks)
      made := fun _ hc => hc
      turns := trivial, owns := nofun, locks := nofun, acquires := nofun, waiters := nofun
      nobody := nofun, handing := nofun
      others := fun u hu => by simp [CondSys.setCall, hu]
      signals := by simp [CondSys.setCall, CondCall.InSignal]
      quiet := fun hne => absurd rfl (hne cond) }
  · intro o _
    exact o.move rfl rfl (fun _ hc => hc) id o.held (fun _ _ hp => by cases hp)
      fun hp => by cases hp

theorem signal_keeps (h : TlockInv q s) {cond : Nat} (hcall : s.call t = .signalling cond)
    (hstep : s.signal t = some s') : Keeps q s True s' := by
  cases hcond : s.conds.call t with
  | out ret =>
    simp only [TlockSys.signal, hcond] at hstep
    cases hstep
    exact setCall_keeps h ⟨ret, hcond⟩ nofun nofun trivial nofun nofun nofun nofun nofun nofun
  | _ =>
    obtain ⟨conds', hrun, hsig, hother⟩ := condStep_inSignal (h.signals t) (by simp [hcond])
    simp only [TlockSys.signal, hcond, hrun] at hstep
    cases hstep
    refine ⟨q, h.move (t := t) (p := .signalling cond) ?_, ?_⟩
    · exact {
        call := by rw [← hcall, Function.update_eq_self]
        fifo := h.fifo, log := h.log, conds := h.conds, queue := .inl rfl
        owner := .inl rfl, held := h.held, threadLock := .inl rfl, made := fun _ hc => hc
        turns := trivial, owns := nofun, locks := nofun, acquires := nofun, waiters := nofun
        nobody := nofun, handing := nofun
        others := hother, signals := hsig, quiet := fun hne => absurd rfl (hne cond) }
    · intro o _
      exact {
        once := o.once, made := o.made, settled := o.settled, held := o.held, empty := o.empty }

/-- One step of the threads. -/
theorem tlockStep_keeps (h : TlockInv q s) {a : TlockAct} (hstep : tlockStep s a = some s') :
    Keeps q s (TurnsOnce s a) s' := by
  cases a with
  | acquire t cond =>
    obtain ⟨hcall, hacq⟩ := Option.ite_none_right_eq_some.mp hstep
    exact acquire_keeps h hcall hacq
  | release t =>
    obtain ⟨hcall, heq⟩ := Option.ite_none_right_eq_some.mp hstep
    cases heq
    exact setCall_keeps h (h.quiet t (by rw [hcall]; exact nofun)) (fun _ => by rw [hcall]; trivial)
      nofun trivial nofun nofun nofun nofun nofun nofun
  | run t item =>
    simp only [tlockStep] at hstep
    cases hcall : s.call t with
    | out =>
      rw [hcall] at hstep
      cases hstep
    | loop cond ret =>
      rw [hcall] at hstep
      simp only [TurnsOnce, hcall]
      exact turn_keeps h hcall hstep
    | writing cond ret =>
      rw [hcall] at hstep
      simp only [TurnsOnce, hcall]
      exact write_keeps h hcall hstep
    | written cond ret =>
      rw [hcall] at hstep
      simp only [TurnsOnce, hcall]
      cases hstep
      have hturns := h.turns t
      rw [hcall] at hturns
      exact unlockThreads_keeps h (p := .loop cond ret) (by rw [hcall]; trivial)
        (h.quiet t (by rw [hcall]; exact nofun)) nofun nofun hturns
        (fun c hc => by rw [hcall]; exact hc) nofun
    | waiting cond =>
      have hturns := h.turns t
      rw [hcall] at hturns
      exact hturns.elim
    | inside =>
      rw [hcall] at hstep
      cases hstep
    | releasing =>
      rw [hcall] at hstep
      simp only [TurnsOnce, hcall]
      cases hstep
      exact lockThreads_keeps h hcall
    | checking =>
      rw [hcall] at hstep
      simp only [TurnsOnce, hcall]
      have hquiet := h.quiet t (by rw [hcall]; exact nofun)
      have hcont : s.tlock.threads.count = 4 * q.length := by
        rw [← contents_length, h.fifo.2.2, entries_length]
      by_cases hcount : s.tlock.threads.count = 0
      · rw [if_pos hcount] at hstep
        cases hstep
        have hq : q = [] := List.eq_nil_of_length_eq_zero (by omega)
        exact setCall_keeps h hquiet (fun _ => by rw [hcall]; trivial)
          (fun _ => by rw [hcall]; trivial) trivial nofun nofun (fun _ => hq) nofun nofun nofun
      · rw [if_neg hcount] at hstep
        cases hstep
        have hq : q ≠ [] := fun hq => hcount (by rw [hcont, hq]; rfl)
        exact setCall_keeps h hquiet (fun _ => by rw [hcall]; trivial)
          (fun _ => by rw [hcall]; trivial) trivial nofun (fun _ => hq) nofun nofun nofun nofun
    | leaving =>
      rw [hcall] at hstep
      simp only [TurnsOnce, hcall]
      cases hstep
      exact unlockThreads_keeps h (p := .freeing) (by rw [hcall]; trivial)
        (h.quiet t (by rw [hcall]; exact nofun)) (fun _ => by rw [hcall]; trivial) nofun trivial
        nofun fun _ => h.nobody t hcall
    | freeing =>
      rw [hcall] at hstep
      simp only [TurnsOnce, hcall]
      cases hstep
      exact free_keeps h hcall
    | reading =>
      rw [hcall] at hstep
      simp only [TurnsOnce, hcall]
      exact read_keeps h hcall hstep
    | handing cond =>
      rw [hcall] at hstep
      simp only [TurnsOnce, hcall]
      exact hand_keeps h hcall hstep
    | signalling cond =>
      rw [hcall] at hstep
      simp only [TurnsOnce, hcall]
      exact signal_keeps h hcall hstep

end Step

/-! ## Releases -/

section Release

variable {q : List Nat} {s s' : TlockSys}

/-- What a write, a read and a hand-over do to the lock word: nothing. -/
theorem tlockStep_kept (h : TlockInv q s) {a : TlockAct} (hstep : tlockStep s a = some s')
    (hset : s.tlock.lock ≠ 0) (hfree : s'.tlock.lock = 0) :
    ∃ t item, a = .run t item ∧ s.call t = .freeing := by
  cases a with
  | acquire t cond =>
    obtain ⟨-, hacq⟩ := Option.ite_none_right_eq_some.mp hstep
    simp only [TlockSys.acquire, lockTry, if_pos hset] at hacq
    split at hacq
    · cases hacq
      cases hfree
    · split at hacq
      · cases hacq
      · cases hacq
        cases hfree
  | release t =>
    obtain ⟨-, heq⟩ := Option.ite_none_right_eq_some.mp hstep
    cases heq
    exact absurd hfree hset
  | run t item =>
    refine ⟨t, item, rfl, ?_⟩
    by_contra hne
    refine hset ?_
    rw [← hfree]
    simp only [tlockStep] at hstep
    cases hcall : s.call t with
    | freeing => exact absurd hcall hne
    | waiting cond =>
      have hturns := h.turns t
      rw [hcall] at hturns
      exact hturns.elim
    | loop cond ret =>
      simp only [hcall, TlockSys.turn] at hstep
      split at hstep
      · split at hstep
        · cases hstep
          rfl
        · cases hstep
          rfl
      · obtain ⟨conds, -, rfl⟩ := Option.map_eq_some_iff.mp hstep
        rfl
    | writing cond ret =>
      simp only [hcall, TlockSys.write] at hstep
      split at hstep
      · cases hstep
      · cases hstep
        rfl
    | reading =>
      obtain ⟨cond, rest, b, -, -, heq⟩ := read_eq h hcall
      rw [hcall] at hstep
      cases heq.symm.trans hstep
      rfl
    | handing cond =>
      rw [hcall] at hstep
      cases (hand_eq h hcall).symm.trans hstep
      rfl
    | signalling cond =>
      simp only [hcall, TlockSys.signal] at hstep
      split at hstep
      · cases hstep
        rfl
      · obtain ⟨conds, -, rfl⟩ := Option.map_eq_some_iff.mp hstep
        rfl
    | releasing =>
      simp only [hcall, TlockSys.lockThreads] at hstep
      split at hstep
      · cases hstep
        rfl
      · cases hstep
        rfl
    | out =>
      rw [hcall] at hstep
      cases hstep
    | inside =>
      rw [hcall] at hstep
      cases hstep
    | _ =>
      rw [hcall] at hstep
      cases hstep
      rfl

theorem releaseOk_of_inv (h : TlockInv q s) (o : TlockOrder q s) {a : TlockAct}
    (hstep : tlockStep s a = some s') : ReleaseOk s a s' where
  frees t item ha hcall := by
    subst ha
    simp only [tlockStep, hcall] at hstep
    cases hstep
    refine ⟨?_, rfl⟩
    rw [← contents_length, h.fifo.2.2, o.empty t hcall]
    rfl
  hands t item ha hcall := by
    subst ha
    obtain ⟨cond, rest, b, rfl, -, heq⟩ := read_eq h hcall
    simp only [tlockStep, hcall, heq] at hstep
    cases hstep
    exact ⟨cond, rest, h.log, rfl, by simp [TlockSys.setCall]⟩
  signals t item cond ha hcall := by
    subst ha
    simp only [tlockStep, hcall, TlockSys.hand] at hstep
    obtain ⟨conds, hconds, rfl⟩ := Option.map_eq_some_iff.mp hstep
    exact hconds
  kept hset hfree := tlockStep_kept h hstep hset hfree

/-- A release is never refused. -/
theorem release_goes_on (h : TlockInv q s) {t : Nat} (item : Nat) (hrel : (s.call t).Releases) :
    ∃ s', tlockStep s (.run t item) = some s' := by
  simp only [tlockStep]
  cases hcall : s.call t with
  | releasing => exact ⟨_, rfl⟩
  | checking => exact ⟨_, rfl⟩
  | leaving => exact ⟨_, rfl⟩
  | freeing => exact ⟨_, rfl⟩
  | reading =>
    obtain ⟨cond, rest, b, -, -, heq⟩ := read_eq h hcall
    exact ⟨_, heq⟩
  | handing cond => exact ⟨_, hand_eq h hcall⟩
  | signalling cond =>
    cases hcond : s.conds.call t with
    | out ret => exact ⟨_, by simp only [TlockSys.signal, hcond]; rfl⟩
    | _ =>
      obtain ⟨conds', hrun, -⟩ := condStep_inSignal (h.signals t) (by simp [hcond])
      exact ⟨_, by simp only [TlockSys.signal, hcond, hrun]; rfl⟩
  | _ =>
    rw [hcall] at hrel
    exact hrel.elim

end Release

/-! ## Whole runs -/

def TlockOrdered (s : TlockSys) : Prop := ∃ q, TlockInv q s ∧ TlockOrder q s

theorem tlockRun_inv {s t : TlockSys} {acts : List TlockAct} :
    (∃ q, TlockInv q s) → exec tlockStep s acts = some t → ∃ q, TlockInv q t := by
  induction acts generalizing s with
  | nil =>
    intro h hrun
    cases hrun
    exact h
  | cons a acts ih =>
    intro h hrun
    obtain ⟨q, h⟩ := h
    obtain ⟨s', hs', hrest⟩ := exec_cons_eq_some.mp hrun
    obtain ⟨q', h', -⟩ := tlockStep_keeps h hs'
    exact ih ⟨q', h'⟩ hrest

/-- In every run, at most one thread is inside, and no acquire that found the
lock taken gets to its `cond_wait`. -/
theorem tlock_never_waits {s t : TlockSys} (hboot : TlockBoot s) {acts : List TlockAct}
    (hrun : exec tlockStep s acts = some t) :
    (∀ u v, t.call u = .inside → t.call v = .inside → u = v) ∧
      ∀ u cond, t.call u ≠ .waiting cond := by
  obtain ⟨q, h⟩ := tlockRun_inv ⟨[], hboot.inv⟩ hrun
  refine ⟨?_, ?_⟩
  · intro u v hu hv
    have hu' := h.owner u (by rw [hu]; trivial)
    have hv' := h.owner v (by rw [hv]; trivial)
    exact Option.some.inj (hu'.symm.trans hv')
  · intro u cond hu
    have hturns := h.turns u
    rw [hu] at hturns
    exact hturns

/-- **The lock is handed over in order in the runs whose acquires take one
turn.** In every state at most one thread is inside, no entry is placed twice,
the queue is what was placed and is not yet handed over, and only a set lock
has one; every release goes on, and frees the lock if its queue is empty and
signals the oldest entry otherwise. -/
theorem tlock_hands_over {s t : TlockSys} (hboot : TlockBoot s) {acts : List TlockAct}
    (honce : Guarded tlockStep TurnsOnce s acts) (hrun : exec tlockStep s acts = some t) :
    TlockOk t ∧ (∀ a t', tlockStep t a = some t' → ReleaseOk t a t') ∧
      ∀ u item, (t.call u).Releases → ∃ t', tlockStep t (.run u item) = some t' := by
  have hstep : ∀ s a s', TlockOrdered s → TurnsOnce s a → tlockStep s a = some s' →
      TlockOrdered s' := by
    rintro s a s' ⟨q, h, o⟩ ha hs
    obtain ⟨q', h', hkeep⟩ := tlockStep_keeps h hs
    exact ⟨q', h', hkeep o ha⟩
  obtain ⟨q, h, o⟩ := exec_guarded_inv hstep ⟨[], hboot.inv, hboot.order⟩ honce hrun
  refine ⟨⟨(tlock_never_waits hboot hrun).1, o.once, o.settled, q, h.fifo, h.log, o.held⟩,
    fun a t' hs => releaseOk_of_inv h o hs, fun u item hrel => release_goes_on h item hrel⟩

/-- A free lock with an empty queue. -/
def tlockRest : TlockSys where
  tlock := ⟨0, 0, ⟨0, 0, 16, some (List.replicate 16 0)⟩⟩
  conds := condRest
  call := fun _ => .out
  made := []
  owner := none
  placed := []
  handed := []

theorem tlockRest_boot : TlockBoot tlockRest where
  free := rfl
  threadsFree := rfl
  empty := ⟨⟨by decide, by decide, by decide, by decide, _, rfl, by decide⟩, rfl, rfl⟩
  out := fun _ => rfl
  fresh := ⟨rfl, rfl, rfl, rfl⟩
  conds := condRest_boot

/-- Thread `1` has the lock, thread `2` finds it taken and goes through one turn
of its loop; then thread `1` releases it. -/
def oneHandOver : List TlockAct :=
  [.acquire 1 0, .acquire 2 32, .run 2 0, .run 2 0, .run 2 0, .release 1] ++
    List.replicate 7 (.run 1 0)

theorem tlock_hands_over_two :
    ∃ t, exec tlockStep tlockRest oneHandOver = some t ∧ t.handed = [32] ∧ t.call 1 = .out ∧
      TlockOk t := by
  have hsome : ((exec tlockStep tlockRest oneHandOver).any fun t =>
      t.handed = [32] ∧ t.call 1 = .out) = true := by
    decide +kernel
  obtain ⟨t, hrun, ht⟩ := (Option.any_eq_true _ _).mp hsome
  have honce : Guarded tlockStep TurnsOnce tlockRest oneHandOver := by
    decide +kernel
  obtain ⟨hhanded, hout⟩ := of_decide_eq_true ht
  exact ⟨t, hrun, hhanded, hout, (tlock_hands_over tlockRest_boot honce hrun).1⟩

/-- Thread `2` goes through two turns. -/
def twoTurns : List TlockAct := [.acquire 1 0, .acquire 2 32] ++ List.replicate 6 (.run 2 0)

/-- Thread `1` releases the lock between the exchange of thread `2` and its
entry. -/
def releasedBetween : List TlockAct :=
  [.acquire 1 0, .acquire 2 32, .release 1] ++ List.replicate 4 (.run 1 0) ++
    List.replicate 3 (.run 2 0)

/-- Two turns place the entry twice, and an entry may be left in the queue of a
free lock. -/
theorem tlock_hands_over_fails :
    ((exec tlockStep tlockRest twoTurns).any fun t =>
      t.placed = [32, 32] ∧ t.call 2 = .loop 32 1) = true ∧
    ((exec tlockStep tlockRest releasedBetween).any fun t =>
      t.tlock.lock = 0 ∧ t.tlock.threads.count = 4 ∧ t.call 1 = .out) = true ∧
    ¬ ∀ acts t, exec tlockStep tlockRest acts = some t → TlockOk t := by
  have hsome : ((exec tlockStep tlockRest twoTurns).any fun t =>
      t.placed = [32, 32] ∧ t.call 2 = .loop 32 1) = true := by
    decide +kernel
  refine ⟨hsome, by decide +kernel, ?_⟩
  intro hall
  obtain ⟨t, hrun, ht⟩ := (Option.any_eq_true _ _).mp hsome
  have honce := (hall _ _ hrun).once
  rw [(of_decide_eq_true ht).1] at honce
  exact absurd honce (by decide)

end LambdaOs
