import LambdaOs.Tasks
import LambdaOs.Word

/-!
# Choosing the next thread

`sched_next_process` in `proc/sched.c`: the next thread of a CPU is looked for
with the list iterator, started in the middle of the ring. The iterator is
given the current thread as where it stands and `0xFFFFFFFF` as the head, and
after the first step the head is set to where that step led, so that it stops
after one turn, which ends with the current thread.

So the threads are seen in ring order from behind the current one on, and the
first that can run is chosen (`schedNextProcess_eq`). Calls that follow each
other therefore go round all that can run (`sched_round_robin`).
-/

namespace LambdaOs

/-- Why `sched_next_process` does not return. -/
inductive SchedStop where
  | outOfFuel
  | nullItem
  | allBlocked
  | nullThread
  | noProcess
deriving Repr, DecidableEq

namespace Tasks

/-- The condition under which the loop ends. -/
def Runs (s : Tasks) (t : Nat) : Prop :=
  (s.kprocs (s.kthreads t).process).type &&& typeRunnable ≠ 0 ∧
    (s.kthreads t).flags &&& kthreadFlagRunnable ≠ 0 ∧ (s.kthreads t).cond = 0

instance (s : Tasks) (t : Nat) : Decidable (s.Runs t) := inferInstanceAs (Decidable (_ ∧ _ ∧ _))

def runnable (s : Tasks) (t : Nat) : Bool := s.Runs t

theorem runnable_iff {s : Tasks} {t : Nat} : s.runnable t = true ↔ s.Runs t := decide_eq_true_iff

theorem not_runnable_iff {s : Tasks} {t : Nat} : ¬ s.runnable t = true ↔ ¬ s.Runs t :=
  not_congr runnable_iff

/-- `(llist_item_t *)0xFFFFFFFF`. -/
def fakeFirst : Nat := 0xFFFFFFFF

/-- The loop of `sched_next_process`. -/
def nextLoop (s : Tasks) : Nat → LlistIterator → Except SchedStop Nat
  | 0, _ => .error .outOfFuel
  | fuel + 1, iter =>
      match llistIterate s.sched.items iter with
      | none => .error .nullItem
      | some (_, none) => .error .allBlocked
      | some (iter, some thread) =>
          let iter := if iter.first = fakeFirst then { iter with first := iter.curr } else iter
          if thread = 0 then .error .nullThread
          else if (s.kthreads thread).process = 0 then .error .noProcess
          else if s.Runs thread then .ok thread
          else nextLoop s fuel iter

/-- A thread's time on the CPU ends. -/
def accumTime (time : Nat) (k : Kthread) : Kthread :=
  { k with stats := { k.stats with
    schedTimeAccum :=
      u64 (k.stats.schedTimeAccum + (time + 18446744073709551616 - k.stats.schedTimeLast)) } }

/-- A thread's time on the CPU begins. -/
def countTime (time : Nat) (k : Kthread) : Kthread :=
  { k with stats := { k.stats with
    schedCount := u32 (k.stats.schedCount + 1)
    schedTimeLast := time } }

/-- `_curr_thread[cpu] = thread`. -/
def setCurr (s : Tasks) (cpu thread : Nat) : Tasks :=
  { s with sched := { s.sched with currThread := s.sched.currThread.set cpu thread } }

def schedNextProcess (fuel : Nat) (s : Tasks) (cpu : Nat) : Except SchedStop (Tasks × Nat) := do
  let time := s.sched.kerneltime
  let curr := s.sched.currThread.getD cpu 0
  let s := s.modThread curr (accumTime time)
  let thread ← s.nextLoop fuel ⟨fakeFirst, curr⟩
  let s := s.setCurr cpu thread
  return (s.modThread thread (countTime time), thread)

/-! ## One call -/

/-- A ring of threads: each item has its own thread as data, and each thread a
process. No item is at the address that marks the start. -/
structure CpuRing (s : Tasks) (cpu : Nat) (xs : List Nat) : Prop where
  list : ∃ l, s.sched.cpuThreads[cpu]? = some l ∧ LlistRep s.sched.items l xs
  data : ∀ t ∈ xs, (s.sched.items t).data = t
  process : ∀ t ∈ xs, (s.kthreads t).process ≠ 0
  real : fakeFirst ∉ xs

/-- The ring as it is seen from its thread `c` on, which is current: `ys` in
order, and `c` last. -/
structure Turn (s : Tasks) (cpu : Nat) (ys : List Nat) (c : Nat) : Prop where
  ring : IsRing (fun p => (s.sched.items p).next) (fun p => (s.sched.items p).prev) (ys ++ [c])
  nonnull : 0 ∉ ys ++ [c]
  data : ∀ t ∈ ys ++ [c], (s.sched.items t).data = t
  process : ∀ t ∈ ys ++ [c], (s.kthreads t).process ≠ 0
  real : fakeFirst ∉ ys ++ [c]
  curr : s.sched.currThread[cpu]? = some c

theorem CpuRing.turn {s : Tasks} {cpu c : Nat} {pre post : List Nat}
    (h : CpuRing s cpu (pre ++ c :: post)) (hcurr : s.sched.currThread[cpu]? = some c) :
    Turn s cpu (post ++ pre) c := by
  obtain ⟨l, -, hrep⟩ := h.list
  have hmem : ∀ {t}, t ∈ post ++ pre ++ [c] → t ∈ pre ++ c :: post := by
    intro t ht
    simp only [List.mem_append, List.mem_cons, List.not_mem_nil, or_false] at ht ⊢
    tauto
  exact ⟨hrep.ring.from_next, fun h0 => hrep.nonnull (hmem h0), fun t ht => h.data t (hmem ht),
    fun t ht => h.process t (hmem ht), fun h0 => h.real (hmem h0), hcurr⟩

/-- The first thread of some that can run. -/
def pick (s : Tasks) (ys : List Nat) : Except SchedStop Nat :=
  match ys.find? s.runnable with
  | some t => .ok t
  | none => .error .allBlocked

theorem pick_cons_of_runs {s : Tasks} {t : Nat} {ys : List Nat} (h : s.Runs t) :
    s.pick (t :: ys) = .ok t := by
  rw [pick, List.find?_cons_of_pos (runnable_iff.mpr h)]

theorem pick_cons_of_not_runs {s : Tasks} {t : Nat} {ys : List Nat} (h : ¬ s.Runs t) :
    s.pick (t :: ys) = s.pick ys := by
  rw [pick, List.find?_cons_of_neg (not_runnable_iff.mpr h), pick]

/-- The loop once it has passed over `x`, in a ring listed from `first` on. -/
theorem nextLoop_from {s : Tasks} {first : Nat} (hreal : first ≠ fakeFirst) {post : List Nat} :
    ∀ {pre : List Nat} {x fuel : Nat}, Standing s.sched.items first pre x post →
      0 ∉ pre ++ x :: post → (∀ t ∈ post, (s.sched.items t).data = t) →
      (∀ t ∈ post, (s.kthreads t).process ≠ 0) → post.length < fuel →
      s.nextLoop fuel ⟨first, x⟩ = s.pick post := by
  induction post with
  | nil =>
    intro pre x fuel h h0 _ _ hfuel
    obtain ⟨fuel, rfl⟩ := Nat.exists_eq_succ_of_ne_zero (Nat.ne_of_gt hfuel)
    rw [Nat.succ_eq_add_one, nextLoop, h.iterate_nil h0]
    rfl
  | cons y post ih =>
    intro pre x fuel h h0 hdata hprocess hfuel
    obtain ⟨fuel, rfl⟩ := Nat.exists_eq_succ_of_ne_zero (Nat.ne_of_gt (Nat.zero_lt_of_lt hfuel))
    obtain ⟨-, -, h'⟩ := h.next_cons
    have hy0 : y ≠ 0 := fun hy => h0 (by simp [hy])
    have hy := hdata y List.mem_cons_self
    rw [Nat.succ_eq_add_one, nextLoop, h.iterate_cons h0]
    simp only [hy, if_neg hreal, if_neg hy0, if_neg (hprocess y List.mem_cons_self)]
    by_cases hruns : s.Runs y
    · rw [if_pos hruns, pick_cons_of_runs hruns]
    · rw [if_neg hruns, pick_cons_of_not_runs hruns]
      exact ih h' (by simpa using h0) (fun t ht => hdata t (List.mem_cons_of_mem _ ht))
        (fun t ht => hprocess t (List.mem_cons_of_mem _ ht)) (Nat.lt_of_succ_lt_succ hfuel)

/-- The whole loop sees the turn. -/
theorem Turn.nextLoop_eq {s : Tasks} {cpu c fuel : Nat} {ys : List Nat} (h : Turn s cpu ys c)
    (hfuel : ys.length + 1 < fuel) : s.nextLoop fuel ⟨fakeFirst, c⟩ = s.pick (ys ++ [c]) := by
  obtain ⟨fuel, rfl⟩ := Nat.exists_eq_succ_of_ne_zero (Nat.ne_of_gt (Nat.zero_lt_of_lt hfuel))
  obtain ⟨y, rest, hy⟩ := List.exists_cons_of_ne_nil (List.append_ne_nil_of_right_ne_nil ys
    (List.cons_ne_nil c []))
  have hymem : y ∈ ys ++ [c] := hy ▸ List.mem_cons_self
  have hy0 : y ≠ 0 := fun h0 => h.nonnull (h0 ▸ hymem)
  have hreal : y ≠ fakeFirst := fun h0 => h.real (h0 ▸ hymem)
  have hc0 : c ≠ 0 := fun h0 => h.nonnull (by simp [h0])
  have hnext : (s.sched.items c).next = y := h.ring.next_last (by rw [hy]; rfl)
  -- the first step does not meet the mark
  have hstep : llistIterate s.sched.items ⟨fakeFirst, c⟩ = some (⟨fakeFirst, y⟩, some y) := by
    have hfake : fakeFirst ≠ 0 := by decide
    simp [llistIterate, hfake, hc0, hnext, hreal, hy0, h.data y hymem]
  have hstand : Standing s.sched.items y [] y rest :=
    ⟨by rw [List.nil_append, ← hy]; exact h.ring, rfl⟩
  have hlen : rest.length < fuel := by
    have hlen := congrArg List.length hy
    simp only [List.length_append, List.length_cons, List.length_nil] at hlen
    omega
  have hrest : ∀ {t}, t ∈ rest → t ∈ ys ++ [c] := fun ht => hy ▸ List.mem_cons_of_mem _ ht
  rw [Nat.succ_eq_add_one, nextLoop, hstep]
  simp only [if_true, if_neg hy0, if_neg (h.process y hymem)]
  rw [hy]
  by_cases hruns : s.Runs y
  · rw [if_pos hruns, pick_cons_of_runs hruns]
  · rw [if_neg hruns, pick_cons_of_not_runs hruns]
    exact nextLoop_from hreal hstand (by rw [List.nil_append, ← hy]; exact h.nonnull)
      (fun t ht => h.data t (hrest ht)) (fun t ht => h.process t (hrest ht)) hlen

/-! ## The state between calls -/

/-- What the choice depends on, and what a call leaves as it is. -/
structure SameFlags (s s' : Tasks) : Prop where
  items : s'.sched.items = s.sched.items
  process : ∀ t, (s'.kthreads t).process = (s.kthreads t).process
  runs : ∀ t, s'.Runs t ↔ s.Runs t

theorem SameFlags.trans {s s' s'' : Tasks} (h : SameFlags s s') (h' : SameFlags s' s'') :
    SameFlags s s'' :=
  ⟨h'.items.trans h.items, fun t => (h'.process t).trans (h.process t),
    fun t => (h'.runs t).trans (h.runs t)⟩

/-- Only the statistics of a thread change. -/
theorem sameFlags_stats (s : Tasks) (t : Nat) {f : Kthread → Kthread}
    (hf : ∀ k, ∃ stats, f k = { k with stats := stats }) : SameFlags s (s.modThread t f) := by
  have hkeep : ∀ u, ∃ stats,
      (s.modThread t f).kthreads u = { s.kthreads u with stats := stats } := by
    intro u
    by_cases hu : u = t
    · subst hu
      simpa only [modThread, Function.update_self] using hf (s.kthreads u)
    · exact ⟨(s.kthreads u).stats, by simp only [modThread, Function.update_of_ne hu]⟩
  refine ⟨rfl, ?_, ?_⟩
  · intro u
    obtain ⟨stats, hu⟩ := hkeep u
    rw [hu]
  · intro u
    obtain ⟨stats, hu⟩ := hkeep u
    unfold Runs
    rw [hu]
    rfl

theorem Turn.of_sameFlags {s s' : Tasks} {cpu c : Nat} {ys : List Nat} (h : Turn s cpu ys c)
    (hsame : SameFlags s s') (hcurr : s'.sched.currThread[cpu]? = some c) : Turn s' cpu ys c where
  ring := by
    rw [hsame.items]
    exact h.ring
  nonnull := h.nonnull
  data := by
    rw [hsame.items]
    exact h.data
  process t ht := by
    rw [hsame.process]
    exact h.process t ht
  real := h.real
  curr := hcurr

theorem SameFlags.pick {s s' : Tasks} (h : SameFlags s s') (ys : List Nat) :
    s'.pick ys = s.pick ys := by
  have heq : s'.runnable = s.runnable := funext fun t => decide_eq_decide.mpr (h.runs t)
  rw [Tasks.pick, Tasks.pick, heq]

/-- The state after a call that chooses `thread`. -/
def afterNext (s : Tasks) (cpu c thread : Nat) : Tasks :=
  ((s.modThread c (accumTime s.sched.kerneltime)).setCurr cpu thread).modThread thread
    (countTime s.sched.kerneltime)

theorem sameFlags_afterNext (s : Tasks) (cpu c thread : Nat) :
    SameFlags s (s.afterNext cpu c thread) := by
  have hcurr : ∀ s' : Tasks, SameFlags s' (s'.setCurr cpu thread) := fun _ =>
    ⟨rfl, fun _ => rfl, fun _ => Iff.rfl⟩
  exact ((sameFlags_stats s c fun _ => ⟨_, rfl⟩).trans (hcurr _)).trans
    (sameFlags_stats _ thread fun _ => ⟨_, rfl⟩)

/-- One call: the first thread of the turn that can run. -/
theorem Turn.schedNextProcess_eq {s : Tasks} {cpu c fuel : Nat} {ys : List Nat}
    (h : Turn s cpu ys c) (hfuel : ys.length + 1 < fuel) :
    schedNextProcess fuel s cpu = (s.pick (ys ++ [c])).map fun t => (s.afterNext cpu c t, t) := by
  have hc : s.sched.currThread.getD cpu 0 = c := by
    rw [List.getD_eq_getElem?_getD, h.curr]
    rfl
  have hsame : SameFlags s (s.modThread c (accumTime s.sched.kerneltime)) :=
    sameFlags_stats s c fun _ => ⟨_, rfl⟩
  have hloop := (h.of_sameFlags hsame h.curr).nextLoop_eq hfuel
  rw [hsame.pick] at hloop
  simp only [schedNextProcess, hc, hloop]
  cases s.pick (ys ++ [c]) with
  | error stop => rfl
  | ok t => rfl

/-- The chosen thread is current, and the ring is seen from it on. -/
theorem Turn.next {s : Tasks} {cpu c t : Nat} {ys seen rest : List Nat} (h : Turn s cpu ys c)
    (hsplit : ys ++ [c] = seen ++ t :: rest) :
    Turn (s.afterNext cpu c t) cpu (rest ++ seen) t := by
  have hmem : ∀ {u}, u ∈ rest ++ seen ++ [t] → u ∈ ys ++ [c] := by
    intro u hu
    rw [hsplit]
    simp only [List.mem_append, List.mem_cons, List.not_mem_nil, or_false] at hu ⊢
    tauto
  have hcpu : cpu < s.sched.currThread.length := (List.getElem?_eq_some_iff.mp h.curr).1
  have hturn : Turn (s.setCurr cpu t) cpu (rest ++ seen) t :=
    ⟨(hsplit ▸ h.ring).from_next, fun h0 => h.nonnull (hmem h0), fun u hu => h.data u (hmem hu),
      fun u hu => h.process u (hmem hu), fun h0 => h.real (hmem h0),
      by simp [setCurr, hcpu]⟩
  have hsame : SameFlags (s.setCurr cpu t) (s.afterNext cpu c t) :=
    ⟨rfl, (sameFlags_afterNext s cpu c t).process, (sameFlags_afterNext s cpu c t).runs⟩
  exact hturn.of_sameFlags hsame hturn.curr

/-! ## Calls in a row -/

/-- `n` calls. Before each of them other parts of the kernel run. -/
def nextRun (fuel cpu : Nat) (others : Nat → Tasks → Tasks) :
    Nat → Tasks → Except SchedStop (Tasks × List Nat)
  | 0, s => .ok (s, [])
  | n + 1, s => do
      let (s, t) ← schedNextProcess fuel (others n s) cpu
      let (s, ts) ← nextRun fuel cpu others n s
      return (s, t :: ts)

/-- The others leave the ring, what the choice depends on and the current thread
as they are. -/
structure Steady (cpu : Nat) (xs : List Nat) (others : Nat → Tasks → Tasks) : Prop where
  items : ∀ n s, ∀ t ∈ xs, (others n s).sched.items t = s.sched.items t
  process : ∀ n s, ∀ t ∈ xs, ((others n s).kthreads t).process = (s.kthreads t).process
  runs : ∀ n s, ∀ t ∈ xs, ((others n s).Runs t ↔ s.Runs t)
  curr : ∀ n s, (others n s).sched.currThread[cpu]? = s.sched.currThread[cpu]?

theorem Turn.steady {s : Tasks} {cpu c : Nat} {xs ys : List Nat} {others : Nat → Tasks → Tasks}
    (h : Turn s cpu ys c) (hsteady : Steady cpu xs others) (hsub : ∀ t ∈ ys ++ [c], t ∈ xs)
    (n : Nat) : Turn (others n s) cpu ys c where
  ring := h.ring.congr (fun t ht => by rw [hsteady.items n s t (hsub t ht)])
    fun t ht => by rw [hsteady.items n s t (hsub t ht)]
  nonnull := h.nonnull
  data t ht := by
    rw [hsteady.items n s t (hsub t ht)]
    exact h.data t ht
  process t ht := by
    rw [hsteady.process n s t (hsub t ht)]
    exact h.process t ht
  real := h.real
  curr := (hsteady.curr n s).trans h.curr

/-- The first of some threads that can run, and those behind it. -/
theorem exists_pick {s : Tasks} {ys : List Nat} (h : ys.filter s.runnable ≠ []) :
    ∃ seen t rest, ys = seen ++ t :: rest ∧ s.pick ys = .ok t ∧
      ys.filter s.runnable = t :: rest.filter s.runnable ∧ seen.filter s.runnable = [] ∧
      s.Runs t := by
  induction ys with
  | nil => exact absurd rfl h
  | cons y ys ih =>
    by_cases hy : s.Runs y
    · refine ⟨[], y, ys, rfl, pick_cons_of_runs hy, ?_, rfl, hy⟩
      rw [List.filter_cons_of_pos (runnable_iff.mpr hy)]
    · rw [List.filter_cons_of_neg (not_runnable_iff.mpr hy)] at h
      obtain ⟨seen, t, rest, rfl, hpick, hfilter, hseen, ht⟩ := ih h
      refine ⟨y :: seen, t, rest, rfl, (pick_cons_of_not_runs hy).trans hpick, ?_, ?_, ht⟩
      · rw [List.filter_cons_of_neg (not_runnable_iff.mpr hy), hfilter]
      · rw [List.filter_cons_of_neg (not_runnable_iff.mpr hy), hseen]

/-- The first `n` calls of a round. -/
theorem Turn.nextRun_eq {cpu fuel : Nat} {xs : List Nat} {others : Nat → Tasks → Tasks}
    (hsteady : Steady cpu xs others) (hfuel : xs.length < fuel) {n : Nat} :
    ∀ {s : Tasks} {c : Nat} {ys : List Nat}, Turn s cpu ys c → (∀ t ∈ ys ++ [c], t ∈ xs) →
      (ys ++ [c]).length = xs.length → n ≤ ((ys ++ [c]).filter s.runnable).length →
      ∃ s', nextRun fuel cpu others n s = .ok (s', ((ys ++ [c]).filter s.runnable).take n) := by
  induction n with
  | zero => exact fun {s} _ _ _ _ _ _ => ⟨s, rfl⟩
  | succ n ih =>
    intro s c ys h hsub hlen hn
    have h' := h.steady hsteady hsub n
    have hsame : (ys ++ [c]).filter (others n s).runnable = (ys ++ [c]).filter s.runnable :=
      List.filter_congr fun t ht => decide_eq_decide.mpr (hsteady.runs n s t (hsub t ht))
    have hne : (ys ++ [c]).filter (others n s).runnable ≠ [] := by
      rw [hsame]
      exact List.ne_nil_of_length_pos (Nat.zero_lt_of_lt hn)
    obtain ⟨seen, t, rest, hsplit, hpick, hfilter, hseen, ht⟩ := exists_pick hne
    have hlen' : ys.length + 1 < fuel := by
      rw [List.length_append, List.length_singleton] at hlen
      omega
    have hcall := h'.schedNextProcess_eq hlen'
    rw [hpick] at hcall
    -- the rest of the round, seen from the chosen thread on
    have hnext := h'.next hsplit
    have hmem : ∀ u ∈ rest ++ seen ++ [t], u ∈ xs := fun u hu => by
      refine hsub u ?_
      rw [hsplit]
      simp only [List.mem_append, List.mem_cons, List.not_mem_nil, or_false] at hu ⊢
      tauto
    have hcount : (rest ++ seen ++ [t]).length = xs.length := by
      rw [← hlen, hsplit]
      simp only [List.length_append, List.length_cons, List.length_nil]
      omega
    have hround : (rest ++ seen ++ [t]).filter ((others n s).afterNext cpu c t).runnable =
        rest.filter (others n s).runnable ++ [t] := by
      have hflags : ((others n s).afterNext cpu c t).runnable = (others n s).runnable :=
        funext fun u => decide_eq_decide.mpr ((sameFlags_afterNext _ cpu c t).runs u)
      rw [hflags, List.filter_append, List.filter_append, hseen, List.append_nil,
        List.filter_cons_of_pos (runnable_iff.mpr ht), List.filter_nil]
    rw [← hsame, hfilter, List.length_cons] at hn
    obtain ⟨s', hrun⟩ := ih hnext hmem hcount (by
      rw [hround, List.length_append]
      omega)
    rw [hround, List.take_append_of_le_length (by omega)] at hrun
    refine ⟨s', ?_⟩
    rw [← hsame, hfilter, List.take_succ_cons, nextRun, hcall]
    simp only [Except.map, bind, Except.bind, hrun]
    rfl

/-- **Scheduling goes round.** For every ring and every assignment of the flags a
call returns the first thread behind the current one, in ring order and with the
current one last, that can run, and panics if none can; `n` calls in a row, `n`
being how many can run, return each of these once, in that order. -/
theorem sched_round_robin {s : Tasks} {cpu c fuel : Nat} {pre post : List Nat}
    (h : CpuRing s cpu (pre ++ c :: post)) (hcurr : s.sched.currThread[cpu]? = some c)
    (hfuel : (pre ++ c :: post).length < fuel) :
    (∀ t, (∃ s', schedNextProcess fuel s cpu = .ok (s', t)) ↔
        (post ++ pre ++ [c]).find? s.runnable = some t) ∧
      (schedNextProcess fuel s cpu = .error .allBlocked ↔ ∀ t ∈ pre ++ c :: post, ¬ s.Runs t) ∧
      ∀ others, Steady cpu (pre ++ c :: post) others →
        ∃ s' ts, nextRun fuel cpu others ((pre ++ c :: post).filter s.runnable).length s =
            .ok (s', ts) ∧
          ts = (post ++ pre ++ [c]).filter s.runnable ∧ ts.Nodup ∧
          ∀ t, t ∈ ts ↔ t ∈ pre ++ c :: post ∧ s.Runs t := by
  have hturn := h.turn hcurr
  have hperm : (post ++ pre ++ [c]).Perm (pre ++ c :: post) :=
    (List.perm_append_singleton c _).trans
      ((List.perm_append_comm.cons c).trans List.perm_middle.symm)
  have hlen := hperm.length_eq
  have hlt : (post ++ pre).length + 1 < fuel := by
    rw [List.length_append, List.length_singleton] at hlen
    omega
  have hcall := hturn.schedNextProcess_eq hlt
  refine ⟨?_, ?_, ?_⟩
  · intro t
    rw [hcall, pick]
    cases hfind : (post ++ pre ++ [c]).find? s.runnable with
    | none => simp [Except.map]
    | some u => simp [Except.map]
  · rw [hcall, pick]
    have hnone : (post ++ pre ++ [c]).find? s.runnable = none ↔
        ∀ t ∈ pre ++ c :: post, ¬ s.Runs t := by
      rw [List.find?_eq_none]
      exact forall_congr' fun t => imp_congr hperm.mem_iff not_runnable_iff
    rw [← hnone]
    cases hfind : (post ++ pre ++ [c]).find? s.runnable with
    | none => simp [Except.map]
    | some u => simp [Except.map]
  · intro others hsteady
    obtain ⟨s', hrun⟩ := hturn.nextRun_eq hsteady hfuel (fun t ht => hperm.mem_iff.mp ht) hlen
      (Nat.le_of_eq (hperm.filter s.runnable).length_eq.symm)
    rw [List.take_of_length_le (Nat.le_of_eq (hperm.filter s.runnable).length_eq)] at hrun
    refine ⟨s', _, hrun, rfl, hturn.ring.nodup.filter _, ?_⟩
    intro t
    rw [List.mem_filter, hperm.mem_iff, runnable_iff]

/-- Three threads of one process, of which `16` is current and `32` cannot run. -/
def threeThreads : Tasks where
  kprocs := fun _ => { zeroProcess with type := typeRunnable }
  kthreads := fun t => { zeroThread with
    process := 8, flags := kthreadFlagRunnable, cond := if t = 32 then 64 else 0 }
  procItems := fun _ => zeroItem
  threadItems := fun _ => zeroItem
  procs := ⟨0, 0⟩
  sched := { idleSched with
    items := fun p =>
      if p = 16 then ⟨16, 48, 32⟩ else if p = 32 then ⟨32, 16, 48⟩ else ⟨48, 32, 16⟩ }
  condThreads := fun _ => []
  creatTask := 0
  nextPid := 1
  root := 0
  procHeap := []
  threadHeap := []
  freed := []
  overRelease := false

theorem threeThreads_ring : CpuRing threeThreads 0 ([] ++ 16 :: [32, 48]) where
  list := by
    refine ⟨⟨16, 0⟩, rfl, ⟨by decide, ?_, ?_⟩, by decide, rfl⟩
    · simp [Linked, threeThreads]
    · simp [Linked, threeThreads]
  data := by decide
  process := by decide
  real := by decide

/-- The thread `48` is next, and two calls return `48` and `16`. -/
theorem sched_round_robin_three :
    (∃ s', schedNextProcess 5 threeThreads 0 = .ok (s', 48)) ∧
      ∃ s' ts, nextRun 5 0 (fun _ s => s) 2 threeThreads = .ok (s', ts) ∧ ts = [48, 16] := by
  have hfuel : ([] ++ 16 :: [32, 48] : List Nat).length < 5 := by decide
  obtain ⟨hnext, -, hround⟩ := sched_round_robin threeThreads_ring rfl hfuel
  refine ⟨(hnext 48).mpr (by decide), ?_⟩
  obtain ⟨s', ts, hrun, hts, -⟩ := hround (fun _ s => s)
    ⟨fun _ _ _ _ => rfl, fun _ _ _ _ => rfl, fun _ _ _ _ => Iff.rfl, fun _ _ => rfl⟩
  exact ⟨s', ts, hrun, hts.trans (by decide)⟩

end Tasks
end LambdaOs
