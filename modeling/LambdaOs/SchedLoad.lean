import Mathlib.Data.Fintype.EquivFin
import LambdaOs.SchedQueue

/-!
# Which CPU gets a thread

`proc/sched.c`: `_schedule_thread` looks for the CPU with the fewest threads,
and `sched_processes` drains the queue through it. The loop over the other
CPUs asks for the count of CPU `_n_cpus` in every round, where `i` is meant:
it reads a list past the end of the array, and compares the same number each
time. So the second CPU is chosen if that number is below the first count,
else the first, and no other ever is (`chooseCpu_eq`).

With one CPU the loop has no rounds, and all is well. That is also the only
number of CPUs with which it is: `least_loaded_iff_one_cpu`.
-/

namespace LambdaOs

/-! ## The loop, with what it reads -/

/-- The CPU chosen so far, its count, and the lists that were counted. -/
structure CpuPick where
  cpu : Nat
  count : Nat
  reads : List Nat

/-- `count` is `_cpu_thread_count`. -/
def pickRound (count : Nat → Nat) (nCpus : Nat) (p : CpuPick) (i : Nat) : CpuPick :=
  let cnt := count nCpus
  let reads := p.reads ++ [nCpus]
  if cnt < p.count then ⟨i, cnt, reads⟩ else ⟨p.cpu, p.count, reads⟩

def pickCpu (count : Nat → Nat) (nCpus : Nat) : CpuPick :=
  (List.range' 1 (nCpus - 1)).foldl (pickRound count nCpus) ⟨0, count 0, [0]⟩

theorem pickRounds_choose (count : Nat → Nat) (nCpus : Nat) (is : List Nat) (p : CpuPick) :
    (is.foldl (pickRound count nCpus) p).cpu =
        (is.foldl (fun cc i => if count nCpus < cc.1 then (count nCpus, i) else cc)
          (p.count, p.cpu)).2 ∧
      (is.foldl (pickRound count nCpus) p).reads =
        p.reads ++ List.replicate is.length nCpus := by
  induction is generalizing p with
  | nil => simp
  | cons i is ih =>
    rw [List.foldl_cons, List.foldl_cons, List.length_cons, List.replicate_succ]
    have hstep := ih (pickRound count nCpus p i)
    by_cases hlt : count nCpus < p.count <;>
      simp only [pickRound, hlt, if_true, if_false, List.append_assoc,
        List.singleton_append] at hstep ⊢ <;>
      exact hstep

/-- The loop of the model, with its reads left out. -/
theorem pickCpu_cpu (count : Nat → Nat) (nCpus : Nat) :
    (pickCpu count nCpus).cpu = Sched.chooseCpu (count 0) (count nCpus) nCpus :=
  (pickRounds_choose count nCpus _ _).1

theorem pickCpu_reads (count : Nat → Nat) (nCpus : Nat) :
    (pickCpu count nCpus).reads = 0 :: List.replicate (nCpus - 1) nCpus := by
  have h := (pickRounds_choose count nCpus (List.range' 1 (nCpus - 1)) ⟨0, count 0, [0]⟩).2
  rw [List.length_range'] at h
  exact h

/-- Only the first two CPUs are ever chosen. -/
theorem chooseCpu_eq (count past nCpus : Nat) :
    Sched.chooseCpu count past nCpus = if 2 ≤ nCpus ∧ past < count then 1 else 0 := by
  have hsettled : ∀ (is : List Nat) (cc : Nat × Nat), ¬ past < cc.1 →
      is.foldl (fun cc i => if past < cc.1 then (past, i) else cc) cc = cc := by
    intro is cc hcc
    induction is with
    | nil => rfl
    | cons i is ih => rw [List.foldl_cons, if_neg hcc, ih]
  unfold Sched.chooseCpu
  obtain hn | ⟨m, rfl⟩ : nCpus ≤ 1 ∨ ∃ m, nCpus = m + 2 := by
    rcases nCpus with _ | _ | m
    · exact .inl (Nat.zero_le _)
    · exact .inl (Nat.le_refl _)
    · exact .inr ⟨m, rfl⟩
  · rw [show nCpus - 1 = 0 by omega, if_neg (by omega)]
    rfl
  · rw [show m + 2 - 1 = m + 1 by omega, List.range'_succ, List.foldl_cons]
    by_cases hlt : past < count
    · rw [if_pos hlt, hsettled _ _ (Nat.lt_irrefl past), if_pos ⟨by omega, hlt⟩]
    · rw [if_neg hlt, hsettled _ _ hlt, if_neg fun h => hlt h.2]

/-! ## The lists of the CPUs -/

/-- `queue` is waiting, and the CPUs have the threads `css`. -/
structure CpuLists (s : Sched) (queue : List Nat) (css : List (List Nat)) : Prop where
  waiting : LlistRep s.items s.threadQueue queue
  cpus : List.Forall₂ (LlistRep s.items) s.cpuThreads css
  apart : (queue ++ css.flatten).Nodup
  data : ∀ t ∈ queue, (s.items t).data = t

/-- Nobody holds the lock of a CPU's list. (A tick would wait for it for
ever.) -/
def CpusFree (s : Sched) : Prop := ∀ l ∈ s.cpuThreads, l.lock = 0

/-- What `_cpu_thread_count` finds: `past` past the end of the array. -/
def ringCount (css : List (List Nat)) (past i : Nat) : Nat := (css[i]?.map List.length).getD past

/-- The call for `thread` counts only lists of CPUs, and `thread` joins a
shortest one. -/
structure LeastLoaded (fuel : Nat) (s : Sched) (css : List (List Nat)) (thread : Nat) : Prop where
  reads : ∀ past, ∀ i ∈ (pickCpu (ringCount css past) css.length).reads, i < css.length
  appends : ∀ past s', s.scheduleThread fuel past thread = some s' → ∃ cpu cs,
    css[cpu]? = some cs ∧ (∀ cs' ∈ css, cs.length ≤ cs'.length) ∧
      List.Forall₂ (LlistRep s'.items) s'.cpuThreads (css.set cpu (cs ++ [thread]))
  returns : CpusFree s → ∀ past, ∃ s', s.scheduleThread fuel past thread = some s'

/-- The lengths differ by at most one. -/
def Balanced (css : List (List Nat)) : Prop :=
  ∀ cs ∈ css, ∀ cs' ∈ css, cs.length ≤ cs'.length + 1

/-- `sched_processes` keeps the lists balanced. -/
structure KeepsBalance (fuel : Nat) (s : Sched) (css : List (List Nat)) : Prop where
  balanced : Balanced css → ∀ past s', s.schedProcesses fuel past = some s' → ∃ css',
    List.Forall₂ (LlistRep s'.items) s'.cpuThreads css' ∧ Balanced css'
  returns : CpusFree s → ∀ past, ∃ s', s.schedProcesses fuel past = some s'

section OneCpu

variable {s s' : Sched} {queue cs : List Nat} {t fuel past : Nat}

theorem CpuLists.single (h : CpuLists s queue [cs]) :
    ∃ l, s.cpuThreads = [l] ∧ LlistRep s.items l cs := by
  obtain ⟨l, rest, hl, hrest, heq⟩ := List.forall₂_cons_right_iff.mp h.cpus
  rw [List.forall₂_nil_right_iff.mp hrest] at heq
  exact ⟨l, heq, hl⟩

/-- With one CPU the loop has no rounds. -/
theorem scheduleThread_one {l : Llist} (hl : s.cpuThreads = [l]) (hrep : LlistRep s.items l cs)
    (ht0 : t ≠ 0) (hfuel : cs.length ≤ fuel) :
    s.scheduleThread fuel past t = s.cpuAddThread 0 t := by
  have hcount := llistCount_eq hrep hfuel
  rw [Sched.scheduleThread, if_neg ht0, hl]
  simp only [List.getElem?_cons_zero, Option.bind_eq_bind, Option.bind_some, hcount,
    List.length_singleton, chooseCpu_eq]
  rw [if_neg (by omega)]

/-- The one list gets the thread, if its lock is free. -/
theorem CpuLists.schedule (h : CpuLists s queue [cs]) (ht0 : t ≠ 0) (hnew : t ∉ queue ++ cs)
    (hfuel : cs.length ≤ fuel) (hfree : CpusFree s) (past : Nat) :
    ∃ s', s.scheduleThread fuel past t = some s' ∧ CpuLists s' queue [cs ++ [t]] ∧
      CpusFree s' := by
  obtain ⟨l, hl, hrep⟩ := h.single
  obtain ⟨hqueue, hcs⟩ := not_or.mp fun hor => hnew (List.mem_append.mpr hor)
  have hlock : l.lock = 0 := hfree l (hl ▸ List.mem_singleton_self l)
  obtain ⟨r, hcall, hstep, hfree'⟩ := llistAppend_returns hrep hlock ht0 hcs
  rw [scheduleThread_one hl hrep ht0 hfuel, Sched.cpuAddThread, hl]
  simp only [List.getElem?_cons_zero, Option.bind_eq_bind, Option.bind_some, hcall,
    List.set_cons_zero]
  have hnodup := h.apart
  simp only [List.flatten_cons, List.flatten_nil, List.append_nil] at hnodup
  have hkept : ∀ q ∈ queue, r.1 q = s.items q := by
    intro q hq
    have hqcs : q ∉ cs := fun hin => (List.nodup_append'.mp hnodup).2.2 hq hin
    refine hstep.frame q hqcs fun hin => ?_
    rcases List.mem_append.mp hin with hin | hin
    · exact hqcs hin
    · exact hqueue (List.mem_singleton.mp hin ▸ hq)
  refine ⟨_, rfl, ⟨h.waiting.frame hkept, .cons hstep.rep .nil, ?_, ?_⟩, ?_⟩
  · simp only [List.flatten_cons, List.flatten_nil, List.append_nil]
    rw [← List.append_assoc, List.nodup_append']
    refine ⟨hnodup, List.nodup_singleton t, ?_⟩
    rw [List.disjoint_singleton]
    exact hnew
  · intro q hq
    rw [hstep.data]
    exact h.data q hq
  · intro l' hl'
    obtain rfl := List.mem_singleton.mp hl'
    exact hfree'

/-- With its lock held by somebody else, the call does not return. -/
theorem CpuLists.schedule_locked (h : CpuLists s queue [cs]) (ht0 : t ≠ 0)
    (hfuel : cs.length ≤ fuel) (hlocked : ¬ CpusFree s) (past : Nat) :
    s.scheduleThread fuel past t = none := by
  obtain ⟨l, hl, hrep⟩ := h.single
  have hlock : l.lock ≠ 0 := by
    refine fun h0 => hlocked fun l' hl' => ?_
    rw [hl, List.mem_singleton] at hl'
    rw [hl', h0]
  rw [scheduleThread_one hl hrep ht0 hfuel, Sched.cpuAddThread, hl]
  simp only [List.getElem?_cons_zero, Option.bind_eq_bind, Option.bind_some, llistAppend,
    if_neg ht0, Llist.acquire, if_neg hlock, Option.map_none, Option.bind_none]

/-- The queue without its last thread. -/
def Sched.popped (s : Sched) : Sched :=
  { s with
    items := (llistPopUnlocked s.items s.threadQueue).1
    threadQueue := (llistPopUnlocked s.items s.threadQueue).2.1 }

theorem drainQueue_succ (rounds : Nat) :
    s.drainQueue fuel past (rounds + 1) =
      if (llistPopUnlocked s.items s.threadQueue).2.2 = 0 then some s.popped
      else (s.popped.scheduleThread fuel past
          (s.popped.items (llistPopUnlocked s.items s.threadQueue).2.2).data).bind
        fun s => s.drainQueue fuel past rounds := rfl

theorem CpuLists.pop (h : CpuLists s (queue ++ [t]) [cs]) :
    (llistPopUnlocked s.items s.threadQueue).2.2 = t ∧ t ≠ 0 ∧
      (s.popped.items t).data = t ∧ CpuLists s.popped queue [cs] ∧ t ∉ queue ++ cs := by
  obtain ⟨l, hl, hrep⟩ := h.single
  obtain ⟨hpop, hitem⟩ := llistRep_pop h.waiting
  have hmem : t ∈ queue ++ [t] := List.mem_append_right _ (List.mem_singleton_self t)
  have hnodup := h.apart
  simp only [List.flatten_cons, List.flatten_nil, List.append_nil, List.append_assoc,
    List.singleton_append] at hnodup
  have hmid := List.nodup_middle.mp hnodup
  refine ⟨hitem, fun h0 => h.waiting.nonnull (h0 ▸ hmem), ?_, ⟨hpop, ?_, ?_, ?_⟩,
    (List.nodup_cons.mp hmid).1⟩
  · rw [Sched.popped, llistPopUnlocked_data]
    exact h.data t hmem
  · have hcpus : s.popped.cpuThreads = [l] := hl
    rw [hcpus]
    refine .cons (hrep.frame fun q hq => llistPopUnlocked_frame h.waiting fun hin => ?_) .nil
    rw [← List.singleton_append, ← List.append_assoc, List.nodup_append'] at hnodup
    exact hnodup.2.2 hin hq
  · simp only [List.flatten_cons, List.flatten_nil, List.append_nil]
    exact (List.nodup_cons.mp hmid).2
  · intro q hq
    rw [Sched.popped, llistPopUnlocked_data]
    exact h.data q (List.mem_append_left _ hq)

/-- The loop of `sched_processes`, by induction on the queue from its end. -/
theorem CpuLists.drain {rounds : Nat} (h : CpuLists s queue [cs]) (hrounds : queue.length < rounds)
    (hfuel : cs.length + queue.length ≤ fuel) (hfree : CpusFree s) (past : Nat) :
    ∃ s', s.drainQueue fuel past rounds = some s' ∧ CpuLists s' [] [cs ++ queue.reverse] ∧
      CpusFree s' := by
  obtain ⟨rounds, rfl⟩ := Nat.exists_eq_succ_of_ne_zero (Nat.ne_zero_of_lt hrounds)
  induction queue using List.reverseRecOn generalizing s cs rounds with
  | nil =>
    rw [Sched.drainQueue, llistPopUnlocked_nil h.waiting]
    rw [List.reverse_nil, List.append_nil]
    exact ⟨s, rfl, h, hfree⟩
  | append_singleton qs t ih =>
    obtain ⟨hitem, ht0, hdata, hpop, hnew⟩ := h.pop
    rw [List.length_append, List.length_singleton] at hrounds hfuel
    obtain ⟨s₁, hcall, h₁, hfree₁⟩ := hpop.schedule ht0 hnew
      (show cs.length ≤ fuel by omega) hfree past
    obtain ⟨rounds, rfl⟩ := Nat.exists_eq_succ_of_ne_zero (show rounds ≠ 0 by omega)
    obtain ⟨s', hrest, h', hfree'⟩ :=
      ih h₁ (by rw [List.length_append, List.length_singleton]; omega) hfree₁ rounds (by omega)
    refine ⟨s', ?_, ?_, hfree'⟩
    · rw [drainQueue_succ, hitem, if_neg ht0, hdata, hcall, Option.bind_some, hrest]
    · rw [List.reverse_append, List.reverse_singleton, ← List.append_assoc]
      exact h'

theorem CpuLists.drain_locked {rounds : Nat} (h : CpuLists s queue [cs]) (hfuel : cs.length ≤ fuel)
    (hlocked : ¬ CpusFree s) (hcall : s.drainQueue fuel past rounds = some s') :
    s' = s := by
  cases rounds with
  | zero => cases hcall
  | succ rounds =>
    rcases List.eq_nil_or_concat queue with rfl | ⟨qs, t, rfl⟩
    · rw [Sched.drainQueue, llistPopUnlocked_nil h.waiting] at hcall
      exact (Option.some.inj hcall).symm
    · rw [List.concat_eq_append] at h
      obtain ⟨hitem, ht0, hdata, hpop, -⟩ := h.pop
      have hnone := hpop.schedule_locked ht0 hfuel hlocked past
      rw [drainQueue_succ, hitem, if_neg ht0, hdata, hnone] at hcall
      cases hcall

/-! ## One CPU, and more -/

theorem leastLoaded_one (h : CpuLists s queue [cs]) (ht0 : t ≠ 0) (hnew : t ∉ queue ++ cs)
    (hfuel : cs.length ≤ fuel) : LeastLoaded fuel s [cs] t := by
  refine ⟨fun past i hi => ?_, fun past s' hcall => ⟨0, cs, rfl, ?_, ?_⟩, fun hfree past => ?_⟩
  · rw [List.length_singleton, pickCpu_reads] at hi
    rw [List.mem_singleton.mp hi]
    exact Nat.one_pos
  · intro cs' hcs'
    rw [List.mem_singleton.mp hcs']
  · by_cases hfree : CpusFree s
    · obtain ⟨s'', hcall', hlists, -⟩ := h.schedule ht0 hnew hfuel hfree past
      obtain rfl := Option.some.inj (hcall'.symm.trans hcall)
      exact hlists.cpus
    · rw [h.schedule_locked ht0 hfuel hfree past] at hcall
      cases hcall
  · obtain ⟨s', hcall, -⟩ := h.schedule ht0 hnew hfuel hfree past
    exact ⟨s', hcall⟩

theorem CpuLists.tryQueue (h : CpuLists s queue [cs]) : CpuLists s.tryQueue queue [cs] :=
  ⟨h.waiting.of_list_eq _ rfl, h.cpus, h.apart, h.data⟩

theorem balanced_one (cs : List Nat) : Balanced [cs] := by
  intro cs₁ h₁ cs₂ h₂
  rw [List.mem_singleton.mp h₁, List.mem_singleton.mp h₂]
  exact Nat.le_succ _

theorem keepsBalance_one (h : CpuLists s queue [cs]) (hfuel : cs.length + queue.length < fuel) :
    KeepsBalance fuel s [cs] := by
  have hdrain := h.tryQueue.drain (show queue.length < fuel by omega) (Nat.le_of_lt hfuel)
  refine ⟨fun _ past s' hcall => ?_, fun hfree past => ?_⟩
  · unfold Sched.schedProcesses at hcall
    split at hcall
    · obtain rfl := Option.some.inj hcall
      exact ⟨_, h.cpus, balanced_one cs⟩
    · obtain ⟨s₁, h₁, hret⟩ := Option.bind_eq_some_iff.mp hcall
      obtain rfl := Option.some.inj hret
      by_cases hfree : CpusFree s
      · obtain ⟨s₂, h₂, hlists, -⟩ := hdrain hfree past
        obtain rfl := Option.some.inj (h₂.symm.trans h₁)
        exact ⟨_, hlists.cpus, balanced_one _⟩
      · obtain rfl := h.tryQueue.drain_locked (by omega) hfree h₁
        exact ⟨_, h.cpus, balanced_one cs⟩
  · unfold Sched.schedProcesses
    split
    · exact ⟨_, rfl⟩
    · obtain ⟨s₁, h₁, -⟩ := hdrain hfree past
      rw [h₁]
      exact ⟨_, rfl⟩

end OneCpu

/-- **Threads go to a least loaded CPU exactly if there is one CPU.** With two
or more, every call counts a list that is none of theirs. -/
theorem least_loaded_iff_one_cpu {s : Sched} {queue : List Nat} {css : List (List Nat)} {fuel : Nat}
    (h : CpuLists s queue css) (hcpus : 1 ≤ css.length)
    (hfuel : (queue ++ css.flatten).length < fuel) :
    ((∀ t, t ≠ 0 → t ∉ queue ++ css.flatten → LeastLoaded fuel s css t) ∧
      KeepsBalance fuel s css) ↔ css.length = 1 := by
  constructor
  · rintro ⟨hleast, -⟩
    obtain ⟨t, ht⟩ := Infinite.exists_notMem_finset (0 :: (queue ++ css.flatten)).toFinset
    rw [List.mem_toFinset, List.mem_cons, not_or] at ht
    by_contra hne
    -- the second round reads past the end
    have hread := (hleast t ht.1 ht.2).reads 0 css.length
    rw [pickCpu_reads] at hread
    exact Nat.lt_irrefl _ (hread (List.mem_cons_of_mem _
      (List.mem_replicate.mpr ⟨by omega, rfl⟩)))
  · intro hone
    obtain ⟨cs, rfl⟩ := List.length_eq_one_iff.mp hone
    simp only [List.flatten_cons, List.flatten_nil, List.append_nil, List.length_append] at hfuel ⊢
    exact ⟨fun t ht0 hnew => leastLoaded_one h ht0 hnew (by omega), keepsBalance_one h (by omega)⟩

/-- The thread `8` on the first of some CPUs, and none on the others. -/
def eightOn (cpuThreads : List Llist) : Sched where
  items := fun _ => ⟨8, 8, 8⟩
  threadQueue := llistInit
  cpuThreads := cpuThreads
  currThread := []
  kerneltime := 0
  calls := fun _ => .idle
  holder := none
  threads := [8]

theorem eightOn_rep (cpuThreads : List Llist) : LlistRep (eightOn cpuThreads).items ⟨8, 0⟩ [8] :=
  ⟨IsRing.singleton rfl rfl, by simp, rfl⟩

theorem least_loaded_one_thread :
    (∀ t, t ≠ 0 → t ∉ [8] → LeastLoaded 2 (eightOn [⟨8, 0⟩]) [[8]] t) ∧
      KeepsBalance 2 (eightOn [⟨8, 0⟩]) [[8]] :=
  (@least_loaded_iff_one_cpu _ [] [[8]] 2
    ⟨llistRep_init _, .cons (eightOn_rep _) .nil, by simp, by simp⟩ (Nat.le_refl 1)
    (Nat.lt_succ_self 1)).mpr rfl

/-- With `5` past the end of the array, the next thread joins the one on the
first CPU, and the second stays empty. -/
theorem busier_cpu_chosen :
    CpuLists (eightOn [⟨8, 0⟩, llistInit]) [] [[8], []] ∧
      (pickCpu (ringCount [[8], []] 5) 2).cpu = 0 ∧
      ¬ LeastLoaded 2 (eightOn [⟨8, 0⟩, llistInit]) [[8], []] 16 := by
  refine ⟨⟨llistRep_init _, .cons (eightOn_rep _) (.cons (llistRep_init _) .nil), by simp,
    by simp⟩, rfl, fun h => ?_⟩
  exact Nat.lt_irrefl 2 (h.reads 5 2 (List.mem_cons_of_mem 0 (List.mem_singleton_self 2)))

end LambdaOs
