import Mathlib.Data.List.Perm.Subperm
import LambdaOs.SchedNext
import LambdaOs.TaskCalls

/-!
# What the scheduler holds of destroyed threads

`thread_destroy` calls `sched_remove_thread` and frees the thread. The search goes
over the lists of the CPUs: a thread in `_thread_queue`, or in `_curr_thread`, stays
there, and so does the head of a list, which `llist_remove` does not move.

`Rings` says what the lists of the scheduler hold, with one lemma for every change
of a list; none of the calls puts a thread into a list that is not allocated.
Destroying is safe when the thread is nowhere but inside a CPU's list (`Spare`), and
`proc_destroy` destroys every thread of a process that has at most one.
-/

namespace LambdaOs

/-! ## What a list reaches -/

/-- `t` is found from the head of the list on. -/
def InList (m : Items) (l : Llist) (t : Nat) : Prop :=
  l.list ≠ 0 ∧ ∃ k, (fun p => (m p).next)^[k] l.list = t

theorem IsRing.reaches {next prev : Nat → Nat} {h : Nat} :
    ∀ {pre : List Nat} {x : Nat} {post : List Nat}, IsRing next prev (pre ++ x :: post) →
      (pre ++ x :: post).head? = some h → ∃ k, next^[k] h = x := by
  intro pre
  induction pre using List.reverseRecOn with
  | nil =>
      intro x post _ hhead
      exact ⟨0, (Option.some.inj hhead).symm⟩
  | append_singleton pre a ih =>
      intro x post hr hhead
      rw [List.append_assoc] at hr hhead
      obtain ⟨k, hk⟩ := ih hr hhead
      exact ⟨k + 1, by rw [Function.iterate_succ_apply', hk]; exact hr.next_eq⟩

theorem LlistRep.inList_iff {m : Items} {l : Llist} {xs : List Nat} {t : Nat}
    (h : LlistRep m l xs) : InList m l t ↔ t ∈ xs := by
  have hhead := h.head
  constructor
  · rintro ⟨hne, k, rfl⟩
    have hstart : l.list ∈ xs := by
      cases xs with
      | nil => exact absurd hhead hne
      | cons x xs =>
          rw [hhead]
          exact List.mem_cons_self
    induction k with
    | zero => exact hstart
    | succ k ih =>
        rw [Function.iterate_succ_apply']
        exact h.ring.next_mem ih
  · intro ht
    refine ⟨fun h0 => by simp [h.list_eq_zero_iff.mp h0] at ht, ?_⟩
    obtain ⟨pre, post, rfl⟩ := List.append_of_mem ht
    refine h.ring.reaches ?_
    rw [hhead]
    cases pre with
    | nil => rfl
    | cons x pre => rfl

theorem llistPop_step {m : Items} {l : Llist} {xs : List Nat} {a : Nat}
    (h : LlistRep m l (xs ++ [a])) :
    LlistStep m (xs ++ [a]) (llistPopUnlocked m l).1 (llistPopUnlocked m l).2.1 xs :=
  ⟨(llistRep_pop h).1, llistPopUnlocked_data m l, fun _ hq _ => llistPopUnlocked_frame h hq⟩

/-! ## The lists of the scheduler -/

/-- `_thread_queue` for `none`, `_cpu_threads[cpu]` for `some cpu`. -/
def Sched.list (sc : Sched) : Option Nat → Option Llist
  | none => some sc.threadQueue
  | some cpu => sc.cpuThreads[cpu]?

/-- The lists of `n` CPUs and the queue hold the threads `xs`, all of them allocated and
none in two places; the current thread of a CPU is in its list. -/
structure Rings (n : Nat) (sc : Sched) (heap : List Nat) (xs : Option Nat → List Nat) : Prop where
  rep : ∀ i l, sc.list i = some l → LlistRep sc.items l (xs i)
  none_iff : ∀ cpu, sc.list (some cpu) = none ↔ n ≤ cpu
  out : ∀ i, sc.list i = none → xs i = []
  one : ∀ i j t, t ∈ xs i → t ∈ xs j → i = j
  heap : ∀ i, ∀ t ∈ xs i, t ∈ heap
  data : ∀ i, ∀ t ∈ xs i, (sc.items t).data = t
  curr : ∀ cpu c, sc.currThread[cpu]? = some c →
    c ∈ xs (some cpu) ∨ c = 0 ∧ xs (some cpu) = [] ∧ cpu < n

section Rings

variable {n : Nat} {sc sc' : Sched} {heap : List Nat} {xs : Option Nat → List Nat} {t : Nat}

/-- One list changes: the threads it has then were in it, or are `t`, which was in no
list. -/
theorem Rings.relist (h : Rings n sc heap xs) {i : Option Nat} {ys : List Nat} {m : Items}
    {l l' : Llist} (hl : sc.list i = some l) (hstep : LlistStep sc.items (xs i) m l' ys)
    (hitems : sc'.items = m) (hlist : sc'.list i = some l')
    (hothers : ∀ j, j ≠ i → sc'.list j = sc.list j)
    (hys : ∀ u ∈ ys, u ∈ xs i ∨ (∀ j, u ∉ xs j) ∧ u ∈ heap ∧ (sc.items u).data = u)
    (hcurr : ∀ cpu c, sc'.currThread[cpu]? = some c →
      c ∈ Function.update xs i ys (some cpu) ∨
        c = 0 ∧ Function.update xs i ys (some cpu) = [] ∧ cpu < n) :
    Rings n sc' heap (Function.update xs i ys) := by
  have hnot : ∀ {j}, j ≠ i → ∀ {u}, u ∈ xs j → u ∉ ys := fun hj u hu hin => by
    rcases hys u hin with hin | ⟨hnew, -⟩
    · exact hj (h.one _ _ u hu hin)
    · exact hnew _ hu
  refine ⟨?_, ?_, ?_, ?_,
    ?_, ?_, hcurr⟩
  · intro j k hk
    by_cases hji : j = i
    · subst hji
      rw [Function.update_self, hitems]
      obtain rfl := Option.some.inj (hlist.symm.trans hk)
      exact hstep.rep
    · rw [Function.update_of_ne hji, hitems]
      have hrep := h.rep j k (hothers j hji ▸ hk)
      refine hrep.frame fun u hu => hstep.frame u (fun hin => hji (h.one j i u hu hin)) ?_
      exact hnot hji hu
  · intro cpu
    rw [← h.none_iff cpu]
    by_cases hji : some cpu = i
    · rw [hji, hlist, hl]
      exact iff_of_false nofun nofun
    · rw [hothers _ hji]
  · intro j hj
    have hji : j ≠ i := by
      rintro rfl
      rw [hlist] at hj
      cases hj
    rw [Function.update_of_ne hji]
    exact h.out j (hothers j hji ▸ hj)
  · intro j k u hu hu'
    by_cases hj : j = i
    · by_cases hk : k = i
      · rw [hj, hk]
      · rw [hj, Function.update_self] at hu
        rw [Function.update_of_ne hk] at hu'
        exact absurd hu (hnot hk hu')
    · rw [Function.update_of_ne hj] at hu
      by_cases hk : k = i
      · rw [hk, Function.update_self] at hu'
        exact absurd hu' (hnot hj hu)
      · rw [Function.update_of_ne hk] at hu'
        exact h.one j k u hu hu'
  · intro j u hu
    by_cases hj : j = i
    · rw [hj, Function.update_self] at hu
      exact (hys u hu).elim (h.heap i u) fun hu => hu.2.1
    · rw [Function.update_of_ne hj] at hu
      exact h.heap j u hu
  · intro j u hu
    rw [hitems, hstep.data]
    by_cases hj : j = i
    · rw [hj, Function.update_self] at hu
      exact (hys u hu).elim (h.data i u) fun hu => hu.2.2
    · rw [Function.update_of_ne hj] at hu
      exact h.data j u hu

/-- The locks play no part, and neither do items outside the lists. -/
theorem Rings.congr (h : Rings n sc heap xs) (sc' : Sched)
    (hlists : ∀ i l', sc'.list i = some l' → ∃ l, sc.list i = some l ∧ l'.list = l.list)
    (hnone : ∀ i, sc'.list i = none → sc.list i = none)
    (hitems : ∀ i, ∀ u ∈ xs i, sc'.items u = sc.items u) (hcurr : sc'.currThread = sc.currThread)
    {heap' : List Nat} (hheap : ∀ i, ∀ u ∈ xs i, u ∈ heap') : Rings n sc' heap' xs := by
  refine ⟨?_, ?_, fun i hi => h.out i (hnone i hi), h.one, hheap,
    ?_, hcurr ▸ h.curr⟩
  · intro i l' hl'
    obtain ⟨l, hl, heq⟩ := hlists i l' hl'
    exact ((h.rep i l hl).of_list_eq l' heq).frame (hitems i)
  · intro cpu
    rw [← h.none_iff cpu]
    refine ⟨hnone _, fun hsc => Option.eq_none_iff_forall_ne_some.mpr ?_⟩
    intro l' hl'
    obtain ⟨l, hl, -⟩ := hlists _ l' hl'
    rw [hsc] at hl
    cases hl
  · intro i u hu
    rw [hitems i u hu]
    exact h.data i u hu

theorem Rings.setData (h : Rings n sc heap xs) (t : Nat) :
    Rings n { sc with items := sc.items.setData t t } heap xs := by
  refine ⟨fun i l hl => (h.rep i l hl).setData t t, h.none_iff, h.out, h.one, h.heap,
    ?_, h.curr⟩
  intro i u hu
  by_cases hut : u = t
  · subst hut
    simp only [Items.setData, Function.update_self]
  · simp only [Items.setData, Function.update_of_ne hut]
    exact h.data i u hu

/-- Only the lists' locks and what nothing here reads have changed. -/
theorem Rings.relock (h : Rings n sc heap xs) (hitems : sc'.items = sc.items)
    (hcurr : sc'.currThread = sc.currThread) (hqueue : sc'.threadQueue.list = sc.threadQueue.list)
    (hcpus : sc'.cpuThreads = sc.cpuThreads) : Rings n sc' heap xs := by
  refine h.congr sc' ?_ ?_ (fun _ _ _ => by rw [hitems]) hcurr
    h.heap
  · intro i l' hl'
    cases i with
    | none =>
        cases hl'
        exact ⟨_, rfl, hqueue⟩
    | some cpu =>
        simp only [Sched.list, hcpus] at hl'
        exact ⟨l', hl', rfl⟩
  · intro i hi
    cases i with
    | none => cases hi
    | some cpu =>
        simp only [Sched.list, hcpus] at hi
        exact hi

theorem list_setCpu (sc' : Sched) {cpu : Nat} {l l' : Llist} (hl : sc.cpuThreads[cpu]? = some l)
    (hcpus : sc'.cpuThreads = sc.cpuThreads.set cpu l')
    (hqueue : sc'.threadQueue = sc.threadQueue) :
    sc'.list (some cpu) = some l' ∧ ∀ j, j ≠ some cpu → sc'.list j = sc.list j := by
  obtain ⟨hlt, -⟩ := List.getElem?_eq_some_iff.mp hl
  constructor
  · simp only [Sched.list, hcpus, List.getElem?_set_self hlt]
  · intro j hj
    cases j with
    | none => simp only [Sched.list, hqueue]
    | some k =>
        have hk : cpu ≠ k := fun he => hj (he ▸ rfl)
        simp only [Sched.list, hcpus, List.getElem?_set_ne hk]

theorem Rings.cpuAddThread (h : Rings n sc heap xs) {cpu : Nat} (hnew : ∀ i, t ∉ xs i)
    (ht0 : t ≠ 0) (halloc : t ∈ heap) (hdata : (sc.items t).data = t)
    (hcall : sc.cpuAddThread cpu t = some sc') :
    Rings n sc' heap (Function.update xs (some cpu) (xs (some cpu) ++ [t])) := by
  obtain ⟨l, hl, hcall⟩ := Option.bind_eq_some_iff.mp hcall
  obtain ⟨r, hr, hret⟩ := Option.bind_eq_some_iff.mp hcall
  obtain rfl := Option.some.inj hret
  have hstep := llistAppend_step (h.rep (some cpu) l hl) ht0 (hnew _) hr
  obtain ⟨hlist, hothers⟩ := list_setCpu { sc with
    items := r.1, cpuThreads := sc.cpuThreads.set cpu r.2 } hl rfl rfl
  refine h.relist hl hstep rfl hlist hothers ?_ ?_
  · intro u hu
    rcases List.mem_append.mp hu with hu | hu
    · exact .inl hu
    · obtain rfl := List.mem_singleton.mp hu
      exact .inr ⟨hnew, halloc, hdata⟩
  · intro cpu' c hc
    dsimp only at hc
    by_cases hcpu : cpu' = cpu
    · subst hcpu
      rw [Function.update_self]
      refine .inl ?_
      split at hc
      · obtain ⟨hlt, -⟩ := List.getElem?_eq_some_iff.mp hc
        rw [List.getElem?_set_self (by simpa using hlt)] at hc
        obtain rfl := Option.some.inj hc
        exact List.mem_append_right _ (List.mem_singleton_self _)
      · rename_i hne
        rw [List.getD_eq_getElem?_getD, hc] at hne
        exact List.mem_append_left _ ((h.curr cpu' c hc).resolve_right fun h0 => hne h0.1)
    · rw [Function.update_of_ne (fun he => hcpu (Option.some.inj he))]
      refine h.curr cpu' c ?_
      split at hc
      · rwa [List.getElem?_set_ne (Ne.symm hcpu)] at hc
      · exact hc

theorem Rings.enqueueThread (h : Rings n sc heap xs) (hnew : ∀ i, t ∉ xs i) (halloc : t ∈ heap)
    {r : Sched × Int} (hcall : sc.enqueueThread t = some r) :
    ∃ ys, Rings n r.1 heap (Function.update xs none ys) := by
  unfold Sched.enqueueThread at hcall
  split at hcall
  · cases hcall
  rename_i ht0
  have hset := h.setData t
  dsimp only at hcall
  split at hcall
  · obtain rfl := Option.some.inj hcall
    exact ⟨xs none, (Function.update_eq_self none xs).symm ▸ hset⟩
  · obtain rfl := Option.some.inj hcall
    have hrep := hset.rep none _ rfl
    refine ⟨xs none ++ [t], hset.relist rfl ⟨llistRep_append hrep ht0 (hnew none),
      llistAppendUnlocked_data _ _ t, ?_⟩ rfl rfl ?_ ?_
      ?_⟩
    · intro q hq hq'
      exact llistAppendUnlocked_frame hrep hq fun he =>
        hq' (he ▸ List.mem_append_right _ (List.mem_singleton_self _))
    · intro j hj
      cases j with
      | none => exact absurd rfl hj
      | some cpu => rfl
    · intro u hu
      rcases List.mem_append.mp hu with hu | hu
      · exact .inl hu
      · obtain rfl := List.mem_singleton.mp hu
        refine .inr ⟨hnew, halloc, ?_⟩
        simp only [Items.setData, Function.update_self]
    · intro cpu c hc
      rw [Function.update_of_ne (Option.some_ne_none cpu)]
      exact h.curr cpu c hc

theorem Rings.scheduleThread (h : Rings n sc heap xs) {fuel past : Nat} (hnew : ∀ i, t ∉ xs i)
    (halloc : t ∈ heap) (hdata : (sc.items t).data = t)
    (hcall : sc.scheduleThread fuel past t = some sc') :
    ∃ cpu, Rings n sc' heap (Function.update xs (some cpu) (xs (some cpu) ++ [t])) := by
  unfold Sched.scheduleThread at hcall
  split at hcall
  · cases hcall
  · rename_i ht0
    obtain ⟨l, -, hcall⟩ := Option.bind_eq_some_iff.mp hcall
    obtain ⟨count, -, hcall⟩ := Option.bind_eq_some_iff.mp hcall
    exact ⟨_, h.cpuAddThread hnew ht0 halloc hdata hcall⟩

/-- The loop, by induction on its rounds: what leaves the queue goes to a CPU. -/
theorem Rings.drainQueue {fuel past rounds : Nat} {sc sc' : Sched} {xs : Option Nat → List Nat}
    (h : Rings n sc heap xs) (hcall : sc.drainQueue fuel past rounds = some sc') :
    ∃ ys, Rings n sc' heap ys ∧ ∀ cpu, xs (some cpu) ≠ [] → ys (some cpu) ≠ [] := by
  induction rounds generalizing sc xs with
  | zero => cases hcall
  | succ rounds ih =>
      unfold Sched.drainQueue at hcall
      dsimp only at hcall
      have hrep := h.rep none _ rfl
      rcases List.eq_nil_or_concat (xs none) with hnil | ⟨qs, t, hqs⟩
      · rw [hnil] at hrep
        rw [llistPopUnlocked_nil hrep, if_pos rfl] at hcall
        obtain rfl := Option.some.inj hcall
        exact ⟨xs, h, fun _ => id⟩
      · rw [List.concat_eq_append] at hqs
        rw [hqs] at hrep
        have ht : t ∈ xs none := hqs ▸ List.mem_append_right _ (List.mem_singleton_self _)
        have ht0 : t ≠ 0 := fun h0 => hrep.nonnull (h0 ▸ hqs ▸ ht)
        have hitem := (llistRep_pop hrep).2
        rw [hitem, if_neg ht0] at hcall
        obtain ⟨sc₁, h₁, hcall⟩ := Option.bind_eq_some_iff.mp hcall
        have hnot : t ∉ qs := fun hin => by
          have hnd := hrep.ring.nodup
          rw [List.nodup_append'] at hnd
          exact hnd.2.2 hin (List.mem_singleton_self _)
        have hpop : Rings n { sc with
            items := (llistPopUnlocked sc.items sc.threadQueue).1
            threadQueue := (llistPopUnlocked sc.items sc.threadQueue).2.1 } heap
            (Function.update xs none qs) := by
          refine h.relist rfl (hqs ▸ llistPop_step hrep) rfl rfl ?_ ?_
            ?_
          · intro j hj
            cases j with
            | none => exact absurd rfl hj
            | some cpu => rfl
          · intro u hu
            exact .inl (hqs ▸ List.mem_append_left _ hu)
          · intro cpu c hc
            rw [Function.update_of_ne (Option.some_ne_none cpu)]
            exact h.curr cpu c hc
        have hnew : ∀ i, t ∉ Function.update xs none qs i := by
          intro i
          by_cases hi : i = none
          · rw [hi, Function.update_self]
            exact hnot
          · rw [Function.update_of_ne hi]
            exact fun hin => hi (h.one i none t hin ht)
        have hdata : ((llistPopUnlocked sc.items sc.threadQueue).1 t).data = t := by
          rw [llistPopUnlocked_data]
          exact h.data none t ht
        rw [hdata] at h₁
        obtain ⟨cpu, hsched⟩ := hpop.scheduleThread hnew (h.heap none t ht) hdata h₁
        obtain ⟨ys, hys, hfilled⟩ := ih hsched hcall
        refine ⟨ys, hys, fun cpu' hne => hfilled cpu' ?_⟩
        by_cases hcpu : some cpu' = some cpu
        · rw [hcpu, Function.update_self]
          exact List.append_ne_nil_of_right_ne_nil _ (List.cons_ne_nil _ _)
        · rw [Function.update_of_ne hcpu, Function.update_of_ne (Option.some_ne_none cpu')]
          exact hne

theorem Rings.schedProcesses (h : Rings n sc heap xs) {fuel past : Nat}
    (hcall : sc.schedProcesses fuel past = some sc') :
    ∃ ys, Rings n sc' heap ys ∧ ∀ cpu, xs (some cpu) ≠ [] → ys (some cpu) ≠ [] := by
  have htry : Rings n sc.tryQueue heap xs := h.relock rfl rfl rfl rfl
  unfold Sched.schedProcesses at hcall
  split at hcall
  · obtain rfl := Option.some.inj hcall
    exact ⟨xs, htry, fun _ => id⟩
  · obtain ⟨sc₁, h₁, hret⟩ := Option.bind_eq_some_iff.mp hcall
    obtain rfl := Option.some.inj hret
    obtain ⟨ys, hys, hfilled⟩ := htry.drainQueue h₁
    exact ⟨ys, hys.relock rfl rfl rfl rfl, hfilled⟩

/-! ## `sched_remove_thread` -/

theorem getPositionLoop_mono {m : Items} {first item : Nat} {pos : Int}
    {fuel fuel' citem i : Nat} (hle : fuel ≤ fuel')
    (h : getPositionLoop m first item fuel citem i = some pos) :
    getPositionLoop m first item fuel' citem i = some pos := by
  induction fuel generalizing fuel' citem i with
  | zero => cases h
  | succ fuel ih =>
      obtain ⟨fuel', rfl⟩ := Nat.exists_eq_succ_of_ne_zero (Nat.ne_zero_of_lt hle)
      unfold getPositionLoop at h ⊢
      split
      · rename_i heq
        rwa [if_pos heq] at h
      · rename_i hne
        rw [if_neg hne] at h
        dsimp only at h ⊢
        split
        · rename_i hnext
          rw [if_pos hnext] at h
          exact ih (Nat.le_of_succ_le_succ hle) h
        · rename_i hnext
          rwa [if_neg hnext] at h

/-- Whenever the search of a ring returns, it says whether the item is there. -/
theorem LlistRep.getPosition {m : Items} {l : Llist} {ys : List Nat} {fuel : Nat} {pos : Int}
    (h : LlistRep m l ys) (hne : ys ≠ []) (hpos : llistGetPosition fuel m l t = some pos) :
    pos = seqPosition ys t := by
  have hfull := llistGetPosition_eq t h hne (Nat.le_max_left ys.length fuel)
  unfold llistGetPosition at hpos hfull
  split at hpos
  · rename_i h0
    rw [if_pos h0] at hfull
    exact Option.some.inj (hpos.symm.trans hfull)
  · rename_i h0
    rw [if_neg h0] at hfull
    exact Option.some.inj ((getPositionLoop_mono (Nat.le_max_right ..) hpos).symm.trans hfull)

theorem seqPosition_nonneg {ys : List Nat} : seqPosition ys t ≥ 0 ↔ t ∈ ys := by
  unfold seqPosition
  split
  · rename_i hin
    exact iff_of_true (Int.natCast_nonneg _) hin
  · rename_i hin
    exact iff_of_false (by decide) hin

/-- A thread inside the list of a CPU, behind its head, is taken out. -/
theorem Rings.removeInner (h : Rings n sc heap xs) {cpu : Nat} {l : Llist} {pre post : List Nat}
    (hl : sc.cpuThreads[cpu]? = some l) (hxs : xs (some cpu) = pre ++ t :: post) (hpre : pre ≠ [])
    (hcurr : t ∉ sc.currThread) :
    Rings n { sc with
      items := (llistRemoveUnlocked sc.items l t).1
      cpuThreads := sc.cpuThreads.set cpu (llistRemoveUnlocked sc.items l t).2 } heap
      (Function.update xs (some cpu) (pre ++ post)) := by
  have hrep := h.rep (some cpu) l hl
  rw [hxs] at hrep
  obtain ⟨hlist, hothers⟩ := list_setCpu { sc with
    items := (llistRemoveUnlocked sc.items l t).1
    cpuThreads := sc.cpuThreads.set cpu (llistRemoveUnlocked sc.items l t).2 } hl rfl rfl
  have hmem : ∀ {u}, u ∈ pre ++ t :: post → u = t ∨ u ∈ pre ++ post := fun hu => by
    simpa [or_left_comm] using hu
  have hstep : LlistStep sc.items (xs (some cpu)) (llistRemoveUnlocked sc.items l t).1
      (llistRemoveUnlocked sc.items l t).2 (pre ++ post) := by
    rw [hxs]
    exact ⟨llistRep_remove hrep hpre, llistRemoveUnlocked_data _ _ t,
      fun q hq _ => llistRemoveUnlocked_frame hrep hpre hq⟩
  refine h.relist hl hstep rfl hlist hothers ?_ ?_
  · intro u hu
    rw [hxs]
    refine .inl ?_
    rcases List.mem_append.mp hu with hu | hu
    · exact List.mem_append_left _ hu
    · exact List.mem_append_right _ (List.mem_cons_of_mem _ hu)
  · intro cpu' c hc
    by_cases hcpu : some cpu' = some cpu
    · rw [hcpu, Function.update_self]
      obtain rfl := Option.some.inj hcpu
      have hc' : c ≠ t := fun he => hcurr (he ▸ List.mem_of_getElem? hc)
      have hin := (h.curr cpu' c hc).resolve_right fun h0 => by simp [hxs] at h0
      rw [hxs] at hin
      exact .inl ((hmem hin).resolve_left hc')
    · rw [Function.update_of_ne hcpu]
      exact h.curr cpu' c hc

/-- The loop over the CPUs, for a thread that is not the head of a list and not
current, with the lock of its list free. -/
theorem Rings.removeLoop (h : Rings n sc heap xs) {fuel : Nat} (hcurr : t ∉ sc.currThread)
    (hhead : ∀ l ∈ sc.cpuThreads, l.list ≠ t)
    (hlock : ∀ l ∈ sc.cpuThreads, InList sc.items l t → l.lock = 0) {r : Sched × Int}
    {is : List Nat} (hcall : Sched.removeLoop fuel t is sc = some r) :
    (∃ cpu pre post, xs (some cpu) = pre ++ t :: post ∧ pre ≠ [] ∧
      Rings n r.1 heap (Function.update xs (some cpu) (pre ++ post))) ∨
    r.1 = sc ∧ ∀ cpu ∈ is, t ∉ xs (some cpu) := by
  induction is with
  | nil =>
      obtain rfl := Option.some.inj hcall
      exact .inr ⟨rfl, fun cpu hcpu => absurd hcpu List.not_mem_nil⟩
  | cons i is ih =>
      obtain ⟨l, hl, hcall⟩ := Option.bind_eq_some_iff.mp hcall
      have hrep := h.rep (some i) l hl
      have hmem := List.mem_of_getElem? hl
      split at hcall
      · cases hcall
      rename_i hl0
      have hne : xs (some i) ≠ [] := fun hnil => hl0 (hrep.list_eq_zero_iff.mpr hnil)
      obtain ⟨pos, hpos, hcall⟩ := Option.bind_eq_some_iff.mp hcall
      obtain rfl := hrep.getPosition hne hpos
      split at hcall
      · -- found
        rename_i hfound
        have hin := seqPosition_nonneg.mp hfound
        rw [if_neg (not_not.mpr (hlock l hmem (hrep.inList_iff.mpr hin)))] at hcall
        obtain rfl := Option.some.inj hcall
        obtain ⟨pre, post, hxs⟩ := List.append_of_mem hin
        have hpre : pre ≠ [] := by
          rintro rfl
          have hfirst := hrep.head
          rw [hxs] at hfirst
          exact hhead l hmem hfirst
        exact .inl ⟨i, pre, post, hxs, hpre, h.removeInner hl hxs hpre hcurr⟩
      · rename_i hmissed
        have hout : t ∉ xs (some i) := fun hin => hmissed (seqPosition_nonneg.mpr hin)
        refine (ih hcall).imp_right fun hrest => ⟨hrest.1, ?_⟩
        exact List.forall_mem_cons.mpr ⟨hout, hrest.2⟩

theorem Rings.removeThread (h : Rings n sc heap xs) {fuel : Nat} (hqueue : t ∉ xs none)
    (hcurr : t ∉ sc.currThread) (hhead : ∀ l ∈ sc.cpuThreads, l.list ≠ t)
    (hlock : ∀ l ∈ sc.cpuThreads, InList sc.items l t → l.lock = 0) {r : Sched × Int}
    (hcall : sc.removeThread fuel t = some r) :
    ∃ ys, Rings n r.1 heap ys ∧ (∀ i, t ∉ ys i) ∧
      ∀ cpu, xs (some cpu) ≠ [] → ys (some cpu) ≠ [] := by
  rcases h.removeLoop hcurr hhead hlock hcall with ⟨cpu, pre, post, hxs, hpre, hrings⟩ |
    ⟨hsame, hout⟩
  · refine ⟨_, hrings, ?_, ?_⟩
    · intro i hin
      have hmid : t ∈ xs (some cpu) := hxs ▸ List.mem_append_right _ List.mem_cons_self
      by_cases hi : i = some cpu
      · rw [hi, Function.update_self] at hin
        obtain ⟨l, hl⟩ : ∃ l, sc.list (some cpu) = some l := by
          refine Option.ne_none_iff_exists'.mp ?_
          intro hnone
          rw [h.out _ hnone] at hmid
          cases hmid
        have hnd := (h.rep _ l hl).ring.nodup
        rw [hxs] at hnd
        exact (List.nodup_cons.mp (List.nodup_middle.mp hnd)).1 hin
      · rw [Function.update_of_ne hi] at hin
        exact hi (h.one i (some cpu) t hin hmid)
    · intro cpu' hne
      by_cases hcpu : some cpu' = some cpu
      · rw [hcpu, Function.update_self]
        exact List.append_ne_nil_of_left_ne_nil hpre _
      · rw [Function.update_of_ne hcpu]
        exact hne
  · rw [hsame]
    refine ⟨xs, h, ?_, fun _ => id⟩
    intro i hin
    cases i with
    | none => exact hqueue hin
    | some cpu =>
        by_cases hcpu : cpu < sc.cpuThreads.length
        · exact hout cpu (List.mem_range.mpr hcpu) hin
        · rw [h.out (some cpu) (List.getElem?_eq_none (Nat.not_lt.mp hcpu))] at hin
          cases hin

theorem Rings.length_le (h : Rings n sc heap xs) (i : Option Nat) :
    (xs i).length ≤ heap.length := by
  cases hl : sc.list i with
  | none =>
      rw [h.out i hl]
      exact Nat.zero_le _
  | some l => exact (List.subperm_of_subset (h.rep i l hl).ring.nodup (h.heap i)).length_le

theorem Rings.length (h : Rings n sc heap xs) : sc.cpuThreads.length = n := by
  have hiff : ∀ cpu, sc.cpuThreads.length ≤ cpu ↔ n ≤ cpu := fun cpu =>
    List.getElem?_eq_none_iff.symm.trans (h.none_iff cpu)
  exact Nat.le_antisymm ((hiff n).mpr (Nat.le_refl n)) ((hiff _).mp (Nat.le_refl _))

theorem Rings.removeThread_returns (h : Rings n sc heap xs) {fuel : Nat}
    (hne : ∀ cpu < n, xs (some cpu) ≠ [])
    (hfuel : ∀ cpu, (xs (some cpu)).length ≤ fuel) : ∃ r, sc.removeThread fuel t = some r := by
  have hloop : ∀ {is : List Nat}, (∀ i ∈ is, i < sc.cpuThreads.length) →
      ∃ r, Sched.removeLoop fuel t is sc = some r := by
    intro is
    induction is with
    | nil => exact fun _ => ⟨_, rfl⟩
    | cons i is ih =>
        intro his
        obtain ⟨hi, his⟩ := List.forall_mem_cons.mp his
        have hrep := h.rep (some i) _ (List.getElem?_eq_getElem hi)
        have hl0 : (sc.cpuThreads[i]).list ≠ 0 := fun h0 =>
          hne i (h.length ▸ hi) (hrep.list_eq_zero_iff.mp h0)
        simp only [Sched.removeLoop, List.getElem?_eq_getElem hi, Option.bind_eq_bind,
          Option.bind_some, if_neg hl0,
          llistGetPosition_eq t hrep (hne i (h.length ▸ hi)) (hfuel i)]
        split
        · split
          · exact ⟨_, rfl⟩
          · exact ⟨_, rfl⟩
        · exact ih his
  exact hloop fun i hi => List.mem_range.mp hi

end Rings

/-! ## Steps -/

/-- The lock of a CPU's list gets a value. -/
def Sched.lockCpu (sc : Sched) (cpu lock : Nat) : Sched :=
  { sc with cpuThreads := sc.cpuThreads.modify cpu fun l => { l with lock := lock } }

namespace Tasks

/-- `proc_create`, and `mtask_insert_proc` for what it makes. -/
def insertNewProc (s : Tasks) (process : Nat) (name : List UInt8) (domain mmuTable cloned : Nat) :
    Option Tasks := do
  let (s, proc) ← s.procCreate process name domain mmuTable cloned
  if proc = 0 then return s else s.mtaskInsertProc proc

/-- The calls of a run, and `lockCpu`: another CPU takes or releases the lock of a
list. -/
inductive DestroyAct where
  | createProc (process : Nat) (name : List UInt8) (domain mmuTable cloned : Nat)
  | createThread (thread entrypoint data : Nat) (name : List UInt8) (stackSize : Nat) (prio : Int)
  | addThread (proc thread : Nat)
  | enqueue (thread : Nat)
  | processes (fuel past : Nat)
  | next (fuel cpu : Nat)
  | lockCpu (cpu lock : Nat)
  | destroyThread (fuel thread : Nat)
  | destroyProc (fuel proc : Nat)

def lockCpu (s : Tasks) (cpu lock : Nat) : Tasks := s.setSched (s.sched.lockCpu cpu lock)

def destroyStep (s : Tasks) : DestroyAct → Option Tasks
  | .createProc process name domain mmuTable cloned =>
      s.insertNewProc process name domain mmuTable cloned
  | .createThread thread entrypoint data name stackSize prio =>
      (s.threadCreate thread entrypoint data name stackSize prio).map Prod.fst
  | .addThread proc thread => s.procAddThread proc thread
  | .enqueue thread => (s.schedEnqueueThread thread).map Prod.fst
  | .processes fuel past => (s.sched.schedProcesses fuel past).map s.setSched
  | .next fuel cpu => (schedNextProcess fuel s cpu).toOption.map Prod.fst
  | .lockCpu cpu lock => some (s.lockCpu cpu lock)
  | .destroyThread fuel thread => s.threadDestroy fuel thread
  | .destroyProc fuel proc => s.procDestroy fuel proc

/-! ## What is asked of a step -/

/-- An allocated thread in no list of the scheduler. -/
structure Unscheduled (s : Tasks) (t : Nat) : Prop where
  allocated : t ∈ s.threadHeap
  notQueued : ¬ InList s.sched.items s.sched.threadQueue t
  notListed : ∀ l ∈ s.sched.cpuThreads, ¬ InList s.sched.items l t

/-- An allocated thread that `sched_remove_thread` can take out of the scheduler: it is
not queued and not current, and if it is in the list of a CPU, then not at its head,
and the lock is free. -/
structure Spare (s : Tasks) (t : Nat) : Prop where
  allocated : t ∈ s.threadHeap
  notQueued : ¬ InList s.sched.items s.sched.threadQueue t
  notCurrent : t ∉ s.sched.currThread
  notHead : ∀ l ∈ s.sched.cpuThreads, l.list ≠ t
  unlocked : ∀ l ∈ s.sched.cpuThreads, InList s.sched.items l t → l.lock = 0

/-- A process with at most one thread, and that one is spare. -/
def Destroyable (s : Tasks) (p : Nat) : Prop :=
  ∃ ts, LlistRep s.threadItems (s.kprocs p).threads ts ∧ ts.length ≤ 1 ∧
    ∀ t ∈ ts, (s.threadItems t).data = t ∧ s.Spare t

def Careful (s : Tasks) : DestroyAct → Prop
  | .enqueue t => s.Unscheduled t
  | .destroyThread _ t => s.Spare t
  | .destroyProc _ p => s.Destroyable p
  | _ => True

/-! ## What is to hold -/

/-- The scheduler finds no thread that was freed. -/
def FreedUnreachable (s : Tasks) : Prop :=
  ∀ t ∈ s.freed, ¬ InList s.sched.items s.sched.threadQueue t ∧
    (∀ l ∈ s.sched.cpuThreads, ¬ InList s.sched.items l t) ∧ t ∉ s.sched.currThread

/-- With enough fuel `proc_destroy` returns, and has destroyed every thread of the
process. -/
def DestroysAll (s : Tasks) (p : Nat) : Prop :=
  ∃ n, ∀ fuel ≥ n, ∃ s', s.procDestroy fuel p = some s' ∧
    ∀ t, InList s.threadItems (s.kprocs p).threads t → t ∈ s'.freed

/-! ## The invariant -/

structure DestroyInv (n : Nat) (xs : Option Nat → List Nat) (s : Tasks) : Prop where
  rings : Rings n s.sched s.threadHeap xs
  heap : s.threadHeap.Nodup
  nonnull : 0 ∉ s.threadHeap
  freed : ∀ t ∈ s.freed, t ≠ 0 ∧ t ∉ s.threadHeap
  procs : s.procs.lock = 0
  threads : ∀ p, (s.kprocs p).threads.lock = 0

section Invariant

variable {s s' : Tasks} {n : Nat} {xs : Option Nat → List Nat} {t p : Nat}

/-- Nothing of the scheduler has changed. -/
theorem DestroyInv.of_sched (h : DestroyInv n xs s) (hsched : s'.sched = s.sched)
    (hheap : s'.threadHeap = s.threadHeap) (hfreed : s'.freed = s.freed)
    (hprocs : s'.procs.lock = 0) (hthreads : ∀ p, (s'.kprocs p).threads.lock = 0) :
    DestroyInv n xs s' :=
  ⟨hsched ▸ hheap ▸ h.rings, hheap ▸ h.heap, hheap ▸ h.nonnull, hfreed ▸ hheap ▸ h.freed, hprocs,
    hthreads⟩

theorem DestroyInv.setSched (h : DestroyInv n xs s) {sc : Sched} {ys : Option Nat → List Nat}
    (hrings : Rings n sc s.threadHeap ys) : DestroyInv n ys (s.setSched sc) :=
  ⟨hrings, h.heap, h.nonnull, h.freed, h.procs, h.threads⟩

theorem DestroyInv.freedUnreachable (h : DestroyInv n xs s) : FreedUnreachable s := by
  intro t ht
  obtain ⟨ht0, hfree⟩ := h.freed t ht
  have hout : ∀ i, t ∉ xs i := fun i hin => hfree (h.rings.heap i t hin)
  refine ⟨fun hin => hout none ((h.rings.rep none _ rfl).inList_iff.mp hin), ?_,
    ?_⟩
  · intro l hl hin
    obtain ⟨cpu, hcpu, rfl⟩ := List.getElem_of_mem hl
    exact hout _ ((h.rings.rep (some cpu) _ (List.getElem?_eq_getElem hcpu)).inList_iff.mp hin)
  · intro hin
    obtain ⟨cpu, hcpu⟩ := List.getElem?_of_mem hin
    rcases h.rings.curr cpu t hcpu with hin | ⟨h0, -⟩
    · exact hout _ hin
    · exact ht0 h0

theorem Unscheduled.out (hu : s.Unscheduled t) (h : DestroyInv n xs s) (i : Option Nat) :
    t ∉ xs i := by
  intro hin
  cases i with
  | none => exact hu.notQueued ((h.rings.rep none _ rfl).inList_iff.mpr hin)
  | some cpu =>
      by_cases hcpu : cpu < s.sched.cpuThreads.length
      · have hrep := h.rings.rep (some cpu) _ (List.getElem?_eq_getElem hcpu)
        exact hu.notListed _ (List.getElem_mem hcpu) (hrep.inList_iff.mpr hin)
      · rw [h.rings.out (some cpu) (List.getElem?_eq_none (Nat.not_lt.mp hcpu))] at hin
        cases hin

theorem llistAppend_lock {m : Items} {l : Llist} {r : Items × Llist} (hl : l.lock = 0)
    (hcall : llistAppend m l t = some r) : r.2.lock = 0 := by
  unfold llistAppend at hcall
  split at hcall
  · obtain rfl := Option.some.inj hcall
    exact hl
  · obtain ⟨l₁, -, rfl⟩ := Option.map_eq_some_iff.mp hcall
    rfl

/-! ## Calls that leave the scheduler alone -/

theorem procCreate_inv (h : DestroyInv n xs s) {name : List UInt8} {domain mmuTable cloned : Nat}
    {r : Tasks × Nat} (hcall : s.procCreate p name domain mmuTable cloned = some r) :
    DestroyInv n xs r.1 := by
  by_cases hp : p = 0
  · simp only [procCreate, hp, if_true, Option.some.injEq] at hcall
    subst hcall
    exact h
  · obtain ⟨s₁, h₁, r₂, h₂, rfl⟩ := (procCreate_eq_some hp).mp hcall
    obtain ⟨-, rfl⟩ := kmallocProc_eq_some.mp h₁
    obtain ⟨-, rfl⟩ := getNextPid_eq_some.mp h₂
    refine h.of_sched rfl rfl rfl h.procs ?_
    intro q
    by_cases hq : q = p
    · rw [hq, modProc_self]
      rfl
    · refine Eq.trans (congrArg (fun k : Process => k.threads.lock) ?_) (h.threads q)
      exact (Function.update_of_ne hq ..).trans (Function.update_of_ne hq ..)

theorem mtaskInsertProc_inv (h : DestroyInv n xs s) (hcall : s.mtaskInsertProc p = some s') :
    DestroyInv n xs s' := by
  obtain ⟨r, hr, rfl⟩ := mtaskInsertProc_eq_some.mp hcall
  exact h.of_sched rfl rfl rfl (llistAppend_lock h.procs hr) h.threads

theorem insertNewProc_inv (h : DestroyInv n xs s) {name : List UInt8}
    {domain mmuTable cloned : Nat}
    (hcall : s.insertNewProc p name domain mmuTable cloned = some s') : DestroyInv n xs s' := by
  obtain ⟨r, h₁, hcall⟩ := Option.bind_eq_some_iff.mp hcall
  have hmade := procCreate_inv h h₁
  dsimp only at hcall
  split at hcall
  · obtain rfl := Option.some.inj hcall
    exact hmade
  · exact mtaskInsertProc_inv hmade hcall

theorem procAddThread_inv (h : DestroyInv n xs s) (hcall : s.procAddThread p t = some s') :
    DestroyInv n xs s' ∧ s'.sched = s.sched ∧ s'.threadHeap = s.threadHeap := by
  obtain ⟨r₁, h₁, r, hr, rfl⟩ := procAddThread_eq_some.mp hcall
  obtain ⟨m, hm⟩ := threadTid_frame h₁
  rw [hm] at hr ⊢
  refine ⟨h.of_sched rfl rfl rfl h.procs ?_, rfl, rfl⟩
  intro q
  change ((Function.update s.kprocs p (Process.withThreads r.2 (s.kprocs p))) q).threads.lock = 0
  by_cases hq : q = p
  · rw [hq, Function.update_self]
    exact llistAppend_lock (h.threads p) hr
  · rw [Function.update_of_ne hq]
    exact h.threads q

/-! ## Calls that change the scheduler -/

theorem threadCreate_inv (h : DestroyInv n xs s) {entry data size : Nat} {name : List UInt8}
    {prio : Int} {r : Tasks × Nat} (hcall : s.threadCreate t entry data name size prio = some r) :
    DestroyInv n xs r.1 ∧ (t ≠ 0 → r.2 = t ∧ t ∈ r.1.threadHeap ∧ ∀ i, t ∉ xs i) := by
  by_cases ht : t = 0
  · simp only [threadCreate, ht, if_true, Option.some.injEq] at hcall
    subst hcall
    exact ⟨h, fun h0 => absurd ht h0⟩
  · obtain ⟨-, s₁, h₁, rfl⟩ := (threadCreate_eq_some ht).mp hcall
    obtain ⟨hnew, rfl⟩ := kmallocThread_eq_some.mp h₁
    have hout : ∀ i, t ∉ xs i := fun i hin => hnew (h.rings.heap i t hin)
    refine ⟨⟨?_, List.nodup_cons.mpr ⟨hnew, h.heap⟩, ?_, ?_, h.procs, h.threads⟩,
      fun _ => ⟨rfl, List.mem_cons_self, hout⟩⟩
    · refine h.rings.congr { s.sched with items := Function.update s.sched.items t zeroItem }
        (fun i l hl => ⟨l, ?_, rfl⟩) ?_ ?_ rfl
        fun i u hu => List.mem_cons_of_mem _ (h.rings.heap i u hu)
      · cases i with
        | none => exact hl
        | some cpu => exact hl
      · intro i hi
        cases i with
        | none => exact hi
        | some cpu => exact hi
      · intro i u hu
        exact Function.update_of_ne (fun he : u = t => hout i (he ▸ hu)) ..
    · rintro (h0 | ⟨_, h0⟩)
      · exact ht rfl
      · exact h.nonnull h0
    · intro u hu
      obtain ⟨hu, hne⟩ := List.mem_filter.mp hu
      have hne : u ≠ t := of_decide_eq_true hne
      exact ⟨(h.freed u hu).1,
        fun hin => (h.freed u hu).2 ((List.mem_cons.mp hin).resolve_left hne)⟩

theorem enqueue_inv (h : DestroyInv n xs s) (hu : s.Unscheduled t) {r : Tasks × Int}
    (hcall : s.schedEnqueueThread t = some r) :
    ∃ ys, DestroyInv n (Function.update xs none ys) r.1 := by
  obtain ⟨r₁, h₁, rfl⟩ := schedEnqueueThread_eq_some.mp hcall
  obtain ⟨ys, hrings⟩ := h.rings.enqueueThread (hu.out h) hu.allocated h₁
  exact ⟨ys, h.setSched hrings⟩

theorem processes_inv (h : DestroyInv n xs s) {fuel past : Nat}
    (hcall : (s.sched.schedProcesses fuel past).map s.setSched = some s') :
    ∃ ys, DestroyInv n ys s' ∧ ∀ cpu, xs (some cpu) ≠ [] → ys (some cpu) ≠ [] := by
  obtain ⟨sc, hsc, rfl⟩ := Option.map_eq_some_iff.mp hcall
  obtain ⟨ys, hrings, hfilled⟩ := h.rings.schedProcesses hsc
  exact ⟨ys, h.setSched hrings, hfilled⟩

theorem lockCpu_inv (h : DestroyInv n xs s) (cpu lock : Nat) :
    DestroyInv n xs (s.lockCpu cpu lock) := by
  refine h.setSched (h.rings.congr (s.sched.lockCpu cpu lock) ?_
    ?_ (fun _ _ _ => rfl) rfl h.rings.heap)
  · intro i l' hl'
    cases i with
    | none =>
        cases hl'
        exact ⟨_, rfl, rfl⟩
    | some k =>
        simp only [Sched.list, Sched.lockCpu, List.getElem?_modify] at hl' ⊢
        obtain ⟨l, hl, rfl⟩ := Option.map_eq_some_iff.mp hl'
        refine ⟨l, hl, ?_⟩
        split
        · rfl
        · rfl
  · intro i hi
    cases i with
    | none => cases hi
    | some k =>
        simp only [Sched.list, Sched.lockCpu, List.getElem?_modify] at hi ⊢
        exact Option.map_eq_none_iff.mp hi

/-- The loop of `sched_next_process` finds threads of the ring it starts in. -/
theorem nextLoop_mem {ys : List Nat}
    (hring : IsRing (fun p => (s.sched.items p).next) (fun p => (s.sched.items p).prev) ys)
    (hnonnull : 0 ∉ ys) (hdata : ∀ u ∈ ys, (s.sched.items u).data = u) {fuel : Nat}
    {iter : LlistIterator} (hcurr : iter.curr ∈ ys) (h : s.nextLoop fuel iter = .ok t) :
    t ∈ ys := by
  induction fuel generalizing iter with
  | zero => cases h
  | succ fuel ih =>
      have hc0 : iter.curr ≠ 0 := fun h0 => hnonnull (h0 ▸ hcurr)
      have hnext : (s.sched.items iter.curr).next ∈ ys := hring.next_mem hcurr
      unfold nextLoop at h
      split at h
      · cases h
      · cases h
      · rename_i iter' thread hiter
        have hstep : iter'.curr = (s.sched.items iter.curr).next ∧
            thread = (s.sched.items iter'.curr).data := by
          unfold llistIterate at hiter
          rw [if_neg hc0] at hiter
          dsimp only at hiter
          split at hiter
          · cases hiter
          · split at hiter
            · cases hiter
            · split at hiter
              · cases hiter
              · cases hiter
                exact ⟨rfl, rfl⟩
        have hin : iter'.curr ∈ ys := hstep.1 ▸ hnext
        have hthread : thread = iter'.curr := hstep.2.trans (hdata _ hin)
        dsimp only at h
        split at h
        · cases h
        · split at h
          · cases h
          · split at h
            · cases h
              exact hthread ▸ hin
            · refine ih ?_ h
              split
              · exact hin
              · exact hin

theorem next_inv (h : DestroyInv n xs s) (hfilled : ∀ cpu < n, xs (some cpu) ≠ []) {fuel cpu : Nat}
    {r : Tasks × Nat} (hcall : schedNextProcess fuel s cpu = .ok r) : DestroyInv n xs r.1 := by
  obtain ⟨t, ht, hret⟩ := Except.bind_eq_ok_iff.mp hcall
  cases hret
  have hrings : Rings n { s.sched with currThread := s.sched.currThread.set cpu t }
      s.threadHeap xs := by
    refine { h.rings with curr := ?_ }
    intro cpu' c hc
    dsimp only at hc
    by_cases hcpu : cpu = cpu'
    · subst hcpu
      obtain ⟨hlt, hset⟩ := List.getElem?_eq_some_iff.mp hc
      rw [List.getElem_set_self] at hset
      subst hset
      have hlen : cpu < s.sched.currThread.length := by simpa using hlt
      have hget := List.getElem?_eq_getElem hlen
      -- the current thread is in the ring
      have hcurr : s.sched.currThread.getD cpu 0 ∈ xs (some cpu) := by
        rw [List.getD_eq_getElem?_getD, hget, Option.getD_some]
        exact (h.rings.curr cpu _ hget).resolve_right fun h0 => hfilled cpu h0.2.2 h0.2.1
      obtain ⟨l, hl⟩ : ∃ l, s.sched.list (some cpu) = some l := by
        refine Option.ne_none_iff_exists'.mp ?_
        intro hnone
        rw [h.rings.out _ hnone] at hcurr
        cases hcurr
      have hrep := h.rings.rep (some cpu) l hl
      have hin : t ∈ xs (some cpu) := nextLoop_mem (s := s.modThread _ _)
        hrep.ring hrep.nonnull
        (h.rings.data (some cpu)) hcurr ht
      exact .inl hin
    · rw [List.getElem?_set_ne hcpu] at hc
      exact h.rings.curr cpu' c hc
  exact ⟨hrings, h.heap, h.nonnull, h.freed, h.procs, h.threads⟩

/-! ## Destroying -/

theorem threadDestroy_inv (h : DestroyInv n xs s) (ht : s.Spare t) {fuel : Nat}
    (hcall : s.threadDestroy fuel t = some s') :
    (∃ ys, DestroyInv n ys s' ∧ ∀ cpu, xs (some cpu) ≠ [] → ys (some cpu) ≠ []) ∧
      s'.freed = t :: s.freed ∧ s'.kprocs = s.kprocs ∧ s'.threadItems = s.threadItems := by
  obtain ⟨r, hr, rfl⟩ := Option.map_eq_some_iff.mp hcall
  have hqueue : t ∉ xs none := fun hin =>
    ht.notQueued ((h.rings.rep none _ rfl).inList_iff.mpr hin)
  obtain ⟨ys, hys, hout, hfilled⟩ := h.rings.removeThread hqueue ht.notCurrent ht.notHead
    ht.unlocked hr
  refine ⟨⟨ys, ⟨?_, h.heap.erase t, ?_, ?_, h.procs, h.threads⟩, hfilled⟩,
    rfl, rfl, rfl⟩
  · exact { hys with
      heap := fun i u hu =>
        (List.mem_erase_of_ne fun he : u = t => hout i (he ▸ hu)).mpr (hys.heap i u hu) }
  · exact fun h0 => h.nonnull (List.mem_of_mem_erase h0)
  · intro u hu
    rcases List.mem_cons.mp hu with rfl | hu
    · exact ⟨fun h0 => h.nonnull (h0 ▸ ht.allocated), h.heap.not_mem_erase⟩
    · exact ⟨(h.freed u hu).1, fun hin => (h.freed u hu).2 (List.mem_of_mem_erase hin)⟩

/-- A process as it is after `mtask_remove_proc`: its threads are as before. -/
theorem mtaskRemoveProc_inv (h : DestroyInv n xs s) :
    ∃ s₁, s.mtaskRemoveProc p = some s₁ ∧ DestroyInv n xs s₁ ∧ s₁.sched = s.sched ∧
      s₁.threadHeap = s.threadHeap ∧ s₁.kprocs = s.kprocs ∧ s₁.threadItems = s.threadItems := by
  unfold mtaskRemoveProc llistRemove
  split
  · exact ⟨_, rfl, h.of_sched rfl rfl rfl h.procs h.threads, rfl, rfl, rfl, rfl⟩
  · rw [Llist.acquire, if_pos h.procs]
    exact ⟨_, rfl, h.of_sched rfl rfl rfl rfl h.threads, rfl, rfl, rfl, rfl⟩

theorem Spare.congr (ht : s.Spare t) (hsched : s'.sched = s.sched)
    (hheap : s'.threadHeap = s.threadHeap) : s'.Spare t :=
  ⟨hheap ▸ ht.allocated, hsched ▸ ht.notQueued, hsched ▸ ht.notCurrent, hsched ▸ ht.notHead,
    hsched ▸ ht.unlocked⟩

/-- The list of a process loses its only thread. -/
theorem llistRemove_single {m : Items} {l : Llist} (h : LlistRep m l [t]) (hlock : l.lock = 0) :
    ∃ m', llistRemove m l l.list = some (m', ⟨0, 0⟩) := by
  have hhead : l.list = t := h.head
  have ht0 : t ≠ 0 := fun h0 => h.nonnull (h0 ▸ List.mem_singleton_self t)
  have hlinked := h.ring.seam t rfl t rfl
  have hnext : (m t).next = t := hlinked.1
  have hprev : (m t).prev = t := hlinked.2
  simp [llistRemove, llistRemoveUnlocked, Llist.acquire, Llist.release, hhead, ht0, hlock, hnext,
    hprev]

theorem destroyLoop_empty {fuel rounds : Nat} (h0 : (s.kprocs p).threads.list = 0) :
    destroyLoop fuel p (rounds + 1) s = some s := by
  unfold destroyLoop
  exact if_pos h0

theorem destroyLoop_single (hrep : LlistRep s.threadItems (s.kprocs p).threads [t])
    (hlock : (s.kprocs p).threads.lock = 0) (hdata : (s.threadItems t).data = t) :
    ∃ m, ∀ fuel rounds, destroyLoop fuel p (rounds + 1) s =
      ((s.setThreads p (m, ⟨0, 0⟩)).threadDestroy fuel t).bind (destroyLoop fuel p rounds) := by
  obtain ⟨m, hm⟩ := llistRemove_single hrep hlock
  have hhead : (s.kprocs p).threads.list = t := hrep.head
  have ht0 : t ≠ 0 := fun h0 => hrep.nonnull (h0 ▸ List.mem_singleton_self t)
  refine ⟨m, ?_⟩
  intro fuel rounds
  rw [hhead] at hm
  simp only [destroyLoop, hhead, if_neg ht0, hm, hdata, Option.bind_eq_bind, Option.bind_some]

/-- The threads' list of a process is emptied. -/
theorem setThreads_inv (h : DestroyInv n xs s) (m : Items) :
    DestroyInv n xs (s.setThreads p (m, ⟨0, 0⟩)) := by
  refine h.of_sched rfl rfl rfl h.procs ?_
  intro q
  by_cases hq : q = p
  · subst hq
    change ((Function.update s.kprocs q _) q).threads.lock = 0
    rw [Function.update_self]
    rfl
  · exact (congrArg (fun k : Process => k.threads.lock) (Function.update_of_ne hq ..)).trans
      (h.threads q)

theorem setThreads_threads (s : Tasks) (p : Nat) (m : Items) :
    ((s.setThreads p (m, ⟨0, 0⟩)).kprocs p).threads = ⟨0, 0⟩ :=
  congrArg Process.threads (Function.update_self p _ s.kprocs)

/-- What `proc_destroy` does of a process with at most one thread. -/
inductive DestroyedProc (n : Nat) (xs : Option Nat → List Nat) (s : Tasks) (p : Nat) : Prop
  | empty (s₁ : Tasks) : DestroyInv n xs s₁ →
      LlistRep s.threadItems (s.kprocs p).threads [] →
      (∀ fuel, s.procDestroy (fuel + 1) p = some (s₁.kfreeProc p)) → DestroyedProc n xs s p
  | single (s₁ : Tasks) (t : Nat) : DestroyInv n xs s₁ → s₁.Spare t →
      s₁.sched = s.sched → LlistRep s.threadItems (s.kprocs p).threads [t] →
      (∀ fuel, s.procDestroy (fuel + 1) p = (s₁.threadDestroy (fuel + 1) t).bind fun s₂ =>
        (destroyLoop (fuel + 1) p fuel s₂).map fun s₃ => s₃.kfreeProc p) →
      (s₁.kprocs p).threads = ⟨0, 0⟩ → DestroyedProc n xs s p

theorem Destroyable.destroyed (hd : s.Destroyable p) (h : DestroyInv n xs s) :
    DestroyedProc n xs s p := by
  obtain ⟨ts, hrep, hlen, hts⟩ := hd
  obtain ⟨s₁, h₁, hinv, hsched, hheap, hprocs, hitems⟩ := mtaskRemoveProc_inv (p := p) h
  have hrep₁ : LlistRep s₁.threadItems (s₁.kprocs p).threads ts := by
    rw [hitems, hprocs]
    exact hrep
  have hcall : ∀ fuel, s.procDestroy fuel p =
      (destroyLoop fuel p fuel s₁).map fun s₃ => s₃.kfreeProc p := fun fuel => by
    simp only [procDestroy, h₁, Option.bind_eq_bind, Option.bind_some, Option.map_eq_bind]
    rfl
  cases ts with
  | nil =>
      refine .empty s₁ hinv hrep ?_
      intro fuel
      rw [hcall, destroyLoop_empty hrep₁.head, Option.map_some]
  | cons t ts =>
      obtain rfl : ts = [] :=
        List.eq_nil_of_length_eq_zero (Nat.le_zero.mp (Nat.le_of_succ_le_succ hlen))
      obtain ⟨hdata, hspare⟩ := hts t List.mem_cons_self
      rw [← hitems] at hdata
      obtain ⟨m, hloop⟩ := destroyLoop_single hrep₁ (hinv.threads p) hdata
      refine .single _ t (setThreads_inv (p := p) hinv m) (hspare.congr hsched hheap) hsched hrep
        ?_ (setThreads_threads s₁ p m)
      intro fuel
      rw [hcall, hloop, Option.map_bind]
      rfl

theorem kfreeProc_inv (h : DestroyInv n xs s) : DestroyInv n xs (s.kfreeProc p) :=
  h.of_sched rfl rfl rfl h.procs h.threads

theorem destroyProc_inv (h : DestroyInv n xs s) (hd : s.Destroyable p) {fuel : Nat}
    (hcall : s.procDestroy fuel p = some s') :
    ∃ ys, DestroyInv n ys s' ∧ ∀ cpu, xs (some cpu) ≠ [] → ys (some cpu) ≠ [] := by
  cases fuel with
  | zero =>
      obtain ⟨s₁, -, hcall⟩ := Option.bind_eq_some_iff.mp hcall
      cases hcall
  | succ fuel =>
      rcases hd.destroyed h with ⟨s₁, hinv, -, heq⟩ | ⟨s₁, t, hinv, hspare, -, -, heq, hthreads⟩
      · rw [heq] at hcall
        obtain rfl := Option.some.inj hcall
        exact ⟨xs, kfreeProc_inv hinv, fun _ => id⟩
      · rw [heq] at hcall
        obtain ⟨s₂, h₂, hcall⟩ := Option.bind_eq_some_iff.mp hcall
        obtain ⟨⟨ys, hys, hfilled⟩, -, hprocs, -⟩ := threadDestroy_inv hinv hspare h₂
        obtain ⟨s₃, h₃, rfl⟩ := Option.map_eq_some_iff.mp hcall
        cases fuel with
        | zero => cases h₃
        | succ fuel =>
            rw [destroyLoop_empty (by rw [hprocs, hthreads])] at h₃
            obtain rfl := Option.some.inj h₃
            exact ⟨ys, kfreeProc_inv hys, hfilled⟩

theorem Destroyable.destroysAll (hd : s.Destroyable p) (h : DestroyInv n xs s)
    (hfilled : ∀ cpu < n, xs (some cpu) ≠ []) : DestroysAll s p := by
  rcases hd.destroyed h with ⟨s₁, -, hrep, heq⟩ | ⟨s₁, t, hinv, hspare, hsched, hrep, heq, hthreads⟩
  · refine ⟨1, ?_⟩
    intro fuel hfuel
    obtain ⟨fuel, rfl⟩ := Nat.exists_eq_succ_of_ne_zero (Nat.ne_of_gt hfuel)
    exact ⟨_, heq fuel, fun t ht => absurd (hrep.inList_iff.mp ht) List.not_mem_nil⟩
  · -- no list is longer than the threads that are allocated
    refine ⟨s₁.threadHeap.length + 2, ?_⟩
    intro fuel hfuel
    obtain ⟨fuel, rfl⟩ : ∃ k, fuel = k + 2 := ⟨fuel - 2, by omega⟩
    obtain ⟨r, hr⟩ := hinv.rings.removeThread_returns (t := t) hfilled fun cpu =>
      Nat.le_trans (hinv.rings.length_le _) (Nat.le_trans (Nat.le_add_right _ 2) hfuel)
    obtain ⟨s₂, h₂⟩ : ∃ s₂, s₁.threadDestroy (fuel + 2) t = some s₂ :=
      ⟨_, Option.map_eq_some_iff.mpr ⟨r, hr, rfl⟩⟩
    obtain ⟨-, hfreed, hprocs, -⟩ := threadDestroy_inv hinv hspare h₂
    refine ⟨s₂.kfreeProc p, ?_, ?_⟩
    · rw [heq, h₂, Option.bind_some, destroyLoop_empty (by rw [hprocs, hthreads]), Option.map_some]
    · intro u hu
      obtain rfl := List.mem_singleton.mp (hrep.inList_iff.mp hu)
      change u ∈ s₂.freed
      rw [hfreed]
      exact List.mem_cons_self

/-! ## Runs -/

/-- What every state of a run has: the invariant, and a thread in the list of every
CPU. -/
def DestroyOk (n : Nat) (s : Tasks) : Prop :=
  ∃ xs, DestroyInv n xs s ∧ ∀ cpu < n, xs (some cpu) ≠ []

theorem destroyStep_ok {a : DestroyAct} (h : DestroyOk n s) (ha : s.Careful a)
    (hstep : destroyStep s a = some s') : DestroyOk n s' := by
  obtain ⟨xs, hinv, hfilled⟩ := h
  cases a with
  | createProc process name domain mmuTable cloned =>
      exact ⟨xs, insertNewProc_inv hinv hstep, hfilled⟩
  | createThread thread entrypoint data name stackSize prio =>
      obtain ⟨r, hr, rfl⟩ := Option.map_eq_some_iff.mp hstep
      exact ⟨xs, (threadCreate_inv hinv hr).1, hfilled⟩
  | addThread proc thread => exact ⟨xs, (procAddThread_inv hinv hstep).1, hfilled⟩
  | enqueue thread =>
      obtain ⟨r, hr, rfl⟩ := Option.map_eq_some_iff.mp hstep
      obtain ⟨ys, hinv'⟩ := enqueue_inv hinv ha hr
      refine ⟨_, hinv', ?_⟩
      intro cpu hcpu
      rw [Function.update_of_ne (Option.some_ne_none cpu)]
      exact hfilled cpu hcpu
  | processes fuel past =>
      obtain ⟨ys, hinv', hkept⟩ := processes_inv hinv hstep
      exact ⟨ys, hinv', fun cpu hcpu => hkept cpu (hfilled cpu hcpu)⟩
  | next fuel cpu =>
      obtain ⟨r, hr, rfl⟩ := Option.map_eq_some_iff.mp hstep
      cases hnext : schedNextProcess fuel s cpu with
      | error e =>
          rw [hnext] at hr
          cases hr
      | ok r' =>
          rw [hnext] at hr
          obtain rfl := Option.some.inj hr
          exact ⟨xs, next_inv hinv hfilled hnext, hfilled⟩
  | lockCpu cpu lock =>
      obtain rfl := Option.some.inj hstep
      exact ⟨xs, lockCpu_inv hinv cpu lock, hfilled⟩
  | destroyThread fuel thread =>
      obtain ⟨⟨ys, hinv', hkept⟩, -⟩ := threadDestroy_inv hinv ha hstep
      exact ⟨ys, hinv', fun cpu hcpu => hkept cpu (hfilled cpu hcpu)⟩
  | destroyProc fuel proc =>
      obtain ⟨ys, hinv', hkept⟩ := destroyProc_inv hinv ha hstep
      exact ⟨ys, hinv', fun cpu hcpu => hkept cpu (hfilled cpu hcpu)⟩

/-! ## After `sched_idle_init` -/

theorem boot_destroyInv (nCpus root : Nat) : DestroyInv nCpus (fun _ => []) (boot nCpus root) where
  rings :=
    { rep := fun i l hl => by
        have hl : l = llistInit := by
          cases i with
          | none => exact (Option.some.inj hl).symm
          | some cpu =>
              simp only [Sched.list, boot, List.getElem?_replicate] at hl
              split at hl
              · exact (Option.some.inj hl).symm
              · cases hl
        exact hl ▸ llistRep_init _
      none_iff := fun cpu => by simp [Sched.list, boot]
      out := fun _ _ => rfl
      one := nofun
      heap := nofun
      data := nofun
      curr := fun cpu c hc => by
        simp only [boot, List.getElem?_replicate] at hc
        split at hc
        · rename_i hcpu
          exact .inr ⟨(Option.some.inj hc).symm, rfl, hcpu⟩
        · cases hc }
  heap := List.nodup_nil
  nonnull := List.not_mem_nil
  freed := nofun
  procs := rfl
  threads := fun _ => rfl

theorem cpuAddThread_eq_some {cpu : Nat} : s.cpuAddThread cpu t = some s' ↔
    ∃ sc, s.sched.cpuAddThread cpu t = some sc ∧ s.setSched sc = s' := by
  unfold Tasks.cpuAddThread Sched.cpuAddThread
  simp only [Option.bind_eq_bind, Option.bind_eq_some_iff, Option.pure_def, Option.some.injEq]
  constructor
  · rintro ⟨l, hl, r, hr, rfl⟩
    refine ⟨_, ⟨l, hl, r, hr, rfl⟩, congrArg _ ?_⟩
    split
    · rfl
    · rfl
  · rintro ⟨sc, ⟨l, hl, r, hr, rfl⟩, rfl⟩
    refine ⟨l, hl, r, hr, congrArg _ ?_⟩
    split
    · rfl
    · rfl

/-- A round of `sched_idle_init` puts a thread into the list of its CPU. -/
theorem idleThread_rings (h : DestroyInv n xs s) {entry cpu : Nat}
    (hcall : s.idleThread p entry cpu t = some s') :
    DestroyInv n (Function.update xs (some cpu) (xs (some cpu) ++ [t])) s' := by
  unfold idleThread at hcall
  split at hcall
  · cases hcall
  rename_i ht0
  obtain ⟨r₁, h₁, hcall⟩ := Option.bind_eq_some_iff.mp hcall
  obtain ⟨s₂, h₂, h₃⟩ := Option.bind_eq_some_iff.mp hcall
  obtain ⟨sc, hsc, rfl⟩ := cpuAddThread_eq_some.mp h₃
  obtain ⟨hmade, hnew⟩ := threadCreate_inv h h₁
  obtain ⟨rfl, halloc, hout⟩ := hnew ht0
  have hdata : DestroyInv n xs ((r₁.1.schedItemData r₁.2).modProc p
      (Process.addType typeRunnable)) := by
    refine (hmade.setSched (hmade.rings.setData r₁.2)).of_sched rfl rfl rfl hmade.procs ?_
    intro q
    change ((Function.update r₁.1.kprocs p _) q).threads.lock = 0
    by_cases hq : q = p
    · rw [hq, Function.update_self]
      exact hmade.threads p
    · rw [Function.update_of_ne hq]
      exact hmade.threads q
  obtain ⟨hadded, hsched, hheap⟩ := procAddThread_inv hdata h₂
  have hitem : (s₂.sched.items r₁.2).data = r₁.2 := by
    rw [hsched]
    change ((Function.update r₁.1.sched.items r₁.2 _) r₁.2).data = r₁.2
    rw [Function.update_self]
  have halloc' : r₁.2 ∈ s₂.threadHeap := hheap ▸ halloc
  have hflags : DestroyInv n xs (s₂.modThread r₁.2 (Kthread.addFlags kthreadFlagRunnable)) :=
    hadded.of_sched rfl rfl rfl hadded.procs hadded.threads
  exact hflags.setSched (hadded.rings.cpuAddThread hout ht0 halloc' hitem hsc)

theorem idleThreads_rings {entry : Nat} {threads : List Nat} {cpu : Nat} {s : Tasks}
    {xs : Option Nat → List Nat} (h : DestroyInv n xs s) (hfilled : ∀ k < cpu, xs (some k) ≠ [])
    (hcall : idleThreads p entry cpu threads s = some s') :
    ∃ ys, DestroyInv n ys s' ∧ ∀ k < cpu + threads.length, ys (some k) ≠ [] := by
  induction threads generalizing cpu s xs with
  | nil =>
      cases hcall
      exact ⟨xs, h, hfilled⟩
  | cons t threads ih =>
      obtain ⟨s₁, h₁, hcall⟩ := Option.bind_eq_some_iff.mp hcall
      have hround := idleThread_rings h h₁
      have hnext : ∀ k < cpu + 1,
          Function.update xs (some cpu) (xs (some cpu) ++ [t]) (some k) ≠ [] := by
        intro k hk
        by_cases hkc : k = cpu
        · rw [hkc, Function.update_self]
          exact List.append_ne_nil_of_right_ne_nil _ (List.cons_ne_nil _ _)
        · rw [Function.update_of_ne fun he => hkc (Option.some.inj he)]
          exact hfilled k (by omega)
      obtain ⟨ys, hys, hlast⟩ := ih hround hnext hcall
      refine ⟨ys, hys, fun k hk => hlast k ?_⟩
      rw [List.length_cons] at hk
      omega

theorem schedIdleInit_ok {nCpus root : Nat} {a : IdleInit}
    (hcall : (boot nCpus root).schedIdleInit a = some s) : DestroyOk nCpus s := by
  obtain ⟨r, h₁, hcall⟩ := Option.bind_eq_some_iff.mp hcall
  have hmade := procCreate_inv (boot_destroyInv nCpus root) h₁
  dsimp only at hcall
  split at hcall
  · cases hcall
  · rename_i hok
    rw [not_or, not_not] at hok
    obtain ⟨s₁, h₂, h₃⟩ := Option.bind_eq_some_iff.mp hcall
    obtain ⟨ys, hys, hfilled⟩ := idleThreads_rings hmade (fun k hk => absurd hk k.not_lt_zero) h₂
    refine ⟨ys, mtaskInsertProc_inv hys h₃, fun cpu hcpu => hfilled cpu ?_⟩
    rw [hok.2, hmade.rings.length, Nat.zero_add]
    exact hcpu

/-- From `sched_idle_init` on, in every run whose steps are careful, the scheduler finds no
thread that was freed, and `proc_destroy` of a process with at most one thread, a spare
one, destroys every thread. -/
theorem freed_threads_unreachable {nCpus root : Nat} {idle : IdleInit} {s₀ : Tasks}
    {acts : List DestroyAct} (hboot : (boot nCpus root).schedIdleInit idle = some s₀)
    (hcare : Guarded destroyStep Careful s₀ acts) (hrun : exec destroyStep s₀ acts = some s) :
    FreedUnreachable s ∧ ∀ p, s.Destroyable p → DestroysAll s p := by
  have hok : DestroyOk nCpus s := exec_guarded_inv
    (fun _ _ _ h ha hstep => destroyStep_ok h ha hstep) (schedIdleInit_ok hboot) hcare hrun
  obtain ⟨xs, hinv, hfilled⟩ := hok
  exact ⟨hinv.freedUnreachable, fun p hp => hp.destroysAll hinv hfilled⟩

end Invariant

/-! ## With one CPU -/

def oneCpu : IdleInit where
  proc := 1
  cloned := 0x1000
  threads := [2]
  entry := 0x2000

def newWorker (t : Nat) : DestroyAct := .createThread t 0x3000 0 [] 0 prioKernel

/-- A ring of one item reaches nothing else. -/
theorem not_inList_alone {m : Items} {l : Llist} {t : Nat} (hnext : (m l.list).next = l.list)
    (ht : l.list ≠ t) : ¬ InList m l t := by
  rintro ⟨-, k, hk⟩
  exact ht ((Function.iterate_fixed hnext k).symm.trans hk)

/-- What decides whether the thread may be enqueued, or destroyed. -/
def schedFacts (t : Nat) (s : Tasks) : Bool × Nat × List Llist × List Nat × Nat :=
  (t ∈ s.threadHeap, s.sched.threadQueue.list, s.sched.cpuThreads, s.sched.currThread,
    (s.sched.items 2).next)

/-- The first tick takes the lock, the second one moves the queue. -/
def workerActs : List DestroyAct :=
  [newWorker 4, .enqueue 4, .processes 8 0, .processes 8 0, .destroyThread 8 4]

theorem freed_threads_unreachable_worker : ∃ s₀ s,
    (boot 1 7).schedIdleInit oneCpu = some s₀ ∧ exec destroyStep s₀ workerActs = some s ∧
      s.freed = [4] ∧ FreedUnreachable s := by
  have hall : ((boot 1 7).schedIdleInit oneCpu).bind (fun s₀ =>
      (exec destroyStep s₀ workerActs).map Tasks.freed) = some [4] := by decide
  have hmade : ((boot 1 7).schedIdleInit oneCpu).bind (fun s₀ =>
      (destroyStep s₀ (newWorker 4)).map (schedFacts 4)) =
        some (true, 0, [⟨2, 0⟩], [2], 2) := by decide
  have hmoved : ((boot 1 7).schedIdleInit oneCpu).bind (fun s₀ =>
      (exec destroyStep s₀ [newWorker 4, .enqueue 4, .processes 8 0, .processes 8 0]).map
        (schedFacts 4)) = some (true, 0, [⟨2, 0⟩], [2], 4) := by decide
  obtain ⟨s₀, hboot, hrun⟩ := Option.bind_eq_some_iff.mp hall
  obtain ⟨s, hrun, hfreed⟩ := Option.map_eq_some_iff.mp hrun
  rw [hboot, Option.bind_some] at hmade hmoved
  have hcare : Guarded destroyStep Careful s₀ workerActs := by
    refine ⟨trivial, fun s₁ h₁ => ⟨?_, fun s₂ h₂ => ⟨trivial, fun s₃ h₃ => ⟨trivial, fun s₄ h₄ =>
      ⟨?_, fun _ _ => trivial⟩⟩⟩⟩⟩
    · rw [h₁, Option.map_some, Option.some.injEq] at hmade
      simp only [schedFacts, Prod.mk.injEq, decide_eq_true_eq] at hmade
      obtain ⟨halloc, hqueue, hcpus, -, hnext⟩ := hmade
      refine ⟨halloc, fun hin => hin.1 hqueue, ?_⟩
      rw [hcpus, List.forall_mem_singleton]
      exact not_inList_alone hnext (by decide)
    · have hpre : exec destroyStep s₀
          [newWorker 4, .enqueue 4, .processes 8 0, .processes 8 0] = some s₄ := by
        simp only [exec, h₁, h₂, h₃, h₄, Option.bind_some]
      rw [hpre, Option.map_some, Option.some.injEq] at hmoved
      simp only [schedFacts, Prod.mk.injEq, decide_eq_true_eq] at hmoved
      obtain ⟨halloc, hqueue, hcpus, hcurr, -⟩ := hmoved
      refine ⟨halloc, fun hin => hin.1 hqueue, ?_, ?_, ?_⟩
      · rw [hcurr]
        decide
      · rw [hcpus]
        decide
      · rw [hcpus, List.forall_mem_singleton]
        exact fun _ => rfl
  exact ⟨s₀, s, hboot, hrun, hfreed, (freed_threads_unreachable hboot hcare hrun).1⟩

/-- A process with two threads. -/
def twoThreads : List DestroyAct :=
  [.createProc 3 [] 0 0 0x1000, newWorker 4, .addThread 3 4, newWorker 5, .addThread 3 5]

/-- A thread stays queued, or current, when it is freed; and of two threads of a process
the second one is not destroyed. -/
theorem freed_thread_reached :
    (∃ s₀ s, (boot 1 7).schedIdleInit oneCpu = some s₀ ∧
      exec destroyStep s₀ [newWorker 4, .enqueue 4, .destroyThread 8 4] = some s ∧
        4 ∈ s.freed ∧ InList s.sched.items s.sched.threadQueue 4) ∧
    (∃ s₀ s, (boot 1 7).schedIdleInit oneCpu = some s₀ ∧
      exec destroyStep s₀ [.destroyThread 8 2] = some s ∧ 2 ∈ s.freed ∧ 2 ∈ s.sched.currThread) ∧
    ∃ s₀ s s', (boot 1 7).schedIdleInit oneCpu = some s₀ ∧ exec destroyStep s₀ twoThreads = some s ∧
      InList s.threadItems (s.kprocs 3).threads 5 ∧ s.procDestroy 8 3 = some s' ∧
        s'.freed = [4] := by
  have hqueued : ((boot 1 7).schedIdleInit oneCpu).bind (fun s₀ =>
      (exec destroyStep s₀ [newWorker 4, .enqueue 4, .destroyThread 8 4]).map fun s =>
        (s.freed, s.sched.threadQueue.list)) = some ([4], 4) := by decide
  have hcurr : ((boot 1 7).schedIdleInit oneCpu).bind (fun s₀ =>
      (exec destroyStep s₀ [.destroyThread 8 2]).map fun s => (s.freed, s.sched.currThread)) =
        some ([2], [2]) := by decide
  have htwo : ((boot 1 7).schedIdleInit oneCpu).bind (fun s₀ =>
      (exec destroyStep s₀ twoThreads).bind fun s => (s.procDestroy 8 3).map fun s' =>
        ((s.kprocs 3).threads.list, (s.threadItems 4).next, s'.freed)) = some (4, 5, [4]) := by
    decide
  refine ⟨?_, ?_, ?_⟩
  · obtain ⟨s₀, hboot, hrun⟩ := Option.bind_eq_some_iff.mp hqueued
    obtain ⟨s, hrun, heq⟩ := Option.map_eq_some_iff.mp hrun
    obtain ⟨hfreed, hqueue⟩ := Prod.mk.inj heq
    exact ⟨s₀, s, hboot, hrun, by simp [hfreed], by simp [hqueue], 0, hqueue⟩
  · obtain ⟨s₀, hboot, hrun⟩ := Option.bind_eq_some_iff.mp hcurr
    obtain ⟨s, hrun, heq⟩ := Option.map_eq_some_iff.mp hrun
    obtain ⟨hfreed, hcurr⟩ := Prod.mk.inj heq
    exact ⟨s₀, s, hboot, hrun, by simp [hfreed], by simp [hcurr]⟩
  · obtain ⟨s₀, hboot, hrun⟩ := Option.bind_eq_some_iff.mp htwo
    obtain ⟨s, hrun, hcall⟩ := Option.bind_eq_some_iff.mp hrun
    obtain ⟨s', hcall, heq⟩ := Option.map_eq_some_iff.mp hcall
    simp only [Prod.mk.injEq] at heq
    obtain ⟨hhead, hnext, hfreed⟩ := heq
    refine ⟨s₀, s, s', hboot, hrun, ⟨by simp [hhead], 1, ?_⟩, hcall, hfreed⟩
    rw [Function.iterate_one, hhead, hnext]

end Tasks

end LambdaOs
