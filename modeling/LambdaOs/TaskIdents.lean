import LambdaOs.TaskCalls

/-!
# Identifiers

What the process and thread identifiers depend on: the identifiers themselves,
which threads are in the list of a process and which processes in the child
slots of one, and what is allocated (`Idents`). `Ids` is what holds of them
between calls. One lemma for each change that a call is made of says that it
still holds.

A process that is made is no member of `ps` before it is complete
(`Ids.publish`), and a thread no member of a list before `proc_add_thread`.
-/

namespace LambdaOs.Tasks

/-! ## What counts -/

structure Idents where
  pid : Nat → Nat
  type : Nat → Nat
  children : Nat → List Nat
  threads : Nat → Llist
  tid : Nat → Nat
  flags : Nat → Nat
  owner : Nat → Nat
  items : Items
  procHeap : List Nat
  threadHeap : List Nat
  nextPid : Nat

def idents (s : Tasks) : Idents where
  pid p := (s.kprocs p).pid
  type p := (s.kprocs p).type
  children p := (s.kprocs p).children
  threads p := (s.kprocs p).threads
  tid t := (s.kthreads t).tid
  flags t := (s.kthreads t).flags
  owner t := (s.kthreads t).process
  items := s.threadItems
  procHeap := s.procHeap
  threadHeap := s.threadHeap
  nextPid := s.nextPid

/-- `ps` are the processes, and `ts` gives the threads of each. Threads that
share an identifier, one of them replaced by the other, share the process. -/
structure Ids (ps : List Nat) (ts : Nat → List Nat) (v : Idents) : Prop where
  next : 0 < v.nextPid
  nodup : ps.Nodup
  heap : ∀ p ∈ ps, p ∈ v.procHeap
  pid_pos : ∀ p ∈ ps, 0 < v.pid p
  pid_lt : ∀ p ∈ ps, v.pid p < v.nextPid
  pid_inj : ∀ p ∈ ps, ∀ q ∈ ps, v.pid p = v.pid q → p = q
  rep : ∀ p ∈ ps, LlistRep v.items (v.threads p) (ts p)
  data : ∀ p ∈ ps, ∀ t ∈ ts p, (v.items t).data = t
  owner : ∀ p ∈ ps, ∀ t ∈ ts p, v.owner t = p
  alloc : ∀ p ∈ ps, ∀ t ∈ ts p, t ∈ v.threadHeap
  tid_pos : ∀ p ∈ ps, ∀ t ∈ ts p, v.tid t ≠ 0
  tid_inj : ∀ p ∈ ps, ∀ t ∈ ts p, ∀ u ∈ ts p, v.tid t = v.tid u → t = u
  same : ∀ t u, v.tid t = v.tid u → v.tid t ≠ 0 → v.owner t = v.owner u
  tid_lt : ∀ t, v.tid t < v.nextPid
  runs : ∀ t, v.flags t &&& kthreadFlagRunnable ≠ 0 → v.tid t ≠ 0
  runnable : ∀ p, v.type p &&& typeRunnable ≠ 0 → p ∈ ps
  zombie : ∀ p, v.type p &&& typeZombie ≠ 0 → v.type p &&& typeRunnable = 0
  slot : ∀ p ∈ ps, ∀ c ∈ v.children p, c ≠ 0 →
    c ∈ v.procHeap ∧ c ≠ ps.headD 0 ∧ (v.type c ≠ 0 → c ∈ ps)
  once : ∀ p ∈ ps, ∀ q ∈ ps, ∀ (i j c : Nat), c ≠ 0 → (v.children p)[i]? = some c →
    (v.children q)[j]? = some c → p = q ∧ i = j

namespace Ids

variable {ps : List Nat} {ts : Nat → List Nat} {v : Idents}

/-- Threads of different processes are different. -/
theorem other (h : Ids ps ts v) {p q t u : Nat} (hp : p ∈ ps) (hq : q ∈ ps) (hne : p ≠ q)
    (ht : t ∈ ts p) (hu : u ∈ ts q) : t ≠ u ∧ v.tid t ≠ v.tid u := by
  refine ⟨fun he => hne ?_, fun he => hne ?_⟩
  · rw [← h.owner p hp t ht, he, h.owner q hq u hu]
  · rw [← h.owner p hp t ht, h.same t u he (h.tid_pos p hp t ht), h.owner q hq u hu]

theorem not_listed (h : Ids ps ts v) {t : Nat} (ht : t ∉ v.threadHeap) : ∀ p ∈ ps, t ∉ ts p :=
  fun p hp hin => ht (h.alloc p hp t hin)

/-! ## Identifiers that are issued -/

theorem issue (h : Ids ps ts v) : Ids ps ts { v with nextPid := v.nextPid + 1 } :=
  { h with
    next := Nat.succ_pos _
    pid_lt := fun p hp => Nat.lt_succ_of_lt (h.pid_lt p hp)
    tid_lt := fun t => Nat.lt_succ_of_lt (h.tid_lt t) }

/-! ## Threads -/

/-- A thread that is in no list gets an identifier, flags and a process. -/
theorem setThread (h : Ids ps ts v) {t tid flags owner : Nat} (ht : ∀ p ∈ ps, t ∉ ts p)
    (hlt : tid < v.nextPid)
    (hsame : tid ≠ 0 → ∀ u, u ≠ t → v.tid u = tid → v.owner u = owner)
    (hruns : flags &&& kthreadFlagRunnable ≠ 0 → tid ≠ 0) :
    Ids ps ts { v with
      tid := Function.update v.tid t tid
      flags := Function.update v.flags t flags
      owner := Function.update v.owner t owner } := by
  have hne : ∀ p ∈ ps, ∀ u ∈ ts p, u ≠ t := fun p hp u hu he => ht p hp (he ▸ hu)
  refine { h with
    owner := ?_
    tid_pos := ?_
    tid_inj := ?_
    same := ?_
    tid_lt := ?_
    runs := ?_ }
  · intro p hp u hu
    exact (Function.update_of_ne (hne p hp u hu) ..).trans (h.owner p hp u hu)
  · intro p hp u hu
    simpa [Function.update_of_ne (hne p hp u hu)] using h.tid_pos p hp u hu
  · intro p hp u hu w hw he
    refine h.tid_inj p hp u hu w hw ?_
    simpa [Function.update_of_ne (hne p hp u hu), Function.update_of_ne (hne p hp w hw)] using he
  · intro u w he hu
    by_cases hut : u = t
    · by_cases hwt : w = t
      · rw [hut, hwt]
      · subst hut
        simp only [Function.update_self, Function.update_of_ne hwt] at he hu ⊢
        exact (hsame hu w hwt he.symm).symm
    · by_cases hwt : w = t
      · subst hwt
        simp only [Function.update_self, Function.update_of_ne hut] at he hu ⊢
        exact hsame (he ▸ hu) u hut he
      · simp only [Function.update_of_ne hut, Function.update_of_ne hwt] at he hu ⊢
        exact h.same u w he hu
  · intro u
    by_cases hut : u = t
    · simpa [hut] using hlt
    · simpa [Function.update_of_ne hut] using h.tid_lt u
  · intro u hu
    by_cases hut : u = t
    · subst hut
      simp only [Function.update_self] at hu ⊢
      exact hruns hu
    · simp only [Function.update_of_ne hut] at hu ⊢
      exact h.runs u hu

/-- Flags change. -/
theorem setFlags (h : Ids ps ts v) {t flags : Nat}
    (hruns : flags &&& kthreadFlagRunnable ≠ 0 → v.tid t ≠ 0) :
    Ids ps ts { v with flags := Function.update v.flags t flags } := by
  refine { h with runs := ?_ }
  intro u hu
  by_cases hut : u = t
  · subst hut
    simp only [Function.update_self] at hu ⊢
    exact hruns hu
  · simp only [Function.update_of_ne hut] at hu ⊢
    exact h.runs u hu

/-- The items of threads that are in no list are written. -/
theorem setItems (h : Ids ps ts v) {m : Items} (hm : ∀ p ∈ ps, ∀ t ∈ ts p, m t = v.items t) :
    Ids ps ts { v with items := m } := by
  refine { h with
    rep := fun p hp => (h.rep p hp).frame (hm p hp)
    data := ?_ }
  intro p hp t ht
  change (m t).data = t
  rw [hm p hp t ht, h.data p hp t ht]

theorem allocThread (h : Ids ps ts v) (t : Nat) :
    Ids ps ts { v with threadHeap := t :: v.threadHeap } :=
  { h with alloc := fun p hp u hu => List.mem_cons_of_mem _ (h.alloc p hp u hu) }

theorem freeThread (h : Ids ps ts v) {t : Nat} (ht : ∀ p ∈ ps, t ∉ ts p) :
    Ids ps ts { v with threadHeap := v.threadHeap.erase t } := by
  refine { h with alloc := ?_ }
  intro p hp u hu
  have hne : u ≠ t := fun he => ht p hp (he ▸ hu)
  exact (List.mem_erase_of_ne hne).mpr (h.alloc p hp u hu)

/-- The thread list of `p` changes to `xs`. -/
theorem relist (h : Ids ps ts v) {p : Nat} {m : Items} {l : Llist} {xs : List Nat} (hp : p ∈ ps)
    (hrep : LlistRep m l xs) (hdata : ∀ t ∈ xs, (m t).data = t) (howner : ∀ t ∈ xs, v.owner t = p)
    (halloc : ∀ t ∈ xs, t ∈ v.threadHeap) (hpos : ∀ t ∈ xs, v.tid t ≠ 0)
    (hinj : ∀ t ∈ xs, ∀ u ∈ xs, v.tid t = v.tid u → t = u)
    (hframe : ∀ q ∈ ps, q ≠ p → ∀ t ∈ ts q, m t = v.items t) :
    Ids ps (Function.update ts p xs)
      { v with items := m, threads := Function.update v.threads p l } := by
  refine { h with
    rep := ?_
    data := ?_
    owner := ?_
    alloc := ?_
    tid_pos := ?_
    tid_inj := ?_ }
  · intro q hq
    by_cases hqp : q = p
    · subst hqp
      simpa using hrep
    · simpa [Function.update_of_ne hqp] using (h.rep q hq).frame (hframe q hq hqp)
  · intro q hq
    by_cases hqp : q = p
    · subst hqp
      simpa using hdata
    · simp only [Function.update_of_ne hqp]
      intro t ht
      rw [hframe q hq hqp t ht, h.data q hq t ht]
  · intro q hq
    by_cases hqp : q = p
    · subst hqp
      simpa using howner
    · simpa [Function.update_of_ne hqp] using h.owner q hq
  · intro q hq
    by_cases hqp : q = p
    · subst hqp
      simpa using halloc
    · simpa [Function.update_of_ne hqp] using h.alloc q hq
  · intro q hq
    by_cases hqp : q = p
    · subst hqp
      simpa using hpos
    · simpa [Function.update_of_ne hqp] using h.tid_pos q hq
  · intro q hq
    by_cases hqp : q = p
    · subst hqp
      simpa using hinj
    · simpa [Function.update_of_ne hqp] using h.tid_inj q hq

/-! ## Processes -/

theorem setType (h : Ids ps ts v) {p type : Nat} (hp : p ∈ ps)
    (hzombie : type &&& typeZombie ≠ 0 → type &&& typeRunnable = 0) :
    Ids ps ts { v with type := Function.update v.type p type } := by
  refine { h with
    runnable := ?_
    zombie := ?_
    slot := ?_ }
  · intro q hq
    by_cases hqp : q = p
    · exact hqp ▸ hp
    · simp only [Function.update_of_ne hqp] at hq
      exact h.runnable q hq
  · intro q hq
    by_cases hqp : q = p
    · subst hqp
      simp only [Function.update_self] at hq ⊢
      exact hzombie hq
    · simp only [Function.update_of_ne hqp] at hq ⊢
      exact h.zombie q hq
  · intro q hq c hc hc0
    obtain ⟨hheap, hhead, htype⟩ := h.slot q hq c hc hc0
    refine ⟨hheap, hhead, ?_⟩
    intro ht
    by_cases hcp : c = p
    · exact hcp ▸ hp
    · simp only [Function.update_of_ne hcp] at ht
      exact htype ht

/-- A process goes into a free slot, or a slot becomes free. -/
theorem setSlot (h : Ids ps ts v) {p i c : Nat}
    (hc : c ≠ 0 → c ∈ v.procHeap ∧ c ≠ ps.headD 0 ∧ (v.type c ≠ 0 → c ∈ ps))
    (hout : c ≠ 0 → ∀ q ∈ ps, ∀ j : Nat, (v.children q)[j]? ≠ some c) :
    Ids ps ts { v with children := Function.update v.children p ((v.children p).set i c) } := by
  have hget : ∀ q j d, d ≠ 0 →
      (Function.update v.children p ((v.children p).set i c) q)[j]? = some d →
        (q = p ∧ j = i ∧ d = c) ∨ (v.children q)[j]? = some d := by
    intro q j d hd hj
    by_cases hqp : q = p
    · subst hqp
      rw [Function.update_self, List.getElem?_set] at hj
      split at hj
      · split at hj
        · cases hj
          exact .inl ⟨rfl, by omega, rfl⟩
        · cases hj
      · exact .inr hj
    · rw [Function.update_of_ne hqp] at hj
      exact .inr hj
  refine { h with
    slot := ?_
    once := ?_ }
  · intro q hq d hd hd0
    obtain ⟨j, hj⟩ := List.mem_iff_getElem?.mp hd
    rcases hget q j d hd0 hj with ⟨-, -, rfl⟩ | hj
    · exact hc hd0
    · exact h.slot q hq d (List.mem_of_getElem? hj) hd0
  · intro q hq r hr j k d hd0 hj hk
    rcases hget q j d hd0 hj with ⟨rfl, rfl, rfl⟩ | hj'
    · rcases hget r k d hd0 hk with ⟨rfl, rfl, -⟩ | hk'
      · exact ⟨rfl, rfl⟩
      · exact absurd hk' (hout hd0 r hr k)
    · rcases hget r k d hd0 hk with ⟨rfl, rfl, rfl⟩ | hk'
      · exact absurd hj' (hout hd0 q hq j)
      · exact h.once q hq r hr j k d hd0 hj' hk'

/-- A process that is not in `ps` changes; while it is in a slot it has no type. -/
theorem setProc (h : Ids ps ts v) {c pid type : Nat} {children : List Nat} {threads : Llist}
    (hc : c ∉ ps) (htype : type &&& typeRunnable = 0)
    (hslot : type ≠ 0 → ∀ q ∈ ps, ∀ j : Nat, (v.children q)[j]? ≠ some c) :
    Ids ps ts { v with
      pid := Function.update v.pid c pid
      type := Function.update v.type c type
      children := Function.update v.children c children
      threads := Function.update v.threads c threads } := by
  have hne : ∀ p ∈ ps, p ≠ c := fun p hp he => hc (he ▸ hp)
  refine { h with
    pid_pos := ?_
    pid_lt := ?_
    pid_inj := ?_
    rep := ?_
    runnable := ?_
    zombie := ?_
    slot := ?_
    once := ?_ }
  · intro p hp
    simpa [Function.update_of_ne (hne p hp)] using h.pid_pos p hp
  · intro p hp
    simpa [Function.update_of_ne (hne p hp)] using h.pid_lt p hp
  · intro p hp q hq he
    simp only [Function.update_of_ne (hne p hp), Function.update_of_ne (hne q hq)] at he
    exact h.pid_inj p hp q hq he
  · intro p hp
    simpa [Function.update_of_ne (hne p hp)] using h.rep p hp
  · intro p hp
    by_cases hpc : p = c
    · subst hpc
      simp only [Function.update_self] at hp
      exact absurd htype hp
    · simp only [Function.update_of_ne hpc] at hp
      exact h.runnable p hp
  · intro p hp
    by_cases hpc : p = c
    · subst hpc
      simpa using htype
    · simp only [Function.update_of_ne hpc] at hp ⊢
      exact h.zombie p hp
  · intro p hp d hd hd0
    simp only [Function.update_of_ne (hne p hp)] at hd
    obtain ⟨hheap, hhead, hin⟩ := h.slot p hp d hd hd0
    refine ⟨hheap, hhead, ?_⟩
    intro ht
    by_cases hdc : d = c
    · subst hdc
      simp only [Function.update_self] at ht
      obtain ⟨j, hj⟩ := List.mem_iff_getElem?.mp hd
      exact absurd hj (hslot ht p hp j)
    · simp only [Function.update_of_ne hdc] at ht
      exact hin ht
  · intro p hp q hq i j d hd0 hi hj
    simp only [Function.update_of_ne (hne p hp), Function.update_of_ne (hne q hq)] at hi hj
    exact h.once p hp q hq i j d hd0 hi hj

theorem allocProc (h : Ids ps ts v) (c : Nat) :
    Ids ps ts { v with procHeap := c :: v.procHeap } :=
  { h with
    heap := fun p hp => List.mem_cons_of_mem _ (h.heap p hp)
    slot := fun p hp d hd hd0 =>
      ⟨List.mem_cons_of_mem _ (h.slot p hp d hd hd0).1, (h.slot p hp d hd hd0).2⟩ }

/-- A process that is complete joins. -/
theorem publish (h : Ids ps ts v) {c : Nat} {xs : List Nat} (hc : c ∉ ps) (hheap : c ∈ v.procHeap)
    (hpos : 0 < v.pid c) (hlt : v.pid c < v.nextPid) (hpid : ∀ p ∈ ps, v.pid p ≠ v.pid c)
    (hrep : LlistRep v.items (v.threads c) xs) (hdata : ∀ t ∈ xs, (v.items t).data = t)
    (howner : ∀ t ∈ xs, v.owner t = c) (halloc : ∀ t ∈ xs, t ∈ v.threadHeap)
    (htid : ∀ t ∈ xs, v.tid t ≠ 0) (hinj : ∀ t ∈ xs, ∀ u ∈ xs, v.tid t = v.tid u → t = u)
    (hchildren : ∀ d ∈ v.children c, d = 0) : Ids (ps ++ [c]) (Function.update ts c xs) v := by
  have hne : ∀ p ∈ ps, p ≠ c := fun p hp he => hc (he ▸ hp)
  have hmem : ∀ {p}, p ∈ ps ++ [c] → p ∈ ps ∨ p = c := fun hp => by simpa using hp
  have hchildren' : ∀ (i d : Nat), d ≠ 0 → (v.children c)[i]? ≠ some d := fun i d hd hi =>
    hd (hchildren d (List.mem_of_getElem? hi))
  refine { h with
    nodup := ?_
    heap := ?_
    pid_pos := ?_
    pid_lt := ?_
    pid_inj := ?_
    rep := ?_
    data := ?_
    owner := ?_
    alloc := ?_
    tid_pos := ?_
    tid_inj := ?_
    runnable := fun p hp => List.mem_append_left _ (h.runnable p hp)
    slot := ?_
    once := ?_ }
  · exact List.nodup_append'.mpr ⟨h.nodup, List.nodup_singleton c, by simpa using hc⟩
  · intro p hp
    rcases hmem hp with hp | rfl
    · exact h.heap p hp
    · exact hheap
  · intro p hp
    rcases hmem hp with hp | rfl
    · exact h.pid_pos p hp
    · exact hpos
  · intro p hp
    rcases hmem hp with hp | rfl
    · exact h.pid_lt p hp
    · exact hlt
  · intro p hp q hq he
    rcases hmem hp with hp' | rfl
    · rcases hmem hq with hq' | rfl
      · exact h.pid_inj p hp' q hq' he
      · exact absurd he (hpid p hp')
    · rcases hmem hq with hq' | rfl
      · exact absurd he.symm (hpid q hq')
      · rfl
  · intro p hp
    rcases hmem hp with hp | rfl
    · simpa [Function.update_of_ne (hne p hp)] using h.rep p hp
    · simpa using hrep
  · intro p hp
    rcases hmem hp with hp | rfl
    · simpa [Function.update_of_ne (hne p hp)] using h.data p hp
    · simpa using hdata
  · intro p hp
    rcases hmem hp with hp | rfl
    · simpa [Function.update_of_ne (hne p hp)] using h.owner p hp
    · simpa using howner
  · intro p hp
    rcases hmem hp with hp | rfl
    · simpa [Function.update_of_ne (hne p hp)] using h.alloc p hp
    · simpa using halloc
  · intro p hp
    rcases hmem hp with hp | rfl
    · simpa [Function.update_of_ne (hne p hp)] using h.tid_pos p hp
    · simpa using htid
  · intro p hp
    rcases hmem hp with hp | rfl
    · simpa [Function.update_of_ne (hne p hp)] using h.tid_inj p hp
    · simpa using hinj
  · intro p hp d hd hd0
    rcases hmem hp with hp | rfl
    · obtain ⟨hin, hhead, htype⟩ := h.slot p hp d hd hd0
      refine ⟨hin, ?_, fun ht => List.mem_append_left _ (htype ht)⟩
      cases ps with
      | nil => cases hp
      | cons q ps => exact hhead
    · exact absurd (hchildren d hd) hd0
  · intro p hp q hq i j d hd0 hi hj
    rcases hmem hp with hp' | rfl
    · rcases hmem hq with hq' | rfl
      · exact h.once p hp' q hq' i j d hd0 hi hj
      · exact absurd hj (hchildren' j d hd0)
    · exact absurd hi (hchildren' i d hd0)

/-- A process that has ended and is in no slot leaves. -/
theorem retire {pre post : List Nat} {c : Nat} (h : Ids (pre ++ c :: post) ts v) (hpre : pre ≠ [])
    (htype : v.type c &&& typeRunnable = 0)
    (hslot : ∀ q ∈ pre ++ c :: post, ∀ j : Nat, (v.children q)[j]? ≠ some c) :
    Ids (pre ++ post) ts v := by
  have hsub : ∀ {p}, p ∈ pre ++ post → p ∈ pre ++ c :: post := fun hp => by
    rw [List.mem_append] at hp ⊢
    exact hp.imp_right (List.mem_cons_of_mem _)
  have hrest : ∀ {p}, p ∈ pre ++ c :: post → p ≠ c → p ∈ pre ++ post := fun hp hpc => by
    simp only [List.mem_append, List.mem_cons] at hp ⊢
    tauto
  refine { h with
    nodup := (List.nodup_cons.mp (List.nodup_middle.mp h.nodup)).2
    heap := fun p hp => h.heap p (hsub hp)
    pid_pos := fun p hp => h.pid_pos p (hsub hp)
    pid_lt := fun p hp => h.pid_lt p (hsub hp)
    pid_inj := fun p hp q hq => h.pid_inj p (hsub hp) q (hsub hq)
    rep := fun p hp => h.rep p (hsub hp)
    data := fun p hp => h.data p (hsub hp)
    owner := fun p hp => h.owner p (hsub hp)
    alloc := fun p hp => h.alloc p (hsub hp)
    tid_pos := fun p hp => h.tid_pos p (hsub hp)
    tid_inj := fun p hp => h.tid_inj p (hsub hp)
    runnable := fun p hp => hrest (h.runnable p hp) fun he => hp (he ▸ htype)
    slot := ?_
    once := fun p hp q hq => h.once p (hsub hp) q (hsub hq) }
  intro p hp d hd hd0
  obtain ⟨hheap, hhead, hin⟩ := h.slot p (hsub hp) d hd hd0
  obtain ⟨j, hj⟩ := List.mem_iff_getElem?.mp hd
  have hdc : d ≠ c := fun he => hslot p (hsub hp) j (he ▸ hj)
  refine ⟨hheap, ?_, fun ht => hrest (hin ht) hdc⟩
  cases pre with
  | nil => exact absurd rfl hpre
  | cons q pre => exact hhead

theorem freeProc (h : Ids ps ts v) {c : Nat} (hc : c ∉ ps)
    (hslot : ∀ q ∈ ps, ∀ j : Nat, (v.children q)[j]? ≠ some c) :
    Ids ps ts { v with procHeap := v.procHeap.erase c } := by
  refine { h with
    heap := ?_
    slot := ?_ }
  · intro p hp
    have hpc : p ≠ c := fun he => hc (he ▸ hp)
    exact (List.mem_erase_of_ne hpc).mpr (h.heap p hp)
  · intro p hp d hd hd0
    obtain ⟨hheap, hrest⟩ := h.slot p hp d hd hd0
    obtain ⟨j, hj⟩ := List.mem_iff_getElem?.mp hd
    have hdc : d ≠ c := fun he => hslot p hp j (he ▸ hj)
    exact ⟨(List.mem_erase_of_ne hdc).mpr hheap, hrest⟩

/-- A slot is emptied; the process that was in it is in no other. -/
theorem clearSlot (h : Ids ps ts v) {p i c : Nat} (hp : p ∈ ps) (hc0 : c ≠ 0)
    (hi : (v.children p)[i]? = some c) :
    Ids ps ts { v with children := Function.update v.children p ((v.children p).set i 0) } ∧
      ∀ q ∈ ps, ∀ j : Nat,
        (Function.update v.children p ((v.children p).set i 0) q)[j]? ≠ some c := by
  refine ⟨h.setSlot (fun h0 => absurd rfl h0) (fun h0 => absurd rfl h0), ?_⟩
  intro q hq j hj
  by_cases hqp : q = p
  · subst hqp
    rw [Function.update_self, List.getElem?_set] at hj
    split at hj
    · split at hj
      · cases hj
        exact hc0 rfl
      · cases hj
    · rename_i hij
      exact hij (h.once q hp q hq i j c hc0 hi hj).2
  · rw [Function.update_of_ne hqp] at hj
    exact hqp (h.once p hp q hq i j c hc0 hi hj).1.symm

end Ids

/-! ## Changes of the structures -/

section Changes

variable {s s' : Tasks} {ps : List Nat} {ts : Nat → List Nat} {p c t : Nat}
  {f : Process → Process} {g : Kthread → Kthread}

theorem modProc_idents (s : Tasks) (p : Nat) (f : Process → Process) :
    (s.modProc p f).idents = { s.idents with
      pid := Function.update s.idents.pid p (f (s.kprocs p)).pid
      type := Function.update s.idents.type p (f (s.kprocs p)).type
      children := Function.update s.idents.children p (f (s.kprocs p)).children
      threads := Function.update s.idents.threads p (f (s.kprocs p)).threads } := by
  have hfield : ∀ {α : Type} (field : Process → α), (fun q => field ((s.modProc p f).kprocs q)) =
      Function.update (fun q => field (s.kprocs q)) p (field (f (s.kprocs p))) :=
    fun field => Function.comp_update field s.kprocs p _
  simp only [idents, hfield]
  rfl

theorem modThread_idents (s : Tasks) (t : Nat) (g : Kthread → Kthread) :
    (s.modThread t g).idents = { s.idents with
      tid := Function.update s.idents.tid t (g (s.kthreads t)).tid
      flags := Function.update s.idents.flags t (g (s.kthreads t)).flags
      owner := Function.update s.idents.owner t (g (s.kthreads t)).process } := by
  have hfield : ∀ {α : Type} (field : Kthread → α),
      (fun q => field ((s.modThread t g).kthreads q)) =
      Function.update (fun q => field (s.kthreads q)) t (field (g (s.kthreads t))) :=
    fun field => Function.comp_update field s.kthreads t _
  simp only [idents, hfield]
  rfl

theorem keep_pid : Function.update s.idents.pid p (s.kprocs p).pid = s.idents.pid :=
  Function.update_eq_self p s.idents.pid

theorem keep_type : Function.update s.idents.type p (s.kprocs p).type = s.idents.type :=
  Function.update_eq_self p s.idents.type

theorem keep_children :
    Function.update s.idents.children p (s.kprocs p).children = s.idents.children :=
  Function.update_eq_self p s.idents.children

theorem keep_threads :
    Function.update s.idents.threads p (s.kprocs p).threads = s.idents.threads :=
  Function.update_eq_self p s.idents.threads

theorem keep_tid : Function.update s.idents.tid t (s.kthreads t).tid = s.idents.tid :=
  Function.update_eq_self t s.idents.tid

theorem keep_flags : Function.update s.idents.flags t (s.kthreads t).flags = s.idents.flags :=
  Function.update_eq_self t s.idents.flags

theorem keep_owner : Function.update s.idents.owner t (s.kthreads t).process = s.idents.owner :=
  Function.update_eq_self t s.idents.owner

/-- A change of a process that keeps what counts. -/
theorem modProc_idents_same (hpid : (f (s.kprocs p)).pid = (s.kprocs p).pid)
    (htype : (f (s.kprocs p)).type = (s.kprocs p).type)
    (hchildren : (f (s.kprocs p)).children = (s.kprocs p).children)
    (hthreads : (f (s.kprocs p)).threads = (s.kprocs p).threads) :
    (s.modProc p f).idents = s.idents := by
  rw [modProc_idents, hpid, htype, hchildren, hthreads, keep_pid, keep_type, keep_children,
    keep_threads]

theorem modThread_idents_same (htid : (g (s.kthreads t)).tid = (s.kthreads t).tid)
    (hflags : (g (s.kthreads t)).flags = (s.kthreads t).flags)
    (howner : (g (s.kthreads t)).process = (s.kthreads t).process) :
    (s.modThread t g).idents = s.idents := by
  rw [modThread_idents, htid, hflags, howner, keep_tid, keep_flags, keep_owner]

namespace Ids

theorem modProc_type (h : Ids ps ts s.idents) (hp : p ∈ ps)
    (hpid : (f (s.kprocs p)).pid = (s.kprocs p).pid)
    (hchildren : (f (s.kprocs p)).children = (s.kprocs p).children)
    (hthreads : (f (s.kprocs p)).threads = (s.kprocs p).threads)
    (hzombie : (f (s.kprocs p)).type &&& typeZombie ≠ 0 →
      (f (s.kprocs p)).type &&& typeRunnable = 0) : Ids ps ts (s.modProc p f).idents := by
  rw [modProc_idents, hpid, hchildren, hthreads, keep_pid, keep_children, keep_threads]
  exact h.setType hp hzombie

theorem modThread_flags (h : Ids ps ts s.idents)
    (htid : (g (s.kthreads t)).tid = (s.kthreads t).tid)
    (howner : (g (s.kthreads t)).process = (s.kthreads t).process)
    (hruns : (s.kthreads t).tid ≠ 0) : Ids ps ts (s.modThread t g).idents := by
  rw [modThread_idents, htid, howner, keep_tid, keep_owner]
  exact h.setFlags fun _ => hruns

/-- A process that is not in `ps` is cleared, or made. -/
theorem modProc_out (h : Ids ps ts s.idents) (hc : c ∉ ps) (htype : (f (s.kprocs c)).type = 0) :
    Ids ps ts (s.modProc c f).idents := by
  rw [modProc_idents]
  exact h.setProc hc (by rw [htype]; rfl) fun hne => absurd htype hne

theorem clearProc (h : Ids ps ts s.idents) (hc : c ∉ ps) : Ids ps ts (s.clearProc c).idents :=
  h.modProc_out (f := fun _ => zeroProcess) hc rfl

/-- A thread that is in no list changes. -/
theorem modThread_out (h : Ids ps ts s.idents) (ht : ∀ p ∈ ps, t ∉ ts p)
    (hlt : (g (s.kthreads t)).tid < s.nextPid)
    (hsame : (g (s.kthreads t)).tid ≠ 0 → ∀ u, u ≠ t →
      (s.kthreads u).tid = (g (s.kthreads t)).tid →
        (s.kthreads u).process = (g (s.kthreads t)).process)
    (hruns : (g (s.kthreads t)).flags &&& kthreadFlagRunnable ≠ 0 → (g (s.kthreads t)).tid ≠ 0) :
    Ids ps ts (s.modThread t g).idents := by
  rw [modThread_idents]
  exact h.setThread ht hlt hsame hruns

theorem clearThread (h : Ids ps ts s.idents) (ht : ∀ p ∈ ps, t ∉ ts p) :
    Ids ps ts (s.clearThread t).idents := by
  have hmod := h.modThread_out (g := fun _ => zeroThread) ht h.next (fun h0 => absurd rfl h0)
    (fun h0 => absurd rfl h0)
  refine hmod.setItems (m := Function.update s.threadItems t zeroItem) ?_
  intro p hp u hu
  have hut : u ≠ t := fun he => ht p hp (he ▸ hu)
  exact Function.update_of_ne hut ..

/-- A new thread, with its structure as `thread_create` and `memset` leave it. -/
theorem newThread (h : Ids ps ts s.idents) (ht : t ∉ s.threadHeap) {k : Kthread} (htid : k.tid = 0)
    (hflags : k.flags = 0) :
    Ids ps ts (((s.allocThread t).clearThread t).modThread t fun _ => k).idents := by
  have hout : ∀ p ∈ ps, t ∉ ts p := h.not_listed ht
  have hcleared : Ids ps ts ((s.allocThread t).clearThread t).idents :=
    Ids.clearThread (h.allocThread t) hout
  refine hcleared.modThread_out (g := fun _ => k) hout ?_ ?_ ?_
  · rw [htid]
    exact hcleared.next
  · exact fun h0 => absurd htid h0
  · rw [hflags]
    exact fun h0 => absurd rfl h0

end Ids

theorem linkThread_idents (s : Tasks) (p t tid : Nat) (r : Items × Llist) :
    (s.linkThread p t tid r).idents = { s.idents with
      tid := Function.update s.idents.tid t tid
      owner := Function.update s.idents.owner t p
      items := r.1
      threads := Function.update s.idents.threads p r.2 } := by
  have hproc : ∀ {α : Type} (field : Process → α),
      (fun q => field ((s.linkThread p t tid r).kprocs q)) =
        Function.update (fun q => field (s.kprocs q)) p
          (field (Process.withThreads r.2 (s.kprocs p))) :=
    fun field => Function.comp_update field s.kprocs p _
  have hthread : ∀ {α : Type} (field : Kthread → α),
      (fun u => field ((s.linkThread p t tid r).kthreads u)) =
        Function.update (fun u => field (s.kthreads u)) t
          (field (Kthread.joins p tid (s.kthreads t))) :=
    fun field => Function.comp_update field s.kthreads t _
  simp only [idents, hproc, hthread, Process.withThreads, Kthread.joins, Function.update_eq_self]
  rfl

namespace Ids

/-- A thread that is in no list gets a process and an identifier. -/
theorem joins (h : Ids ps ts s.idents) (hout : ∀ q ∈ ps, t ∉ ts q) {tid owner : Nat}
    (hlt : tid < s.nextPid) (h0 : tid ≠ 0)
    (hsame : ∀ u, u ≠ t → (s.kthreads u).tid = tid → (s.kthreads u).process = owner) :
    Ids ps ts { s.idents with
      tid := Function.update s.idents.tid t tid
      owner := Function.update s.idents.owner t owner } := by
  have hset := h.setThread hout hlt (fun _ => hsame) fun (_ : (s.kthreads t).flags &&& _ ≠ 0) => h0
  rw [keep_flags] at hset
  exact hset

theorem link (h : Ids ps ts s.idents) (hp : p ∈ ps) (ht0 : t ≠ 0) (hout : ∀ q ∈ ps, t ∉ ts q)
    (halloc : t ∈ s.threadHeap) {tid : Nat} {r : Items × Llist} (hlt : tid < s.nextPid)
    (h0 : tid ≠ 0)
    (hsame : ∀ u, u ≠ t → (s.kthreads u).tid = tid → (s.kthreads u).process = p)
    (hother : ∀ u ∈ ts p, (s.kthreads u).tid ≠ tid)
    (hr : llistAppend (s.threadItems.setData t t) (s.kprocs p).threads t = some r) :
    Ids ps (Function.update ts p (ts p ++ [t])) (s.linkThread p t tid r).idents := by
  rw [linkThread_idents]
  have hjoined := h.joins hout hlt h0 hsame
  have hstep := llistAppend_step ((h.rep p hp).setData t t) ht0 (hout p hp) hr
  have hne : ∀ {q}, q ∈ ps → ∀ {u}, u ∈ ts q → u ≠ t := fun hq _ hu he => hout _ hq (he ▸ hu)
  have hdata : ∀ u, u ≠ t → (r.1 u).data = (s.threadItems u).data := fun u hut => by
    rw [hstep.data u, Items.setData, Function.update_of_ne hut]
    rfl
  have hmem : ∀ {u}, u ∈ ts p ++ [t] → u ∈ ts p ∨ u = t := fun hu => by simpa using hu
  refine hjoined.relist hp hstep.rep ?_ ?_ ?_
    ?_ ?_ ?_
  · intro u hu
    rcases hmem hu with hu | rfl
    · rw [hdata u (hne hp hu)]
      exact h.data p hp u hu
    · rw [hstep.data, Items.setData, Function.update_self]
  · intro u hu
    rcases hmem hu with hu | rfl
    · exact (Function.update_of_ne (hne hp hu) ..).trans (h.owner p hp u hu)
    · exact Function.update_self ..
  · intro u hu
    rcases hmem hu with hu | rfl
    · exact h.alloc p hp u hu
    · exact halloc
  · intro u hu
    rcases hmem hu with hu | rfl
    · simpa [Function.update_of_ne (hne hp hu)] using h.tid_pos p hp u hu
    · simpa using h0
  · intro u hu w hw he
    rcases hmem hu with hu' | rfl
    · rcases hmem hw with hw' | rfl
      · simp only [Function.update_of_ne (hne hp hu'), Function.update_of_ne (hne hp hw')] at he
        exact h.tid_inj p hp u hu' w hw' he
      · simp only [Function.update_of_ne (hne hp hu'), Function.update_self] at he
        exact absurd he (hother u hu')
    · rcases hmem hw with hw' | rfl
      · simp only [Function.update_of_ne (hne hp hw'), Function.update_self] at he
        exact absurd he.symm (hother w hw')
      · rfl
  · intro q hq hqp u hu
    have hut : u ≠ t := hne hq hu
    have hup : u ∉ ts p := fun hin => (h.other hq hp hqp hu hin).1 rfl
    rw [hstep.frame u hup (fun hin => (hmem hin).elim hup hut), Items.setData,
      Function.update_of_ne hut]

/-- A new thread joins a process; the first takes the identifier of the process. -/
theorem procAddThread (h : Ids ps ts s.idents) (hp : p ∈ ps) (ht0 : t ≠ 0)
    (hout : ∀ q ∈ ps, t ∉ ts q) (halloc : t ∈ s.threadHeap) (htid : (s.kthreads t).tid = 0)
    (hfirst : ts p = [] → ∀ u, (s.kthreads u).tid ≠ (s.kprocs p).pid)
    (hcall : s.procAddThread p t = some s') :
    Ids ps (Function.update ts p (ts p ++ [t])) s'.idents ∧ (s'.kthreads t).tid ≠ 0 := by
  obtain ⟨r₁, h₁, r, hr, rfl⟩ := procAddThread_eq_some.mp hcall
  unfold threadTid at h₁
  rw [if_neg (not_not.mpr htid)] at h₁
  have hlast : ∀ (s₁ : Tasks) (n : Nat), ((s₁.linkThread p t n r).kthreads t).tid = n :=
    fun s₁ n => congrArg Kthread.tid (modThread_self s₁ t (Kthread.joins p n))
  split at h₁
  · obtain ⟨-, rfl⟩ := getNextPid_eq_some.mp h₁
    have hfresh : ∀ u, (s.kthreads u).tid ≠ s.nextPid := fun u => Nat.ne_of_lt (h.tid_lt u)
    refine ⟨h.issue.link (s := s.issuePid) hp ht0 hout halloc (Nat.lt_succ_self _)
      (Nat.ne_of_gt h.next) (fun u _ he => absurd he (hfresh u)) (fun u _ => hfresh u) hr, ?_⟩
    rw [hlast]
    exact Nat.ne_of_gt h.next
  · rename_i hempty
    cases h₁
    have hnil : ts p = [] := (h.rep p hp).list_eq_zero_iff.mp (not_not.mp hempty)
    have hfresh := hfirst hnil
    refine ⟨h.link hp ht0 hout halloc (h.pid_lt p hp) (Nat.ne_of_gt (h.pid_pos p hp))
      (fun u _ he => absurd he (hfresh u)) (fun u _ => hfresh u) hr, ?_⟩
    rw [hlast]
    exact Nat.ne_of_gt (h.pid_pos p hp)

/-- The thread of a process that is not in `ps`, still without an identifier. -/
theorem link_out (h : Ids ps ts s.idents) (hc : c ∉ ps) (htype : (s.kprocs c).type = 0)
    (hout : ∀ q ∈ ps, t ∉ ts q) {r : Items × Llist}
    (hitems : ∀ u, u ≠ t → r.1 u = s.threadItems u)
    (hflags : (s.kthreads t).flags = 0) : Ids ps ts (s.linkThread c t 0 r).idents := by
  have hthread : Ids ps ts (s.modThread t (Kthread.joins c 0)).idents := by
    refine h.modThread_out hout h.next (fun h0 => absurd rfl h0) ?_
    change (s.kthreads t).flags &&& kthreadFlagRunnable ≠ 0 → _
    rw [hflags]
    exact fun h0 => absurd rfl h0
  have hproc : Ids ps ts ((s.modThread t (Kthread.joins c 0)).modProc c
      (Process.withThreads r.2)).idents := hthread.modProc_out hc htype
  refine hproc.setItems (m := r.1) fun q hq u hu => hitems u fun he => hout q hq (he ▸ hu)

/-- A child goes into a slot, if there is one. -/
theorem procAddChild (h : Ids ps ts s.idents) (hc : c ∈ s.procHeap) (hhead : c ≠ ps.headD 0)
    (htype : (s.kprocs c).type = 0)
    (hout : ∀ q ∈ ps, ∀ j : Nat, ((s.kprocs q).children)[j]? ≠ some c) :
    Ids ps ts (s.procAddChild p c).1.idents := by
  have hparent : (s.modProc c (Process.withParent (s.kprocs p).pid)).idents = s.idents :=
    modProc_idents_same rfl rfl rfl rfl
  unfold Tasks.procAddChild
  dsimp only
  split
  · rename_i i hi
    have h' : Ids ps ts (s.modProc c (Process.withParent (s.kprocs p).pid)).idents := hparent ▸ h
    rw [modProc_idents]
    dsimp only [Process.withChild]
    rw [keep_pid, keep_type, keep_threads]
    refine h'.setSlot (fun _ => ⟨hc, hhead, fun h0 => absurd ?_ h0⟩) fun _ => ?_
    · rw [hparent]
      exact htype
    · rw [hparent]
      exact hout
  · rw [hparent]
    exact h

end Ids

end Changes

end LambdaOs.Tasks
