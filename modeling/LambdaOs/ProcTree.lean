import Mathlib.Data.List.Basic
import Mathlib.Data.List.Count
import LambdaOs.Run
import LambdaOs.Proc

/-!
# The process tree, and `wait` and `exit`

A process points to its children and knows its parent by pid. `TreeInv` ties
the two together: a process in `procs` is in a slot of its parent, the parent
is in `procs`, and a thread that was woken in `wait` has a zombie child. Every
call keeps it, but for a `wait` that reaps a child which has children of its
own: these stay in `procs` with a parent that is gone.

So the links hold, and no panic is reached, exactly in the runs in which no
reaped child has children left and `cond_wait` finds memory
(`links_kept_iff_no_orphans`). `wait` never assigns the pid it returns, so that
what it promises its caller holds only where it reaps nothing.
-/

namespace LambdaOs

namespace ProcState

/-! ## What the protocol promises -/

/-- The process and the slot in which an action finds a dead child. -/
def reaping (s : ProcState) : ProcAct → Option (Nat × Nat)
  | .wait p _ _ => if s.CanCall p then (s.findDeadChild p).map (p, ·) else none
  | .wake p =>
      if p ∈ s.procs ∧ (s.kprocs p).thread = .woken then (s.findDeadChild p).map (p, ·) else none
  | _ => none

/-- Every process with a parent has it in `procs`. -/
def ParentsPresent (s : ProcState) : Prop :=
  ∀ p ∈ s.procs, (s.kprocs p).parent ≠ 0 → ∃ q ∈ s.procs, (s.kprocs q).pid = (s.kprocs p).parent

/-- What holds of a call of the protocol but for what it returns. A process
that appears takes the next pid, so that a pid that left does not come back. -/
structure LinksKept (s : ProcState) (a : ProcAct) : Prop where
  present : ∀ s' r, procCall s a = .ok (s', r) → s'.ParentsPresent
  parentFound : procCall s a ≠ .error .nullParent
  childFound : procCall s a ≠ .error .childMissing
  reaped : ∀ p slot, s.reaping a = some (p, slot) →
    s.childAt p slot ∈ s.procs ∧ (s.kprocs (s.childAt p slot)).zombie = true ∧
      (s.kprocs (s.childAt p slot)).parent = (s.kprocs p).pid ∧
      ∀ s' r, procCall s a = .ok (s', r) → s.childAt p slot ∉ s'.procs
  onlyReaped : ∀ s' r, procCall s a = .ok (s', r) → ∀ c ∈ s.procs, c ∉ s'.procs →
    ∃ p slot, s.reaping a = some (p, slot) ∧ c = s.childAt p slot
  fresh : ∀ s' r, procCall s a = .ok (s', r) → ∀ c ∈ s'.procs, c ∉ s.procs →
    (s'.kprocs c).pid = s.nextPid ∧ s.nextPid < s'.nextPid

/-- A call that reaps a child returns its pid. -/
def ReturnsPid (s : ProcState) (a : ProcAct) : Prop :=
  ∀ p slot, s.reaping a = some (p, slot) →
    ∃ s', procCall s a = .ok (s', some ((s.kprocs (s.childAt p slot)).pid : Int))

/-- `wait` is to sleep, and `cond_wait` finds no memory for its entry. -/
def Starved (s : ProcState) : ProcAct → Prop
  | .wait p condFound itemFound =>
      s.CanCall p ∧ (∃ c ∈ (s.kprocs p).children, c ≠ 0) ∧ s.findDeadChild p = none ∧
        ((s.kprocs p).waitCond ≠ none ∨ condFound = true) ∧ itemFound = false
  | _ => False

/-- The action reaps a child that is itself the parent of a process. -/
def Orphans (s : ProcState) (a : ProcAct) : Prop :=
  ∃ p slot, s.reaping a = some (p, slot) ∧
    ∃ g ∈ s.procs, (s.kprocs g).parent = (s.kprocs (s.childAt p slot)).pid

end ProcState

/-! ## The invariant -/

theorem mem_set_of_ne {l : List Nat} {i x y : Nat} (hx : x ∈ l) (hne : l[i]? ≠ some x) :
    x ∈ l.set i y := by
  obtain ⟨j, hj⟩ := List.mem_iff_getElem?.mp hx
  have hij : i ≠ j := by
    rintro rfl
    exact hne hj
  exact List.mem_iff_getElem?.mpr ⟨j, by rwa [List.getElem?_set_ne hij]⟩

/-- A slot that is cleared loses the one child that was in it. -/
theorem count_set_zero {l : List Nat} {slot c d : Nat} (hat : l[slot]? = some c) (hd : d ≠ 0) :
    (l.set slot 0).count d = l.count d - if c = d then 1 else 0 := by
  obtain ⟨hlen, hget⟩ := List.getElem?_eq_some_iff.mp hat
  rw [List.count_set hlen, hget, if_neg (c := (0 == d) = true) (by simpa using hd.symm)]
  simp

namespace ProcState

variable {s : ProcState} {p slot : Nat}

theorem findDeadChild_some (hs : s.findDeadChild p = some slot) :
    (s.kprocs p).children[slot]? = some (s.childAt p slot) ∧ s.childAt p slot ≠ 0 ∧
      (s.kprocs (s.childAt p slot)).zombie = true := by
  obtain ⟨hlt, hdead, -⟩ := List.findIdx?_eq_some_iff_getElem.mp hs
  have hat : (s.kprocs p).children[slot]? = some (s.childAt p slot) := by
    rw [childAt, List.getD_eq_getElem?_getD, List.getElem?_eq_getElem hlt, Option.getD_some]
  have heq : (s.kprocs p).children[slot] = s.childAt p slot := by
    rw [List.getElem?_eq_getElem hlt] at hat
    exact Option.some.inj hat
  rw [heq] at hdead
  exact ⟨hat, of_decide_eq_true hdead⟩

theorem findDeadChild_none :
    s.findDeadChild p = none ↔
      ∀ c ∈ (s.kprocs p).children, c ≠ 0 → ¬ (s.kprocs c).zombie = true := by
  rw [findDeadChild, List.findIdx?_eq_none_iff]
  refine forall₂_congr ?_
  intro c _
  rw [decide_eq_false_iff_not, not_and]

end ProcState

structure TreeInv (s : ProcState) : Prop where
  addr : ∀ p ∈ s.procs, 0 < p ∧ p < s.nextProc
  nodup : s.procs.Nodup
  pids : ∀ p ∈ s.procs, 0 < (s.kprocs p).pid ∧ (s.kprocs p).pid < s.nextPid
  inj : ∀ p ∈ s.procs, ∀ q ∈ s.procs, (s.kprocs p).pid = (s.kprocs q).pid → p = q
  older : ∀ p ∈ s.procs, (s.kprocs p).parent < (s.kprocs p).pid
  parents : s.ParentsPresent
  slots : ∀ p ∈ s.procs, ∀ q ∈ s.procs, (s.kprocs p).parent = (s.kprocs q).pid →
    p ∈ (s.kprocs q).children
  kids : ∀ q ∈ s.procs, ∀ c ∈ (s.kprocs q).children, c ≠ 0 →
    c < s.nextProc ∧ (s.kprocs c).parent = (s.kprocs q).pid ∧
      ((s.kprocs c).zombie = true → c ∈ s.procs)
  once : ∀ q ∈ s.procs, ∀ c, c ≠ 0 → (s.kprocs q).children.count c ≤ 1
  woken : ∀ q ∈ s.procs, (s.kprocs q).thread = .woken →
    ∃ c ∈ (s.kprocs q).children, c ≠ 0 ∧ (s.kprocs c).zombie = true
  waits : ∀ q ∈ s.procs, ∀ l, (s.kprocs q).waitCond = some l → ∀ r ∈ l,
    r = q ∧ (s.kprocs q).thread = .asleep

theorem initMultitasking_tree : TreeInv initMultitasking := by
  have hmem : ∀ p ∈ initMultitasking.procs, (initMultitasking.kprocs p).waitCond = none := by
    decide
  refine ⟨by decide, by decide, by decide, by decide, by decide, ?_, by decide, by decide,
    ?_, by decide, ?_⟩
  · unfold ProcState.ParentsPresent
    decide
  · intro q hq c hc
    have hcases : q = 1 ∨ q = 2 := by simpa [initMultitasking] using hq
    rcases hcases with rfl | rfl
    · change List.count c [2, 0, 0, 0, 0, 0, 0, 0] ≤ 1
      simp only [List.count_cons, List.count_nil, beq_iff_eq, hc.symm, if_false]
      split <;> omega
    · change List.count c (List.replicate 8 0) ≤ 1
      simp [hc.symm]
  · intro q hq l hl
    rw [hmem q hq] at hl
    cases hl

namespace TreeInv

variable {s : ProcState} {p : Nat} {k : Kproc}

/-- The tree does not depend on the other fields. -/
theorem of_eq {s' : ProcState} (h : TreeInv s) (hkprocs : s'.kprocs = s.kprocs)
    (hprocs : s'.procs = s.procs) (hpid : s'.nextPid = s.nextPid)
    (hproc : s'.nextProc = s.nextProc) : TreeInv s' := by
  cases s
  cases s'
  obtain rfl := hkprocs
  obtain rfl := hprocs
  obtain rfl := hpid
  obtain rfl := hproc
  exact ⟨h.addr, h.nodup, h.pids, h.inj, h.older, h.parents, h.slots, h.kids, h.once, h.woken,
    h.waits⟩

/-- A change of one process that keeps its links. -/
theorem setProc (h : TreeInv s) (hp : p ∈ s.procs) (hpid : k.pid = (s.kprocs p).pid)
    (hparent : k.parent = (s.kprocs p).parent) (hchildren : k.children = (s.kprocs p).children)
    (hzombie : (s.kprocs p).zombie = true → k.zombie = true)
    (hwoken : k.thread = .woken →
      ∃ c ∈ (s.kprocs p).children, c ≠ 0 ∧ (s.kprocs c).zombie = true)
    (hwaits : ∀ l, k.waitCond = some l → ∀ r ∈ l, r = p ∧ k.thread = .asleep) :
    TreeInv (s.setProc p k) := by
  -- the fields that the links are made of are the same in every process
  have hpid' := ProcState.setProc_keeps Kproc.pid hpid
  have hparent' := ProcState.setProc_keeps Kproc.parent hparent
  have hchildren' := ProcState.setProc_keeps Kproc.children hchildren
  have hzombie' : ∀ q, (s.kprocs q).zombie = true → ((s.setProc p k).kprocs q).zombie = true :=
    fun q hz => by
      by_cases hq : q = p
      · rw [hq] at hz ⊢
        rw [ProcState.setProc_self, hzombie hz]
      · rwa [ProcState.setProc_of_ne hq]
  refine ⟨h.addr, h.nodup, ?_, ?_, ?_, ?_, ?_, ?_, ?_, ?_, ?_⟩
  · simpa only [hpid', ProcState.setProc_procs, ProcState.setProc_nextPid] using h.pids
  · simpa only [hpid', ProcState.setProc_procs] using h.inj
  · simpa only [hpid', hparent', ProcState.setProc_procs] using h.older
  · simpa only [ProcState.ParentsPresent, hpid', hparent', ProcState.setProc_procs] using h.parents
  · simpa only [hpid', hparent', hchildren', ProcState.setProc_procs] using h.slots
  · intro q hq c hc hc0
    rw [hchildren'] at hc
    obtain ⟨hlt, hpar, hin⟩ := h.kids q hq c hc hc0
    refine ⟨hlt, by rw [hparent', hpid', hpar], ?_⟩
    intro hz
    by_cases hcp : c = p
    · exact hcp ▸ hp
    · exact hin (by rwa [ProcState.setProc_of_ne hcp] at hz)
  · simpa only [hchildren', ProcState.setProc_procs] using h.once
  · intro q hq hw
    have hex : ∃ c ∈ (s.kprocs q).children, c ≠ 0 ∧ (s.kprocs c).zombie = true := by
      by_cases hqp : q = p
      · rw [hqp] at hw ⊢
        exact hwoken (by rwa [ProcState.setProc_self] at hw)
      · exact h.woken q hq (by rwa [ProcState.setProc_of_ne hqp] at hw)
    obtain ⟨c, hc, hc0, hz⟩ := hex
    exact ⟨c, by rwa [hchildren'], hc0, hzombie' c hz⟩
  · intro q hq l hl r hr
    by_cases hqp : q = p
    · rw [hqp, ProcState.setProc_self] at hl ⊢
      exact hwaits l hl r hr
    · rw [ProcState.setProc_of_ne hqp] at hl ⊢
      exact h.waits q hq l hl r hr

/-- A structure that is not in `procs` yet. -/
theorem setFresh (h : TreeInv s) (k : Kproc) :
    TreeInv { s.setProc s.nextProc k with nextProc := s.nextProc + 1 } := by
  have hold : ∀ q, q < s.nextProc → (s.setProc s.nextProc k).kprocs q = s.kprocs q :=
    fun q hq => ProcState.setProc_of_ne (Nat.ne_of_lt hq)
  have hin : ∀ q ∈ s.procs, (s.setProc s.nextProc k).kprocs q = s.kprocs q :=
    fun q hq => hold q (h.addr q hq).2
  refine ⟨fun q hq => ⟨(h.addr q hq).1, Nat.lt_succ_of_lt (h.addr q hq).2⟩, h.nodup,
    ?_, ?_, ?_, ?_,
    ?_, ?_, ?_, ?_,
    ?_⟩
  · intro q hq
    rw [hin q hq]
    exact h.pids q hq
  · intro q hq r hr he
    rw [hin q hq, hin r hr] at he
    exact h.inj q hq r hr he
  · intro q hq
    rw [hin q hq]
    exact h.older q hq
  · intro q hq hne
    rw [hin q hq] at hne ⊢
    obtain ⟨r, hr, hpid⟩ := h.parents q hq hne
    exact ⟨r, hr, by rw [hin r hr]; exact hpid⟩
  · intro q hq r hr he
    rw [hin q hq, hin r hr] at he
    rw [hin r hr]
    exact h.slots q hq r hr he
  · intro q hq c hc hc0
    rw [hin q hq] at hc ⊢
    obtain ⟨hlt, hrest⟩ := h.kids q hq c hc hc0
    exact ⟨Nat.lt_succ_of_lt hlt, by rw [hold c hlt]; exact hrest⟩
  · intro q hq
    rw [hin q hq]
    exact h.once q hq
  · intro q hq hw
    rw [hin q hq] at hw ⊢
    obtain ⟨c, hc, hc0, hz⟩ := h.woken q hq hw
    exact ⟨c, hc, hc0, by rw [hold c (h.kids q hq c hc hc0).1]; exact hz⟩
  · intro q hq
    rw [hin q hq]
    exact h.waits q hq

theorem morePids (h : TreeInv s) {n : Nat} (hn : s.nextPid ≤ n) :
    TreeInv { s with nextPid := n } :=
  { h with
    addr := h.addr
    pids := fun q hq => ⟨(h.pids q hq).1, Nat.lt_of_lt_of_le (h.pids q hq).2 hn⟩
    parents := h.parents
    kids := h.kids }

/-- `proc_add_child`, of a process that is not dead. -/
theorem adopt (h : TreeInv s) (hp : p ∈ s.procs) (child slot : Nat)
    (hslot : (s.kprocs p).children[slot]? = some 0) (hlt : child < s.nextProc)
    (hparent : (s.kprocs child).parent = (s.kprocs p).pid)
    (halive : (s.kprocs child).zombie = false) (hout : child ∉ (s.kprocs p).children) :
    TreeInv (s.setProc p { s.kprocs p with
      children := (s.kprocs p).children.set slot child }) := by
  set k : Kproc := { s.kprocs p with children := (s.kprocs p).children.set slot child } with hk
  have hpid' := ProcState.setProc_keeps (s := s) (p := p) (k := k) Kproc.pid rfl
  have hparent' := ProcState.setProc_keeps (s := s) (p := p) (k := k) Kproc.parent rfl
  have hzombie' := ProcState.setProc_keeps (s := s) (p := p) (k := k) Kproc.zombie rfl
  have hthread' := ProcState.setProc_keeps (s := s) (p := p) (k := k) Kproc.thread rfl
  have hwait' := ProcState.setProc_keeps (s := s) (p := p) (k := k) Kproc.waitCond rfl
  have hkeep : ∀ q c, c ≠ 0 → c ∈ (s.kprocs q).children →
      c ∈ ((s.setProc p k).kprocs q).children := by
    intro q c hc0 hc
    by_cases hq : q = p
    · rw [hq] at hc ⊢
      rw [ProcState.setProc_self]
      refine mem_set_of_ne hc ?_
      rw [hslot]
      exact fun he => hc0 (Option.some.inj he).symm
    · rwa [ProcState.setProc_of_ne hq]
  refine ⟨h.addr, h.nodup, ?_, ?_, ?_, ?_, ?_, ?_, ?_, ?_, ?_⟩
  · simpa only [hpid', ProcState.setProc_procs, ProcState.setProc_nextPid] using h.pids
  · simpa only [hpid', ProcState.setProc_procs] using h.inj
  · simpa only [hpid', hparent', ProcState.setProc_procs] using h.older
  · simpa only [ProcState.ParentsPresent, hpid', hparent', ProcState.setProc_procs]
      using h.parents
  · intro q hq r hr he
    rw [hparent', hpid'] at he
    exact hkeep r q (Nat.ne_of_gt (h.addr q hq).1) (h.slots q hq r hr he)
  · intro q hq c hc hc0
    rw [hparent', hpid', hzombie']
    by_cases hqp : q = p
    · rw [hqp, ProcState.setProc_self] at hc
      rcases List.mem_or_eq_of_mem_set hc with hc | rfl
      · exact hqp ▸ h.kids p hp c hc hc0
      · refine ⟨hlt, hqp ▸ hparent, ?_⟩
        intro hz
        rw [halive] at hz
        cases hz
    · rw [ProcState.setProc_of_ne hqp] at hc
      exact h.kids q hq c hc hc0
  · intro q hq c hc0
    by_cases hqp : q = p
    · have hlen : slot < (s.kprocs p).children.length := (List.getElem?_eq_some_iff.mp hslot).1
      have hone := h.once p hp c hc0
      rw [hqp, ProcState.setProc_self]
      change ((s.kprocs p).children.set slot child).count c ≤ 1
      rw [List.count_set hlen]
      by_cases hcc : child = c
      · have hzero : (s.kprocs p).children.count child = 0 := List.count_eq_zero.mpr hout
        rw [← hcc, hzero]
        simp
      · rw [if_neg (c := (child == c) = true) (by simpa using hcc)]
        omega
    · rw [ProcState.setProc_of_ne hqp]
      exact h.once q hq c hc0
  · intro q hq hw
    rw [hthread'] at hw
    obtain ⟨c, hc, hc0, hz⟩ := h.woken q hq hw
    exact ⟨c, hkeep q c hc0 hc, hc0, by rwa [hzombie']⟩
  · intro q hq l hl
    rw [hwait'] at hl
    rw [hthread']
    exact h.waits q hq l hl

/-- The two stores of `fork_clone_process`: the slot of the parent, and the
new structure. -/
theorem birth (h : TreeInv s) (hp : p ∈ s.procs) {slot : Nat} {c : Kproc}
    (hslot : (s.kprocs p).children[slot]? = some 0) (hparent : c.parent = (s.kprocs p).pid)
    (halive : c.zombie = false) :
    TreeInv { (s.setProc p { s.kprocs p with
      children := (s.kprocs p).children.set slot s.nextProc }).setProc s.nextProc c with
      nextProc := s.nextProc + 1 } := by
  have hnew : s.nextProc ∉ s.procs := fun hin => Nat.lt_irrefl _ (h.addr _ hin).2
  have hne : p ≠ s.nextProc := fun he => hnew (he ▸ hp)
  have hpos : s.nextProc ≠ 0 := Nat.ne_of_gt (Nat.zero_lt_of_lt (h.addr p hp).2)
  have hout : s.nextProc ∉ (s.kprocs p).children := fun hin =>
    Nat.lt_irrefl _ (h.kids p hp _ hin hpos).1
  have hfresh := h.setFresh c
  generalize hs₁ : ({ s.setProc s.nextProc c with nextProc := s.nextProc + 1 } : ProcState) = s₁
    at hfresh
  have hat : s₁.kprocs p = s.kprocs p := by
    rw [← hs₁]
    exact ProcState.setProc_of_ne hne
  have hchild : s₁.kprocs s.nextProc = c := by
    rw [← hs₁]
    exact ProcState.setProc_self
  have hprocs : s₁.procs = s.procs := by rw [← hs₁]; rfl
  have hnext : s₁.nextProc = s.nextProc + 1 := by rw [← hs₁]
  have hadopt := hfresh.adopt (p := p) (hprocs ▸ hp) s.nextProc slot (hat ▸ hslot)
    (hnext ▸ Nat.lt_succ_self _) (by rw [hchild, hat, hparent]) (hchild ▸ halive) (hat ▸ hout)
  rw [hat, ← hs₁] at hadopt
  have hcomm := Function.update_comm hne { s.kprocs p with
      children := (s.kprocs p).children.set slot s.nextProc } c s.kprocs
  simp only [ProcState.setProc] at hadopt ⊢
  rwa [hcomm]

/-- `mtask_insert_proc` of a new child. -/
theorem join (h : TreeInv s) (hp : p ∈ s.procs) (child : Nat) (hnew : child ∉ s.procs)
    (hlt : child < s.nextProc) (hpid : (s.kprocs child).pid = s.nextPid)
    (hparent : (s.kprocs child).parent = (s.kprocs p).pid) (hc0 : child ≠ 0)
    (hin : child ∈ (s.kprocs p).children) (hnone : ∀ c ∈ (s.kprocs child).children, c = 0)
    (hthread : (s.kprocs child).thread = .user) (hwait : (s.kprocs child).waitCond = none) :
    TreeInv { s with procs := s.procs ++ [child], nextPid := s.nextPid + 1 } := by
  have hmem : ∀ {q}, q ∈ s.procs ++ [child] → q ∈ s.procs ∨ q = child := by
    intro q hq
    simpa using hq
  have hbelow : ∀ q ∈ s.procs, (s.kprocs q).parent < s.nextPid := fun q hq =>
    Nat.lt_trans (h.older q hq) (h.pids q hq).2
  refine ⟨?_, ?_, ?_, ?_, ?_,
    ?_, ?_, ?_, ?_,
    ?_, ?_⟩
  · intro q hq
    rcases hmem hq with hq | rfl
    · exact h.addr q hq
    · exact ⟨Nat.pos_of_ne_zero hc0, hlt⟩
  · refine List.nodup_append.mpr ⟨h.nodup, by simp, ?_⟩
    intro q hq r hr
    rw [List.mem_singleton.mp hr]
    exact fun he => hnew (he ▸ hq)
  · intro q hq
    rcases hmem hq with hq | rfl
    · exact ⟨(h.pids q hq).1, Nat.lt_succ_of_lt (h.pids q hq).2⟩
    · change 0 < (s.kprocs q).pid ∧ (s.kprocs q).pid < s.nextPid + 1
      have := h.pids p hp
      omega
  · intro q hq r hr he
    change (s.kprocs q).pid = (s.kprocs r).pid at he
    rcases hmem hq with hq' | hqc <;> rcases hmem hr with hr' | hrc
    · exact h.inj q hq' r hr' he
    · rw [hrc, hpid] at he
      have := h.pids q hq'
      omega
    · rw [hqc, hpid] at he
      have := h.pids r hr'
      omega
    · rw [hqc, hrc]
  · intro q hq
    change (s.kprocs q).parent < (s.kprocs q).pid
    rcases hmem hq with hq | rfl
    · exact h.older q hq
    · rw [hparent, hpid]
      exact (h.pids p hp).2
  · intro q hq hne
    rcases hmem hq with hq | rfl
    · obtain ⟨r, hr, hpid⟩ := h.parents q hq hne
      exact ⟨r, List.mem_append_left _ hr, hpid⟩
    · exact ⟨p, List.mem_append_left _ hp, hparent.symm⟩
  · intro q hq r hr he
    change (s.kprocs q).parent = (s.kprocs r).pid at he
    change q ∈ (s.kprocs r).children
    rcases hmem hr with hr' | hrc
    · rcases hmem hq with hq' | hqc
      · exact h.slots q hq' r hr' he
      · rw [hqc] at he ⊢
        rw [hparent] at he
        exact h.inj p hp r hr' he ▸ hin
    · -- nobody has a child before it has its pid
      rw [hrc, hpid] at he
      rcases hmem hq with hq' | hqc
      · have := hbelow q hq'
        omega
      · rw [hqc, hparent] at he
        have := h.pids p hp
        omega
  · intro q hq c hc hcne
    change c ∈ (s.kprocs q).children at hc
    rcases hmem hq with hq | rfl
    · obtain ⟨hlt', hpar, hz⟩ := h.kids q hq c hc hcne
      exact ⟨hlt', hpar, fun hz' => List.mem_append_left _ (hz hz')⟩
    · exact absurd (hnone c hc) hcne
  · intro q hq c hcne
    change (s.kprocs q).children.count c ≤ 1
    rcases hmem hq with hq | rfl
    · exact h.once q hq c hcne
    · rw [List.count_eq_zero.mpr fun hc => hcne (hnone c hc)]
      exact Nat.zero_le 1
  · intro q hq hw
    change (s.kprocs q).thread = .woken at hw
    rcases hmem hq with hq | rfl
    · exact h.woken q hq hw
    · rw [hthread] at hw
      cases hw
  · intro q hq l hl
    change (s.kprocs q).waitCond = some l at hl
    rcases hmem hq with hq | rfl
    · exact h.waits q hq l hl
    · rw [hwait] at hl
      cases hl

/-- The child that `wait` finds dead is in `procs`. -/
theorem deadChild (h : TreeInv s) (hp : p ∈ s.procs) {slot : Nat}
    (hs : s.findDeadChild p = some slot) :
    s.childAt p slot ∈ s.procs ∧ (s.kprocs (s.childAt p slot)).parent = (s.kprocs p).pid := by
  obtain ⟨hat, hc0, hz⟩ := ProcState.findDeadChild_some hs
  obtain ⟨-, hpar, hin⟩ := h.kids p hp _ (List.mem_of_getElem? hat) hc0
  exact ⟨hin hz, hpar⟩

/-- A child is in the slots of one process. -/
theorem one_parent (h : TreeInv s) {q r c : Nat} (hq : q ∈ s.procs) (hr : r ∈ s.procs)
    (hcq : c ∈ (s.kprocs q).children) (hcr : c ∈ (s.kprocs r).children) (hc0 : c ≠ 0) : q = r :=
  h.inj q hq r hr ((h.kids q hq c hcq hc0).2.1.symm.trans (h.kids r hr c hcr hc0).2.1)

/-- `wait` reaps a child that has no children left. -/
theorem reap (h : TreeInv s) (hp : p ∈ s.procs) (hup : (s.kprocs p).thread ≠ .asleep)
    {slot : Nat} (hs : s.findDeadChild p = some slot)
    (hno : ∀ g ∈ s.procs, (s.kprocs g).parent ≠ (s.kprocs (s.childAt p slot)).pid) :
    TreeInv (s.reap p slot).1 := by
  obtain ⟨hat, hc0, hz⟩ := ProcState.findDeadChild_some hs
  simp only [ProcState.reap]
  generalize s.childAt p slot = c at hat hc0 hno ⊢
  set k : Kproc :=
    { s.kprocs p with children := (s.kprocs p).children.set slot 0, thread := .user } with hk
  have hpid' := ProcState.setProc_keeps (s := s) (p := p) (k := k) Kproc.pid rfl
  have hparent' := ProcState.setProc_keeps (s := s) (p := p) (k := k) Kproc.parent rfl
  have hzombie' := ProcState.setProc_keeps (s := s) (p := p) (k := k) Kproc.zombie rfl
  have hwait' := ProcState.setProc_keeps (s := s) (p := p) (k := k) Kproc.waitCond rfl
  have hmem : ∀ {q}, q ∈ s.procs.erase c ↔ q ≠ c ∧ q ∈ s.procs := h.nodup.mem_erase_iff
  have hgone : c ∉ (s.kprocs p).children.set slot 0 := by
    rw [← List.count_eq_zero, count_set_zero hat hc0, if_pos rfl]
    have := h.once p hp c hc0
    omega
  refine ⟨fun q hq => h.addr q (hmem.mp hq).2, h.nodup.erase c, ?_,
    ?_, ?_, ?_, ?_,
    ?_, ?_, ?_, ?_⟩
  · intro q hq
    change 0 < ((s.setProc p k).kprocs q).pid ∧ ((s.setProc p k).kprocs q).pid < s.nextPid
    rw [hpid']
    exact h.pids q (hmem.mp hq).2
  · intro q hq r hr he
    change ((s.setProc p k).kprocs q).pid = ((s.setProc p k).kprocs r).pid at he
    rw [hpid', hpid'] at he
    exact h.inj q (hmem.mp hq).2 r (hmem.mp hr).2 he
  · intro q hq
    change ((s.setProc p k).kprocs q).parent < ((s.setProc p k).kprocs q).pid
    rw [hpid', hparent']
    exact h.older q (hmem.mp hq).2
  · intro q hq hne
    change ((s.setProc p k).kprocs q).parent ≠ 0 at hne
    change ∃ r ∈ s.procs.erase c, ((s.setProc p k).kprocs r).pid = ((s.setProc p k).kprocs q).parent
    rw [hparent'] at hne ⊢
    obtain ⟨r, hr, hpid⟩ := h.parents q (hmem.mp hq).2 hne
    refine ⟨r, hmem.mpr ⟨?_, hr⟩, by rw [hpid', hpid]⟩
    intro hrc
    exact hno q (hmem.mp hq).2 (by rw [← hrc, hpid])
  · intro q hq r hr he
    change ((s.setProc p k).kprocs q).parent = ((s.setProc p k).kprocs r).pid at he
    change q ∈ ((s.setProc p k).kprocs r).children
    rw [hparent', hpid'] at he
    have hslot := h.slots q (hmem.mp hq).2 r (hmem.mp hr).2 he
    by_cases hrp : r = p
    · rw [hrp] at hslot ⊢
      rw [ProcState.setProc_self]
      refine mem_set_of_ne hslot ?_
      rw [hat]
      exact fun hcq => (hmem.mp hq).1 (Option.some.inj hcq).symm
    · rwa [ProcState.setProc_of_ne hrp]
  · intro q hq d hd hd0
    change d ∈ ((s.setProc p k).kprocs q).children at hd
    change d < s.nextProc ∧ ((s.setProc p k).kprocs d).parent = ((s.setProc p k).kprocs q).pid ∧
      (((s.setProc p k).kprocs d).zombie = true → d ∈ s.procs.erase c)
    rw [hparent', hpid', hzombie']
    -- the reaped child was in one slot of one process
    have hold : d ≠ c ∧ d ∈ (s.kprocs q).children := by
      by_cases hqp : q = p
      · rw [hqp, ProcState.setProc_self] at hd
        refine ⟨fun hdc => hgone (hdc ▸ hd), ?_⟩
        rw [hqp]
        exact (List.mem_or_eq_of_mem_set hd).resolve_right hd0
      · rw [ProcState.setProc_of_ne hqp] at hd
        exact ⟨fun hdc => hqp (h.one_parent (hmem.mp hq).2 hp (hdc ▸ hd)
          (List.mem_of_getElem? hat) hc0), hd⟩
    obtain ⟨hlt, hpar, hin⟩ := h.kids q (hmem.mp hq).2 d hold.2 hd0
    exact ⟨hlt, hpar, fun hz' => hmem.mpr ⟨hold.1, hin hz'⟩⟩
  · intro q hq d hd0
    change ((s.setProc p k).kprocs q).children.count d ≤ 1
    have hone := h.once q (hmem.mp hq).2 d hd0
    by_cases hqp : q = p
    · rw [hqp] at hone ⊢
      rw [ProcState.setProc_self]
      change ((s.kprocs p).children.set slot 0).count d ≤ 1
      rw [count_set_zero hat hd0]
      omega
    · rwa [ProcState.setProc_of_ne hqp]
  · intro q hq hw
    change ((s.setProc p k).kprocs q).thread = .woken at hw
    change ∃ d ∈ ((s.setProc p k).kprocs q).children, d ≠ 0 ∧
      ((s.setProc p k).kprocs d).zombie = true
    by_cases hqp : q = p
    · rw [hqp, ProcState.setProc_self] at hw
      cases hw
    · rw [ProcState.setProc_of_ne hqp] at hw ⊢
      obtain ⟨d, hd, hd0, hdz⟩ := h.woken q (hmem.mp hq).2 hw
      exact ⟨d, hd, hd0, by rwa [hzombie']⟩
  · intro q hq l hl
    change ((s.setProc p k).kprocs q).waitCond = some l at hl
    rw [hwait'] at hl
    intro r hr
    obtain ⟨hrq, hasleep⟩ := h.waits q (hmem.mp hq).2 l hl r hr
    have hqp : q ≠ p := by
      rintro rfl
      exact hup hasleep
    refine ⟨hrq, ?_⟩
    change ((s.setProc p k).kprocs q).thread = .asleep
    rwa [ProcState.setProc_of_ne hqp]

end TreeInv

/-! ## The calls -/

/-- Nobody left `procs`, and who is new has the next pid. -/
structure Grows (s s' : ProcState) : Prop where
  kept : ∀ c ∈ s.procs, c ∈ s'.procs
  fresh : ∀ c ∈ s'.procs, c ∉ s.procs → (s'.kprocs c).pid = s.nextPid ∧ s.nextPid < s'.nextPid

theorem Grows.of_procs_eq {s s' : ProcState} (heq : s'.procs = s.procs) : Grows s s' :=
  ⟨fun _ hc => heq ▸ hc, fun _ hc hnot => absurd (heq ▸ hc) hnot⟩

/-- A call that reaps nobody: the links are kept, or it stops for a reason that
is not about them. -/
def KeepsTree (s : ProcState) : Except ProcStop (ProcState × Option Int) → Prop
  | .ok (s', _) => TreeInv s' ∧ Grows s s'
  | .error e => e ≠ .nullParent ∧ e ≠ .childMissing

namespace TreeInv

variable {s : ProcState} {p : Nat}

theorem keeps_self (h : TreeInv s) (r : Option Int) : KeepsTree s (.ok (s, r)) :=
  ⟨h, .of_procs_eq rfl⟩

theorem fork (h : TreeInv s) (hp : p ∈ s.procs) (copied : Bool) :
    KeepsTree s (s.fork p copied) := by
  unfold ProcState.fork
  split
  · exact ⟨nofun, nofun⟩
  simp only
  split
  · exact ⟨h.setFresh _, .of_procs_eq rfl⟩
  rename_i slot hslot
  obtain ⟨hlt, hzero, -⟩ := List.findIdx?_eq_some_iff_getElem.mp hslot
  have hfree : (s.kprocs p).children[slot]? = some 0 := by
    rw [List.getElem?_eq_getElem hlt]
    simpa using hzero
  have hnew : s.nextProc ∉ s.procs := fun hin => Nat.lt_irrefl _ (h.addr _ hin).2
  have hne : p ≠ s.nextProc := fun he => hnew (he ▸ hp)
  have hpos : s.nextProc ≠ 0 := Nat.ne_of_gt (Nat.zero_lt_of_lt (h.addr p hp).2)
  generalize hc : ({ blankProc with
    pid := s.nextPid
    parent := (s.kprocs p).pid
    runnable := copied
    cwd := (s.kprocs p).cwd
    openFiles := (s.kprocs p).openFiles
    filePosition := (s.kprocs p).filePosition } : Kproc) = c
  have hbirth := h.birth hp (c := c) hfree (by rw [← hc]) (by rw [← hc]; rfl)
  cases copied with
  | false =>
    exact ⟨(hbirth.morePids (Nat.le_succ s.nextPid)).of_eq rfl rfl rfl rfl, .of_procs_eq rfl⟩
  | true =>
    generalize hs₁ : ({ (s.setProc p { s.kprocs p with
      children := (s.kprocs p).children.set slot s.nextProc }).setProc s.nextProc c with
      nextProc := s.nextProc + 1 } : ProcState) = s₁ at hbirth
    have hchild : s₁.kprocs s.nextProc = c := by
      rw [← hs₁]
      exact ProcState.setProc_self
    have hat : s₁.kprocs p = { s.kprocs p with
        children := (s.kprocs p).children.set slot s.nextProc } := by
      rw [← hs₁]
      exact (ProcState.setProc_of_ne hne).trans ProcState.setProc_self
    have hprocs : s₁.procs = s.procs := by rw [← hs₁]; rfl
    have hnext : s₁.nextProc = s.nextProc + 1 := by rw [← hs₁]
    have hnextPid : s₁.nextPid = s.nextPid := by rw [← hs₁]; rfl
    have hjoin := hbirth.join (p := p) (hprocs ▸ hp) s.nextProc (hprocs ▸ hnew)
      (hnext ▸ Nat.lt_succ_self _) (by rw [hchild, hnextPid, ← hc]) (by rw [hchild, hat, ← hc])
      hpos (by rw [hat]; exact List.mem_set hlt _)
      (by rw [hchild, ← hc]; exact fun d hd => List.eq_of_mem_replicate hd)
      (by rw [hchild, ← hc]; rfl) (by rw [hchild, ← hc]; rfl)
    refine ⟨hjoin.of_eq (by rw [← hs₁]) (by rw [hprocs]; rfl) (by rw [hnextPid])
      (by rw [hnext]), fun d hd => List.mem_append_left _ hd, ?_⟩
    intro d hd hnot
    obtain rfl : d = s.nextProc := by
      rcases List.mem_append.mp hd with hd | hd
      · exact absurd hd hnot
      · exact List.mem_singleton.mp hd
    refine ⟨?_, Nat.lt_succ_self _⟩
    change ((ProcState.setProc _ s.nextProc c).kprocs s.nextProc).pid = s.nextPid
    rw [ProcState.setProc_self, ← hc]

theorem execve (h : TreeInv s) (hp : p ∈ s.procs) (failure : Option Int) :
    KeepsTree s (.ok (s.execve p failure)) := by
  cases failure with
  | some err => exact h.keeps_self _
  | none => exact ⟨h.setProc hp rfl rfl rfl id nofun nofun, .of_procs_eq rfl⟩

/-- A process that makes a call waits on nothing. -/
theorem notWaiting (h : TreeInv s) (hp : p ∈ s.procs) (hup : (s.kprocs p).thread = .user)
    {l : List Nat} (hl : (s.kprocs p).waitCond = some l) : l = [] := by
  refine List.eq_nil_iff_forall_not_mem.mpr ?_
  intro r hr
  have hasleep := (h.waits p hp l hl r hr).2
  rw [hup] at hasleep
  cases hasleep

theorem procByPid (h : TreeInv s) (hp : p ∈ s.procs) (hne : (s.kprocs p).parent ≠ 0) :
    ∃ q ∈ s.procs, s.procByPid (s.kprocs p).parent = some q ∧
      (s.kprocs p).parent = (s.kprocs q).pid := by
  obtain ⟨q, hq, hpid⟩ := h.parents p hp hne
  cases hfind : s.procByPid (s.kprocs p).parent with
  | none =>
    have hno := List.find?_eq_none.mp hfind q hq
    exact absurd (decide_eq_true hpid) hno
  | some r =>
    have hr := List.find?_some hfind
    exact ⟨r, List.mem_of_find?_eq_some hfind, rfl, (of_decide_eq_true hr).symm⟩

end TreeInv

/-- All who wait on the condition are the one process. -/
theorem ProcState.condSignal_eq {s : ProcState} {q : Nat} {waiting : List Nat}
    (hall : ∀ r ∈ waiting, r = q) (hne : waiting ≠ []) :
    s.condSignal waiting = s.setProc q { s.kprocs q with thread := .woken } := by
  induction waiting with
  | nil => exact absurd rfl hne
  | cons r rest ih =>
    obtain ⟨rfl, hrest⟩ := List.forall_mem_cons.mp hall
    have hcons : s.condSignal (r :: rest) = (s.condSignal rest).setProc r
        { (s.condSignal rest).kprocs r with thread := .woken } := rfl
    cases rest with
    | nil => exact hcons
    | cons r' rest =>
      rw [hcons, ih hrest (List.cons_ne_nil _ _), ProcState.setProc_self]
      simp only [ProcState.setProc, Function.update_idem]

namespace TreeInv

variable {s : ProcState} {p : Nat}

/-- `exit` of the process, up to the look-up of its parent. -/
theorem die (h : TreeInv s) (hp : p ∈ s.procs) (hup : (s.kprocs p).thread = .user)
    (code : Int) :
    TreeInv (s.setProc p
      { s.kprocs p with runnable := false, zombie := true, exitcode := code }) := by
  refine h.setProc hp rfl rfl rfl (fun _ => rfl) ?_ ?_
  · intro hw
    change (s.kprocs p).thread = .woken at hw
    rw [hup] at hw
    cases hw
  · intro l hl r hr
    rw [h.notWaiting hp hup hl] at hr
    cases hr

/-- The parent is woken, and finds the dead child. -/
theorem signal {q : Nat} (h : TreeInv s) (hp : p ∈ s.procs) (hz : (s.kprocs p).zombie = true)
    (hq : q ∈ s.procs) (hpar : (s.kprocs p).parent = (s.kprocs q).pid) {waiting : List Nat}
    (hw : (s.kprocs q).waitCond = some waiting) {cond : Option (List Nat)}
    (hcond : ∀ l, cond = some l → l = []) :
    TreeInv ((s.condSignal waiting).setProc q
      { (s.condSignal waiting).kprocs q with waitCond := cond }) := by
  have hwaits : ∀ l, cond = some l → ∀ r ∈ l, r = q ∧ (s.kprocs q).thread = .asleep := by
    intro l hl r hr
    rw [hcond l hl] at hr
    cases hr
  by_cases hnil : waiting = []
  · rw [hnil]
    exact h.setProc hq rfl rfl rfl id (h.woken q hq) hwaits
  · rw [ProcState.condSignal_eq (fun r hr => (h.waits q hq waiting hw r hr).1) hnil,
      ProcState.setProc_self]
    simp only [ProcState.setProc, Function.update_idem]
    refine h.setProc hq rfl rfl rfl id (fun _ => ?_) ?_
    · exact ⟨p, h.slots p hp q hq hpar, Nat.ne_of_gt (h.addr p hp).1, hz⟩
    · intro l hl r hr
      rw [hcond l hl] at hr
      cases hr

theorem exit (h : TreeInv s) (hp : p ∈ s.procs) (hup : (s.kprocs p).thread = .user)
    (code : Int) (upTo : ExitPoint) : KeepsTree s (s.exit p code upTo) := by
  have hdie := h.die hp hup code
  unfold ProcState.exit
  simp only
  split
  · refine ⟨h.setProc hp rfl rfl rfl id (h.woken p hp) (h.waits p hp), .of_procs_eq rfl⟩
  split
  · exact ⟨hdie, .of_procs_eq rfl⟩
  rename_i hstop
  generalize hs₁ : s.setProc p
    { s.kprocs p with runnable := false, zombie := true, exitcode := code } = s₁ at hdie
  have hself : s₁.kprocs p =
      { s.kprocs p with runnable := false, zombie := true, exitcode := code } := by
    rw [← hs₁]
    exact ProcState.setProc_self
  have hprocs : s₁.procs = s.procs := by rw [← hs₁]; rfl
  have hp₁ : p ∈ s₁.procs := hprocs ▸ hp
  have hparent : (s₁.kprocs p).parent = (s.kprocs p).parent := by rw [hself]
  obtain ⟨q, hq, hfind, hpid⟩ := hdie.procByPid hp₁ (by
    rw [hparent]
    exact fun he => hstop (Or.inr he))
  rw [hparent] at hfind
  rw [hfind]
  simp only
  split
  · exact ⟨hdie, .of_procs_eq hprocs⟩
  · rename_i waiting hwaiting
    refine ⟨hdie.signal hp₁ (by rw [hself]) hq hpid hwaiting ?_, .of_procs_eq ?_⟩
    · intro l hl
      split at hl
      · exact (Option.some.inj hl).symm
      · cases hl
    · exact ProcState.condSignal_procs.trans hprocs

/-- `wait` of a process that has no dead child. -/
theorem wait (h : TreeInv s) (hcan : s.CanCall p) {condFound itemFound : Bool}
    (hno : s.findDeadChild p = none) (hfed : ¬ s.Starved (.wait p condFound itemFound)) :
    KeepsTree s (s.wait p condFound itemFound) := by
  have ⟨hp, _, hup⟩ := hcan
  unfold ProcState.wait
  rw [hno]
  simp only
  split
  · exact h.keeps_self _
  rename_i hkids
  split
  · exact ⟨nofun, nofun⟩
  rename_i hcond
  split
  · rename_i hitem
    refine absurd ⟨hcan, ?_, hno, ?_, hitem⟩ hfed
    · simpa using hkids
    · rw [not_and_or, Option.isNone_iff_eq_none, Bool.not_eq_false] at hcond
      exact hcond
  · refine ⟨h.setProc hp rfl rfl rfl id nofun fun l hl r hr => ?_, .of_procs_eq rfl⟩
    obtain rfl := Option.some.inj hl
    cases hw : (s.kprocs p).waitCond with
    | none =>
      rw [hw] at hr
      exact ⟨List.mem_singleton.mp hr, rfl⟩
    | some l =>
      rw [hw, h.notWaiting hp hup hw] at hr
      exact ⟨List.mem_singleton.mp hr, rfl⟩

theorem procFsOpen (h : TreeInv s) (hp : p ∈ s.procs) (o : OpenOutcome) :
    KeepsTree s (s.procFsOpen p o) := by
  unfold ProcState.procFsOpen
  split
  · exact h.keeps_self _
  cases o with
  | notFound => exact h.keeps_self _
  | notDir => exact h.keeps_self _
  | noMemory => exact ⟨nofun, nofun⟩
  | failed => exact ⟨h.of_eq rfl rfl rfl rfl, .of_procs_eq rfl⟩
  | opened =>
    have hadd : TreeInv (s.setProc p (ProcState.addFile (s.kprocs p) s.nextHand).1) := by
      unfold ProcState.addFile
      split <;> exact h.setProc hp rfl rfl rfl id (h.woken p hp) (h.waits p hp)
    simp only
    split
    · exact ⟨hadd.of_eq rfl rfl rfl rfl, .of_procs_eq rfl⟩
    · exact ⟨hadd.of_eq rfl rfl rfl rfl, .of_procs_eq rfl⟩

theorem procFsClose (h : TreeInv s) (hp : p ∈ s.procs) (desc : Int) :
    KeepsTree s (s.procFsClose p desc) := by
  unfold ProcState.procFsClose
  simp only
  split
  · exact h.keeps_self _
  split
  · exact ⟨nofun, nofun⟩
  split
  · split
    · exact h.keeps_self _
    · exact ⟨nofun, nofun⟩
  split
  · exact h.keeps_self _
  split
  · exact ⟨nofun, nofun⟩
  · have hclose := h.setProc (k := { s.kprocs p with
      openFiles := (s.kprocs p).openFiles.set desc.toNat 0 }) hp rfl rfl rfl id
      (h.woken p hp) (h.waits p hp)
    exact ⟨hclose.of_eq rfl rfl rfl rfl, .of_procs_eq rfl⟩

/-- A thread that was woken finds a dead child. -/
theorem findDeadChild_of_woken (h : TreeInv s) (hp : p ∈ s.procs)
    (hw : (s.kprocs p).thread = .woken) : s.findDeadChild p ≠ none := by
  intro hno
  obtain ⟨c, hc, hc0, hz⟩ := h.woken p hp hw
  exact ProcState.findDeadChild_none.mp hno c hc hc0 hz

/-- Every call that reaps nobody and finds its memory. -/
theorem call (h : TreeInv s) {a : ProcAct} (hreap : s.reaping a = none)
    (hfed : ¬ s.Starved a) : KeepsTree s (procCall s a) := by
  have hstop : KeepsTree s (.error .notRunning) := ⟨nofun, nofun⟩
  cases a with
  | fork p copied =>
    rw [procCall]
    split
    · rename_i hcan
      exact h.fork hcan.1 copied
    · exact hstop
  | execve p failure =>
    rw [procCall]
    split
    · rename_i hcan
      exact h.execve hcan.1 failure
    · exact hstop
  | exit p code upTo =>
    rw [procCall]
    split
    · rename_i hcan
      exact h.exit hcan.1 hcan.2.2 code upTo
    · exact hstop
  | wait p condFound itemFound =>
    rw [procCall]
    split
    · rename_i hcan
      rw [ProcState.reaping, if_pos hcan, Option.map_eq_none_iff] at hreap
      exact h.wait hcan hreap hfed
    · exact hstop
  | wake p =>
    rw [procCall]
    split
    · rename_i hwoken
      rw [ProcState.reaping, if_pos hwoken, Option.map_eq_none_iff] at hreap
      exact absurd hreap (h.findDeadChild_of_woken hwoken.1 hwoken.2)
    · exact hstop
  | openFile p o =>
    rw [procCall]
    split
    · rename_i hcan
      exact h.procFsOpen hcan.1 o
    · exact hstop
  | closeFile p desc =>
    rw [procCall]
    split
    · rename_i hcan
      exact h.procFsClose hcan.1 desc
    · exact hstop

end TreeInv

/-! ## Reaping -/

section Reaping

variable {s : ProcState} {a : ProcAct} {p slot : Nat}

theorem ProcState.reaping_some (hreap : s.reaping a = some (p, slot)) :
    p ∈ s.procs ∧ (s.kprocs p).thread ≠ .asleep ∧ s.findDeadChild p = some slot ∧
      procCall s a = .ok (s.reap p slot) := by
  cases a with
  | wait q condFound itemFound =>
    rw [reaping] at hreap
    split at hreap
    · rename_i hcan
      obtain ⟨slot', hdead, heq⟩ := Option.map_eq_some_iff.mp hreap
      obtain ⟨rfl, rfl⟩ := Prod.mk.inj heq
      obtain ⟨hat, hc0, -⟩ := findDeadChild_some hdead
      have hkids : ¬ (s.kprocs q).children.all (· = 0) = true := by
        rw [List.all_eq_true]
        exact fun hall => hc0 (of_decide_eq_true (hall _ (List.mem_of_getElem? hat)))
      refine ⟨hcan.1, by rw [hcan.2.2]; nofun, hdead, ?_⟩
      rw [procCall, if_pos hcan, ProcState.wait, if_neg hkids, hdead]
    · cases hreap
  | wake q =>
    rw [reaping] at hreap
    split at hreap
    · rename_i hwoken
      obtain ⟨slot', hdead, heq⟩ := Option.map_eq_some_iff.mp hreap
      obtain ⟨rfl, rfl⟩ := Prod.mk.inj heq
      refine ⟨hwoken.1, by rw [hwoken.2]; nofun, hdead, ?_⟩
      rw [procCall, if_pos hwoken, ProcState.wake, hdead]
    · cases hreap
  | _ => cases hreap

theorem ProcState.reap_pid (q : Nat) :
    ((s.reap p slot).1.kprocs q).pid = (s.kprocs q).pid := by
  refine setProc_keeps (s := s) (p := p) Kproc.pid ?_ q
  rfl

theorem ProcState.reap_parent (q : Nat) :
    ((s.reap p slot).1.kprocs q).parent = (s.kprocs q).parent := by
  refine setProc_keeps (s := s) (p := p) Kproc.parent ?_ q
  rfl

theorem ProcState.not_orphans (hreap : s.reaping a = none) : ¬ s.Orphans a := by
  rintro ⟨p, slot, hsome, -⟩
  rw [hreap] at hsome
  cases hsome

/-- `cond_wait` returned at once: there is still no dead child. -/
theorem ProcState.Starved.childMissing (h : s.Starved a) :
    procCall s a = .error .childMissing := by
  cases a with
  | wait q condFound itemFound =>
    obtain ⟨hcan, hkids, hno, hcond, hitem⟩ := h
    have hkids' : ¬ (s.kprocs q).children.all (· = 0) = true := by simpa using hkids
    have hcond' : ¬ ((s.kprocs q).waitCond.isNone = true ∧ condFound = false) := by
      rw [not_and_or, Option.isNone_iff_eq_none, Bool.not_eq_false]
      exact hcond
    rw [procCall, if_pos hcan, ProcState.wait, if_neg hkids', hno]
    simp only
    rw [if_neg hcond', if_pos hitem]
  | _ => exact h.elim

namespace TreeInv

/-- The grandchildren lose their parent. -/
theorem orphans (h : TreeInv s) (horph : s.Orphans a) :
    ∃ s' r, procCall s a = .ok (s', r) ∧ ¬ s'.ParentsPresent := by
  obtain ⟨p, slot, hreap, g, hg, hpar⟩ := horph
  obtain ⟨hp, -, hdead, hcall⟩ := ProcState.reaping_some hreap
  obtain ⟨hc, hcpar⟩ := h.deadChild hp hdead
  refine ⟨(s.reap p slot).1, (s.reap p slot).2, hcall, ?_⟩
  intro hpresent
  have hc0 := (h.pids _ hc).1
  have hgc : g ≠ s.childAt p slot := by
    rintro rfl
    have := h.older _ hg
    omega
  have hmem : ∀ {q}, q ∈ (s.reap p slot).1.procs ↔ q ≠ s.childAt p slot ∧ q ∈ s.procs :=
    h.nodup.mem_erase_iff
  obtain ⟨q, hq, hpid⟩ := hpresent g (hmem.mpr ⟨hgc, hg⟩) (by
    rw [ProcState.reap_parent, hpar]
    omega)
  rw [ProcState.reap_pid, ProcState.reap_parent, hpar] at hpid
  exact (hmem.mp hq).1 (h.inj q (hmem.mp hq).2 _ hc hpid)

/-- What a reaping call keeps of the links. -/
theorem reaped (h : TreeInv s) (hreap : s.reaping a = some (p, slot))
    (hno : ¬ s.Orphans a) : TreeInv (s.reap p slot).1 ∧ s.LinksKept a := by
  obtain ⟨hp, hup, hdead, hcall⟩ := ProcState.reaping_some hreap
  obtain ⟨-, -, hz⟩ := ProcState.findDeadChild_some hdead
  obtain ⟨hc, hcpar⟩ := h.deadChild hp hdead
  have htree := h.reap hp hup hdead fun g hg he => hno ⟨p, slot, hreap, g, hg, he⟩
  have hmem : ∀ {q}, q ∈ (s.reap p slot).1.procs ↔ q ≠ s.childAt p slot ∧ q ∈ s.procs :=
    h.nodup.mem_erase_iff
  have hres : ∀ {s' r}, procCall s a = .ok (s', r) → s' = (s.reap p slot).1 := by
    intro s' r hs'
    rw [hcall] at hs'
    exact (congrArg Prod.fst (Except.ok.inj hs')).symm
  refine ⟨htree, ?_, ?_, ?_, ?_, ?_, ?_⟩
  · intro s' r hs'
    rw [hres hs']
    exact htree.parents
  · rw [hcall]
    nofun
  · rw [hcall]
    nofun
  · intro p' slot' hreap'
    rw [hreap] at hreap'
    obtain ⟨rfl, rfl⟩ := Prod.mk.inj (Option.some.inj hreap')
    refine ⟨hc, hz, hcpar, ?_⟩
    intro s' r hs' hin
    rw [hres hs'] at hin
    exact (hmem.mp hin).1 rfl
  · intro s' r hs' c hc' hgone
    rw [hres hs', hmem, not_and'] at hgone
    exact ⟨p, slot, hreap, not_not.mp (hgone hc')⟩
  · intro s' r hs' c hc' hnew
    rw [hres hs'] at hc'
    exact absurd (hmem.mp hc').2 hnew

theorem linksKept_of_not_reaping (h : TreeInv s) (hreap : s.reaping a = none)
    (hfed : ¬ s.Starved a) : s.LinksKept a := by
  have hkeeps := h.call hreap hfed
  have hok : ∀ {s' r}, procCall s a = .ok (s', r) → TreeInv s' ∧ Grows s s' := by
    intro s' r hs'
    rwa [hs'] at hkeeps
  refine ⟨fun s' r hs' => (hok hs').1.parents, ?_, ?_, ?_,
    fun s' r hs' c hc hgone => absurd ((hok hs').2.kept c hc) hgone,
    fun s' r hs' => (hok hs').2.fresh⟩
  · intro he
    rw [he] at hkeeps
    exact hkeeps.1 rfl
  · intro he
    rw [he] at hkeeps
    exact hkeeps.2 rfl
  · intro p slot he
    rw [hreap] at he
    cases he

/-- The links are kept in exactly the calls that leave no orphans and find
memory to sleep. -/
theorem linksKept_iff (h : TreeInv s) :
    s.LinksKept a ↔ ¬ s.Orphans a ∧ ¬ s.Starved a := by
  constructor
  · intro hkept
    refine ⟨?_, fun hst => hkept.childFound hst.childMissing⟩
    intro horph
    obtain ⟨s', r, hcall, hno⟩ := h.orphans horph
    exact hno (hkept.present s' r hcall)
  · rintro ⟨hno, hfed⟩
    cases hreap : s.reaping a with
    | none => exact h.linksKept_of_not_reaping hreap hfed
    | some ps => exact (h.reaped hreap hno).2

theorem step {s' : ProcState} (h : TreeInv s) (hno : ¬ s.Orphans a) (hfed : ¬ s.Starved a)
    (hs : procStep s a = some s') : TreeInv s' := by
  obtain ⟨r, hcall⟩ := procStep_eq_some.mp hs
  cases hreap : s.reaping a with
  | none =>
    have hkeeps := h.call hreap hfed
    rw [hcall] at hkeeps
    exact hkeeps.1
  | some ps =>
    obtain ⟨-, -, -, hcall'⟩ := ProcState.reaping_some hreap
    rw [hcall] at hcall'
    obtain rfl : s' = (s.reap ps.1 ps.2).1 := congrArg Prod.fst (Except.ok.inj hcall')
    exact (h.reaped hreap hno).1

/-- `wait` returns `0`, which is nobody's pid. -/
theorem returnsPid_iff (h : TreeInv s) : s.ReturnsPid a ↔ s.reaping a = none := by
  constructor
  · intro hret
    cases hreap : s.reaping a with
    | none => rfl
    | some ps =>
      obtain ⟨p, slot⟩ := ps
      obtain ⟨hp, -, hdead, hcall⟩ := ProcState.reaping_some hreap
      obtain ⟨s', hs'⟩ := hret p slot hreap
      rw [hcall] at hs'
      have hzero := Option.some.inj (congrArg Prod.snd (Except.ok.inj hs'))
      have hpos := (h.pids _ (h.deadChild hp hdead).1).1
      omega
  · intro hnone p slot he
    rw [hnone] at he
    cases he

end TreeInv

end Reaping

/-! ## Whole runs -/

/-- The links between the processes are kept exactly in the runs in which no
reaped child leaves children behind, and `wait` finds memory to sleep. -/
theorem links_kept_iff_no_orphans (acts : List ProcAct) :
    Guarded procStep ProcState.LinksKept initMultitasking acts ↔
      Guarded procStep (fun s a => ¬ s.Orphans a ∧ ¬ s.Starved a) initMultitasking acts :=
  guarded_iff (fun _ _ h => h.linksKept_iff) (fun _ _ _ h hok => h.step hok.1 hok.2)
    initMultitasking_tree

/-- **The process tree and the protocol of `wait` and `exit` are kept exactly in
the runs in which no call reaps a child, and `wait` finds memory to sleep.** -/
theorem protocol_kept_iff_no_reap (acts : List ProcAct) :
    initMultitasking.ParentsPresent ∧
      Guarded procStep (fun s a => s.LinksKept a ∧ s.ReturnsPid a) initMultitasking acts ↔
    Guarded procStep (fun s a => s.reaping a = none ∧ ¬ s.Starved a) initMultitasking acts := by
  have hiff : ∀ s a, TreeInv s →
      (s.LinksKept a ∧ s.ReturnsPid a ↔ s.reaping a = none ∧ ¬ s.Starved a) := by
    intro s a h
    rw [h.linksKept_iff, h.returnsPid_iff]
    exact ⟨fun hok => ⟨hok.2, hok.1.2⟩,
      fun hok => ⟨⟨ProcState.not_orphans hok.1, hok.2⟩, hok.1⟩⟩
  rw [guarded_iff hiff (fun _ _ _ h hok => h.step (ProcState.not_orphans hok.1) hok.2)
    initMultitasking_tree]
  exact and_iff_right initMultitasking_tree.parents

/-- The first task has a child, which exits. -/
def deadChildRun : List ProcAct := [.fork 2 true, .exit 3 0 .done]

/-- The first task reaps a child that has a child. -/
def orphanRun : List ProcAct :=
  [.fork 2 true, .fork 3 true, .exit 3 0 .done, .wait 2 true true]

/-- The call that reaps the child with pid `3` returns `0`, and the orphan's
`exit` finds no parent. -/
theorem wait_returns_zero_and_orphan_faults :
    ((exec procStep initMultitasking deadChildRun).any fun t =>
      t.reaping (.wait 2 true true) = some (2, 0) ∧ (t.kprocs (t.childAt 2 0)).pid = 3 ∧
        (procCall t (.wait 2 true true)).toOption.map Prod.snd = some (some 0)) = true ∧
    ((exec procStep initMultitasking orphanRun).any fun t =>
      match procCall t (.exit 4 0 .done) with
      | .error e => e = .nullParent
      | .ok _ => false) = true ∧
    ¬ ∀ acts, initMultitasking.ParentsPresent ∧
      Guarded procStep (fun s a => s.LinksKept a ∧ s.ReturnsPid a) initMultitasking acts := by
  have hdead : ((exec procStep initMultitasking deadChildRun).any fun t =>
      t.reaping (.wait 2 true true) = some (2, 0) ∧ (t.kprocs (t.childAt 2 0)).pid = 3 ∧
        (procCall t (.wait 2 true true)).toOption.map Prod.snd = some (some 0)) = true := by
    decide +kernel
  refine ⟨hdead, by decide +kernel, ?_⟩
  intro hall
  obtain ⟨t, hrun, ht⟩ := (Option.any_eq_true _ _).mp hdead
  obtain ⟨hreap, hpid, hzero⟩ := of_decide_eq_true ht
  obtain ⟨s', hs'⟩ := ((hall (deadChildRun ++ [.wait 2 true true])).2.last hrun).2 2 0 hreap
  rw [hs', hpid] at hzero
  cases hzero

end LambdaOs
