import LambdaOs.LlistRefine
import LambdaOs.Run

/-!
# Condition variables

`proc/cond.c`: a waiting thread puts an entry on the list of the condition
and then marks itself blocked by pointing `thread->cond` at it; the scheduler
passes over threads whose `cond` is set. A signal takes every entry off the
list and clears the `cond` of its thread. `wait`, `exit` and the thread locks
are built on this.

Threads are interleaved at their accesses to what they share: an append under
the lock, the store to `thread->cond`, each round of the loop of
`cond_signal`. The entry is published before the store, so a signal between
the two clears a `cond` that is not set yet, and the thread then blocks with
no entry that a later signal could find (`signal_before_set_is_lost`). When
no entry is taken at that point, every blocked thread is found by the next
signal (`blocked_threads_have_entries`).
-/

namespace LambdaOs

/-! ## The state -/

/-- `struct cond`. -/
structure Cond where
  lock : Nat
  list : Llist
deriving Repr, DecidableEq

/-- What `cond_init` leaves. -/
def condInit : Cond := ⟨0, llistInit⟩

/-- Where a thread is: outside, with the result of its last call; in
`cond_wait` before its append, before its store to `thread->cond` and in
`run_sched`; in `cond_signal` before the lock and in its loop. -/
inductive CondCall where
  | out (ret : Int)
  | entered (cond item : Nat)
  | appended (cond : Nat)
  | yielded (cond : Nat)
  | locking (cond : Nat)
  | popping (cond : Nat)
deriving Repr, DecidableEq

/-- The conditions and the threads. The `list_item` is the first field of an
entry, so an entry and its list item are one address. `live`, the entries
that are allocated, belongs to the allocator. -/
structure CondSys where
  items : Items
  entryThread : Nat → Nat
  conds : Nat → Cond
  threadCond : Nat → Nat
  call : Nat → CondCall
  live : List Nat

namespace CondSys

def setCall (s : CondSys) (t : Nat) (e : CondCall) : CondSys :=
  { s with call := Function.update s.call t e }

def setCond (s : CondSys) (c : Nat) (cond : Cond) : CondSys :=
  { s with conds := Function.update s.conds c cond }

/-! ## `cond_wait` -/

/-- Up to the lock. `item` is what `kmalloc` returned. -/
def wait (s : CondSys) (t c item : Nat) : CondSys :=
  if item = 0 then s.setCall t (.out (-ENOMEM))
  else
    { s.setCall t (.entered c item) with
      items := Function.update s.items item { s.items item with data := item }
      entryThread := Function.update s.entryThread item t
      live := item :: s.live }

/-- The append under the lock. While somebody else holds the lock this
spins. -/
def append (s : CondSys) (t c item : Nat) : CondSys :=
  let cond := s.conds c
  if cond.lock ≠ 0 then s
  else
    match llistAppend s.items cond.list item with
    | none => s
    | some (m, list) => { (s.setCond c { cond with list := list }).setCall t (.appended c) with
        items := m }

/-- `thread->cond = cond`. -/
def set (s : CondSys) (t c : Nat) : CondSys :=
  { s.setCall t (.yielded c) with threadCond := Function.update s.threadCond t c }

/-! ## `cond_signal` -/

/-- The new state and the return value. -/
def unblockThread (s : CondSys) (item : Nat) : CondSys × Int :=
  ({ s with
      threadCond := Function.update s.threadCond (s.entryThread item) 0
      live := s.live.erase item }, 0)

/-- `unlock(&cond->lock)`, and the return. -/
def leave (s : CondSys) (t c : Nat) (ret : Int) : CondSys :=
  (s.setCond c { s.conds c with lock := 0 }).setCall t (.out ret)

/-- One round of the loop. -/
def pop (s : CondSys) (t c : Nat) : CondSys :=
  let cond := s.conds c
  let r := llistPopUnlocked s.items cond.list
  let s : CondSys := { s.setCond c { cond with list := r.2.1 } with items := r.1 }
  if r.2.2 = 0 then s.leave t c 0
  else
    let u := s.unblockThread (s.items r.2.2).data
    if u.2 ≠ 0 then u.1.leave t c (-EUNSPEC) else u.1

end CondSys

/-! ## Runs -/

/-- A thread enters a call, or goes on with the one it is in. -/
inductive CondAct where
  | wait (t c item : Nat)
  | signal (t c : Nat)
  | run (t : Nat)
deriving Repr, DecidableEq

/-- `kmalloc` returns `NULL` or memory that is not in use. The scheduler does
not come back to a thread in `run_sched` while its `cond` is set. -/
def condStep (s : CondSys) : CondAct → Option CondSys
  | .wait t c item =>
      match s.call t with
      | .out _ => if c ≠ 0 ∧ item ∉ s.live then some (s.wait t c item) else none
      | _ => none
  | .signal t c =>
      match s.call t with
      | .out _ => if c ≠ 0 then some (s.setCall t (.locking c)) else none
      | _ => none
  | .run t =>
      match s.call t with
      | .out _ => none
      | .entered c item => some (s.append t c item)
      | .appended c => some (s.set t c)
      | .yielded _ => if s.threadCond t = 0 then some (s.setCall t (.out 0)) else none
      | .locking c =>
          if (s.conds c).lock ≠ 0 then some s
          else some ((s.setCond c { s.conds c with lock := 1 }).setCall t (.popping c))
      | .popping c => some (s.pop t c)

/-- Every condition has just been initialised, no thread is blocked or in a
call. -/
structure CondBoot (s : CondSys) : Prop where
  conds : ∀ c, s.conds c = condInit
  unblocked : ∀ t, s.threadCond t = 0
  out : ∀ t, ∃ ret, s.call t = .out ret

/-- The thread whose entry is in the list of a condition. -/
def HasEntry (s : CondSys) (c t : Nat) : Prop :=
  ∃ xs, LlistRep s.items (s.conds c).list xs ∧ ∃ e ∈ xs, s.entryThread e = t

/-- No thread is blocked without an entry. -/
def NoLostWakeup (s : CondSys) : Prop :=
  ∀ t c, c ≠ 0 → s.threadCond t = c → HasEntry s c t

/-- The entry a round of `cond_signal` takes is that of a thread which has
made its store to `thread->cond`. -/
def PopsSet (s : CondSys) : CondAct → Prop
  | .run t =>
      match s.call t with
      | .popping c =>
          let item := (llistPopUnlocked s.items (s.conds c).list).2.2
          item ≠ 0 → s.call (s.entryThread item) ≠ .appended c
      | _ => True
  | _ => True

instance (s : CondSys) : DecidablePred (PopsSet s)
  | .wait _ _ _ => isTrue trivial
  | .signal _ _ => isTrue trivial
  | .run t =>
      match h : s.call t with
      | .popping c => decidable_of_iff
          ((llistPopUnlocked s.items (s.conds c).list).2.2 ≠ 0 →
            s.call (s.entryThread (llistPopUnlocked s.items (s.conds c).list).2.2) ≠ .appended c)
          (by simp only [PopsSet, h])
      | .out _ => isTrue (by simp only [PopsSet, h])
      | .entered _ _ => isTrue (by simp only [PopsSet, h])
      | .appended _ => isTrue (by simp only [PopsSet, h])
      | .yielded _ => isTrue (by simp only [PopsSet, h])
      | .locking _ => isTrue (by simp only [PopsSet, h])

/-! ## The invariant -/

/-- `entries c` is the list of `c`. -/
structure CondInv (entries : Nat → List Nat) (s : CondSys) : Prop where
  rep : ∀ c, LlistRep s.items (s.conds c).list (entries c)
  unlocked : ∀ c, (s.conds c).list.lock = 0
  apart : ∀ c c' e, e ∈ entries c → e ∈ entries c' → c = c'
  live : ∀ c, ∀ e ∈ entries c, e ∈ s.live ∧ (s.items e).data = e
  fresh : ∀ t c e, s.call t = .entered c e →
    e ≠ 0 ∧ e ∈ s.live ∧ (s.items e).data = e ∧ s.entryThread e = t ∧ ∀ c', e ∉ entries c'
  own : ∀ t t' c c' e, s.call t = .entered c e → s.call t' = .entered c' e → t = t'
  posted : ∀ t c, s.call t = .appended c → ∃ e ∈ entries c, s.entryThread e = t
  blocked : ∀ t, s.threadCond t ≠ 0 → ∃ e ∈ entries (s.threadCond t), s.entryThread e = t

def CondOk (s : CondSys) : Prop := ∃ entries, CondInv entries s

theorem CondBoot.inv {s : CondSys} (h : CondBoot s) : CondInv (fun _ => []) s where
  rep c := by
    rw [h.conds c]
    exact llistRep_init _
  unlocked c := by
    rw [h.conds c]
    rfl
  apart _ _ _ he := nomatch he
  live _ _ he := nomatch he
  fresh t c e he := by
    obtain ⟨ret, hret⟩ := h.out t
    rw [hret] at he
    cases he
  own t _ c _ e he := by
    obtain ⟨ret, hret⟩ := h.out t
    rw [hret] at he
    cases he
  posted t c he := by
    obtain ⟨ret, hret⟩ := h.out t
    rw [hret] at he
    cases he
  blocked t ht := absurd (h.unblocked t) ht

theorem CondInv.noLostWakeup {entries : Nat → List Nat} {s : CondSys} (h : CondInv entries s) :
    NoLostWakeup s := by
  rintro t c hc rfl
  exact ⟨entries (s.threadCond t), h.rep _, h.blocked t hc⟩

/-! ## The steps -/

section Steps

variable {entries : Nat → List Nat} {s : CondSys}

theorem CondSys.setCall_call {t t' : Nat} {p q : CondCall} (h : (s.setCall t p).call t' = q) :
    (t' = t ∧ q = p) ∨ (t' ≠ t ∧ s.call t' = q) := by
  by_cases ht : t' = t
  · subst ht
    simp only [CondSys.setCall, Function.update_self] at h
    exact .inl ⟨rfl, h.symm⟩
  · simp only [CondSys.setCall, Function.update_of_ne ht] at h
    exact .inr ⟨ht, h⟩

/-- A thread goes on to a point where it has nothing in hand. -/
theorem CondInv.setCall (h : CondInv entries s) (t : Nat) {p : CondCall}
    (hent : ∀ c e, p ≠ .entered c e) (happ : ∀ c, p ≠ .appended c) :
    CondInv entries (s.setCall t p) := by
  have hcall : ∀ {t' q}, q ≠ p → (s.setCall t p).call t' = q → s.call t' = q := fun hq ht' =>
    (CondSys.setCall_call ht').elim (fun hnew => absurd hnew.2 hq) And.right
  exact {
    rep := h.rep, unlocked := h.unlocked, apart := h.apart, live := h.live, blocked := h.blocked
    fresh := fun t' c e he => h.fresh t' c e (hcall (hent c e).symm he)
    own := fun t₁ t₂ c c' e h₁ h₂ =>
      h.own t₁ t₂ c c' e (hcall (hent c e).symm h₁) (hcall (hent c' e).symm h₂)
    posted := fun t' c he => h.posted t' c (hcall (happ c).symm he) }

/-- Taking and releasing the lock of a condition. -/
theorem CondInv.setLock (h : CondInv entries s) (c v : Nat) :
    CondInv entries (s.setCond c { s.conds c with lock := v }) := by
  have hlist : ∀ c', ((s.setCond c { s.conds c with lock := v }).conds c').list =
      (s.conds c').list := by
    intro c'
    by_cases hc : c' = c
    · subst hc
      simp [CondSys.setCond]
    · simp [CondSys.setCond, hc]
  exact {
    apart := h.apart, live := h.live, fresh := h.fresh, own := h.own, posted := h.posted
    blocked := h.blocked
    rep := fun c' => hlist c' ▸ h.rep c'
    unlocked := fun c' => hlist c' ▸ h.unlocked c' }

theorem CondInv.leave (h : CondInv entries s) (t c : Nat) (ret : Int) :
    CondInv entries (s.leave t c ret) :=
  (h.setLock c 0).setCall t nofun nofun

theorem CondInv.wait (h : CondInv entries s) {t item : Nat} (c : Nat) (hitem : item ∉ s.live) :
    CondInv entries (s.wait t c item) := by
  unfold CondSys.wait
  split
  · exact h.setCall t nofun nofun
  rename_i h0
  -- a new entry is not one of those that are there
  have hne : ∀ {e}, e ∈ s.live → e ≠ item := fun he hei => hitem (hei ▸ he)
  have hout : ∀ {c'}, item ∉ entries c' := fun hmem => hitem (h.live _ _ hmem).1
  have hlinks : ∀ p, (Function.update s.items item { s.items item with data := item } p).next =
      (s.items p).next ∧
      (Function.update s.items item { s.items item with data := item } p).prev =
        (s.items p).prev := by
    intro p
    by_cases hp : p = item
    · subst hp
      simp
    · simp [hp]
  have hthread : ∀ {c' t'}, (∃ e ∈ entries c', s.entryThread e = t') →
      ∃ e ∈ entries c', Function.update s.entryThread item t e = t' := by
    rintro c' t' ⟨e, he, ht⟩
    exact ⟨e, he, by rw [Function.update_of_ne (hne (h.live _ e he).1), ht]⟩
  refine ⟨?_, h.unlocked, h.apart, ?_, ?_,
    ?_, ?_, fun t' ht' => hthread (h.blocked t' ht')⟩
  · intro c'
    have hrep := h.rep c'
    exact ⟨hrep.ring.congr (fun p _ => (hlinks p).1) fun p _ => (hlinks p).2, hrep.nonnull,
      hrep.head⟩
  · intro c' e he
    obtain ⟨hlive, hdata⟩ := h.live c' e he
    refine ⟨List.mem_cons_of_mem _ hlive, ?_⟩
    dsimp only
    rw [Function.update_of_ne (hne hlive), hdata]
  · intro t' c' e he
    rcases CondSys.setCall_call he with ⟨rfl, hq⟩ | ⟨-, hold⟩
    · cases hq
      exact ⟨h0, List.mem_cons_self, by simp, by simp, fun _ => hout⟩
    · obtain ⟨he0, hlive, hdata, hthr, hnot⟩ := h.fresh t' c' e hold
      refine ⟨he0, List.mem_cons_of_mem _ hlive, ?_, ?_, hnot⟩
      · dsimp only
        rw [Function.update_of_ne (hne hlive), hdata]
      · dsimp only
        rw [Function.update_of_ne (hne hlive), hthr]
  · intro t₁ t₂ c₁ c₂ e h₁ h₂
    rcases CondSys.setCall_call h₁ with ⟨rfl, hq⟩ | ⟨-, hold₁⟩
    · cases hq
      rcases CondSys.setCall_call h₂ with ⟨rfl, -⟩ | ⟨-, hold₂⟩
      · rfl
      · exact absurd rfl (hne (h.fresh _ _ _ hold₂).2.1)
    · rcases CondSys.setCall_call h₂ with ⟨rfl, hq⟩ | ⟨-, hold₂⟩
      · cases hq
        exact absurd rfl (hne (h.fresh _ _ _ hold₁).2.1)
      · exact h.own t₁ t₂ c₁ c₂ e hold₁ hold₂
  · intro t' c' he
    rcases CondSys.setCall_call he with ⟨-, hq⟩ | ⟨-, hold⟩
    · cases hq
    · exact hthread (h.posted t' c' hold)

/-- The append of an entry that is in no list. -/
theorem CondInv.append (h : CondInv entries s) {t c item : Nat}
    (hcall : s.call t = .entered c item) : CondOk (s.append t c item) := by
  unfold CondSys.append
  dsimp only
  split
  · exact ⟨entries, h⟩
  obtain ⟨h0, hlive, hdata, hthr, hnot⟩ := h.fresh t c item hcall
  have hrep := llistRep_append ((h.rep c).of_list_eq { (s.conds c).list with lock := 1 } rfl) h0
    (hnot c)
  have happ : llistAppend s.items (s.conds c).list item =
      some ((llistAppendUnlocked s.items { (s.conds c).list with lock := 1 } item).1,
        (llistAppendUnlocked s.items { (s.conds c).list with lock := 1 } item).2.release) := by
    simp [llistAppend, h0, Llist.acquire, h.unlocked c]
  rw [happ]
  generalize hr : llistAppendUnlocked s.items { (s.conds c).list with lock := 1 } item = r at hrep
  have hsame : ∀ p, (r.1 p).data = (s.items p).data := fun p => by
    rw [← hr, llistAppendUnlocked_data]
  refine ⟨Function.update entries c (entries c ++ [item]), ?_⟩
  have hmem : ∀ {c' e}, e ∈ Function.update entries c (entries c ++ [item]) c' →
      e ∈ entries c' ∨ (c' = c ∧ e = item) := by
    intro c' e he
    by_cases hc : c' = c
    · subst hc
      rw [Function.update_self, List.mem_append, List.mem_singleton] at he
      exact he.imp_right fun he => ⟨rfl, he⟩
    · rw [Function.update_of_ne hc] at he
      exact .inl he
  have hkeep : ∀ {c' e}, e ∈ entries c' →
      e ∈ Function.update entries c (entries c ++ [item]) c' := by
    intro c' e he
    by_cases hc : c' = c
    · subst hc
      rw [Function.update_self]
      exact List.mem_append_left _ he
    · rwa [Function.update_of_ne hc]
  refine ⟨?_, ?_, ?_, ?_,
    ?_, ?_, ?_, ?_⟩
  · intro c'
    by_cases hc : c' = c
    · subst hc
      simpa [CondSys.setCond, CondSys.setCall] using hrep.of_list_eq r.2.release rfl
    · simp only [CondSys.setCond, CondSys.setCall, Function.update_of_ne hc]
      -- the lists have no entry in common
      refine (h.rep c').frame ?_
      intro p hp
      rw [← hr]
      refine llistAppendUnlocked_frame ((h.rep c).of_list_eq _ rfl) ?_ ?_
      · intro hpc
        exact hc (h.apart _ _ p hp hpc)
      · intro hpi
        exact hnot c' (hpi ▸ hp)
  · intro c'
    by_cases hc : c' = c
    · subst hc
      simp [CondSys.setCond, CondSys.setCall, Llist.release]
    · simpa [CondSys.setCond, CondSys.setCall, hc] using h.unlocked c'
  · intro c₁ c₂ e h₁ h₂
    rcases hmem h₁ with hold₁ | ⟨rfl, rfl⟩
    · rcases hmem h₂ with hold₂ | ⟨rfl, rfl⟩
      · exact h.apart c₁ c₂ e hold₁ hold₂
      · exact absurd hold₁ (hnot c₁)
    · rcases hmem h₂ with hold₂ | ⟨rfl, -⟩
      · exact absurd hold₂ (hnot c₂)
      · rfl
  · intro c' e he
    rw [hsame]
    rcases hmem he with he | ⟨rfl, rfl⟩
    · exact h.live c' e he
    · exact ⟨hlive, hdata⟩
  · intro t' c' e he
    rcases CondSys.setCall_call he with ⟨-, hq⟩ | ⟨ht, hold⟩
    · cases hq
    · obtain ⟨he0, hl, hd, hth, hnot'⟩ := h.fresh t' c' e hold
      refine ⟨he0, hl, (hsame e).trans hd, hth, ?_⟩
      intro c'' hmem'
      rcases hmem hmem' with hmem' | ⟨-, rfl⟩
      · exact hnot' c'' hmem'
      · exact ht (h.own _ _ _ _ _ hold hcall)
  · intro t₁ t₂ c₁ c₂ e h₁ h₂
    rcases CondSys.setCall_call h₁ with ⟨-, hq⟩ | ⟨-, h₁⟩
    · cases hq
    · rcases CondSys.setCall_call h₂ with ⟨-, hq⟩ | ⟨-, h₂⟩
      · cases hq
      · exact h.own t₁ t₂ c₁ c₂ e h₁ h₂
  · intro t' c' he
    rcases CondSys.setCall_call he with ⟨rfl, hq⟩ | ⟨-, hold⟩
    · cases hq
      exact ⟨item, by simp, hthr⟩
    · obtain ⟨e, he, hth⟩ := h.posted t' c' hold
      exact ⟨e, hkeep he, hth⟩
  · intro t' ht'
    obtain ⟨e, he, hth⟩ := h.blocked t' ht'
    exact ⟨e, hkeep he, hth⟩

theorem CondInv.set (h : CondInv entries s) {t c : Nat} (hcall : s.call t = .appended c) :
    CondInv entries (s.set t c) := by
  have hnext : CondInv entries (s.setCall t (.yielded c)) := h.setCall t nofun nofun
  refine { hnext with blocked := ?_ }
  intro t' ht'
  by_cases ht : t' = t
  · subst ht
    simpa [CondSys.set, CondSys.setCall] using h.posted t' c hcall
  · simp only [CondSys.set, Function.update_of_ne ht] at ht' ⊢
    exact h.blocked t' ht'

theorem CondSys.pop_nil {c : Nat} (t : Nat) (hrep : LlistRep s.items (s.conds c).list []) :
    s.pop t c = s.leave t c 0 := by
  simp only [CondSys.pop, llistPopUnlocked_nil hrep, if_true, CondSys.setCond,
    Function.update_eq_self]

/-- After a round that has taken the entry `e`. -/
def CondSys.taken (s : CondSys) (c e : Nat) : CondSys :=
  let r := llistPopUnlocked s.items (s.conds c).list
  (CondSys.unblockThread
    { s.setCond c { s.conds c with list := r.2.1 } with items := r.1 } e).1

theorem CondSys.pop_concat {c e : Nat} (t : Nat) {rest : List Nat}
    (hrep : LlistRep s.items (s.conds c).list (rest ++ [e])) (hdata : (s.items e).data = e) :
    s.pop t c = s.taken c e := by
  have hret : (llistPopUnlocked s.items (s.conds c).list).2.2 = e := (llistRep_pop hrep).2
  have hsame : ((llistPopUnlocked s.items (s.conds c).list).1 e).data = e :=
    (llistPopUnlocked_data ..).trans hdata
  have he0 : e ≠ 0 := fun he0 => hrep.nonnull (by simp [he0])
  simp only [CondSys.pop, hret, if_neg he0, hsame]
  rfl

/-- A round that takes the entry of a thread which has made its store. -/
theorem CondInv.pop (h : CondInv entries s) {t c : Nat} (hcall : s.call t = .popping c)
    (hset : PopsSet s (.run t)) : CondOk (s.pop t c) := by
  rcases List.eq_nil_or_concat (entries c) with hc | ⟨rest, e, hc⟩
  · rw [CondSys.pop_nil t (hc ▸ h.rep c)]
    exact ⟨entries, h.leave t c 0⟩
  rw [List.concat_eq_append] at hc
  have hmem : e ∈ entries c := by simp [hc]
  rw [CondSys.pop_concat t (hc ▸ h.rep c) (h.live c e hmem).2]
  obtain ⟨hrep, hret⟩ := llistRep_pop (hc ▸ h.rep c)
  have hframe : ∀ {c' p}, c' ≠ c → p ∈ entries c' →
      (llistPopUnlocked s.items (s.conds c).list).1 p = s.items p := fun hne hp =>
    llistPopUnlocked_frame (h.rep c) fun hpc => hne (h.apart _ _ _ hp hpc)
  have hsame := llistPopUnlocked_data s.items (s.conds c).list
  have he0 : e ≠ 0 := fun he0 => (h.rep c).nonnull (he0 ▸ hmem)
  have hnset : s.call (s.entryThread e) ≠ .appended c := by
    simp only [PopsSet, hcall, hret] at hset
    exact hset he0
  have hnd : e ∉ rest := by
    have hnd := (h.rep c).ring.nodup
    rw [hc] at hnd
    exact fun he => (List.nodup_append'.mp hnd).2.2 he (List.mem_singleton_self e)
  -- what is left in the lists
  have hsub : ∀ {c' e'}, e' ∈ Function.update entries c rest c' → e' ∈ entries c' ∧ e' ≠ e := by
    intro c' e' he'
    by_cases hcc : c' = c
    · subst hcc
      rw [Function.update_self] at he'
      exact ⟨hc ▸ List.mem_append_left _ he', fun hee => hnd (hee ▸ he')⟩
    · rw [Function.update_of_ne hcc] at he'
      exact ⟨he', fun hee => hcc (h.apart _ _ _ (hee ▸ he') hmem)⟩
  have hkeep : ∀ {c' e'}, e' ∈ entries c' → e' ≠ e → e' ∈ Function.update entries c rest c' := by
    intro c' e' he' hne
    by_cases hcc : c' = c
    · subst hcc
      rw [Function.update_self]
      rw [hc, List.mem_append, List.mem_singleton] at he'
      exact he'.resolve_right hne
    · rwa [Function.update_of_ne hcc]
  refine ⟨Function.update entries c rest, ?_, ?_, ?_,
    ?_, ?_, h.own, ?_, ?_⟩
  · intro c'
    by_cases hcc : c' = c
    · subst hcc
      simpa [CondSys.taken, CondSys.unblockThread, CondSys.setCond] using hrep
    · simp only [CondSys.taken, CondSys.unblockThread, CondSys.setCond, Function.update_of_ne hcc]
      exact (h.rep c').frame fun p hp => hframe hcc hp
  · intro c'
    by_cases hcc : c' = c
    · subst hcc
      simpa [CondSys.taken, CondSys.unblockThread, CondSys.setCond] using h.unlocked c'
    · simpa [CondSys.taken, CondSys.unblockThread, CondSys.setCond, hcc] using h.unlocked c'
  · intro c₁ c₂ e' h₁ h₂
    exact h.apart c₁ c₂ e' (hsub h₁).1 (hsub h₂).1
  · intro c' e' he'
    obtain ⟨hin, hne⟩ := hsub he'
    obtain ⟨hlive, hdata⟩ := h.live c' e' hin
    exact ⟨(List.mem_erase_of_ne hne).mpr hlive, (hsame e').trans hdata⟩
  · intro t' c' e' he'
    obtain ⟨he0', hlive, hdata, hthr, hnot⟩ := h.fresh t' c' e' he'
    have hne : e' ≠ e := fun hee => hnot c (hee ▸ hmem)
    exact ⟨he0', (List.mem_erase_of_ne hne).mpr hlive, (hsame e').trans hdata, hthr,
      fun c'' hin => hnot c'' (hsub hin).1⟩
  · intro t' c' ht'
    obtain ⟨e', he', hthr⟩ := h.posted t' c' ht'
    refine ⟨e', hkeep he' ?_, hthr⟩
    rintro rfl
    obtain rfl := h.apart c' c e' he' hmem
    exact hnset (hthr ▸ ht')
  · intro t' ht'
    have hne : t' ≠ s.entryThread e := by
      rintro rfl
      simp [CondSys.taken, CondSys.unblockThread, CondSys.setCond] at ht'
    simp only [CondSys.taken, CondSys.unblockThread, CondSys.setCond,
      Function.update_of_ne hne] at ht' ⊢
    obtain ⟨e', he', hthr⟩ := h.blocked t' ht'
    exact ⟨e', hkeep he' fun hee => hne (hee ▸ hthr.symm), hthr⟩

theorem condStep_inv (h : CondInv entries s) {a : CondAct} (hset : PopsSet s a) {s' : CondSys}
    (hstep : condStep s a = some s') : CondOk s' := by
  cases a with
  | wait t c item =>
    simp only [condStep] at hstep
    split at hstep
    · obtain ⟨⟨-, hitem⟩, hs⟩ := Option.ite_none_right_eq_some.mp hstep
      cases hs
      exact ⟨entries, h.wait c hitem⟩
    · cases hstep
  | signal t c =>
    simp only [condStep] at hstep
    split at hstep
    · obtain ⟨-, hs⟩ := Option.ite_none_right_eq_some.mp hstep
      cases hs
      exact ⟨entries, h.setCall t nofun nofun⟩
    · cases hstep
  | run t =>
    simp only [condStep] at hstep
    cases hcall : s.call t with
    | out ret =>
      rw [hcall] at hstep
      cases hstep
    | entered c item =>
      rw [hcall] at hstep
      cases hstep
      exact h.append hcall
    | appended c =>
      rw [hcall] at hstep
      cases hstep
      exact ⟨entries, h.set hcall⟩
    | yielded c =>
      rw [hcall] at hstep
      obtain ⟨-, hs⟩ := Option.ite_none_right_eq_some.mp hstep
      cases hs
      exact ⟨entries, h.setCall t nofun nofun⟩
    | locking c =>
      rw [hcall] at hstep
      dsimp only at hstep
      split at hstep
      · cases hstep
        exact ⟨entries, h⟩
      · cases hstep
        exact ⟨entries, (h.setLock c 1).setCall t nofun nofun⟩
    | popping c =>
      rw [hcall] at hstep
      cases hstep
      exact h.pop hcall hset

end Steps

/-! ## A signal that runs through -/

/-- The rounds of `cond_signal` on a list of any length. -/
theorem popping_clears {u c : Nat} {xs : List Nat} : ∀ {s : CondSys}, s.call u = .popping c →
    LlistRep s.items (s.conds c).list xs → (∀ e ∈ xs, (s.items e).data = e) →
    ∃ s', exec condStep s (List.replicate (xs.length + 1) (.run u)) = some s' ∧
      s'.call u = .out 0 ∧
      ∀ t, (s.threadCond t = 0 ∨ ∃ e ∈ xs, s.entryThread e = t) → s'.threadCond t = 0 := by
  induction xs using List.reverseRecOn with
  | nil =>
    intro s hcall hrep _
    refine ⟨s.leave u c 0, ?_, by simp [CondSys.leave, CondSys.setCall], ?_⟩
    · simp [exec, condStep, hcall, CondSys.pop_nil u hrep]
    · intro t ht
      simpa [CondSys.leave, CondSys.setCall, CondSys.setCond] using ht
  | append_singleton xs e ih =>
    intro s hcall hrep hdata
    have hpop := CondSys.pop_concat u hrep (hdata e (by simp))
    have hstep : condStep s (.run u) = some (s.pop u c) := by
      simp [condStep, hcall]
    rw [hpop] at hstep
    have hrest : LlistRep (s.taken c e).items ((s.taken c e).conds c).list xs := by
      simpa [CondSys.taken, CondSys.unblockThread, CondSys.setCond] using (llistRep_pop hrep).1
    have hsame : ∀ e' ∈ xs, ((s.taken c e).items e').data = e' := fun e' he' =>
      (llistPopUnlocked_data ..).trans (hdata e' (List.mem_append_left _ he'))
    have hcall' : (s.taken c e).call u = .popping c := hcall
    obtain ⟨s', hrun, hout, hclear⟩ := ih hcall' hrest hsame
    refine ⟨s', ?_, hout, fun t ht => hclear t ?_⟩
    · rw [List.length_append, List.length_singleton, List.replicate_succ]
      exact exec_cons_eq_some.mpr ⟨_, hstep, hrun⟩
    · -- cleared in this round, or left to the next ones
      by_cases hte : t = s.entryThread e
      · subst hte
        exact .inl (by simp [CondSys.taken, CondSys.unblockThread, CondSys.setCond])
      · refine ht.imp ?_ ?_
        · intro h0
          simpa [CondSys.taken, CondSys.unblockThread, CondSys.setCond, hte] using h0
        · intro hex
          obtain ⟨e', he', hthr⟩ := hex
          rcases List.mem_append.mp he' with he' | he'
          · exact ⟨e', he', hthr⟩
          · exact absurd (List.mem_singleton.mp he' ▸ hthr).symm hte

/-- A call of `cond_signal`, from its entry to its return. -/
theorem signal_clears {entries : Nat → List Nat} {s : CondSys} (h : CondInv entries s) {u c : Nat}
    {ret : Int} (hc : c ≠ 0) (hout : s.call u = .out ret) (hfree : (s.conds c).lock = 0) :
    ∃ n s', exec condStep s (.signal u c :: List.replicate n (.run u)) = some s' ∧
      s'.call u = .out 0 ∧ ∀ t, s.threadCond t = c → s'.threadCond t = 0 := by
  have hsignal : condStep s (.signal u c) = some (s.setCall u (.locking c)) := by
    simp [condStep, hout, hc]
  have hlock : condStep (s.setCall u (.locking c)) (.run u) =
      some (((s.setCall u (.locking c)).setCond c { s.conds c with lock := 1 }).setCall u
        (.popping c)) := by
    simp [condStep, CondSys.setCall, hfree]
  have hasked : CondInv entries (s.setCall u (.locking c)) := h.setCall u nofun nofun
  have hlocked : CondInv entries
      (((s.setCall u (.locking c)).setCond c { s.conds c with lock := 1 }).setCall u
        (.popping c)) :=
    (hasked.setLock c 1).setCall u nofun nofun
  obtain ⟨s', hrun, hret, hclear⟩ := popping_clears (Function.update_self ..) (hlocked.rep c)
    fun e he => (hlocked.live c e he).2
  refine ⟨(entries c).length + 1 + 1, s', ?_, hret, fun t ht => hclear t (.inr ?_)⟩
  · rw [List.replicate_succ]
    exact exec_cons_eq_some.mpr ⟨_, hsignal, exec_cons_eq_some.mpr ⟨_, hlock, hrun⟩⟩
  · subst ht
    exact h.blocked t hc

/-! ## Whole runs -/

/-- **No wake-up is lost in the runs whose signals take no entry before its
thread has blocked.** In every state of such a run each thread whose `cond` is
set has an entry in the list of that condition, and the next signal that is
made makes it runnable. -/
theorem blocked_threads_have_entries {s t : CondSys} (hboot : CondBoot s) {acts : List CondAct}
    (hset : Guarded condStep PopsSet s acts) (hrun : exec condStep s acts = some t) :
    NoLostWakeup t ∧
      ∀ c u ret, c ≠ 0 → t.call u = .out ret → (t.conds c).lock = 0 →
        ∃ n t', exec condStep t (.signal u c :: List.replicate n (.run u)) = some t' ∧
          t'.call u = .out 0 ∧ ∀ v, t.threadCond v = c → t'.threadCond v = 0 := by
  have hstep : ∀ s a s', CondOk s → PopsSet s a → condStep s a = some s' → CondOk s' := by
    rintro s a s' ⟨entries, h⟩ ha hs
    exact condStep_inv h ha hs
  obtain ⟨entries, h⟩ := exec_guarded_inv hstep ⟨_, hboot.inv⟩ hset hrun
  exact ⟨h.noLostWakeup, fun c u ret hc hout hfree => signal_clears h hc hout hfree⟩

/-- Nothing on any list, every thread outside. -/
def condRest : CondSys where
  items := fun _ => ⟨0, 0, 0⟩
  entryThread := fun _ => 0
  conds := fun _ => condInit
  threadCond := fun _ => 0
  call := fun _ => .out 0
  live := []

theorem condRest_boot : CondBoot condRest := ⟨fun _ => rfl, fun _ => rfl, fun _ => ⟨0, rfl⟩⟩

/-- Thread `1` waits on the condition at `8`, then thread `2` signals it. -/
def waitThenSignal : List CondAct :=
  [.wait 1 8 16, .run 1, .run 1, .signal 2 8, .run 2, .run 2, .run 2, .run 1]

theorem blocked_threads_have_entries_waiting :
    ∃ t, exec condStep condRest (waitThenSignal.take 3) = some t ∧ t.threadCond 1 = 8 ∧
      HasEntry t 8 1 := by
  have hsome : ((exec condStep condRest (waitThenSignal.take 3)).any fun t =>
      t.threadCond 1 = 8) = true := by
    decide
  obtain ⟨t, hrun, ht⟩ := (Option.any_eq_true _ _).mp hsome
  have hset : Guarded condStep PopsSet condRest (waitThenSignal.take 3) := by
    decide
  have hcond := of_decide_eq_true ht
  exact ⟨t, hrun, hcond,
    (blocked_threads_have_entries condRest_boot hset hrun).1 1 8 (by decide) hcond⟩

/-- The whole signal comes between the append and the store. -/
def signalBetween : List CondAct :=
  [.wait 1 8 16, .run 1, .signal 2 8, .run 2, .run 2, .run 2, .run 1]

/-- Thread `1` is blocked on `8`, the list of `8` is empty, and signals change
nothing. -/
theorem signal_before_set_is_lost :
    ((exec condStep condRest (signalBetween ++ [.signal 2 8, .run 2, .run 2])).any fun t =>
      t.threadCond 1 = 8 ∧ (t.conds 8).list = ⟨0, 0⟩ ∧ t.call 2 = .out 0) = true ∧
    ¬ ∀ acts t, exec condStep condRest acts = some t → NoLostWakeup t := by
  have hsome : ((exec condStep condRest (signalBetween ++ [.signal 2 8, .run 2, .run 2])).any
      fun t => t.threadCond 1 = 8 ∧ (t.conds 8).list = ⟨0, 0⟩ ∧ t.call 2 = .out 0) = true := by
    decide
  refine ⟨hsome, ?_⟩
  intro hall
  obtain ⟨t, hrun, ht⟩ := (Option.any_eq_true _ _).mp hsome
  obtain ⟨hcond, hlist, -⟩ := of_decide_eq_true ht
  obtain ⟨xs, hrep, e, he, -⟩ := hall _ _ hrun 1 8 (by decide) hcond
  rw [hrep.list_eq_zero_iff.mp (by rw [hlist])] at he
  cases he

end LambdaOs
