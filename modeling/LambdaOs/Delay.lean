import LambdaOs.Cond
import LambdaOs.TimeBlocks

/-!
# Delays

`delay` of `time/delay.c`, over the time blocks of `TimeBlocks` and the
conditions of `Cond`. A thread that sleeps has a condition of its own and a time
block whose event `_time_over` signals it from the timer interrupt. Interrupts
are disabled from before the block is added until the thread has left the
processor, so that the signal cannot come before the thread has blocked; the
timer is one step, and so is what a thread does in between.

The signal frees the entry that `cond_wait` has allocated, and `kfree` takes
`alloc_lock`. A thread can be interrupted while it holds that lock, in the
allocations of `delay` or anywhere else. What comes while it is held and needs it
has to wait, and the steps in which it would are left out.

However many threads sleep, and in whatever order they are woken and go on, a
thread does not go on before its time, and the first tick at which its time is
over makes it runnable, without memory being touched that has been freed, if the
tick does not have to wait for the lock (`delay_on_time`).
-/

namespace LambdaOs

/-! ## The machine -/

/-- The address of `_time_over`. -/
def timeOver : Nat := 1

/-- The variable `cond` of a thread in `delay`. `stop`, which the code does not
have, is when the delay is over. -/
structure Sleeper where
  cond : Nat
  stop : Nat
deriving Repr, DecidableEq

/-- `allocated` are the conditions that `kmalloc` has returned and that have not
been freed, and `allocLock` is held while a thread is in `kmalloc` or `kfree`. -/
structure DelaySys where
  cond : CondSys
  time : TimeState
  allocLock : Bool
  allocated : List Nat
  sleeper : Nat → Option Sleeper

inductive DelayAct where
  | delay (t d cond item : Nat) (tid : Int)
  | wake (t : Nat)
  | timer (off : Nat)
  | allocBegin
  | allocEnd
deriving Repr, DecidableEq

namespace DelaySys

/-- Nanoseconds. -/
def delayTime (d : Nat) : Nat := d * 1000000

/-- `delay`, once the condition has been allocated and until the thread leaves the
processor, with interrupts disabled. `cond` and `item` are what the two calls of
`kmalloc` return; without a condition, or without a free block, it panics, and
when another thread has the lock the second call would wait for it. Without an
entry `cond_wait` returns at once, and the condition is freed. -/
def delay (s : DelaySys) (t d cond item : Nat) (tid : Int) : Option DelaySys :=
  if s.allocLock = true ∨ s.sleeper t ≠ none ∨ cond = 0 ∨ cond ∈ s.allocated then none
  else do
    let time ← addTimeBlock s.time timeOver cond (delayTime d) tid
    let init := s.cond.setCond cond condInit
    let waited ← condStep init (.wait t cond item)
    if item = 0 then return { s with cond := waited, time := time }
    else
      let blocked ← exec condStep waited [.run t, .run t]
      return { s with
        cond := blocked
        time := time
        allocated := cond :: s.allocated
        sleeper := Function.update s.sleeper t
          (some ⟨cond, u64 (s.time.kerneltime + delayTime d)⟩) }

/-- The scheduler comes back to a thread, which frees its condition once it has the
lock, and `delay` returns. -/
def wake (s : DelaySys) (t : Nat) : Option DelaySys :=
  if s.allocLock then none
  else do
    let sl ← s.sleeper t
    let cond ← condStep s.cond (.run t)
    return { s with
      cond := cond
      allocated := s.allocated.erase sl.cond
      sleeper := Function.update s.sleeper t none }

/-- The interrupt runs where no thread is. -/
def interrupt : Nat := 0

/-- `cond_signal` in the interrupt, once it has been called. `none` is a loop
that does not end. -/
def runInterrupt : Nat → CondSys → Option CondSys
  | 0, _ => none
  | fuel + 1, s =>
      match s.call interrupt with
      | .out _ => some s
      | _ => (condStep s (.run interrupt)).bind (runInterrupt fuel)

/-- `_time_over`; `none` is also a condition that has been freed, and a lock that is
held: `kfree` waits for it within the interrupt, for good if the thread that was
interrupted has it. -/
def fire (fuel : Nat) (s : DelaySys) (call : TimeCall) : Option DelaySys :=
  if s.allocLock = true ∨ call.event ≠ timeOver ∨ call.data ∉ s.allocated then none
  else do
    let cond ← (condStep s.cond (.signal interrupt call.data)).bind (runInterrupt fuel)
    return { s with cond := cond }

def timer (fuel : Nat) (s : DelaySys) (off : Nat) : Option DelaySys :=
  let r := timeUpdate s.time off
  exec (fire fuel) { s with time := r.1 } r.2

/-- A thread enters `kmalloc` or `kfree`. -/
def allocBegin (s : DelaySys) : Option DelaySys :=
  if s.allocLock then none else some { s with allocLock := true }

def allocEnd (s : DelaySys) : Option DelaySys :=
  if s.allocLock then some { s with allocLock := false } else none

/-- A tick comes while the lock is held, and there is a thread to wake, so that
`kfree` waits. -/
def TickWaits (s : DelaySys) (off : Nat) : Prop :=
  s.allocLock = true ∧ ∃ t sl, s.sleeper t = some sl ∧ s.cond.threadCond t ≠ 0 ∧
    sl.stop ≤ s.time.kerneltime + off

end DelaySys

def delayStep (fuel : Nat) (s : DelaySys) : DelayAct → Option DelaySys
  | .delay t d cond item tid => s.delay t d cond item tid
  | .wake t => s.wake t
  | .timer off => s.timer fuel off
  | .allocBegin => s.allocBegin
  | .allocEnd => s.allocEnd

/-- Nobody sleeps. -/
structure DelayBoot (s : DelaySys) : Prop where
  cond : CondBoot s.cond
  time : s.time = timeInit
  sleeper : ∀ t, s.sleeper t = none

/-- `kmalloc` finds memory for the entry, the thread is not the interrupt, and the
clock does not wrap. -/
def DelayAllowed (s : DelaySys) : DelayAct → Prop
  | .delay t d _ item _ => t ≠ DelaySys.interrupt ∧ item ≠ 0 ∧
      s.time.kerneltime + DelaySys.delayTime d < 18446744073709551616
  | .timer off => s.time.kerneltime + off < 18446744073709551616
  | _ => True

instance (s : DelaySys) : DecidablePred (DelayAllowed s)
  | .delay _ _ _ _ _ => inferInstanceAs (Decidable (_ ∧ _))
  | .wake _ | .allocBegin | .allocEnd => isTrue trivial
  | .timer _ => inferInstanceAs (Decidable (_ < _))

/-! ## One condition, one thread -/

namespace CondSys

variable {s s' : CondSys} {t c item : Nat}

/-- A thread has blocked on a condition that nobody else uses. -/
def slept (s : CondSys) (t c item : Nat) : CondSys where
  items := Function.update s.items item ⟨item, item, item⟩
  entryThread := Function.update s.entryThread item t
  conds := Function.update s.conds c ⟨0, ⟨item, 0⟩⟩
  threadCond := Function.update s.threadCond t c
  call := Function.update s.call t (.yielded c)
  live := item :: s.live

theorem wait_slept {ret : Int} (hc : c ≠ 0) (hitem : item ∉ s.live) (h0 : item ≠ 0)
    (hcall : s.call t = .out ret) (hcond : s.conds c = condInit) :
    exec condStep s [.wait t c item, .run t, .run t] = some (s.slept t c item) := by
  simp [exec, condStep, hcall, hc, hitem, h0, CondSys.wait, CondSys.append, CondSys.set, hcond,
    condInit, llistInit, llistAppend, Llist.acquire, Llist.release, llistAppendUnlocked, setCall,
    setCond, slept, Items.setNext, Items.setPrev]

/-- The one thread of a condition has been woken. -/
def woken (s : CondSys) (c item : Nat) : CondSys :=
  { s with
    conds := Function.update s.conds c condInit
    threadCond := Function.update s.threadCond (s.entryThread item) 0
    live := s.live.erase item
    call := Function.update s.call DelaySys.interrupt (.out 0) }

@[simp] theorem woken_call (s : CondSys) (c item : Nat) :
    (s.woken c item).call DelaySys.interrupt = .out 0 := by simp [woken]

theorem signal_woken {fuel : Nat} {ret : Int} (hc : c ≠ 0) (h0 : item ≠ 0)
    (hcall : s.call DelaySys.interrupt = .out ret) (hcond : s.conds c = ⟨0, ⟨item, 0⟩⟩)
    (hsingle : s.items item = ⟨item, item, item⟩) (hfuel : 3 < fuel) :
    (condStep s (.signal DelaySys.interrupt c)).bind (DelaySys.runInterrupt fuel) =
      some (s.woken c item) := by
  obtain ⟨fuel, rfl⟩ : ∃ n, fuel = n + 4 := ⟨fuel - 4, by omega⟩
  simp [condStep, hcall, hc, DelaySys.runInterrupt, setCall, setCond, hcond, CondSys.pop,
    llistPopUnlocked, hsingle, h0, unblockThread, CondSys.leave, woken, condInit, llistInit]

end CondSys

/-! ## The invariant -/

namespace DelaySys

/-- A sleeping thread that is blocked: its entry is alone in the list of its
condition, and a block is pending that will signal it. -/
structure Blocked (pending : List TimeBlock) (s : DelaySys) (t : Nat) (sl : Sleeper)
    (item : Nat) : Prop where
  set : s.cond.threadCond t = sl.cond
  list : s.cond.conds sl.cond = ⟨0, ⟨item, 0⟩⟩
  single : s.cond.items item = ⟨item, item, item⟩
  thread : s.cond.entryThread item = t
  nonnull : item ≠ 0
  live : item ∈ s.cond.live
  block : ∃ b ∈ pending, b.data = sl.cond ∧ b.stop = sl.stop

/-- The blocks of `pending` have not fired. -/
structure SleepInv (pending : List TimeBlock) (s : DelaySys) : Prop where
  outside : ∃ ret, s.cond.call interrupt = .out ret
  awake : ∀ t, s.sleeper t = none → ∃ ret, s.cond.call t = .out ret
  sleeping : ∀ t sl, s.sleeper t = some sl →
    t ≠ interrupt ∧ sl.cond ≠ 0 ∧ sl.cond ∈ s.allocated ∧ s.cond.call t = .yielded sl.cond
  own : ∀ t t' sl sl', s.sleeper t = some sl → s.sleeper t' = some sl' → sl.cond = sl'.cond →
    t = t'
  state : ∀ t sl, s.sleeper t = some sl → (∃ item, Blocked pending s t sl item) ∨
    (s.cond.threadCond t = 0 ∧ sl.stop ≤ s.time.kerneltime)
  blocks : ∀ b ∈ pending, b.event = timeOver ∧
    ∃ t sl, s.sleeper t = some sl ∧ sl.cond = b.data ∧ s.cond.threadCond t = sl.cond
  nodup : (pending.map TimeBlock.data).Nodup

variable {s s' : DelaySys} {pending pending' : List TimeBlock} {fuel : Nat}

theorem SleepInv.perm (h : SleepInv pending s) (hperm : pending.Perm pending') :
    SleepInv pending' s where
  outside := h.outside
  awake := h.awake
  sleeping := h.sleeping
  own := h.own
  state t sl hsl := by
    refine (h.state t sl hsl).imp_left ?_
    rintro ⟨item, hb⟩
    obtain ⟨b, hmem, hdata⟩ := hb.block
    exact ⟨item, { hb with block := ⟨b, hperm.mem_iff.mp hmem, hdata⟩ }⟩
  blocks b hb := h.blocks b (hperm.mem_iff.mpr hb)
  nodup := (hperm.map TimeBlock.data).nodup_iff.mp h.nodup

/-- Time goes by. -/
theorem SleepInv.time (h : SleepInv pending s) {τ : TimeState}
    (hle : s.time.kerneltime ≤ τ.kerneltime) : SleepInv pending { s with time := τ } where
  outside := h.outside
  awake := h.awake
  sleeping := h.sleeping
  own := h.own
  state t sl hsl := by
    rcases h.state t sl hsl with ⟨item, hb⟩ | ⟨hset, hstop⟩
    · exact .inl ⟨item, { hb with }⟩
    · exact .inr ⟨hset, hstop.trans hle⟩
  blocks := h.blocks
  nodup := h.nodup

/-! ### A block fires -/

theorem SleepInv.fire (hfuel : 3 < fuel) {b : TimeBlock} (h : SleepInv (b :: pending) s)
    (hlock : s.allocLock = false) (hdue : b.stop ≤ s.time.kerneltime) :
    ∃ s', s.fire fuel b.call = some s' ∧ SleepInv pending s' ∧ s'.time = s.time ∧
      s'.sleeper = s.sleeper ∧ s'.allocLock = false := by
  obtain ⟨hevent, t, sl, hsl, hdata, hset⟩ := h.blocks b List.mem_cons_self
  obtain ⟨ht, hc0, halloc, -⟩ := h.sleeping t sl hsl
  obtain ⟨hfresh, hnodup⟩ := List.nodup_cons.mp h.nodup
  obtain ⟨item, hb⟩ : ∃ item, Blocked (b :: pending) s t sl item := by
    rcases h.state t sl hsl with hb | ⟨hnull, -⟩
    · exact hb
    · exact absurd (hset.symm.trans hnull) hc0
  have hstop : sl.stop ≤ s.time.kerneltime := by
    obtain ⟨b', hmem, hdata', hstop'⟩ := hb.block
    rcases List.mem_cons.mp hmem with rfl | hrest
    · exact hstop' ▸ hdue
    · refine absurd (List.mem_map.mpr ⟨b', hrest, ?_⟩) hfresh
      exact hdata'.trans hdata
  obtain ⟨ret, hret⟩ := h.outside
  have hsignal := CondSys.signal_woken hc0 hb.nonnull hret hb.list hb.single hfuel
  have hcall : b.call.data = sl.cond := hdata.symm
  refine ⟨{ s with cond := s.cond.woken sl.cond item }, ?_, ?_, rfl, rfl, hlock⟩
  · have hguard : ¬ (s.allocLock = true ∨ b.call.event ≠ timeOver ∨
        b.call.data ∉ s.allocated) := by
      rw [hlock, not_or, not_or, not_not, not_not, hcall]
      exact ⟨Bool.false_ne_true, hevent, halloc⟩
    rw [DelaySys.fire, if_neg hguard, hcall, hsignal]
    rfl
  -- another thread keeps its condition and its entry
  have hother : ∀ t' sl', s.sleeper t' = some sl' → t' ≠ t → sl'.cond ≠ sl.cond :=
    fun t' sl' hsl' hne heq => hne (h.own t' t sl' sl hsl' hsl heq)
  refine ⟨⟨0, CondSys.woken_call ..⟩, ?_, ?_, h.own, ?_, ?_, hnodup⟩
  · intro t' ht'
    by_cases hti : t' = interrupt
    · exact ⟨0, hti ▸ CondSys.woken_call ..⟩
    · obtain ⟨ret', hret'⟩ := h.awake t' ht'
      exact ⟨ret', (Function.update_of_ne hti ..).trans hret'⟩
  · intro t' sl' hsl'
    obtain ⟨hti, hc0', halloc', hcall'⟩ := h.sleeping t' sl' hsl'
    exact ⟨hti, hc0', halloc', (Function.update_of_ne hti ..).trans hcall'⟩
  · intro t' sl' hsl'
    by_cases htt : t' = t
    · subst htt
      obtain rfl : sl = sl' := Option.some.inj (hsl.symm.trans hsl')
      refine .inr ⟨?_, hstop⟩
      change Function.update s.cond.threadCond (s.cond.entryThread item) 0 t' = 0
      rw [hb.thread, Function.update_self]
    · have hne := hother t' sl' hsl' htt
      have hkeep : Function.update s.cond.threadCond (s.cond.entryThread item) 0 t' =
          s.cond.threadCond t' := by
        rw [hb.thread, Function.update_of_ne htt]
      rcases h.state t' sl' hsl' with ⟨item', hb'⟩ | ⟨hset', hstop'⟩
      · have hitem : item' ≠ item := by
          rintro rfl
          exact htt (hb'.thread.symm.trans hb.thread)
        obtain ⟨b', hmem, hdata', hstop'⟩ := hb'.block
        have hrest : b' ∈ pending := by
          rcases List.mem_cons.mp hmem with rfl | hrest
          · exact absurd (hdata'.symm.trans hdata.symm) hne
          · exact hrest
        exact .inl ⟨item', {
          set := hkeep.trans hb'.set
          list := (Function.update_of_ne hne ..).trans hb'.list
          single := hb'.single
          thread := hb'.thread
          nonnull := hb'.nonnull
          live := (List.mem_erase_of_ne hitem).mpr hb'.live
          block := ⟨b', hrest, hdata', hstop'⟩ }⟩
      · exact .inr ⟨hkeep.trans hset', hstop'⟩
  · intro b' hb'
    obtain ⟨hevent', t', sl', hsl', hdata', hset'⟩ := h.blocks b' (List.mem_cons_of_mem _ hb')
    have htt : t' ≠ t := by
      rintro rfl
      obtain rfl : sl = sl' := Option.some.inj (hsl.symm.trans hsl')
      exact hfresh (List.mem_map.mpr ⟨b', hb', hdata'.symm.trans hdata⟩)
    refine ⟨hevent', t', sl', hsl', hdata', ?_⟩
    change Function.update s.cond.threadCond (s.cond.entryThread item) 0 t' = sl'.cond
    rw [hb.thread, Function.update_of_ne htt]
    exact hset'

/-- The blocks that are due fire. -/
theorem SleepInv.fireAll (hfuel : 3 < fuel) {due : List TimeBlock}
    (h : SleepInv (due ++ pending) s) (hlock : due ≠ [] → s.allocLock = false)
    (hdue : ∀ b ∈ due, b.stop ≤ s.time.kerneltime) :
    ∃ s', exec (DelaySys.fire fuel) s (due.map TimeBlock.call) = some s' ∧
      SleepInv pending s' ∧ s'.time = s.time ∧ s'.sleeper = s.sleeper := by
  induction due generalizing s with
  | nil => exact ⟨s, rfl, h, rfl, rfl⟩
  | cons b due ih =>
      obtain ⟨s₁, hfire, hinv, htime, hsleeper, hlock'⟩ :=
        SleepInv.fire hfuel h (hlock (List.cons_ne_nil b due)) (hdue b List.mem_cons_self)
      obtain ⟨s', hrun, hinv', htime', hsleeper'⟩ := ih hinv (fun _ => hlock') fun b' hb' => by
        rw [htime]
        exact hdue b' (List.mem_cons_of_mem _ hb')
      exact ⟨s', exec_cons_eq_some.mpr ⟨s₁, hfire, hrun⟩, hinv', htime'.trans htime,
        hsleeper'.trans hsleeper⟩

/-! ### The steps -/

def DelayInv (s : DelaySys) : Prop := SleepInv (s.time.blocks.filter TimeBlock.taken) s

theorem delayInv_of_boot (h : DelayBoot s) : DelayInv s where
  outside := h.cond.out interrupt
  awake t _ := h.cond.out t
  sleeping t sl hsl := by
    rw [h.sleeper t] at hsl
    cases hsl
  own t _ sl _ hsl := by
    rw [h.sleeper t] at hsl
    cases hsl
  state t sl hsl := by
    rw [h.sleeper t] at hsl
    cases hsl
  blocks b hb := by
    rw [h.time] at hb
    have hnone : timeInit.blocks.filter TimeBlock.taken = [] := by decide
    rw [hnone] at hb
    cases hb
  nodup := by
    rw [h.time]
    decide

/-- The blocks that are pending are those of the threads that are blocked. -/
theorem DelayInv.due_iff (h : DelayInv s) (now : Nat) :
    (∃ b ∈ s.time.blocks.filter TimeBlock.taken, b.stop ≤ now) ↔
      ∃ t sl, s.sleeper t = some sl ∧ s.cond.threadCond t ≠ 0 ∧ sl.stop ≤ now := by
  constructor
  · rintro ⟨b, hb, hdue⟩
    obtain ⟨-, t, sl, hsl, hdata, hset⟩ := h.blocks b hb
    have hne : s.cond.threadCond t ≠ 0 := fun h0 =>
      (h.sleeping t sl hsl).2.1 (hset.symm.trans h0)
    obtain ⟨item, hblocked⟩ := (h.state t sl hsl).resolve_right fun hawake => hne hawake.1
    obtain ⟨b', hb', hdata', hstop⟩ := hblocked.block
    obtain rfl : b' = b := List.inj_on_of_nodup_map h.nodup hb' hb (hdata'.trans hdata)
    exact ⟨t, sl, hsl, hne, hstop ▸ hdue⟩
  · rintro ⟨t, sl, hsl, hne, hdue⟩
    obtain ⟨item, hblocked⟩ := (h.state t sl hsl).resolve_right fun hawake => hne hawake.1
    obtain ⟨b, hb, -, hstop⟩ := hblocked.block
    exact ⟨b, hb, hstop ▸ hdue⟩

/-- A tick: the clock, and then exactly the threads whose time is over can run. -/
theorem DelayInv.timer (hfuel : 3 < fuel) (h : DelayInv s) {off : Nat}
    (hfree : ¬ s.TickWaits off)
    (hwrap : s.time.kerneltime + off < 18446744073709551616) :
    ∃ s', s.timer fuel off = some s' ∧ DelayInv s' ∧ s'.sleeper = s.sleeper ∧
      s'.time.kerneltime = s.time.kerneltime + off ∧
      ∀ t sl, s'.sleeper t = some sl →
        (s'.cond.threadCond t = 0 ↔ sl.stop ≤ s'.time.kerneltime) := by
  obtain ⟨hlen, hkept, hran⟩ := updateLoop_spec (s.time.kerneltime + off) s.time.blocks
  have hnow : u64 (s.time.kerneltime + off) = s.time.kerneltime + off := Nat.mod_eq_of_lt hwrap
  have hupdate : timeUpdate s.time off =
      (⟨(updateLoop (s.time.kerneltime + off) s.time.blocks).1, s.time.kerneltime + off⟩,
        (updateLoop (s.time.kerneltime + off) s.time.blocks).2) := by
    rw [timeUpdate, hnow]
  set taken := s.time.blocks.filter TimeBlock.taken with htaken
  set due := taken.filter (·.stop ≤ s.time.kerneltime + off) with hdue
  set later := taken.filter (s.time.kerneltime + off < ·.stop) with hlater
  have hperm : taken.Perm (due ++ later) := by
    have hnot : later = taken.filter fun b => !decide (b.stop ≤ s.time.kerneltime + off) := by
      refine List.filter_congr fun b _ => ?_
      rw [← decide_not, decide_eq_decide]
      exact not_le.symm
    rw [hnot]
    exact (List.filter_append_perm _ _).symm
  have htime : SleepInv (due ++ later) { s with time := (timeUpdate s.time off).1 } := by
    refine SleepInv.time (SleepInv.perm h hperm) ?_
    rw [hupdate]
    exact Nat.le_add_right ..
  have hlock : due ≠ [] → s.allocLock = false := by
    intro hne
    obtain ⟨b, hb⟩ := List.exists_mem_of_ne_nil _ hne
    obtain ⟨hb, hstop⟩ := List.mem_filter.mp hb
    exact Bool.eq_false_iff.mpr fun hheld =>
      hfree ⟨hheld, (h.due_iff _).mp ⟨b, hb, of_decide_eq_true hstop⟩⟩
  obtain ⟨s', hrun, hinv, htime', hsleeper⟩ := htime.fireAll hfuel hlock fun b hb => by
    rw [hupdate]
    exact of_decide_eq_true (List.mem_filter.mp hb).2
  have hclock : s'.time.kerneltime = s.time.kerneltime + off := by
    rw [htime', hupdate]
  have hblocks : s'.time.blocks.filter TimeBlock.taken = later := by
    rw [htime', hupdate]
    exact hkept
  refine ⟨s', ?_, ?_, hsleeper, hclock, ?_⟩
  · rw [DelaySys.timer, hupdate, hran]
    rw [hupdate] at hrun
    exact hrun
  · rw [DelayInv, hblocks]
    exact hinv
  · intro t sl hsl
    rw [hclock]
    constructor
    · intro hnull
      rcases hinv.state t sl hsl with ⟨item, hb⟩ | ⟨-, hstop⟩
      · exact absurd (hb.set.symm.trans hnull) (hinv.sleeping t sl hsl).2.1
      · exact hclock ▸ hstop
    · intro hstop
      rcases hinv.state t sl hsl with ⟨item, hb⟩ | ⟨hnull, -⟩
      · obtain ⟨b, hmem, -, hstop'⟩ := hb.block
        have hlt := of_decide_eq_true (List.mem_filter.mp hmem).2
        rw [hstop'] at hlt
        exact absurd hstop (Nat.not_le.mpr hlt)
      · exact hnull

/-- Otherwise the tick has to wait. -/
theorem DelayInv.timer_waits (h : DelayInv s) {off : Nat} (hheld : s.TickWaits off)
    (hwrap : s.time.kerneltime + off < 18446744073709551616) : s.timer fuel off = none := by
  obtain ⟨-, -, hran⟩ := updateLoop_spec (s.time.kerneltime + off) s.time.blocks
  have hnow : u64 (s.time.kerneltime + off) = s.time.kerneltime + off := Nat.mod_eq_of_lt hwrap
  obtain ⟨b, hb, hdue⟩ := (h.due_iff (s.time.kerneltime + off)).mpr hheld.2
  obtain ⟨first, due, hcons⟩ : ∃ first due, (s.time.blocks.filter TimeBlock.taken).filter
      (·.stop ≤ s.time.kerneltime + off) = first :: due :=
    List.exists_cons_of_ne_nil
      (List.ne_nil_of_mem (List.mem_filter.mpr ⟨hb, decide_eq_true hdue⟩))
  have hcalls : (timeUpdate s.time off).2 = first.call :: due.map TimeBlock.call := by
    rw [timeUpdate, hnow]
    exact hran.trans (congrArg (List.map TimeBlock.call) hcons)
  have hfire : DelaySys.fire fuel { s with time := (timeUpdate s.time off).1 } first.call = none :=
    if_pos (.inl hheld.1)
  rw [DelaySys.timer, hcalls, exec, hfire]
  rfl

theorem DelayInv.wake (h : DelayInv s) {t : Nat} (hstep : s.wake t = some s') : DelayInv s' := by
  obtain ⟨-, hstep⟩ := Option.ite_none_left_eq_some.mp hstep
  obtain ⟨sl, hsl, hstep⟩ := Option.bind_eq_some_iff.mp hstep
  obtain ⟨cond, hcond, hstep⟩ := Option.bind_eq_some_iff.mp hstep
  cases hstep
  obtain ⟨ht, hc0, -, hcall⟩ := h.sleeping t sl hsl
  simp only [condStep, hcall, Option.ite_none_right_eq_some] at hcond
  obtain ⟨hnull, hcond⟩ := hcond
  cases hcond
  have hother : ∀ {t' sl'}, Function.update s.sleeper t none t' = some sl' →
      t' ≠ t ∧ s.sleeper t' = some sl' ∧ sl'.cond ≠ sl.cond := by
    intro t' sl' hsl'
    have hne : t' ≠ t := by
      rintro rfl
      rw [Function.update_self] at hsl'
      cases hsl'
    rw [Function.update_of_ne hne] at hsl'
    exact ⟨hne, hsl', fun heq => hne (h.own t' t sl' sl hsl' hsl heq)⟩
  refine ⟨?_, ?_, ?_, ?_, ?_, ?_, h.nodup⟩
  · obtain ⟨ret, hret⟩ := h.outside
    exact ⟨ret, (Function.update_of_ne ht.symm ..).trans hret⟩
  · intro t' ht'
    by_cases htt : t' = t
    · exact ⟨0, htt ▸ Function.update_self ..⟩
    · obtain ⟨ret, hret⟩ := h.awake t' ((Function.update_of_ne htt ..).symm.trans ht')
      exact ⟨ret, (Function.update_of_ne htt ..).trans hret⟩
  · intro t' sl' hsl'
    obtain ⟨htt, hold, hne⟩ := hother hsl'
    obtain ⟨hti, hc0', halloc, hcall'⟩ := h.sleeping t' sl' hold
    exact ⟨hti, hc0', (List.mem_erase_of_ne hne).mpr halloc,
      (Function.update_of_ne htt ..).trans hcall'⟩
  · intro t₁ t₂ sl₁ sl₂ h₁ h₂
    exact h.own t₁ t₂ sl₁ sl₂ (hother h₁).2.1 (hother h₂).2.1
  · intro t' sl' hsl'
    rcases h.state t' sl' (hother hsl').2.1 with ⟨item, hb⟩ | hawake
    · exact .inl ⟨item, { hb with }⟩
    · exact .inr hawake
  · intro b hb
    obtain ⟨hevent, t', sl', hsl', hdata, hset⟩ := h.blocks b hb
    have htt : t' ≠ t := by
      rintro rfl
      exact (h.sleeping t' sl' hsl').2.1 (hset.symm.trans hnull)
    exact ⟨hevent, t', sl', (Function.update_of_ne htt ..).trans hsl', hdata, hset⟩

/-- The first free slot takes the block. -/
theorem addLoop_perm {new : TimeBlock} (hnew : new.taken = true) {bs bs' : List TimeBlock}
    (h : addLoop new bs = some bs') :
    (bs'.filter TimeBlock.taken).Perm (bs.filter TimeBlock.taken ++ [new]) := by
  have hfree : (bs.filter TimeBlock.taken).length < bs.length := by
    rw [← not_le]
    intro hfull
    have hall : ∀ b ∈ bs, b.taken = true := List.filter_eq_self.mp
      (List.filter_sublist.eq_of_length_le hfull)
    have hnone : ∀ cs : List TimeBlock, (∀ b ∈ cs, b.taken = true) → addLoop new cs = none := by
      intro cs hcs
      induction cs with
      | nil => rfl
      | cons c cs ih =>
          rw [addLoop, if_pos (TimeBlock.taken_iff.mp (hcs c List.mem_cons_self)),
            ih fun b hb => hcs b (List.mem_cons_of_mem _ hb)]
          rfl
    rw [hnone bs hall] at h
    cases h
  obtain ⟨bs₁, hadd, -, hperm⟩ := addLoop_spec hnew hfree
  rw [hadd] at h
  cases h
  exact hperm

/-- What `delay` leaves when the thread leaves the processor. -/
theorem DelayInv.delay_cases (h : DelayInv s) {t d c item : Nat} {tid : Int}
    (hok : DelayAllowed s (.delay t d c item tid)) (hstep : s.delay t d c item tid = some s') :
    s.sleeper t = none ∧ c ≠ 0 ∧ c ∉ s.allocated ∧ item ∉ s.cond.live ∧ ∃ bs,
      (bs.filter TimeBlock.taken).Perm (s.time.blocks.filter TimeBlock.taken ++
        [⟨timeOver, c, s.time.kerneltime + delayTime d, tid⟩]) ∧
      s' = { s with
        cond := (s.cond.setCond c condInit).slept t c item
        time := { s.time with blocks := bs }
        allocated := c :: s.allocated
        sleeper := Function.update s.sleeper t
          (some ⟨c, s.time.kerneltime + delayTime d⟩) } := by
  obtain ⟨-, h0, hwrap⟩ := hok
  have hstop : u64 (s.time.kerneltime + delayTime d) = s.time.kerneltime + delayTime d :=
    Nat.mod_eq_of_lt hwrap
  rw [DelaySys.delay, Option.ite_none_left_eq_some] at hstep
  obtain ⟨hguard, hstep⟩ := hstep
  obtain ⟨-, hsl, hc0, halloc⟩ : ¬ s.allocLock = true ∧ s.sleeper t = none ∧ c ≠ 0 ∧
      c ∉ s.allocated := by
    simpa only [not_or, not_not] using hguard
  obtain ⟨time, htime, hstep⟩ := Option.bind_eq_some_iff.mp hstep
  obtain ⟨waited, hwait, hstep⟩ := Option.bind_eq_some_iff.mp hstep
  rw [if_neg h0] at hstep
  obtain ⟨blocked, hblocked, hstep⟩ := Option.bind_eq_some_iff.mp hstep
  cases hstep
  obtain ⟨ret, hret⟩ := h.awake t hsl
  have hitem : item ∉ s.cond.live := by
    have hcall : (s.cond.setCond c condInit).call t = .out ret := hret
    simp only [condStep, hcall, Option.ite_none_right_eq_some] at hwait
    exact hwait.1.2
  have hslept : exec condStep (s.cond.setCond c condInit) [.wait t c item, .run t, .run t] =
      some ((s.cond.setCond c condInit).slept t c item) :=
    CondSys.wait_slept hc0 hitem h0 hret (Function.update_self ..)
  obtain rfl : blocked = (s.cond.setCond c condInit).slept t c item := by
    have hrun := exec_cons_eq_some.mpr ⟨waited, hwait, hblocked⟩
    exact Option.some.inj (hrun.symm.trans hslept)
  obtain ⟨bs, hbs, rfl⟩ := Option.map_eq_some_iff.mp htime
  rw [hstop] at hbs ⊢
  exact ⟨hsl, hc0, halloc, hitem, bs, addLoop_perm rfl hbs, rfl⟩

theorem DelayInv.delay (h : DelayInv s) {t d c item : Nat} {tid : Int}
    (hok : DelayAllowed s (.delay t d c item tid)) (hstep : s.delay t d c item tid = some s') :
    DelayInv s' := by
  obtain ⟨hsl, hc0, halloc, hitem, bs, hperm, rfl⟩ := h.delay_cases hok hstep
  obtain ⟨ht, h0, -⟩ := hok
  refine SleepInv.perm ?_ hperm.symm
  -- the threads that slept before have other conditions and other entries
  have hother : ∀ {t' sl'}, t' ≠ t →
      Function.update s.sleeper t (some ⟨c, s.time.kerneltime + delayTime d⟩) t' = some sl' →
      s.sleeper t' = some sl' ∧ sl'.cond ≠ c := by
    intro t' sl' htt hsl'
    rw [Function.update_of_ne htt] at hsl'
    exact ⟨hsl', fun heq => halloc (heq ▸ (h.sleeping t' sl' hsl').2.2.1)⟩
  have hself : ∀ {sl'},
      Function.update s.sleeper t (some ⟨c, s.time.kerneltime + delayTime d⟩) t = some sl' →
      sl' = ⟨c, s.time.kerneltime + delayTime d⟩ := by
    intro sl' hsl'
    rw [Function.update_self] at hsl'
    exact (Option.some.inj hsl').symm
  refine ⟨?_, ?_, ?_, ?_, ?_, ?_, ?_⟩
  · obtain ⟨ret, hret⟩ := h.outside
    exact ⟨ret, (Function.update_of_ne ht.symm ..).trans hret⟩
  · intro t' ht'
    have htt : t' ≠ t := by
      rintro rfl
      dsimp only at ht'
      rw [Function.update_self] at ht'
      cases ht'
    obtain ⟨ret, hret⟩ := h.awake t' ((Function.update_of_ne htt ..).symm.trans ht')
    exact ⟨ret, (Function.update_of_ne htt ..).trans hret⟩
  · intro t' sl' hsl'
    by_cases htt : t' = t
    · subst htt
      obtain rfl := hself hsl'
      exact ⟨ht, hc0, List.mem_cons_self, Function.update_self ..⟩
    · obtain ⟨hti, hc0', halloc', hcall⟩ := h.sleeping t' sl' (hother htt hsl').1
      exact ⟨hti, hc0', List.mem_cons_of_mem _ halloc',
        (Function.update_of_ne htt ..).trans hcall⟩
  · intro t₁ t₂ sl₁ sl₂ h₁ h₂ heq
    by_cases ht₁ : t₁ = t
    · by_cases ht₂ : t₂ = t
      · exact ht₁.trans ht₂.symm
      · subst ht₁
        obtain rfl := hself h₁
        exact absurd heq.symm (hother ht₂ h₂).2
    · by_cases ht₂ : t₂ = t
      · subst ht₂
        obtain rfl := hself h₂
        exact absurd heq (hother ht₁ h₁).2
      · exact h.own t₁ t₂ sl₁ sl₂ (hother ht₁ h₁).1 (hother ht₂ h₂).1 heq
  · intro t' sl' hsl'
    by_cases htt : t' = t
    · subst htt
      obtain rfl := hself hsl'
      exact .inl ⟨item, {
        set := Function.update_self ..
        list := Function.update_self ..
        single := Function.update_self ..
        thread := Function.update_self ..
        nonnull := h0
        live := List.mem_cons_self
        block := ⟨_, List.mem_append_right _ List.mem_cons_self, rfl, rfl⟩ }⟩
    · obtain ⟨hold, hne⟩ := hother htt hsl'
      rcases h.state t' sl' hold with ⟨item', hb⟩ | ⟨hnull, hstop⟩
      · have hitem' : item' ≠ item := fun heq => hitem (heq ▸ hb.live)
        obtain ⟨b, hmem, hdata⟩ := hb.block
        exact .inl ⟨item', {
          set := (Function.update_of_ne htt ..).trans hb.set
          list := (Function.update_of_ne hne ..).trans
            ((Function.update_of_ne hne ..).trans hb.list)
          single := (Function.update_of_ne hitem' ..).trans hb.single
          thread := (Function.update_of_ne hitem' ..).trans hb.thread
          nonnull := hb.nonnull
          live := List.mem_cons_of_mem _ hb.live
          block := ⟨b, List.mem_append_left _ hmem, hdata⟩ }⟩
      · exact .inr ⟨(Function.update_of_ne htt ..).trans hnull, hstop⟩
  · intro b hb
    rcases List.mem_append.mp hb with hold | hnew
    · obtain ⟨hevent, t', sl', hsl', hdata, hset⟩ := h.blocks b hold
      have htt : t' ≠ t := by
        rintro rfl
        rw [hsl] at hsl'
        cases hsl'
      exact ⟨hevent, t', sl', (Function.update_of_ne htt ..).trans hsl', hdata,
        (Function.update_of_ne htt ..).trans hset⟩
    · obtain rfl := List.mem_singleton.mp hnew
      exact ⟨rfl, t, _, Function.update_self .., rfl, Function.update_self ..⟩
  · rw [List.map_append, List.nodup_append']
    refine ⟨h.nodup, List.nodup_singleton _, ?_⟩
    intro data hdata hc
    obtain rfl := List.mem_singleton.mp hc
    obtain ⟨b, hb, hdata⟩ := List.mem_map.mp hdata
    obtain ⟨-, t', sl', hsl', hcond, -⟩ := h.blocks b hb
    have hin := (h.sleeping t' sl' hsl').2.2.1
    rw [hcond, hdata] at hin
    exact halloc hin

theorem delayStep_inv (hfuel : 3 < fuel) {a : DelayAct} (h : DelayInv s) (hok : DelayAllowed s a)
    (hstep : delayStep fuel s a = some s') : DelayInv s' := by
  cases a with
  | delay t d cond item tid => exact h.delay hok hstep
  | wake t => exact h.wake hstep
  | timer off =>
      have hfree : ¬ s.TickWaits off := fun hheld =>
        Option.some_ne_none s' (hstep.symm.trans (h.timer_waits hheld hok))
      obtain ⟨s₁, htimer, hinv, -⟩ := h.timer hfuel hfree hok
      obtain rfl : s₁ = s' := Option.some.inj (htimer.symm.trans hstep)
      exact hinv
  | allocBegin =>
      obtain ⟨-, hstep⟩ := Option.ite_none_left_eq_some.mp hstep
      cases hstep
      exact { h with state := fun t sl hsl => (h.state t sl hsl).imp_left fun ⟨item, hb⟩ =>
        ⟨item, { hb with }⟩ }
  | allocEnd =>
      obtain ⟨-, hstep⟩ := Option.ite_none_right_eq_some.mp hstep
      cases hstep
      exact { h with state := fun t sl hsl => (h.state t sl hsl).imp_left fun ⟨item, hb⟩ =>
        ⟨item, { hb with }⟩ }

end DelaySys

/-! ## Runs -/

/-- **Delays end on time.** In every state of every run a sleeping thread that can
run has slept for as long as it asked for, and once the lock is free `delay`
returns. The next tick, whatever its length, does not panic or touch freed memory,
and makes exactly the threads runnable whose time is over, unless it has to wait
for the lock. -/
theorem delay_on_time {s s' : DelaySys} {fuel : Nat} {acts : List DelayAct} (hfuel : 3 < fuel)
    (hboot : DelayBoot s) (hok : Guarded (delayStep fuel) DelayAllowed s acts)
    (hrun : exec (delayStep fuel) s acts = some s') :
    (∀ t sl, s'.sleeper t = some sl → s'.cond.threadCond t = 0 →
      sl.stop ≤ s'.time.kerneltime ∧
        (s'.allocLock = false → (delayStep fuel s' (.wake t)).isSome = true)) ∧
    ∀ off, s'.time.kerneltime + off < 18446744073709551616 →
      (s'.TickWaits off → delayStep fuel s' (.timer off) = none) ∧
      (¬ s'.TickWaits off → ∃ s₁, delayStep fuel s' (.timer off) = some s₁ ∧
        s₁.sleeper = s'.sleeper ∧ s₁.time.kerneltime = s'.time.kerneltime + off ∧
        ∀ t sl, s₁.sleeper t = some sl →
          (s₁.cond.threadCond t = 0 ↔ sl.stop ≤ s₁.time.kerneltime)) := by
  have hinv : s'.DelayInv := exec_guarded_inv
    (fun _ _ _ h ha hs => DelaySys.delayStep_inv hfuel h ha hs)
    (DelaySys.delayInv_of_boot hboot) hok hrun
  refine ⟨fun t sl hsl hnull => ⟨?_, fun hlock => ?_⟩, fun off hwrap =>
    ⟨fun hheld => hinv.timer_waits hheld hwrap, fun hfree => ?_⟩⟩
  · rcases hinv.state t sl hsl with ⟨item, hb⟩ | ⟨-, hstop⟩
    · exact absurd (hb.set.symm.trans hnull) (hinv.sleeping t sl hsl).2.1
    · exact hstop
  · obtain ⟨-, -, -, hcall⟩ := hinv.sleeping t sl hsl
    simp [delayStep, DelaySys.wake, hlock, hsl, condStep, hcall, hnull]
  · obtain ⟨s₁, htimer, -, hrest⟩ := hinv.timer hfuel hfree hwrap
    exact ⟨s₁, htimer, hrest⟩

def delayRest : DelaySys := ⟨condRest, timeInit, false, [], fun _ => none⟩

/-- Two threads sleep for one and two milliseconds; the first goes on after a
tick that is late. -/
def twoDelays : List DelayAct :=
  [.delay 5 1 8 16 1, .allocBegin, .timer 600000, .allocEnd, .delay 6 2 24 32 2, .timer 600000,
    .wake 5]

theorem delay_on_time_two :
    ∃ s, exec (delayStep 4) delayRest twoDelays = some s ∧
      s.sleeper 6 = some ⟨24, 2600000⟩ ∧ s.cond.threadCond 6 = 24 ∧
      ∃ s₁, delayStep 4 s (.timer 1400000) = some s₁ ∧ s₁.cond.threadCond 6 = 0 := by
  have hlast : (exec (delayStep 4) delayRest twoDelays).map (fun s =>
      (s.sleeper 6, s.cond.threadCond 6, s.time.kerneltime, s.allocLock)) =
        some (some ⟨24, 2600000⟩, 24, 1200000, false) := by decide
  obtain ⟨s, hrun, heq⟩ := Option.map_eq_some_iff.mp hlast
  obtain ⟨hsl, heq⟩ := Prod.mk.inj heq
  obtain ⟨hset, heq⟩ := Prod.mk.inj heq
  obtain ⟨hnow, hlock⟩ := Prod.mk.inj heq
  have hboot : DelayBoot delayRest := ⟨condRest_boot, rfl, fun _ => rfl⟩
  obtain ⟨-, htick⟩ := delay_on_time (by decide) hboot (by decide) hrun
  have hfree : ¬ s.TickWaits 1400000 := fun hheld =>
    Bool.false_ne_true (hlock.symm.trans hheld.1)
  obtain ⟨s₁, htimer, hsame, hclock, hrunnable⟩ :=
    (htick 1400000 (by rw [hnow]; decide)).2 hfree
  refine ⟨s, hrun, hsl, hset, s₁, htimer, (hrunnable 6 _ (hsame ▸ hsl)).mpr ?_⟩
  rw [hclock, hnow]

end LambdaOs
