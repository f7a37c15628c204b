import Mathlib.Data.List.GetD
import Mathlib.Data.List.Induction
import Mathlib.Tactic.IntervalCases
import LambdaOs.Run
import LambdaOs.Word

/-!
# Timed events

`time/time.c`: a fixed array of time blocks. `add_time_block` puts an event
into the first free slot; the timer interrupt calls `time_update`, which moves
the clock and runs the events that are due. A slot is free when its event is
`NULL`, and it is freed before its event runs.

The slots say nothing about when a block was added, so the order in which due
events run is that of the slots. What is kept is which blocks are pending:
`scheduled` reads off the calls alone, block by block, at which call each
event is to run, and `time_blocks_fire_once` says that the array runs them
there and nowhere else.
-/

namespace LambdaOs

/-! ## The blocks -/

def maxTimeBlocks : Nat := 64

/-- `time_block_t`; `stop` is its field `end`. -/
structure TimeBlock where
  event : Nat
  data : Nat
  stop : Nat
  tid : Int
deriving Repr, DecidableEq

/-- A call of an event with its data. -/
structure TimeCall where
  event : Nat
  data : Nat
deriving Repr, DecidableEq

def TimeBlock.call (b : TimeBlock) : TimeCall := ⟨b.event, b.data⟩

structure TimeState where
  blocks : List TimeBlock
  kerneltime : Nat
deriving Repr, DecidableEq

def timeInit : TimeState := ⟨List.replicate maxTimeBlocks ⟨0, 0, 0, 0⟩, 0⟩

/-- The loop of `add_time_block`; `none` is the panic behind it. -/
def addLoop (new : TimeBlock) : List TimeBlock → Option (List TimeBlock)
  | [] => none
  | b :: bs => if b.event ≠ 0 then (addLoop new bs).map (b :: ·) else some (new :: bs)

def addTimeBlock (s : TimeState) (func data off : Nat) (tid : Int) : Option TimeState :=
  (addLoop ⟨func, data, u64 (s.kerneltime + off), tid⟩ s.blocks).map fun bs =>
    { s with blocks := bs }

/-- What `_do_time_block_timeup` leaves in the slot. -/
def TimeBlock.timeup (b : TimeBlock) : TimeBlock := { b with event := 0, stop := 0, tid := 0 }

/-- The loop of `time_update` from a slot on: the slots, and the events it
runs. The events do not add blocks themselves. -/
def updateLoop (now : Nat) : List TimeBlock → List TimeBlock × List TimeCall
  | [] => ([], [])
  | b :: bs =>
      let r := updateLoop now bs
      if b.event ≠ 0 ∧ now ≥ b.stop then (b.timeup :: r.1, b.call :: r.2) else (b :: r.1, r.2)

def timeUpdate (s : TimeState) (off : Nat) : TimeState × List TimeCall :=
  let now := u64 (s.kerneltime + off)
  let r := updateLoop now s.blocks
  (⟨r.1, now⟩, r.2)

/-! ## Runs -/

inductive TimeOp where
  | add (func data off : Nat) (tid : Int)
  | update (off : Nat)
deriving Repr, DecidableEq

/-- One call, and the events that run in it. -/
def timeStep (s : TimeState) : TimeOp → Option (TimeState × List TimeCall)
  | .add func data off tid => (addTimeBlock s func data off tid).map fun s => (s, [])
  | .update off => some (timeUpdate s off)

/-- The state after some calls, and the events each of them ran. -/
def timeLogStep (r : TimeState × List (List TimeCall)) (op : TimeOp) :
    Option (TimeState × List (List TimeCall)) :=
  (timeStep r.1 op).map fun r' => (r'.1, r.2 ++ [r'.2])

/-! ## When events are to run -/

/-- What the clock shows after some calls, without wrap-around. -/
def clock (now : Nat) : List TimeOp → Nat
  | [] => now
  | .add _ _ _ _ :: ops => clock now ops
  | .update off :: ops => clock (now + off) ops

/-- The first of some calls that brings the clock to `stop`. -/
def reaches (stop now : Nat) : List TimeOp → Option Nat
  | [] => none
  | .add _ _ _ _ :: ops => (reaches stop now ops).map (· + 1)
  | .update off :: ops =>
      if stop ≤ now + off then some 0 else (reaches stop (now + off) ops).map (· + 1)

/-- A block that was added, and the call that is to run its event, if there is
one yet. -/
structure Owed where
  block : TimeBlock
  firesAt : Option Nat
deriving Repr, DecidableEq

def Owed.later (o : Owed) : Owed := { o with firesAt := o.firesAt.map (· + 1) }

/-- The blocks added by some calls. -/
def scheduled (now : Nat) : List TimeOp → List Owed
  | [] => []
  | .add func data off tid :: ops =>
      let stop := u64 (now + off)
      ⟨⟨func, data, stop, tid⟩, (reaches stop now ops).map (· + 1)⟩ ::
        (scheduled now ops).map Owed.later
  | .update off :: ops => (scheduled (now + off) ops).map Owed.later

/-- The blocks whose event is still to run. -/
def outstanding (now : Nat) (ops : List TimeOp) : List TimeBlock :=
  ((scheduled now ops).filter (·.firesAt = none)).map Owed.block

/-- The events that are to run in call `j`. -/
def owedAt (now : Nat) (ops : List TimeOp) (j : Nat) : List TimeCall :=
  ((scheduled now ops).filter (·.firesAt = some j)).map fun o => o.block.call

section Snoc

variable {now stop : Nat} {func data off : Nat} {tid : Int}

theorem reaches_snoc_add {ops : List TimeOp} {now : Nat} :
    reaches stop now (ops ++ [.add func data off tid]) = reaches stop now ops := by
  induction ops generalizing now with
  | nil => rfl
  | cons op ops ih =>
      cases op with
      | add f d o t => rw [List.cons_append, reaches, reaches, ih]
      | update o => rw [List.cons_append, reaches, reaches, ih]

/-- One call later. -/
theorem map_succ_or (o : Option Nat) (c : Prop) [Decidable c] (n : Nat) :
    (o.or (if c then some n else none)).map (· + 1) =
      (o.map (· + 1)).or (if c then some (n + 1) else none) := by
  cases o with
  | some k => rfl
  | none =>
    by_cases hc : c
    · simp [hc]
    · simp [hc]

theorem reaches_snoc_update {ops : List TimeOp} {now : Nat} :
    reaches stop now (ops ++ [.update off]) =
      (reaches stop now ops).or
        (if stop ≤ clock now ops + off then some ops.length else none) := by
  induction ops generalizing now with
  | nil => rfl
  | cons op ops ih =>
      cases op with
      | add f d o t =>
          rw [List.cons_append, reaches, reaches, clock, ih, List.length_cons, map_succ_or]
      | update o =>
          rw [List.cons_append, reaches, reaches, clock, ih, List.length_cons, map_succ_or]
          by_cases hstop : stop ≤ now + o
          · rw [if_pos hstop, if_pos hstop]
            rfl
          · rw [if_neg hstop, if_neg hstop]

theorem clock_snoc_add {ops : List TimeOp} :
    clock now (ops ++ [.add func data off tid]) = clock now ops := by
  induction ops generalizing now with
  | nil => rfl
  | cons op ops ih =>
    cases op with
    | add => exact ih
    | update => exact ih

theorem clock_snoc_update {ops : List TimeOp} :
    clock now (ops ++ [.update off]) = clock now ops + off := by
  induction ops generalizing now with
  | nil => rfl
  | cons op ops ih =>
    cases op with
    | add => exact ih
    | update => exact ih

/-- A block at an update, which is call `n`. -/
def Owed.tick (n now : Nat) (o : Owed) : Owed :=
  { o with firesAt := o.firesAt.or (if o.block.stop ≤ now then some n else none) }

theorem Owed.later_tick (n now : Nat) (o : Owed) :
    (o.tick n now).later = o.later.tick (n + 1) now :=
  congrArg (Owed.mk o.block) (map_succ_or ..)

theorem Owed.tick_eq_none {n now : Nat} {o : Owed} :
    (o.tick n now).firesAt = none ↔ now < o.block.stop ∧ o.firesAt = none := by
  simp only [Owed.tick, Option.or_eq_none_iff, ite_eq_right_iff, reduceCtorEq, imp_false,
    Nat.not_le, and_comm]

theorem Owed.tick_eq_some {n now j : Nat} {o : Owed} :
    (o.tick n now).firesAt = some j ↔
      o.firesAt = some j ∨ (o.firesAt = none ∧ o.block.stop ≤ now ∧ n = j) := by
  simp only [Owed.tick, Option.or_eq_some_iff, Option.ite_none_right_eq_some, Option.some.injEq]

theorem scheduled_snoc_add {ops : List TimeOp} {now : Nat} :
    scheduled now (ops ++ [.add func data off tid]) =
      scheduled now ops ++ [⟨⟨func, data, u64 (clock now ops + off), tid⟩, none⟩] := by
  induction ops generalizing now with
  | nil => rfl
  | cons op ops ih =>
      cases op with
      | add f d o t =>
          simp only [List.cons_append, scheduled, clock, ih, reaches_snoc_add, List.map_append,
            List.map_cons, List.map_nil, Owed.later, Option.map_none]
      | update o =>
          simp only [List.cons_append, scheduled, clock, ih, List.map_append, List.map_cons,
            List.map_nil, Owed.later, Option.map_none]

theorem scheduled_snoc_update {ops : List TimeOp} {now : Nat} :
    scheduled now (ops ++ [.update off]) =
      (scheduled now ops).map (Owed.tick ops.length (clock now ops + off)) := by
  induction ops generalizing now with
  | nil => rfl
  | cons op ops ih =>
      cases op with
      | add f d o t =>
          rw [List.cons_append, scheduled, scheduled, ih, reaches_snoc_update, List.map_cons,
            List.map_map, List.map_map, clock, List.length_cons]
          congr 1
          · exact Owed.later_tick ops.length (clock now ops + off) ⟨_, reaches _ now ops⟩
          · exact List.map_congr_left fun o _ => Owed.later_tick ..
      | update o =>
          rw [List.cons_append, scheduled, scheduled, ih, List.map_map, List.map_map, clock,
            List.length_cons]
          exact List.map_congr_left fun o _ => Owed.later_tick ..

/-- Events are due at calls that have been made. -/
theorem scheduled_lt {ops : List TimeOp} : ∀ o ∈ scheduled now ops, ∀ j, o.firesAt = some j →
    j < ops.length := by
  induction ops using List.reverseRecOn with
  | nil => exact nofun
  | append_singleton ops op ih =>
    rw [List.length_append, List.length_singleton]
    cases op with
    | add f d off tid =>
      rw [scheduled_snoc_add]
      intro o ho j hj
      rcases List.mem_append.mp ho with ho | ho
      · exact Nat.lt_succ_of_lt (ih o ho j hj)
      · rw [List.mem_singleton.mp ho] at hj
        cases hj
    | update off =>
      rw [scheduled_snoc_update]
      intro o ho j hj
      obtain ⟨o', ho', rfl⟩ := List.mem_map.mp ho
      rcases Owed.tick_eq_some.mp hj with hj | ⟨-, -, rfl⟩
      · exact Nat.lt_succ_of_lt (ih o' ho' j hj)
      · exact Nat.lt_succ_self _

theorem outstanding_snoc_add {ops : List TimeOp} :
    outstanding now (ops ++ [.add func data off tid]) =
      outstanding now ops ++ [⟨func, data, u64 (clock now ops + off), tid⟩] := by
  simp [outstanding, scheduled_snoc_add]

theorem outstanding_snoc_update {ops : List TimeOp} :
    outstanding now (ops ++ [.update off]) =
      (outstanding now ops).filter fun b => clock now ops + off < b.stop := by
  rw [outstanding, outstanding, scheduled_snoc_update, List.filter_map, List.map_map,
    List.filter_map, List.filter_filter]
  refine congrArg (List.map Owed.block) (List.filter_congr ?_)
  intro o _
  rw [Bool.eq_iff_iff]
  simp only [Function.comp_apply, Bool.and_eq_true, decide_eq_true_eq, Owed.tick_eq_none]

theorem owedAt_snoc_add {ops : List TimeOp} {j : Nat} :
    owedAt now (ops ++ [.add func data off tid]) j = owedAt now ops j := by
  simp [owedAt, scheduled_snoc_add]

theorem owedAt_of_length_le {ops : List TimeOp} {j : Nat} (hj : ops.length ≤ j) :
    owedAt now ops j = [] := by
  rw [owedAt, List.filter_eq_nil_iff.mpr, List.map_nil]
  intro o ho hat
  have hlt := scheduled_lt o ho j (of_decide_eq_true hat)
  omega

theorem owedAt_snoc_update {ops : List TimeOp} {j : Nat} (hj : j < ops.length) :
    owedAt now (ops ++ [.update off]) j = owedAt now ops j := by
  rw [owedAt, owedAt, scheduled_snoc_update, List.filter_map, List.map_map]
  refine congrArg (List.map _) (List.filter_congr ?_)
  intro o _
  rw [Bool.eq_iff_iff]
  simp only [Function.comp_apply, decide_eq_true_eq, Owed.tick_eq_some]
  refine or_iff_left ?_
  intro hat
  omega

/-- What an update has to run. -/
theorem owedAt_snoc_update_self {ops : List TimeOp} :
    owedAt now (ops ++ [.update off]) ops.length =
      ((outstanding now ops).filter fun b => b.stop ≤ clock now ops + off).map
        TimeBlock.call := by
  rw [owedAt, outstanding, scheduled_snoc_update, List.filter_map, List.map_map, List.filter_map,
    List.map_map, List.filter_filter]
  refine congrArg (List.map _) (List.filter_congr ?_)
  intro o ho
  rw [Bool.eq_iff_iff]
  simp only [Function.comp_apply, Bool.and_eq_true, decide_eq_true_eq, Owed.tick_eq_some]
  -- no earlier call is this one
  have hnot : o.firesAt ≠ some ops.length := fun hat =>
    Nat.lt_irrefl _ (scheduled_lt o ho _ hat)
  rw [or_iff_right hnot, and_true]
  exact and_comm

end Snoc

/-! ## The loops -/

def TimeBlock.taken (b : TimeBlock) : Bool := b.event ≠ 0

theorem TimeBlock.taken_iff {b : TimeBlock} : b.taken = true ↔ b.event ≠ 0 := decide_eq_true_iff

theorem addLoop_spec {new : TimeBlock} (hnew : new.taken = true) {bs : List TimeBlock}
    (hfree : (bs.filter TimeBlock.taken).length < bs.length) :
    ∃ bs', addLoop new bs = some bs' ∧ bs'.length = bs.length ∧
      (bs'.filter TimeBlock.taken).Perm (bs.filter TimeBlock.taken ++ [new]) := by
  induction bs with
  | nil => exact absurd hfree (Nat.lt_irrefl 0)
  | cons b bs ih =>
      by_cases hb : b.taken = true
      · have hrest : (bs.filter TimeBlock.taken).length < bs.length := by
          rw [List.filter_cons_of_pos hb] at hfree
          exact Nat.lt_of_succ_lt_succ hfree
        obtain ⟨bs', hadd, hlen, hperm⟩ := ih hrest
        refine ⟨b :: bs', ?_, ?_, ?_⟩
        · rw [addLoop, if_pos (TimeBlock.taken_iff.mp hb), hadd]
          rfl
        · rw [List.length_cons, List.length_cons, hlen]
        · rw [List.filter_cons_of_pos hb, List.filter_cons_of_pos hb]
          exact hperm.cons b
      · refine ⟨new :: bs, if_neg fun h => hb (TimeBlock.taken_iff.mpr h), rfl, ?_⟩
        rw [List.filter_cons_of_pos hnew, List.filter_cons_of_neg hb]
        exact (List.perm_append_singleton new _).symm

theorem updateLoop_spec (now : Nat) (bs : List TimeBlock) :
    (updateLoop now bs).1.length = bs.length ∧
      (updateLoop now bs).1.filter TimeBlock.taken =
        (bs.filter TimeBlock.taken).filter (now < ·.stop) ∧
      (updateLoop now bs).2 =
        ((bs.filter TimeBlock.taken).filter (·.stop ≤ now)).map TimeBlock.call := by
  induction bs with
  | nil => exact ⟨rfl, rfl, rfl⟩
  | cons b bs ih =>
      obtain ⟨hlen, hkept, hran⟩ := ih
      have hfree : b.timeup.taken = false := rfl
      by_cases hb : b.taken = true
      · by_cases hdue : b.stop ≤ now
        · rw [updateLoop, if_pos ⟨TimeBlock.taken_iff.mp hb, hdue⟩]
          simp only [List.filter_cons, hb, hfree, hdue, Nat.not_lt.mpr hdue, hlen, hkept, hran,
            List.length_cons, List.map_cons, decide_true, decide_false, if_true, Bool.false_eq_true,
            if_false, and_self]
        · rw [updateLoop, if_neg fun h => hdue h.2]
          simp only [List.filter_cons, hb, hdue, Nat.lt_of_not_le hdue, hlen, hkept, hran,
            List.length_cons, decide_true, decide_false, if_true, Bool.false_eq_true, if_false,
            and_self]
      · rw [updateLoop, if_neg fun h => hb (TimeBlock.taken_iff.mpr h.1)]
        simp only [List.filter_cons, hb, hlen, hkept, hran, List.length_cons, Bool.false_eq_true,
          if_false, and_self]

/-! ## Whole runs -/

/-- The state and the log after some calls. -/
structure TimeInv (ops : List TimeOp) (r : TimeState × List (List TimeCall)) : Prop where
  time : r.1.kerneltime = clock 0 ops
  slots : r.1.blocks.length = maxTimeBlocks
  pending : (r.1.blocks.filter TimeBlock.taken).Perm (outstanding 0 ops)
  calls : r.2.length = ops.length
  ran : ∀ j, (r.2.getD j []).Perm (owedAt 0 ops j)

theorem timeInit_inv : TimeInv [] (timeInit, []) :=
  ⟨rfl, rfl, by decide, rfl, fun _ => .refl _⟩

section Step

variable {ops : List TimeOp} {r : TimeState × List (List TimeCall)}

/-- The log with the events of one more call. -/
theorem TimeInv.log (h : TimeInv ops r) {op : TimeOp} {now : List TimeCall}
    (hold : ∀ j < ops.length, owedAt 0 (ops ++ [op]) j = owedAt 0 ops j)
    (hnow : now.Perm (owedAt 0 (ops ++ [op]) ops.length)) (j : Nat) :
    ((r.2 ++ [now]).getD j []).Perm (owedAt 0 (ops ++ [op]) j) := by
  rcases Nat.lt_trichotomy j ops.length with hj | rfl | hj
  · rw [List.getD_append _ _ _ _ (by rw [h.calls]; exact hj), hold j hj]
    exact h.ran j
  · rw [List.getD_append_right _ _ _ _ (Nat.le_of_eq h.calls), h.calls, Nat.sub_self]
    exact hnow
  · rw [owedAt_of_length_le (by rw [List.length_append, List.length_singleton]; exact hj),
      List.getD_eq_default _ _ (by
        rw [List.length_append, List.length_singleton, h.calls]
        exact hj)]

theorem TimeInv.add (h : TimeInv ops r) {func data off : Nat} {tid : Int} (hfunc : func ≠ 0)
    (hroom : (outstanding 0 ops).length < maxTimeBlocks) :
    ∃ r', timeLogStep r (.add func data off tid) = some r' ∧
      TimeInv (ops ++ [.add func data off tid]) r' := by
  have hfree : (r.1.blocks.filter TimeBlock.taken).length < r.1.blocks.length := by
    rw [h.pending.length_eq, h.slots]
    exact hroom
  have hnew : (TimeBlock.mk func data (u64 (r.1.kerneltime + off)) tid).taken = true :=
    TimeBlock.taken_iff.mpr hfunc
  obtain ⟨bs, hadd, hlen, hperm⟩ := addLoop_spec hnew hfree
  refine ⟨⟨⟨bs, r.1.kerneltime⟩, r.2 ++ [[]]⟩, ?_, ?_, hlen.trans h.slots, ?_, ?_, ?_⟩
  · rw [timeLogStep, timeStep, addTimeBlock, hadd]
    rfl
  · rw [clock_snoc_add]
    exact h.time
  · rw [outstanding_snoc_add, ← h.time]
    exact hperm.trans (h.pending.append_right _)
  · rw [List.length_append, List.length_append, h.calls]
    rfl
  · refine h.log (fun j _ => owedAt_snoc_add) ?_
    rw [owedAt_snoc_add, owedAt_of_length_le (Nat.le_refl _)]

theorem TimeInv.update (h : TimeInv ops r) {off : Nat}
    (hwrap : clock 0 ops + off < 18446744073709551616) :
    ∃ r', timeLogStep r (.update off) = some r' ∧ TimeInv (ops ++ [.update off]) r' := by
  have hnow : u64 (r.1.kerneltime + off) = clock 0 ops + off := by
    rw [h.time]
    exact Nat.mod_eq_of_lt hwrap
  obtain ⟨hlen, hkept, hran⟩ := updateLoop_spec (clock 0 ops + off) r.1.blocks
  refine ⟨⟨⟨(updateLoop (clock 0 ops + off) r.1.blocks).1, clock 0 ops + off⟩,
    r.2 ++ [(updateLoop (clock 0 ops + off) r.1.blocks).2]⟩, ?_, ?_, hlen.trans h.slots, ?_, ?_, ?_⟩
  · rw [timeLogStep, timeStep, timeUpdate, hnow]
    rfl
  · rw [clock_snoc_update]
  · rw [outstanding_snoc_update, hkept]
    exact h.pending.filter _
  · rw [List.length_append, List.length_append, h.calls]
    rfl
  · refine h.log (fun j hj => owedAt_snoc_update hj) ?_
    rw [owedAt_snoc_update_self, hran]
    exact (h.pending.filter _).map _

end Step

/-- The calls a run is made of: every block that is added has an event, and at
that point fewer than `MAX_TIME_BLOCKS` blocks are outstanding; the clock does
not wrap. -/
structure TimeOps (ops : List TimeOp) : Prop where
  adds : ∀ i func data off tid, ops[i]? = some (.add func data off tid) →
    func ≠ 0 ∧ (outstanding 0 (ops.take i)).length < maxTimeBlocks
  noWrap : clock 0 ops < 18446744073709551616

/-- **Timed events run exactly once and on time**: a run of calls does not
panic; call `j` runs, in some order, the events whose first call that reaches
their end time is `j`, each with its own data; and the blocks of the other
events are the ones in the array. -/
theorem time_blocks_fire_once {ops : List TimeOp} (hops : TimeOps ops) :
    ∃ s outs, exec timeLogStep (timeInit, []) ops = some (s, outs) ∧
      outs.length = ops.length ∧ (∀ j, (outs.getD j []).Perm (owedAt 0 ops j)) ∧
      (s.blocks.filter TimeBlock.taken).Perm (outstanding 0 ops) := by
  suffices hrun : ∃ r, exec timeLogStep (timeInit, []) ops = some r ∧ TimeInv ops r by
    obtain ⟨r, hrun, h⟩ := hrun
    exact ⟨r.1, r.2, hrun, h.calls, h.ran, h.pending⟩
  induction ops using List.reverseRecOn with
  | nil => exact ⟨_, rfl, timeInit_inv⟩
  | append_singleton ops op ih =>
    have hlast : (ops ++ [op])[ops.length]? = some op := by simp
    have hpre : TimeOps ops := by
      refine ⟨?_, ?_⟩
      · intro i func data off tid hi
        have hlt := (List.getElem?_eq_some_iff.mp hi).1
        have hadd := hops.adds i func data off tid (by rwa [List.getElem?_append_left hlt])
        rwa [List.take_append_of_le_length (Nat.le_of_lt hlt)] at hadd
      · have hclock := hops.noWrap
        cases op with
        | add => rwa [clock_snoc_add] at hclock
        | update off =>
          rw [clock_snoc_update] at hclock
          omega
    obtain ⟨r, hrun, h⟩ := ih hpre
    have hstep : ∃ r', timeLogStep r op = some r' ∧ TimeInv (ops ++ [op]) r' := by
      cases op with
      | add func data off tid =>
        obtain ⟨hfunc, hroom⟩ := hops.adds _ _ _ _ _ hlast
        rw [List.take_left] at hroom
        exact h.add hfunc hroom
      | update off =>
        have hclock := hops.noWrap
        rw [clock_snoc_update] at hclock
        exact h.update hclock
    obtain ⟨r', hr', h'⟩ := hstep
    exact ⟨r', exec_append_eq_some.mpr ⟨r, hrun, exec_cons_eq_some.mpr ⟨r', hr', rfl⟩⟩, h'⟩

/-- Two blocks, the second one due first; its slot is used again. -/
def twoTimers : List TimeOp :=
  [.add 7 1 30 0, .add 7 2 10 0, .update 10, .add 8 3 5 0, .update 25, .update 25]

theorem twoTimers_ops : TimeOps twoTimers := by
  refine ⟨?_, by decide⟩
  intro i func data off tid hi
  have hlt : i < 6 := (List.getElem?_eq_some_iff.mp hi).1
  interval_cases i <;> simp [twoTimers] at hi
  · obtain ⟨rfl, -⟩ := hi
    decide
  · obtain ⟨rfl, -⟩ := hi
    decide
  · obtain ⟨rfl, -⟩ := hi
    decide

theorem time_blocks_fire_twoTimers :
    ∃ s outs, exec timeLogStep (timeInit, []) twoTimers = some (s, outs) ∧
      outs = [[], [], [⟨7, 2⟩], [], [⟨7, 1⟩, ⟨8, 3⟩], []] ∧
      ∀ j, (outs.getD j []).Perm (owedAt 0 twoTimers j) := by
  obtain ⟨s, outs, hrun, -, hran, -⟩ := time_blocks_fire_once twoTimers_ops
  have houts : (exec timeLogStep (timeInit, []) twoTimers).map Prod.snd =
      some [[], [], [⟨7, 2⟩], [], [⟨7, 1⟩, ⟨8, 3⟩], []] := by decide +kernel
  rw [hrun] at houts
  exact ⟨s, outs, hrun, Option.some.inj houts, hran⟩

end LambdaOs
