import Mathlib.Data.List.GetD
import LambdaOs.Run
import LambdaOs.Proc

/-!
# File handles of processes

`fork` copies the pointers of a table of open files, and `proc_fs_close` frees
what a pointer leads to: nobody counts who still has it. `proc_fs_open` frees
the handle that `proc_add_file` has put into slot `0`. So no live process is
left with a handle that is freed exactly in the runs whose closes are of a
handle in no other slot, and whose opens find slot `0` taken
(`handles_kept_iff_sole_holder`).

All other calls only copy whole tables, or drop them, which is the one lemma
`FilesInv.of_tables`.
-/

namespace LambdaOs

namespace ProcState

/-! ## What is promised of handles -/

/-- Every handle in the table of a live process is allocated and open. -/
def NoDangling (s : ProcState) : Prop :=
  ∀ p ∈ s.procs, (s.kprocs p).zombie = false → ∀ h ∈ (s.kprocs p).openFiles, h ≠ 0 →
    s.handles h = some true

instance (s : ProcState) : Decidable s.NoDangling :=
  inferInstanceAs (Decidable (∀ p ∈ s.procs, _))

/-- No handle dangles after the action, and it frees nothing but a handle. -/
structure HandlesKept (s : ProcState) (a : ProcAct) : Prop where
  noDangling : ∀ s', procStep s a = some s' → s'.NoDangling
  inTable : procCall s a ≠ .error .outOfTable
  allocated : procCall s a ≠ .error .notAllocated

/-- The slot is the only one of a live process with that handle. -/
def SoleHolder (s : ProcState) (p desc : Nat) : Prop :=
  ∀ q ∈ s.procs, (s.kprocs q).zombie = false → ∀ i < (s.kprocs q).openFiles.length,
    (s.kprocs q).openFiles.getD i 0 = (s.kprocs p).openFiles.getD desc 0 → q = p ∧ i = desc

instance (s : ProcState) (p desc : Nat) : Decidable (s.SoleHolder p desc) :=
  inferInstanceAs (Decidable (∀ q ∈ s.procs, _))

/-- An open finds slot `0` taken; a close is of a slot of the table, whose handle
is in no other. Past the table is the position of file `0`. -/
def FilesOk (s : ProcState) : ProcAct → Prop
  | .openFile p .opened =>
      s.CanCall p → (s.kprocs p).cwd ≠ 0 → (s.kprocs p).openFiles[0]? ≠ some 0
  | .closeFile p desc =>
      s.CanCall p → 0 ≤ desc ∧ (desc = maxOpenFiles → (s.kprocs p).filePosition.getD 0 0 = 0) ∧
        (desc < maxOpenFiles → (s.kprocs p).openFiles.getD desc.toNat 0 ≠ 0 →
          s.SoleHolder p desc.toNat)
  | _ => True

instance (s : ProcState) : DecidablePred s.FilesOk
  | .openFile _ .opened => inferInstanceAs (Decidable (_ → _))
  | .closeFile _ _ => inferInstanceAs (Decidable (_ → _))
  | .openFile _ .notFound => isTrue trivial
  | .openFile _ .notDir => isTrue trivial
  | .openFile _ .noMemory => isTrue trivial
  | .openFile _ .failed => isTrue trivial
  | .fork .. => isTrue trivial
  | .execve .. => isTrue trivial
  | .exit .. => isTrue trivial
  | .wait .. => isTrue trivial
  | .wake _ => isTrue trivial

end ProcState

/-! ## The invariant -/

structure FilesInv (s : ProcState) : Prop where
  noDangling : s.NoDangling
  handPos : 0 < s.nextHand
  handFresh : ∀ h, s.nextHand ≤ h → s.handles h = none
  addr : ∀ p ∈ s.procs, p < s.nextProc
  dead : ∀ p ∈ s.procs, (s.kprocs p).zombie = true → (s.kprocs p).runnable = false

theorem initMultitasking_files : FilesInv initMultitasking :=
  ⟨by decide, by decide, fun _ _ => rfl, by decide, by decide⟩

namespace FilesInv

variable {s s' : ProcState} {p : Nat} {k : Kproc}

theorem alive (h : FilesInv s) (hcan : s.CanCall p) : (s.kprocs p).zombie = false := by
  rw [← Bool.not_eq_true]
  intro hz
  have hrun := h.dead p hcan.1 hz
  rw [hcan.2.1] at hrun
  cases hrun

/-- The tables of the live processes are tables that live processes had. -/
theorem of_tables (h : FilesInv s) (hh : s'.handles = s.handles) (hn : s'.nextHand = s.nextHand)
    (ht : ∀ p ∈ s'.procs, p < s'.nextProc ∧
      ((s'.kprocs p).zombie = true → (s'.kprocs p).runnable = false) ∧
      ((s'.kprocs p).zombie = false → ∃ q ∈ s.procs, (s.kprocs q).zombie = false ∧
        (s'.kprocs p).openFiles = (s.kprocs q).openFiles)) : FilesInv s' := by
  refine ⟨?_, hn ▸ h.handPos, ?_, fun p hp => (ht p hp).1,
    fun p hp => (ht p hp).2.1⟩
  · intro p hp hz hand hin h0
    obtain ⟨q, hq, hqz, heq⟩ := (ht p hp).2.2 hz
    rw [hh]
    exact h.noDangling q hq hqz hand (heq ▸ hin) h0
  · rw [hh, hn]
    exact h.handFresh

/-- A change of one process that keeps its table. -/
theorem setProc (h : FilesInv s) (hfiles : k.openFiles = (s.kprocs p).openFiles)
    (hdead : (s.kprocs p).zombie = true → k.zombie = true)
    (hstop : p ∈ s.procs → k.zombie = true → k.runnable = false) :
    FilesInv (s.setProc p k) := by
  refine h.of_tables rfl rfl fun q hq => ⟨h.addr q hq, ?_⟩
  by_cases hqp : q = p
  · rw [hqp, ProcState.setProc_self]
    refine ⟨hstop (hqp ▸ hq), fun hz => ⟨p, hqp ▸ hq, ?_, hfiles⟩⟩
    rw [← Bool.not_eq_true] at hz ⊢
    exact fun hold => hz (hdead hold)
  · rw [ProcState.setProc_of_ne hqp]
    exact ⟨h.dead q hq, fun hz => ⟨q, hq, hz, rfl⟩⟩

/-- Some processes are gone. -/
theorem of_sublist (h : FilesInv s) (hh : s'.handles = s.handles)
    (hn : s'.nextHand = s.nextHand) (hk : s'.kprocs = s.kprocs)
    (hp : ∀ p ∈ s'.procs, p ∈ s.procs) (hnext : s.nextProc ≤ s'.nextProc) : FilesInv s' := by
  refine h.of_tables hh hn fun q hq => ⟨Nat.lt_of_lt_of_le (h.addr q (hp q hq)) hnext, ?_⟩
  rw [hk]
  exact ⟨h.dead q (hp q hq), fun hz => ⟨q, hp q hq, hz, rfl⟩⟩

/-- A structure that is not in `procs` yet. -/
theorem setFresh (h : FilesInv s) (k : Kproc) :
    FilesInv { s.setProc s.nextProc k with nextProc := s.nextProc + 1 } := by
  refine h.of_tables rfl rfl fun q hq => ⟨Nat.lt_succ_of_lt (h.addr q hq), ?_⟩
  have hold : (s.setProc s.nextProc k).kprocs q = s.kprocs q :=
    ProcState.setProc_of_ne (Nat.ne_of_lt (h.addr q hq))
  change (((s.setProc s.nextProc k).kprocs q).zombie = true →
      ((s.setProc s.nextProc k).kprocs q).runnable = false) ∧
    (((s.setProc s.nextProc k).kprocs q).zombie = false → _)
  rw [hold]
  exact ⟨h.dead q hq, fun hz => ⟨q, hq, hz, rfl⟩⟩

/-- A new process with the table of another. -/
theorem join (h : FilesInv s) (child : Nat) (hlt : child < s.nextProc)
    (halive : (s.kprocs child).zombie = false) (hp : p ∈ s.procs)
    (hpz : (s.kprocs p).zombie = false)
    (hfiles : (s.kprocs child).openFiles = (s.kprocs p).openFiles) :
    FilesInv { s with procs := s.procs ++ [child] } := by
  refine h.of_tables rfl rfl ?_
  intro q hq
  rcases List.mem_append.mp hq with hq | hq
  · exact ⟨h.addr q hq, h.dead q hq, fun hz => ⟨q, hq, hz, rfl⟩⟩
  · rw [List.mem_singleton.mp hq]
    refine ⟨hlt, ?_, fun _ => ⟨p, hp, hpz, hfiles⟩⟩
    intro hz
    change (s.kprocs child).zombie = true at hz
    rw [halive] at hz
    cases hz

end FilesInv

/-! ## The calls -/

def KeepsFiles : Except ProcStop (ProcState × Option Int) → Prop
  | .ok (s', _) => FilesInv s'
  | .error e => e ≠ .outOfTable ∧ e ≠ .notAllocated

namespace FilesInv

variable {s : ProcState} {p : Nat}

theorem fork (h : FilesInv s) (hcan : s.CanCall p) (copied : Bool) :
    KeepsFiles (s.fork p copied) := by
  have hne : p ≠ s.nextProc := Nat.ne_of_lt (h.addr p hcan.1)
  have hpz := h.alive hcan
  unfold ProcState.fork
  split
  · exact ⟨nofun, nofun⟩
  simp only
  split
  · exact h.setFresh _
  rename_i slot hslot
  generalize hc : ({ blankProc with
    pid := s.nextPid
    parent := (s.kprocs p).pid
    runnable := copied
    cwd := (s.kprocs p).cwd
    openFiles := (s.kprocs p).openFiles
    filePosition := (s.kprocs p).filePosition } : Kproc) = c
  have hadopt := h.setProc (p := p) (k := { s.kprocs p with
    children := (s.kprocs p).children.set slot s.nextProc }) rfl id (fun _ => h.dead p hcan.1)
  have hborn := hadopt.setFresh c
  cases copied with
  | false => exact hborn.of_sublist rfl rfl rfl (fun _ hq => hq) (Nat.le_refl _)
  | true =>
    have hself : ∀ s₁ : ProcState, (s₁.setProc s.nextProc c).kprocs s.nextProc = c :=
      fun _ => ProcState.setProc_self
    have hparent : ((s.setProc p { s.kprocs p with
        children := (s.kprocs p).children.set slot s.nextProc }).setProc s.nextProc c).kprocs p =
        { s.kprocs p with children := (s.kprocs p).children.set slot s.nextProc } :=
      (ProcState.setProc_of_ne hne).trans ProcState.setProc_self
    have hfiles : c.openFiles = (s.kprocs p).openFiles := by rw [← hc]
    have hjoin := hborn.join (p := p) s.nextProc (Nat.lt_succ_self _)
      ((congrArg Kproc.zombie (hself _)).trans (by rw [← hc]; rfl)) hcan.1
      ((congrArg Kproc.zombie hparent).trans hpz)
      ((congrArg Kproc.openFiles (hself _)).trans
        (hfiles.trans (congrArg Kproc.openFiles hparent).symm))
    exact hjoin.of_sublist rfl rfl rfl (fun _ hq => hq) (Nat.le_refl _)

theorem execve (h : FilesInv s) (failure : Option Int) :
    FilesInv (s.execve p failure).1 := by
  cases failure with
  | some err => exact h
  | none => exact h.setProc rfl id (h.dead p)

theorem condSignal (h : FilesInv s) (waiting : List Nat) : FilesInv (s.condSignal waiting) := by
  induction waiting with
  | nil => exact h
  | cons q rest ih => exact ih.setProc rfl id (ih.dead q)

theorem exit (h : FilesInv s) (code : Int) (upTo : ExitPoint) :
    KeepsFiles (s.exit p code upTo) := by
  have hdie := h.setProc (p := p) (k := { s.kprocs p with
    runnable := false, zombie := true, exitcode := code }) rfl (fun _ => rfl) (fun _ _ => rfl)
  unfold ProcState.exit
  simp only
  split
  · exact h.setProc rfl id (fun _ _ => rfl)
  split
  · exact hdie
  generalize s.setProc p
    { s.kprocs p with runnable := false, zombie := true, exitcode := code } = s₁ at hdie ⊢
  split
  · exact ⟨nofun, nofun⟩
  split
  · exact hdie
  · exact (hdie.condSignal _).setProc rfl id ((hdie.condSignal _).dead _)

theorem reap (h : FilesInv s) (slot : Nat) : FilesInv (s.reap p slot).1 := by
  have hset := h.setProc (p := p) (k := { s.kprocs p with
    children := (s.kprocs p).children.set slot 0, thread := .user }) rfl id (h.dead p)
  exact hset.of_sublist rfl rfl rfl (fun _ hq => List.mem_of_mem_erase hq) (Nat.le_refl _)

theorem wait (h : FilesInv s) (condFound itemFound : Bool) :
    KeepsFiles (s.wait p condFound itemFound) := by
  unfold ProcState.wait
  simp only
  split
  · exact h
  split
  · exact h.reap _
  split
  · exact ⟨nofun, nofun⟩
  split
  · exact ⟨nofun, nofun⟩
  · exact h.setProc rfl id (h.dead p)

theorem wake (h : FilesInv s) : KeepsFiles (s.wake p) := by
  unfold ProcState.wake
  split
  · exact h.reap _
  · exact ⟨nofun, nofun⟩

/-! ### Open and close -/

/-- A new table whose handles are open. -/
theorem setTable (h : FilesInv s) {k : Kproc}
    (hopen : ∀ x ∈ k.openFiles, x ≠ 0 → s.handles x = some true)
    (hstop : p ∈ s.procs → k.zombie = true → k.runnable = false) :
    FilesInv (s.setProc p k) := by
  refine ⟨?_, h.handPos, h.handFresh, h.addr, ?_⟩
  · intro q hq hz x hx h0
    by_cases hqp : q = p
    · rw [hqp, ProcState.setProc_self] at hx
      exact hopen x hx h0
    · rw [ProcState.setProc_of_ne hqp] at hx hz
      exact h.noDangling q hq hz x hx h0
  · intro q hq hz
    by_cases hqp : q = p
    · rw [hqp, ProcState.setProc_self] at hz ⊢
      exact hstop (hqp ▸ hq) hz
    · rw [ProcState.setProc_of_ne hqp] at hz ⊢
      exact h.dead q hq hz

/-- `kmalloc` of a handle. -/
theorem newHandle (h : FilesInv s) (v : Option Bool) :
    FilesInv { s.setHandle s.nextHand v with nextHand := s.nextHand + 1 } := by
  refine ⟨?_, Nat.succ_pos _, ?_, h.addr, h.dead⟩
  · intro q hq hz x hx h0
    have hopen := h.noDangling q hq hz x hx h0
    have hne : x ≠ s.nextHand := by
      rintro rfl
      rw [h.handFresh _ (Nat.le_refl _)] at hopen
      cases hopen
    exact (Function.update_of_ne hne ..).trans hopen
  · intro x hx
    change s.nextHand + 1 ≤ x at hx
    exact (Function.update_of_ne (by omega) ..).trans (h.handFresh x (by omega))

/-- `kfree` of a handle that no live process has. -/
theorem freeHandle (h : FilesInv s) {hand : Nat}
    (hnone : ∀ q ∈ s.procs, (s.kprocs q).zombie = false → hand ∉ (s.kprocs q).openFiles) :
    FilesInv (s.setHandle hand none) := by
  refine ⟨?_, h.handPos, ?_, h.addr, h.dead⟩
  · intro q hq hz x hx h0
    have hne : x ≠ hand := by
      rintro rfl
      exact hnone q hq hz hx
    exact (Function.update_of_ne hne ..).trans (h.noDangling q hq hz x hx h0)
  · intro x hx
    by_cases hxh : x = hand
    · rw [hxh]
      exact Function.update_self ..
    · exact (Function.update_of_ne hxh ..).trans (h.handFresh x hx)

theorem procFsOpen (h : FilesInv s) (hcan : s.CanCall p) {o : OpenOutcome}
    (hok : s.FilesOk (.openFile p o)) : KeepsFiles (s.procFsOpen p o) := by
  unfold ProcState.procFsOpen
  split
  · exact h
  rename_i hcwd
  cases o with
  | notFound => exact h
  | notDir => exact h
  | noMemory => exact ⟨nofun, nofun⟩
  | failed =>
    have hnew := h.newHandle none
    have hsame : s.setHandle s.nextHand none = s := by
      have hnone := h.handFresh s.nextHand (Nat.le_refl _)
      simp only [ProcState.setHandle, ← hnone, Function.update_eq_self]
    rw [hsame] at hnew
    exact hnew
  | opened =>
    have hslot := hok hcan hcwd
    have hnew := h.newHandle (some true)
    rcases Option.eq_none_or_eq_some ((s.kprocs p).openFiles.findIdx? (· = 0)) with
      hfind | ⟨i, hfind⟩
    · -- the handle is freed, and was never in a table
      simp only [ProcState.setHandle_kprocs, ProcState.addFile_none hfind, Option.getD_none,
        Nat.lt_irrefl, if_false]
      have hk : Function.update s.kprocs p (s.kprocs p) = s.kprocs := Function.update_eq_self ..
      refine (hnew.setProc (p := p) (k := s.kprocs p) rfl id (h.dead p)).freeHandle
        ?_
      intro q hq hz hin
      change (Function.update s.kprocs p (s.kprocs p) q).zombie = false at hz
      change s.nextHand ∈ (Function.update s.kprocs p (s.kprocs p) q).openFiles at hin
      rw [hk] at hz hin
      have hopen := h.noDangling q hq hz s.nextHand hin (Nat.ne_of_gt h.handPos)
      rw [h.handFresh _ (Nat.le_refl _)] at hopen
      cases hopen
    · have hi : 0 < i := by
        obtain ⟨hlt, hzero, -⟩ := List.findIdx?_eq_some_iff_getElem.mp hfind
        refine Nat.pos_of_ne_zero fun hi => hslot ?_
        subst hi
        rw [List.getElem?_eq_getElem hlt, of_decide_eq_true hzero]
      simp only [ProcState.setHandle_kprocs, ProcState.addFile_some hfind, Option.getD_some]
      rw [if_pos hi]
      refine hnew.setTable ?_ (h.dead p)
      intro x hx h0
      rcases List.mem_or_eq_of_mem_set hx with hx | rfl
      · exact hnew.noDangling p hcan.1 (h.alive hcan) x hx h0
      · exact Function.update_self ..

theorem procFsClose (h : FilesInv s) (hcan : s.CanCall p) {desc : Int}
    (hok : s.FilesOk (.closeFile p desc)) : KeepsFiles (s.procFsClose p desc) := by
  obtain ⟨hpos, hend, hsole⟩ := hok hcan
  unfold ProcState.procFsClose
  simp only
  split
  · exact h
  split
  · omega
  split
  · rename_i heq
    rw [if_pos (hend heq)]
    exact h
  split
  · exact h
  rename_i hhand
  have hsole := hsole (by omega) hhand
  generalize hd : desc.toNat = d at hhand hsole ⊢
  have hlive := h.alive hcan
  have hlt : d < (s.kprocs p).openFiles.length := by
    by_contra hge
    exact hhand (List.getD_eq_default _ _ (Nat.le_of_not_lt hge))
  have hget : (s.kprocs p).openFiles.getD d 0 = (s.kprocs p).openFiles[d] :=
    List.getD_eq_getElem _ _ hlt
  have hopen := h.noDangling p hcan.1 hlive _ (List.getElem_mem hlt) (hget ▸ hhand)
  rw [if_neg (by rw [hget, hopen]; nofun)]
  -- the slot is cleared first here, after which nobody has the handle
  have hcleared := h.setTable (p := p) (k := { s.kprocs p with
    openFiles := (s.kprocs p).openFiles.set d 0 }) (fun x hx h0 =>
      h.noDangling p hcan.1 hlive x ((List.mem_or_eq_of_mem_set hx).resolve_right h0) h0)
    (h.dead p)
  refine hcleared.freeHandle ?_
  intro q hq hz hin
  obtain ⟨i, hi, hat⟩ := List.getElem_of_mem hin
  by_cases hqp : q = p
  · simp only [hqp, ProcState.setProc_self, List.length_set] at hi hat
    by_cases hid : d = i
    · subst hid
      rw [List.getElem_set_self] at hat
      exact hhand hat.symm
    · rw [List.getElem_set_ne hid, ← List.getD_eq_getElem _ 0 hi] at hat
      exact hid (hsole p hcan.1 hlive i hi hat).2.symm
  · simp only [ProcState.setProc_of_ne hqp] at hi hat hz
    rw [← List.getD_eq_getElem _ 0 hi] at hat
    exact hqp (hsole q hq hz i hi hat).1

/-- Every call that meets the condition. -/
theorem call (h : FilesInv s) {a : ProcAct} (hok : s.FilesOk a) :
    KeepsFiles (procCall s a) := by
  have hstop : KeepsFiles (.error .notRunning) := ⟨nofun, nofun⟩
  cases a with
  | fork p copied =>
    rw [procCall]
    split
    · rename_i hcan
      exact h.fork hcan copied
    · exact hstop
  | execve p failure =>
    rw [procCall]
    split
    · exact h.execve failure
    · exact hstop
  | exit p code upTo =>
    rw [procCall]
    split
    · exact h.exit code upTo
    · exact hstop
  | wait p condFound itemFound =>
    rw [procCall]
    split
    · exact h.wait condFound itemFound
    · exact hstop
  | wake p =>
    rw [procCall]
    split
    · exact h.wake
    · exact hstop
  | openFile p o =>
    rw [procCall]
    split
    · rename_i hcan
      exact h.procFsOpen hcan hok
    · exact hstop
  | closeFile p desc =>
    rw [procCall]
    split
    · rename_i hcan
      exact h.procFsClose hcan hok
    · exact hstop

theorem step (h : FilesInv s) {s' : ProcState} {a : ProcAct} (hok : s.FilesOk a)
    (hs : procStep s a = some s') : FilesInv s' := by
  obtain ⟨r, hcall⟩ := procStep_eq_some.mp hs
  have hkeeps := h.call hok
  rw [hcall] at hkeeps
  exact hkeeps

/-! ### Where the condition fails -/

/-- The handle that was put into slot `0` is freed. -/
theorem open_dangles (h : FilesInv s) (hcan : s.CanCall p) (hcwd : (s.kprocs p).cwd ≠ 0)
    (hslot : (s.kprocs p).openFiles[0]? = some 0) :
    ∃ s', procStep s (.openFile p .opened) = some s' ∧ ¬ s'.NoDangling := by
  obtain ⟨hlen, hzero⟩ := List.getElem?_eq_some_iff.mp hslot
  have hfind : (s.kprocs p).openFiles.findIdx? (· = 0) = some 0 :=
    List.findIdx?_eq_some_iff_getElem.mpr ⟨hlen, decide_eq_true hzero, nofun⟩
  generalize hk : ({ s.kprocs p with
    openFiles := (s.kprocs p).openFiles.set 0 s.nextHand
    filePosition := (s.kprocs p).filePosition.set 0 0 } : Kproc) = k
  let s₁ : ProcState :=
    ({ s.setHandle s.nextHand (some true) with nextHand := s.nextHand + 1 } : ProcState).setProc p k
  have hcall : procCall s (.openFile p .opened) =
      .ok (s₁.setHandle s.nextHand none, some (-ENFILE)) := by
    rw [procCall, if_pos hcan, ProcState.procFsOpen, if_neg hcwd]
    simp only [ProcState.setHandle_kprocs, ProcState.addFile_some hfind, Option.getD_some,
      Nat.lt_irrefl, if_false, hk]
    rfl
  refine ⟨_, procStep_eq_some.mpr ⟨_, hcall⟩, ?_⟩
  intro hno
  have hself : (s₁.setHandle s.nextHand none).kprocs p = k := ProcState.setProc_self
  have hopen := hno p hcan.1 (by rw [hself, ← hk]; exact h.alive hcan) s.nextHand
    (by rw [hself, ← hk]; exact List.mem_set hlen _) (Nat.ne_of_gt h.handPos)
  have hfreed : (s₁.setHandle s.nextHand none).handles s.nextHand = none :=
    Function.update_self ..
  rw [hfreed] at hopen
  cases hopen

/-- Who else has the handle keeps it. -/
theorem close_dangles (h : FilesInv s) (hcan : s.CanCall p) {desc : Int} (hpos : 0 ≤ desc)
    (hlt : desc < maxOpenFiles) (hhand : (s.kprocs p).openFiles.getD desc.toNat 0 ≠ 0)
    (hshared : ¬ s.SoleHolder p desc.toNat) :
    ∃ s', procStep s (.closeFile p desc) = some s' ∧ ¬ s'.NoDangling := by
  have hlive := h.alive hcan
  have hlen : desc.toNat < (s.kprocs p).openFiles.length := by
    by_contra hge
    exact hhand (List.getD_eq_default _ _ (Nat.le_of_not_lt hge))
  generalize hx : (s.kprocs p).openFiles.getD desc.toNat 0 = x at hhand
  have hget : (s.kprocs p).openFiles[desc.toNat] = x := by
    rw [← hx, List.getD_eq_getElem _ _ hlen]
  have hopen := h.noDangling p hcan.1 hlive x (hget ▸ List.getElem_mem hlen) hhand
  generalize hk : ({ s.kprocs p with
    openFiles := (s.kprocs p).openFiles.set desc.toNat 0 } : Kproc) = k
  have hcall : procCall s (.closeFile p desc) = .ok ((s.setHandle x none).setProc p k, some 0) := by
    rw [procCall, if_pos hcan, ProcState.procFsClose]
    simp only
    rw [if_neg (by omega), if_neg (by omega), if_neg (by omega), hx, if_neg hhand,
      if_neg (by rw [hopen]; nofun), hk]
  refine ⟨_, procStep_eq_some.mpr ⟨_, hcall⟩, fun hno => hshared ?_⟩
  intro q hq hz i hi hat
  rw [hx, List.getD_eq_getElem _ _ hi] at hat
  -- the slot would keep the handle, which is freed
  by_contra hother
  have hfreed : ((s.setHandle x none).setProc p k).handles x = none := Function.update_self ..
  have hstill : x ∉ (((s.setHandle x none).setProc p k).kprocs q).openFiles ∨
      (((s.setHandle x none).setProc p k).kprocs q).zombie = true := by
    by_contra hin
    rw [not_or, not_not, Bool.not_eq_true] at hin
    have hx' := hno q hq hin.2 x hin.1 hhand
    rw [hfreed] at hx'
    cases hx'
  by_cases hqp : q = p
  · have hne : desc.toNat ≠ i := fun hdi => hother ⟨hqp, hdi.symm⟩
    subst hqp
    have hself : ((s.setHandle x none).setProc q k).kprocs q = k := ProcState.setProc_self
    rw [hself, ← hk] at hstill
    rcases hstill with hout | hdead
    · refine hout (List.mem_iff_getElem?.mpr ⟨i, ?_⟩)
      rw [List.getElem?_set_ne hne, List.getElem?_eq_getElem hi, hat]
    · change (s.kprocs q).zombie = true at hdead
      rw [hz] at hdead
      cases hdead
  · have hself : ((s.setHandle x none).setProc p k).kprocs q = s.kprocs q :=
      ProcState.setProc_of_ne hqp
    rw [hself] at hstill
    rcases hstill with hout | hdead
    · exact hout (hat ▸ List.getElem_mem hi)
    · rw [hz] at hdead
      cases hdead

theorem handlesKept_iff (h : FilesInv s) {a : ProcAct} : s.HandlesKept a ↔ s.FilesOk a := by
  constructor
  · intro hkept
    match a with
    | .openFile p .opened =>
      intro hcan hcwd hslot
      obtain ⟨s', hs, hno⟩ := h.open_dangles hcan hcwd hslot
      exact hno (hkept.noDangling s' hs)
    | .closeFile p desc =>
      intro hcan
      have hcall : procCall s (.closeFile p desc) = s.procFsClose p desc := by
        rw [procCall, if_pos hcan]
      have hin := hkept.inTable
      rw [hcall, ProcState.procFsClose] at hin
      simp only at hin
      by_cases hneg : desc < 0
      · rw [if_neg (by omega), if_pos hneg] at hin
        exact absurd rfl hin
      refine ⟨by omega, ?_, ?_⟩
      · intro hend
        rw [if_neg (by omega), if_neg hneg, if_pos hend] at hin
        by_contra hpos
        rw [if_neg hpos] at hin
        exact hin rfl
      · intro hlt hhand
        by_contra hshared
        obtain ⟨s', hs, hno⟩ := h.close_dangles hcan (by omega) hlt hhand hshared
        exact hno (hkept.noDangling s' hs)
    | .openFile _ .notFound | .openFile _ .notDir | .openFile _ .noMemory
    | .openFile _ .failed | .fork .. | .execve .. | .exit .. | .wait .. | .wake _ => trivial
  · intro hok
    refine ⟨fun s' hs => (h.step hok hs).noDangling, ?_, ?_⟩
    · intro he
      have hkeeps := h.call hok
      rw [he] at hkeeps
      exact hkeeps.1 rfl
    · intro he
      have hkeeps := h.call hok
      rw [he] at hkeeps
      exact hkeeps.2 rfl

end FilesInv

/-! ## Whole runs -/

/-- **No live process is left with a freed handle exactly in the runs whose
closes are of a handle in no other slot, and whose opens find slot `0` taken.** -/
theorem handles_kept_iff_sole_holder {s : ProcState} (h : FilesInv s) (acts : List ProcAct) :
    Guarded procStep ProcState.HandlesKept s acts ↔
      Guarded procStep ProcState.FilesOk s acts :=
  guarded_iff (fun _ _ h => h.handlesKept_iff) (fun _ _ _ h hok hs => h.step hok hs) h

/-- The first task with its three streams, as `main.c` gives them to `init`. -/
def initStreams : ProcState :=
  { initMultitasking.setProc 2 { initMultitasking.kprocs 2 with
      openFiles := [1, 2, 3, 0, 0, 0, 0, 0] } with
    handles := fun h => if h = 1 ∨ h = 2 ∨ h = 3 then some true else none
    nextHand := 4 }

theorem initStreams_files : FilesInv initStreams := by
  refine ⟨by decide, by decide, ?_, by decide, by decide⟩
  intro h hh
  change 4 ≤ h at hh
  exact if_neg (by omega)

/-- The parent and its child each open a file and close it again. -/
def ownFilesRun : List ProcAct :=
  [.fork 2 true, .openFile 2 .opened, .openFile 3 .opened, .closeFile 2 3, .closeFile 3 3,
    .exit 3 0 .done, .wait 2 true true]

theorem handles_kept_own_files :
    Guarded procStep ProcState.HandlesKept initStreams ownFilesRun ∧
      ((exec procStep initStreams ownFilesRun).any fun t => t.procs = [1, 2]) = true :=
  ⟨(handles_kept_iff_sole_holder initStreams_files ownFilesRun).mpr (by decide +kernel),
    by decide +kernel⟩

/-- A file in slot `1`, closed by the parent after a `fork`. -/
def sharedFileRun : List ProcAct :=
  [.openFile 2 .opened, .openFile 2 .opened, .fork 2 true, .closeFile 2 1]

/-- The first open leaves a freed handle in slot `0`; the close leaves one in
the child's slot `1`. -/
theorem freed_handles_stay_in_tables :
    ((exec procStep initMultitasking [.openFile 2 .opened]).any fun t =>
      (t.kprocs 2).openFiles.getD 0 0 = 1 ∧ t.handles 1 = none) = true ∧
    ((exec procStep initMultitasking sharedFileRun).any fun t =>
      (t.kprocs 3).openFiles.getD 1 0 = 2 ∧ t.handles 2 = none) = true ∧
    ¬ ∀ acts t, exec procStep initMultitasking acts = some t → t.NoDangling := by
  have hopen : ((exec procStep initMultitasking [.openFile 2 .opened]).any fun t =>
      ¬ t.NoDangling) = true := by
    decide +kernel
  refine ⟨by decide +kernel, by decide +kernel, ?_⟩
  intro hall
  obtain ⟨t, hrun, ht⟩ := (Option.any_eq_true _ _).mp hopen
  exact of_decide_eq_true ht (hall _ t hrun)

end LambdaOs
