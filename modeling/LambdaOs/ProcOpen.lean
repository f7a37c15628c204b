import LambdaOs.ProcFs

/-!
# Opening by a process

`proc_fs_open` of `fs/procfs.c`, with `fs_open` of `fs/fs.c` and the `_open` of
the archive and of the streams behind it. The call allocates a handle, has it
opened, and gives it to `proc_add_file`, which returns the number of the slot
it has filled.

`proc_fs_open` takes only numbers above `0` for success. A handle that went to
slot `0` is freed while the slot keeps its address, and the caller is told that
the table is full: `proc_fs_open_atomic_iff`.
-/

namespace LambdaOs

/-! ## The call -/

def oflagsDirectory : Nat := 0x800

/-- What an open finds besides: where each process is, the files that
`stream_create` made, of whose operations `FileOps` does not know, and the
handles that are allocated. -/
structure OpenData where
  cwd : Nat → Nat
  streams : Nat → Bool
  allocated : Nat → Bool

abbrev OpenKernel := FsKernel OpenData

/-- Why a call does not return: it is not done yet, it has written behind the
buffer for a link or to a handle at `NULL`, or it panics. -/
inductive OpenFault where
  | unfinished
  | overflow
  | nullPointer
  | notOpen
deriving Repr, DecidableEq

namespace FsKernel

def setAllocated (s : OpenKernel) (hand : Nat) (a : Bool) : OpenKernel :=
  { s with dev := { s.dev with allocated := Function.update s.dev.allocated hand a } }

/-- `hand->ops`, `hand->file` and the flag, as a driver stores them. -/
def opened (s : OpenKernel) (hand ops f : Nat) : OpenKernel :=
  s.setHand hand ⟨(s.hands hand).openFlags ||| oflagsOpen, ops, f⟩

end FsKernel

section Open

variable (archiveOps streamOps : Nat)

/-- `fs_open`. The two parameters are the addresses of the `_file_hand_ops` of
`fs/initrd.c` and of `fs/stream.c`. -/
def fsOpenHand : Nat → Nat → Nat → OpenKernel → Except OpenFault (OpenKernel × Int)
  | 0, _, _, _ => .error .unfinished
  | fuel + 1, f, hand, s =>
      let k := s.fs.files f
      let h := s.hands hand
      if f = 0 ∨ hand = 0 then .ok (s, -EINVAL)
      else if h.openFlags &&& oflagsOpen ≠ 0 then .ok (s, -EINVAL)
      else if s.dev.streams f then .ok (s.opened hand streamOps f, 0)
      else
        match k.ops with
        | .null => .ok (s.opened hand h.ops f, 0)
        | .initrd =>
            if h.openFlags &&& oflagsWrite ≠ 0 then .ok (s, -EROFS)
            else if k.flags &&& fsSymlink ≠ 0 then
              if symlinkSize ≤ k.length then .error .overflow
              else
                match fsFindFile s.fs fuel k.parent (linkPath s.mem s.fs f) with
                | none => .error .unfinished
                | some target =>
                    let s := { s with link := Function.update s.link f target }
                    if target ≠ 0 then fsOpenHand fuel target hand s else .ok (s, -ENOENT)
            else .ok (s.opened hand archiveOps f, 0)

def openCheckFlags (fs : FsState) (file flags : Nat) : Int :=
  if flags &&& oflagsDirectory ≠ 0 ∧ (fs.files file).flags &&& fsDir = 0 then -ENOTDIR else 0

/-- The handle as it is handed to `fs_open`: after `memset`, with the flags. -/
def FsKernel.blankHand (s : OpenKernel) (hand flags : Nat) : OpenKernel :=
  (s.setAllocated hand true).setHand hand ⟨flags, 0, 0⟩

/-- `hand` is what `kmalloc` returns. A path at `NULL` is like an empty one. -/
def procFsOpen (fuel : Nat) (path : CString) (flags hand : Nat) (s : OpenKernel) :
    Except OpenFault (OpenKernel × Int) :=
  let process := s.thread
  if process = 0 then .ok (s, -EUNSPEC)
  else if s.dev.cwd process = 0 then .ok (s, -EUNSPEC)
  else
    match fsFindFile s.fs fuel (s.dev.cwd process) path with
    | none => .error .unfinished
    | some file =>
        if file = 0 then .ok (s, -ENOENT)
        else if openCheckFlags s.fs file flags ≠ 0 then .ok (s, openCheckFlags s.fs file flags)
        else if hand = 0 then .error .nullPointer
        else do
          let (s, ret) ← fsOpenHand archiveOps streamOps fuel file hand (s.blankHand hand flags)
          if ret ≠ 0 then return (s.setAllocated hand false, -EUNSPEC)
          let (s, ret) := procAddFile process hand s
          if ret > 0 then
            if (s.hands hand).openFlags &&& oflagsOpen = 0 then throw .notOpen
            return (s, ret)
          return (s.setAllocated hand false, -ENFILE)

end Open

/-! ## What is promised -/

/-- No slot of any process has the address of a handle that is not allocated. -/
def FsKernel.NoDangling (s : OpenKernel) : Prop :=
  ∀ p i, (s.tables p).openFiles i ≠ 0 → s.dev.allocated ((s.tables p).openFiles i) = true

/-- Where an open of `f` ends that follows links. -/
def FsKernel.OpensOn (s : OpenKernel) (f g : Nat) : Prop :=
  Relation.ReflTransGen (fun a b => s.dev.streams a = false ∧ LinkStep s.mem s.fs a b) f g ∧
    (s.dev.streams g = true ∨ ¬ IsLink s.fs g)

/-- The open handle `hand` is new and in the first slot that was empty. -/
structure AddedOpen (fuel : Nat) (path : CString) (flags hand : Nat) (s s' : OpenKernel)
    (i : Fin maxOpenFiles) : Prop where
  empty : (s.tables s.thread).openFiles i = 0
  lowest : ∀ j < i, (s.tables s.thread).openFiles j ≠ 0
  nonnull : hand ≠ 0
  fresh : s.dev.allocated hand = false
  allocated : s'.dev.allocated hand = true
  opened : (s'.hands hand).openFlags = flags ||| oflagsOpen
  file : ∃ f, fsFindFile s.fs fuel (s.dev.cwd s.thread) path = some f ∧ f ≠ 0 ∧
    s.OpensOn f (s'.hands hand).file
  tables : s'.tables = Function.update s.tables s.thread
    ⟨Function.update (s.tables s.thread).openFiles i hand,
      Function.update (s.tables s.thread).filePosition i 0⟩

/-- A call that returns has opened the file, or done nothing. -/
structure OpenAtomic (fuel : Nat) (path : CString) (flags hand : Nat) (s : OpenKernel)
    (r : Except OpenFault (OpenKernel × Int)) : Prop where
  added : ∀ s' ret, r = .ok (s', ret) → 0 ≤ ret →
    ∃ i : Fin maxOpenFiles, ret = (i : Int) ∧ AddedOpen fuel path flags hand s s' i
  refused : ∀ s' ret, r = .ok (s', ret) → ret < 0 →
    s'.tables = s.tables ∧ (s.NoDangling → s'.NoDangling)

theorem maxOpenFiles_pos : 0 < maxOpenFiles := by decide

/-- The descriptor whose number `proc_fs_open` takes for an error. -/
def slotZero : Fin maxOpenFiles := ⟨0, maxOpenFiles_pos⟩

/-- The file is found and opened, and slot `0` is empty. -/
def FsKernel.FillsSlotZero (archiveOps streamOps fuel : Nat) (path : CString) (flags hand : Nat)
    (s : OpenKernel) : Prop :=
  s.thread ≠ 0 ∧ s.dev.cwd s.thread ≠ 0 ∧ hand ≠ 0 ∧
    (s.tables s.thread).openFiles slotZero = 0 ∧
    ∃ file s', fsFindFile s.fs fuel (s.dev.cwd s.thread) path = some file ∧ file ≠ 0 ∧
      openCheckFlags s.fs file flags = 0 ∧
      fsOpenHand archiveOps streamOps fuel file hand (s.blankHand hand flags) = .ok (s', 0)

/-! ## `fs_open` -/

section FsOpen

variable {archiveOps streamOps : Nat} {s s' : OpenKernel} {hand f : Nat}

/-- What a call of `fs_open` leaves alone, and what it has done if it returns
`0`. -/
structure HandOpened (f hand : Nat) (s s' : OpenKernel) (ret : Int) : Prop where
  thread : s'.thread = s.thread
  tables : s'.tables = s.tables
  dev : s'.dev = s.dev
  fs : s'.fs = s.fs
  mem : s'.mem = s.mem
  hands : ∀ h, h ≠ hand → s'.hands h = s.hands h
  nonpos : ret ≤ 0
  flags : ret = 0 → (s'.hands hand).openFlags = (s.hands hand).openFlags ||| oflagsOpen
  file : ret = 0 → s.OpensOn f (s'.hands hand).file

theorem handOpened_error {ret : Int} (hret : ret < 0) : HandOpened f hand s s ret :=
  ⟨rfl, rfl, rfl, rfl, rfl, fun _ _ => rfl, Int.le_of_lt hret,
    fun h => absurd h (Int.ne_of_lt hret), fun h => absurd h (Int.ne_of_lt hret)⟩

theorem handOpened_opened {ops : Nat} (hend : s.dev.streams f = true ∨ ¬ IsLink s.fs f) :
    HandOpened f hand s (s.opened hand ops f) 0 := by
  have hself : (s.opened hand ops f).hands hand =
      ⟨(s.hands hand).openFlags ||| oflagsOpen, ops, f⟩ := Function.update_self ..
  refine ⟨rfl, rfl, rfl, rfl, rfl, fun h hne => Function.update_of_ne hne .., Int.le_refl 0,
    fun _ => by rw [hself], fun _ => ?_⟩
  rw [hself]
  exact ⟨.refl, hend⟩

/-- A link is followed to where the open of its target ends. -/
theorem HandOpened.through {g : Nat} {ret : Int} (hstream : s.dev.streams f = false)
    (hstep : LinkStep s.mem s.fs f g)
    (h : HandOpened g hand { s with link := Function.update s.link f g } s' ret) :
    HandOpened f hand s s' ret where
  thread := h.thread
  tables := h.tables
  dev := h.dev
  fs := h.fs
  mem := h.mem
  hands := h.hands
  nonpos := h.nonpos
  flags := h.flags
  file := fun hret => ⟨.head ⟨hstream, hstep⟩ (h.file hret).1, (h.file hret).2⟩

theorem fsOpenHand_spec {fuel : Nat} {ret : Int}
    (h : fsOpenHand archiveOps streamOps fuel f hand s = .ok (s', ret)) :
    HandOpened f hand s s' ret := by
  induction fuel generalizing f s with
  | zero => cases h
  | succ fuel ih =>
    rw [fsOpenHand] at h
    dsimp only at h
    by_cases hnull : f = 0 ∨ hand = 0
    · rw [if_pos hnull] at h
      cases h
      exact handOpened_error (by decide)
    rw [if_neg hnull] at h
    by_cases hopen : (s.hands hand).openFlags &&& oflagsOpen ≠ 0
    · rw [if_pos hopen] at h
      cases h
      exact handOpened_error (by decide)
    rw [if_neg hopen] at h
    by_cases hstream : s.dev.streams f = true
    · rw [if_pos hstream] at h
      cases h
      exact handOpened_opened (.inl hstream)
    rw [if_neg hstream] at h
    cases hops : (s.fs.files f).ops with
    | null =>
      rw [hops] at h
      cases h
      refine handOpened_opened (.inr fun hlink => ?_)
      rw [hlink.2] at hops
      cases hops
    | initrd =>
      rw [hops] at h
      dsimp only at h
      by_cases hwrite : (s.hands hand).openFlags &&& oflagsWrite ≠ 0
      · rw [if_pos hwrite] at h
        cases h
        exact handOpened_error (by decide)
      rw [if_neg hwrite] at h
      by_cases hflag : (s.fs.files f).flags &&& fsSymlink ≠ 0
      · rw [if_pos hflag] at h
        by_cases hlen : symlinkSize ≤ (s.fs.files f).length
        · rw [if_pos hlen] at h
          cases h
        rw [if_neg hlen] at h
        cases hfind : fsFindFile s.fs fuel (s.fs.files f).parent (linkPath s.mem s.fs f) with
        | none =>
          rw [hfind] at h
          cases h
        | some target =>
          rw [hfind] at h
          dsimp only at h
          by_cases htarget : target ≠ 0
          · rw [if_pos htarget] at h
            exact (ih h).through (Bool.eq_false_iff.mpr hstream)
              ⟨⟨hflag, hops⟩, htarget, fuel, hfind⟩
          · rw [if_neg htarget] at h
            cases h
            exact ⟨rfl, rfl, rfl, rfl, rfl, fun _ _ => rfl, by decide, nofun, nofun⟩
      · rw [if_neg hflag] at h
        cases h
        exact handOpened_opened (.inr fun hlink => hflag hlink.1)

end FsOpen

/-! ## `proc_add_file` -/

section Add

variable {s : OpenKernel} {p hand : Nat}

theorem procAddFile_cases (p hand : Nat) (s : OpenKernel) :
    (∃ i : Fin maxOpenFiles, (s.tables p).openFiles i = 0 ∧
      (∀ j < i, (s.tables p).openFiles j ≠ 0) ∧
      procAddFile p hand s = (s.setTable p ⟨Function.update (s.tables p).openFiles i hand,
        Function.update (s.tables p).filePosition i 0⟩, (i : Int))) ∨
    (∀ i, (s.tables p).openFiles i ≠ 0) ∧ procAddFile p hand s = (s, -ENFILE) := by
  unfold procAddFile
  cases hfind : (List.finRange maxOpenFiles).find? fun i => (s.tables p).openFiles i = 0 with
  | none =>
    refine .inr ⟨fun i => ?_, rfl⟩
    simpa using List.find?_eq_none.mp hfind i (List.mem_finRange i)
  | some i =>
    obtain ⟨hempty, n, hn, hget, hbefore⟩ := List.find?_eq_some_iff_getElem.mp hfind
    rw [List.getElem_finRange] at hget
    subst hget
    refine .inl ⟨_, of_decide_eq_true hempty, fun j hj => ?_, rfl⟩
    have hnot := hbefore j.val hj
    rw [List.getElem_finRange] at hnot
    simpa using hnot

/-- An empty slot `0` is the first. -/
theorem procAddFile_zero (h : (s.tables p).openFiles slotZero = 0) :
    procAddFile p hand s =
      (s.setTable p ⟨Function.update (s.tables p).openFiles slotZero hand,
        Function.update (s.tables p).filePosition slotZero 0⟩, 0) := by
  rcases procAddFile_cases p hand s with ⟨i, -, hlow, hadd⟩ | ⟨hfull, -⟩
  · have hi : i = slotZero := by
      by_contra hne
      exact hlow slotZero (Nat.pos_of_ne_zero fun h0 => hne (Fin.ext h0)) h
    rw [hadd, hi]
    rfl
  · exact absurd h (hfull slotZero)

end Add

/-! ## `proc_fs_open` -/

section Spec

variable {archiveOps streamOps fuel : Nat} {path : CString} {flags hand : Nat}
variable {s s' : OpenKernel} {ret : Int}

theorem setAllocated_of_ne {h : Nat} {a : Bool} (hne : h ≠ hand) :
    (s.setAllocated hand a).dev.allocated h = s.dev.allocated h := Function.update_of_ne hne ..

/-- What a call that returns has done, and what it leaves alone. -/
structure OpenSpec (archiveOps streamOps fuel : Nat) (path : CString) (flags hand : Nat)
    (s s' : OpenKernel) (ret : Int) : Prop where
  thread : s'.thread = s.thread
  fs : s'.fs = s.fs
  mem : s'.mem = s.mem
  cwd : s'.dev.cwd = s.dev.cwd
  streams : s'.dev.streams = s.dev.streams
  hands : ∀ h, h ≠ hand → s'.hands h = s.hands h
  allocated : ∀ h, h ≠ hand → s'.dev.allocated h = s.dev.allocated h
  slots : ∀ p i, (s.tables p).openFiles i ≠ 0 →
    (s'.tables p).openFiles i = (s.tables p).openFiles i
  added : 0 ≤ ret → ∃ i : Fin maxOpenFiles, ret = (i : Int) ∧ AddedOpen fuel path flags hand s s' i
  refused : ret < 0 →
    s'.tables = s.tables ∨ s.FillsSlotZero archiveOps streamOps fuel path flags hand

/-- An error before there is a handle. -/
theorem openSpec_error (hret : ret < 0) :
    OpenSpec archiveOps streamOps fuel path flags hand s s ret :=
  ⟨rfl, rfl, rfl, rfl, rfl, fun _ _ => rfl, fun _ _ => rfl, fun _ _ _ => rfl,
    fun h => absurd h (Int.not_le_of_gt hret), fun _ => .inl rfl⟩

/-- The call once the file is found and a handle allocated. -/
theorem procFsOpen_found {file : Nat} (hthread : s.thread ≠ 0) (hcwd : s.dev.cwd s.thread ≠ 0)
    (hfind : fsFindFile s.fs fuel (s.dev.cwd s.thread) path = some file) (hfile : file ≠ 0)
    (hcheck : openCheckFlags s.fs file flags = 0) (hhand : hand ≠ 0) :
    procFsOpen archiveOps streamOps fuel path flags hand s = do
      let (s₁, ret) ← fsOpenHand archiveOps streamOps fuel file hand (s.blankHand hand flags)
      if ret ≠ 0 then return (s₁.setAllocated hand false, -EUNSPEC)
      let (s₁, ret) := procAddFile s.thread hand s₁
      if ret > 0 then
        if (s₁.hands hand).openFlags &&& oflagsOpen = 0 then throw .notOpen
        return (s₁, ret)
      return (s₁.setAllocated hand false, -ENFILE) := by
  rw [procFsOpen, if_neg hthread, if_neg hcwd, hfind]
  dsimp only
  rw [if_neg hfile, if_neg (not_not.mpr hcheck), if_neg hhand]

/-- The handle as `fs_open` returns it. -/
theorem blankHand_opened {file : Nat} (h : HandOpened file hand (s.blankHand hand flags) s' 0) :
    s'.dev.allocated hand = true ∧ (s'.hands hand).openFlags = flags ||| oflagsOpen ∧
      s.OpensOn file (s'.hands hand).file := by
  refine ⟨?_, ?_, h.file rfl⟩
  · rw [h.dev]
    exact Function.update_self ..
  · rw [h.flags rfl]
    simp only [FsKernel.blankHand, FsKernel.setHand, Function.update_self]

/-- What `fs_open` leaves alone of the state before the handle. -/
theorem HandOpened.blank {file : Nat} (h : HandOpened file hand (s.blankHand hand flags) s' ret) :
    s'.dev.cwd = s.dev.cwd ∧ s'.dev.streams = s.dev.streams ∧
      (∀ x, x ≠ hand → s'.hands x = s.hands x) ∧
      ∀ x, x ≠ hand → s'.dev.allocated x = s.dev.allocated x := by
  refine ⟨by rw [h.dev]; rfl, by rw [h.dev]; rfl, fun x hne => ?_, fun x hne => ?_⟩
  · exact (h.hands x hne).trans (Function.update_of_ne hne ..)
  · rw [h.dev]
    exact setAllocated_of_ne hne

/-- The handle is freed again, and there is an error. -/
theorem HandOpened.freed {file : Nat} {r : Int} {t : Nat → FileTable}
    (h : HandOpened file hand (s.blankHand hand flags) s' r) (hret : ret < 0)
    (hslots : ∀ p i, (s.tables p).openFiles i ≠ 0 → (t p).openFiles i = (s.tables p).openFiles i)
    (hrefused : t = s.tables ∨ s.FillsSlotZero archiveOps streamOps fuel path flags hand) :
    OpenSpec archiveOps streamOps fuel path flags hand s
      (FsKernel.setAllocated { s' with tables := t } hand false) ret where
  thread := h.thread
  fs := h.fs
  mem := h.mem
  cwd := h.blank.1
  streams := h.blank.2.1
  hands := h.blank.2.2.1
  allocated := fun x hne => (setAllocated_of_ne hne).trans (h.blank.2.2.2 x hne)
  slots := hslots
  added := fun h0 => absurd h0 (Int.not_le_of_gt hret)
  refused := fun _ => hrefused

theorem procFsOpen_spec (hfresh : s.dev.allocated hand = false)
    (h : procFsOpen archiveOps streamOps fuel path flags hand s = .ok (s', ret)) :
    OpenSpec archiveOps streamOps fuel path flags hand s s' ret := by
  by_cases hthread : s.thread = 0
  · rw [procFsOpen, if_pos hthread] at h
    cases h
    exact openSpec_error (by decide)
  by_cases hcwd : s.dev.cwd s.thread = 0
  · rw [procFsOpen, if_neg hthread, if_pos hcwd] at h
    cases h
    exact openSpec_error (by decide)
  cases hfind : fsFindFile s.fs fuel (s.dev.cwd s.thread) path with
  | none =>
    rw [procFsOpen, if_neg hthread, if_neg hcwd, hfind] at h
    cases h
  | some file =>
    by_cases hfile : file = 0
    · rw [procFsOpen, if_neg hthread, if_neg hcwd, hfind] at h
      dsimp only at h
      rw [if_pos hfile] at h
      cases h
      exact openSpec_error (by decide)
    by_cases hcheck : openCheckFlags s.fs file flags = 0
    · by_cases hhand : hand = 0
      · rw [procFsOpen, if_neg hthread, if_neg hcwd, hfind] at h
        dsimp only at h
        rw [if_neg hfile, if_neg (not_not.mpr hcheck), if_pos hhand] at h
        cases h
      · rw [procFsOpen_found hthread hcwd hfind hfile hcheck hhand] at h
        obtain ⟨⟨s₁, r⟩, hopen, h⟩ := Except.bind_eq_ok_iff.mp h
        have hspec := fsOpenHand_spec hopen
        dsimp only at h
        by_cases hr : r = 0
        · subst hr
          obtain ⟨halloc, hflags, hends⟩ := blankHand_opened hspec
          have htables : s₁.tables = s.tables := hspec.tables
          rw [if_neg (not_not.mpr rfl)] at h
          rcases procAddFile_cases s.thread hand s₁ with ⟨i, hempty, hlow, hadd⟩ | ⟨-, hadd⟩
          · rw [hadd] at h
            dsimp only at h
            simp only [FsKernel.setTable, htables] at h hempty hlow
            have hslots : ∀ p j, (s.tables p).openFiles j ≠ 0 →
                (Function.update s.tables s.thread
                  ⟨Function.update (s.tables s.thread).openFiles i hand,
                    Function.update (s.tables s.thread).filePosition i 0⟩ p).openFiles j =
                (s.tables p).openFiles j := by
              intro p j hj
              by_cases hp : p = s.thread
              · subst hp
                rw [Function.update_self]
                refine Function.update_of_ne ?_ ..
                rintro rfl
                exact hj hempty
              · rw [Function.update_of_ne hp]
            by_cases hi : (i : Int) > 0
            · rw [if_pos hi] at h
              split at h
              · cases h
              · cases h
                exact {
                  thread := hspec.thread, fs := hspec.fs, mem := hspec.mem
                  cwd := hspec.blank.1, streams := hspec.blank.2.1
                  hands := hspec.blank.2.2.1, allocated := hspec.blank.2.2.2, slots := hslots
                  added := fun _ => ⟨i, rfl, hempty, hlow, hhand, hfresh, halloc, hflags,
                    ⟨file, hfind, hfile, hends⟩, rfl⟩
                  refused := fun hneg => absurd hi (Int.lt_asymm hneg) }
            · -- the slot is slot `0`
              rw [if_neg hi] at h
              cases h
              obtain rfl : i = slotZero := by
                have := Int.not_lt.mp hi
                exact Fin.ext (Nat.le_zero.mp (Int.ofNat_le.mp this))
              exact hspec.freed (by decide) hslots
                (.inr ⟨hthread, hcwd, hhand, hempty, file, s₁, hfind, hfile, hcheck, hopen⟩)
          · rw [hadd] at h
            cases h
            exact hspec.freed (t := s₁.tables) (by decide) (fun _ _ _ => by rw [htables])
              (.inl htables)
        · rw [if_pos hr] at h
          cases h
          have htables : s₁.tables = s.tables := hspec.tables
          exact hspec.freed (t := s₁.tables) (by decide) (fun _ _ _ => by rw [htables])
            (.inl htables)
    · rw [procFsOpen, if_neg hthread, if_neg hcwd, hfind] at h
      dsimp only at h
      rw [if_neg hfile, if_pos hcheck] at h
      cases h
      refine openSpec_error ?_
      unfold openCheckFlags at hcheck ⊢
      split at hcheck
      · rename_i hdir
        rw [if_pos hdir]
        decide
      · exact absurd rfl hcheck

/-- **An open is atomic unless it fills slot `0`**: for every state, path and
flags. -/
theorem proc_fs_open_atomic_iff (hfresh : s.dev.allocated hand = false) :
    OpenAtomic fuel path flags hand s
        (procFsOpen archiveOps streamOps fuel path flags hand s) ↔
      ¬ s.FillsSlotZero archiveOps streamOps fuel path flags hand := by
  constructor
  · rintro h ⟨hthread, hcwd, hhand, hzero, file, s₁, hfind, hfile, hcheck, hopen⟩
    have hspec := fsOpenHand_spec hopen
    rw [procFsOpen_found hthread hcwd hfind hfile hcheck hhand, hopen] at h
    have hadd : procAddFile s.thread hand s₁ = _ :=
      procAddFile_zero (by rw [hspec.tables]; exact hzero)
    change OpenAtomic fuel path flags hand s (do
      let (s₁, ret) := procAddFile s.thread hand s₁
      if ret > 0 then
        if (s₁.hands hand).openFlags &&& oflagsOpen = 0 then throw OpenFault.notOpen
        return (s₁, ret)
      return (s₁.setAllocated hand false, -ENFILE)) at h
    rw [hadd] at h
    -- the slot is filled, and the handle freed
    have hkept := (h.refused _ _ rfl (by decide)).1
    have hslot := congrArg (fun t => (t s.thread).openFiles slotZero) hkept
    simp only [FsKernel.setAllocated, FsKernel.setTable_self, Function.update_self, hzero] at hslot
    exact hhand hslot
  · intro hnot
    refine ⟨fun s' ret h h0 => (procFsOpen_spec hfresh h).added h0, fun s' ret h hret => ?_⟩
    have hspec := procFsOpen_spec hfresh h
    have htables := (hspec.refused hret).resolve_right hnot
    refine ⟨htables, fun hs p i h0 => ?_⟩
    rw [htables] at h0 ⊢
    rw [hspec.allocated _ fun hp => ?_]
    · exact hs p i h0
    · -- no slot has the address of a handle that is not allocated
      have halloc := hs p i h0
      rw [hp, hfresh] at halloc
      cases halloc

end Spec

/-! ## Opening `.` -/

/-- A process in the root, with a file at slot `0` or without. -/
def atRoot (first : Nat) : OpenKernel where
  thread := 1
  tables := fun _ => ⟨fun i => if i = slotZero then first else 0, fun _ => 0⟩
  hands := fun _ => ⟨0, 0, 0⟩
  fs := fsInit 16 (fun _ => blankFile) (fun _ => ⟨0, 0, 0⟩)
  link := fun _ => 0
  mem := fun _ => 0
  dev := ⟨fun _ => 16, fun _ => false, fun h => decide (h = 32)⟩

/-- With slot `0` taken, descriptor `1` is returned. -/
theorem proc_fs_open_atomic_second :
    (∃ s', procFsOpen 4096 8192 1 [dot] 1 64 (atRoot 32) = .ok (s', 1)) ∧
    OpenAtomic 1 [dot] 1 64 (atRoot 32) (procFsOpen 4096 8192 1 [dot] 1 64 (atRoot 32)) :=
  ⟨⟨_, rfl⟩, (proc_fs_open_atomic_iff rfl).mpr fun h => absurd h.2.2.2.1 (by decide)⟩

/-- With slot `0` empty, it is left with a handle that is freed. -/
theorem proc_fs_open_loses_first :
    ¬ OpenAtomic 1 [dot] 1 64 (atRoot 0) (procFsOpen 4096 8192 1 [dot] 1 64 (atRoot 0)) := by
  intro h
  have hkept := (h.refused _ (-ENFILE) rfl (by decide)).1
  have hslot : 64 = 0 := congrArg (fun t => (t 1).openFiles slotZero) hkept
  exact absurd hslot (by decide)

end LambdaOs
