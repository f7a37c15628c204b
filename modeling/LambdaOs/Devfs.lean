import LambdaOs.Fs

/-!
# The device file registry

`devfs.mod/devfs.c`: modules register with devfs, and register files, which
become children of `/dev`. A registration is one block of memory: the list
item at its start, the handle behind it, and, for a file, the VFS node in the
handle. Blocks are named by their address.

All the searches of the file are loops `while(!llist_iterate(&iter, &hand))`.
`llist_iterate` returns `1` as long as there is an item, so the body runs only
when there is none, with a `hand` that nothing was stored to. Reading such a
pointer is not modelled: it is `none`.

What the registry is meant to be is `regStep`, on lists of blocks, and
`DevInv` says that the code's state is such a registry. It stays one exactly
along the runs that never reach the body of a loop or need its result
(`registry_ok_iff`).
-/

namespace LambdaOs

/-! ## The module -/

/-- `devfs_module_handle_t`. -/
structure DevModule where
  modid : Nat
  files : Llist
  item : Nat
deriving Repr, DecidableEq

/-- `devfs_file_handle_t`, less its file. -/
structure DevFileHandle where
  fileid : Nat
  modid : Nat
  item : Nat
deriving Repr, DecidableEq

/-- `&store->handle` -/
def handleOf (store : Nat) : Nat := store + 12

/-- `&store->handle.file` -/
def nodeOf (store : Nat) : Nat := store + 16

/-- The file system, `_module_handles`, `_dev_file`, the handles by their
pointers, and the blocks that were freed. -/
structure Devfs where
  fs : FsState
  moduleHandles : Llist
  devFile : Nat
  mods : Nat → DevModule
  hands : Nat → DevFileHandle
  freed : List Nat

/-- The block at `store` is handed out. -/
def Devfs.take (s : Devfs) (store : Nat) : Devfs :=
  { s with freed := s.freed.filter (· ≠ store) }

def Devfs.setItem (s : Devfs) (p : Nat) (item : LlistItem) : Devfs :=
  { s with fs := { s.fs with items := Function.update s.fs.items p item } }

def Devfs.setMod (s : Devfs) (hand : Nat) (h : DevModule) : Devfs :=
  { s with mods := Function.update s.mods hand h }

/-- `dev` -/
def devName : CString := [⟨100, by decide⟩, ⟨101, by decide⟩, ⟨118, by decide⟩]

/-- `devfs_init`, with the memory it gets and what `tlock_init` answers. -/
def devfsInit (fs : FsState) (devFile : Nat) (allocated : Bool) : Option (Devfs × Int) :=
  let s : Devfs := ⟨fs, llistInit, devFile, fun _ => ⟨0, llistInit, 0⟩, fun _ => ⟨0, 0, 0⟩, []⟩
  if devFile = 0 then some (s, -1)
  else
    let root := fs.fsRoot
    let file := { blankFile with
      name := devName, impl := (fs.files root).inode, pflags := 0o755, flags := 2 }
    (fsAddFile (fs.setFile devFile file) devFile root allocated).map fun r =>
      ({ s with fs := r.1 }, 0)

/-- The loops of `_next_modid` and `_next_fileid`. -/
def nextIdLoop (items : Items) (id : Nat → Nat) :
    Nat → LlistIterator → Option Nat → Nat → Option Nat
  | 0, _, _, _ => none
  | fuel + 1, iter, hand, nextid =>
      match llistIterate items iter with
      | none => none
      | some (_, some _) => some nextid
      | some (iter, none) =>
          hand.bind fun h =>
            nextIdLoop items id fuel iter hand
              (if nextid ≤ id h then (id h + 1) % 65536 else nextid)

def nextModid (fuel : Nat) (s : Devfs) : Option Nat :=
  nextIdLoop s.fs.items (fun h => (s.mods h).modid) fuel (llistIteratorInit s.moduleHandles) none 1

def nextFileid (fuel : Nat) (s : Devfs) (mod : Nat) : Option Nat :=
  nextIdLoop s.fs.items (fun h => (s.hands h).fileid) fuel (llistIteratorInit (s.mods mod).files)
    none 1

def findModLoop (s : Devfs) (modid : Nat) : Nat → LlistIterator → Option Nat → Option Nat
  | 0, _, _ => none
  | fuel + 1, iter, hand =>
      match llistIterate s.fs.items iter with
      | none => none
      | some (_, some _) => some 0
      | some (iter, none) =>
          hand.bind fun h =>
            if (s.mods h).modid = modid then some h else findModLoop s modid fuel iter hand

def findMod (fuel : Nat) (s : Devfs) (modid : Nat) : Option Nat :=
  findModLoop s modid fuel (llistIteratorInit s.moduleHandles) none

/-- `store` is what `kmalloc` answers. -/
def devfsRegisterModule (fuel : Nat) (s : Devfs) (store : Nat) : Option (Devfs × Int) := do
  if store = 0 then return (s, -1)
  let s := s.take store
  let s := s.setItem store { s.fs.items store with data := handleOf store }
  let (items, list) ← llistAppend s.fs.items s.moduleHandles store
  let s := { s with fs := { s.fs with items := items }, moduleHandles := list }
  let s := s.setMod (handleOf store) { s.mods (handleOf store) with item := store }
  let modid ← nextModid fuel s
  let s := s.setMod (handleOf store) { s.mods (handleOf store) with modid := modid }
  let s := s.setMod (handleOf store) { s.mods (handleOf store) with files := llistInit }
  return (s, modid)

/-- `store` is what `kmalloc` answers, `allocated` what `tlock_init` does. -/
def devfsRegisterFile (fuel : Nat) (s : Devfs) (mhand : Nat) (filename : CString) (store : Nat)
    (allocated : Bool) : Option (Devfs × Int) := do
  if mhand = 0 ∨ store = 0 then return (s, -1)
  let s := s.take store
  let s := (s.setItem store ⟨handleOf store, 0, 0⟩).setItem (nodeOf store) ⟨0, 0, 0⟩
  let (items, list) ← llistAppend s.fs.items (s.mods mhand).files store
  let s := { s with fs := { s.fs with items := items } }
  let s := s.setMod mhand { s.mods mhand with files := list }
  let hand : DevFileHandle := ⟨0, (s.mods mhand).modid, store⟩
  let s := { s with hands := Function.update s.hands (handleOf store) hand }
  let fileid ← nextFileid fuel s mhand
  let hand := { hand with fileid := fileid }
  let s := { s with hands := Function.update s.hands (handleOf store) hand }
  -- `strncpy` of at most `FILE_NAME_MAX` characters
  let file := { blankFile with
    name := filename.take 256, impl := (s.fs.files s.devFile).inode, pflags := 0o644, flags := 2 }
  let (fs, _) ← fsAddFile (s.fs.setFile (nodeOf store) file) (nodeOf store) s.devFile allocated
  return ({ s with fs := fs }, fileid)

def devfsDeregisterFile (fuel : Nat) (s : Devfs) (fhand : Nat) : Option (Devfs × Int) := do
  if fhand = 0 then return (s, -1)
  let mhand ← findMod fuel s (s.hands fhand).modid
  if mhand = 0 then return (s, -1)
  let (items, list) ← llistRemove s.fs.items (s.mods mhand).files (s.hands fhand).item
  let s := { s with fs := { s.fs with items := items } }
  let s := s.setMod mhand { s.mods mhand with files := list }
  return ({ s with freed := (s.hands fhand).item :: s.freed }, 0)

/-- The loop of `devfs_deregister_module`. -/
def deregisterLoop (bound : Nat) : Nat → Devfs → LlistIterator → Option Nat → Option Devfs
  | 0, _, _, _ => none
  | fuel + 1, s, iter, fhand =>
      match llistIterate s.fs.items iter with
      | none => none
      | some (_, some _) => some s
      | some (iter, none) =>
          fhand.bind fun f =>
            (devfsDeregisterFile bound s f).bind fun r => deregisterLoop bound fuel r.1 iter fhand

def devfsDeregisterModule (fuel : Nat) (s : Devfs) (hand : Nat) : Option (Devfs × Int) := do
  if hand = 0 then return (s, -1)
  let s ← deregisterLoop fuel fuel s (llistIteratorInit (s.mods hand).files) none
  let (items, list) ← llistRemove s.fs.items s.moduleHandles (s.mods hand).item
  let s := { s with fs := { s.fs with items := items }, moduleHandles := list }
  return ({ s with freed := (s.mods hand).item :: s.freed }, 0)

/-! ## The registry it is meant to be -/

/-- The registered modules, each with its files, as blocks. -/
abbrev Registry := List (Nat × List Nat)

/-- A call, with the memory it gets. Handles are the pointers that the calls
gave out. -/
inductive DevCall where
  | registerModule (store : Nat)
  | registerFile (mhand : Nat) (filename : CString) (store : Nat)
  | deregisterFile (fhand : Nat)
  | deregisterModule (mhand : Nat)
deriving Repr, DecidableEq

/-- The call, when its allocations succeed. -/
def devStep (fuel : Nat) (s : Devfs) : DevCall → Option Devfs
  | .registerModule store => (devfsRegisterModule fuel s store).map Prod.fst
  | .registerFile mhand filename store =>
      (devfsRegisterFile fuel s mhand filename store true).map Prod.fst
  | .deregisterFile fhand => (devfsDeregisterFile fuel s fhand).map Prod.fst
  | .deregisterModule mhand => (devfsDeregisterModule fuel s mhand).map Prod.fst

/-- The file joins the module whose handle is given. -/
def addFile (mhand store : Nat) (x : Nat × List Nat) : Nat × List Nat :=
  if handleOf x.1 = mhand then (x.1, x.2 ++ [store]) else x

def regStep (reg : Registry) : DevCall → Registry
  | .registerModule store => reg ++ [(store, [])]
  | .registerFile mhand _ store => reg.map (addFile mhand store)
  | .deregisterFile fhand => reg.map fun x => (x.1, x.2.filter (handleOf · ≠ fhand))
  | .deregisterModule mhand => reg.filter (handleOf ·.1 ≠ mhand)

/-- The list items of a module and its files. -/
def moduleItems (x : Nat × List Nat) : List Nat := x.1 :: x.2.flatMap fun f => [f, nodeOf f]

/-- The list items in use: the nodes `base` of the file system, and those of the
registrations. -/
def inUse (base : List Nat) (reg : Registry) : List Nat := base ++ reg.flatMap moduleItems

/-- A block that `kmalloc` may give out. -/
def FreshBlock (base : List Nat) (reg : Registry) (store : Nat) : Prop :=
  store ≠ 0 ∧ store ∉ inUse base reg ∧ nodeOf store ∉ inUse base reg

/-- The handles of a call are live, and its memory is fresh. -/
def LiveCall (base : List Nat) (reg : Registry) : DevCall → Prop
  | .registerModule store => FreshBlock base reg store
  | .registerFile mhand _ store => (∃ x ∈ reg, mhand = handleOf x.1) ∧ FreshBlock base reg store
  | .deregisterFile fhand => ∃ x ∈ reg, ∃ f ∈ x.2, fhand = handleOf f
  | .deregisterModule mhand => ∃ x ∈ reg, mhand = handleOf x.1

def LiveRun (base : List Nat) : Registry → List DevCall → Prop
  | _, [] => True
  | reg, c :: cs => LiveCall base reg c ∧ LiveRun base (regStep reg c) cs

/-- The state is the registry: the lists hold what is registered, the children
of `/dev` are the nodes `kids` that were there and those of the files, the ids
are distinct, and no block in a list was freed. -/
structure DevInv (kids : List Nat) (s : Devfs) (reg : Registry) : Prop where
  mods : LlistRep s.fs.items s.moduleHandles (reg.map Prod.fst)
  files : ∀ x ∈ reg, LlistRep s.fs.items (s.mods (handleOf x.1)).files x.2
  children : ∃ xs, LlistRep s.fs.items (s.fs.files s.devFile).children xs ∧
    ∀ p, p ∈ xs ↔ p ∈ kids ∨ ∃ x ∈ reg, ∃ f ∈ x.2, p = nodeOf f
  modids : (reg.map fun x => (s.mods (handleOf x.1)).modid).Nodup
  fileids : ∀ x ∈ reg, (x.2.map fun f => (s.hands (handleOf f)).fileid).Nodup
  live : ∀ x ∈ reg, x.1 ∉ s.freed ∧ ∀ f ∈ x.2, f ∉ s.freed

/-- The state is the registry before and after every call of a run, each of
which returns. -/
def RegistryOk (fuel : Nat) (kids : List Nat) : Devfs → Registry → List DevCall → Prop
  | s, reg, [] => DevInv kids s reg
  | s, reg, c :: cs =>
      DevInv kids s reg ∧ ∃ s', devStep fuel s c = some s' ∧
        RegistryOk fuel kids s' (regStep reg c) cs

theorem RegistryOk.inv {fuel : Nat} {kids : List Nat} {s : Devfs} {reg : Registry}
    {cs : List DevCall} (h : RegistryOk fuel kids s reg cs) : DevInv kids s reg := by
  cases cs with
  | nil => exact h
  | cons c cs => exact h.1

/-- The calls that register. -/
def DevCall.IsRegister : DevCall → Prop
  | .registerModule _ => True
  | .registerFile _ _ _ => True
  | .deregisterFile _ => False
  | .deregisterModule _ => False

/-- A call that only needs one module and one file of it. -/
def SingleCall (reg : Registry) : DevCall → Prop
  | .registerModule _ => reg = []
  | .registerFile mhand _ _ => ∀ x ∈ reg, handleOf x.1 = mhand → x.2 = []
  | .deregisterFile _ => False
  | .deregisterModule _ => False

/-- Along a whole run. -/
def SingleRun : Registry → List DevCall → Prop
  | _, [] => True
  | reg, c :: cs => SingleCall reg c ∧ SingleRun (regStep reg c) cs

/-! ## What the loops do -/

theorem llistIterate_first (items : Items) {list : Llist} (h : list.list ≠ 0) :
    llistIterate items (llistIteratorInit list) =
      some (⟨list.list, list.list⟩, some (items list.list).data) := by
  simp [llistIterate, llistIteratorInit, h]

theorem llistIterate_none (items : Items) {list : Llist} (h : list.list = 0) :
    llistIterate items (llistIteratorInit list) = some (⟨0, 0⟩, none) := by
  simp [llistIterate, llistIteratorInit, h]

section Loops

variable {s : Devfs} {fuel : Nat}

/-- With an item in the list the first identifier is the next one. -/
theorem nextIdLoop_eq (items : Items) (id : Nat → Nat) {list : Llist} (h : list.list ≠ 0)
    (hf : 0 < fuel) : nextIdLoop items id fuel (llistIteratorInit list) none 1 = some 1 := by
  obtain ⟨fuel, rfl⟩ := Nat.exists_eq_succ_of_ne_zero (Nat.ne_of_gt hf)
  rw [nextIdLoop, llistIterate_first items h]

/-- With a module registered no module is found. -/
theorem findMod_eq (modid : Nat) (h : s.moduleHandles.list ≠ 0) (hf : 0 < fuel) :
    findMod fuel s modid = some 0 := by
  obtain ⟨fuel, rfl⟩ := Nat.exists_eq_succ_of_ne_zero (Nat.ne_of_gt hf)
  rw [findMod, findModLoop, llistIterate_first _ h]

/-- Then no file is taken out. -/
theorem devfsDeregisterFile_eq {fhand : Nat} (hfh : fhand ≠ 0) (h : s.moduleHandles.list ≠ 0)
    (hf : 0 < fuel) : devfsDeregisterFile fuel s fhand = some (s, -1) := by
  unfold devfsDeregisterFile
  rw [if_neg hfh, findMod_eq _ h hf]
  rfl

/-- A module without files is not taken out: the loop runs on a handle that was
not set. -/
theorem devfsDeregisterModule_none {hand : Nat} (hh : hand ≠ 0)
    (h : (s.mods hand).files.list = 0) : devfsDeregisterModule fuel s hand = none := by
  have hloop : deregisterLoop fuel fuel s (llistIteratorInit (s.mods hand).files) none = none := by
    cases fuel with
    | zero => rfl
    | succ fuel => rw [deregisterLoop, llistIterate_none _ h]; rfl
  unfold devfsDeregisterModule
  rw [if_neg hh, hloop]
  rfl

/-- A module with files is taken out, and they stay. -/
theorem devfsDeregisterModule_eq {hand : Nat} (hh : hand ≠ 0)
    (h : (s.mods hand).files.list ≠ 0) (hf : 0 < fuel) :
    devfsDeregisterModule fuel s hand =
      (llistRemove s.fs.items s.moduleHandles (s.mods hand).item).map fun r =>
        ({ s with
            fs := { s.fs with items := r.1 }
            moduleHandles := r.2
            freed := (s.mods hand).item :: s.freed }, 0) := by
  have hloop : deregisterLoop fuel fuel s (llistIteratorInit (s.mods hand).files) none =
      some s := by
    obtain ⟨fuel, rfl⟩ := Nat.exists_eq_succ_of_ne_zero (Nat.ne_of_gt hf)
    rw [deregisterLoop, llistIterate_first _ h]
  unfold devfsDeregisterModule
  rw [if_neg hh, hloop]
  simp only [Option.bind_eq_bind, Option.bind_some]
  cases llistRemove s.fs.items s.moduleHandles (s.mods hand).item with
  | none => rfl
  | some r => rfl

end Loops

/-! ## Registering -/

section Register

variable {s : Devfs} {fuel store : Nat}

/-- The state `s'` is `s` with the module in `store` registered last. -/
structure ModuleRegistered (s : Devfs) (store : Nat) (ms : List Nat) (s' : Devfs) : Prop where
  rep : LlistRep s'.fs.items s'.moduleHandles (ms ++ [store])
  lock : s'.moduleHandles.lock = 0
  handle : s'.mods (handleOf store) = ⟨1, llistInit, store⟩
  mods : ∀ h, h ≠ handleOf store → s'.mods h = s.mods h
  frame : ∀ q, q ∉ ms → q ≠ store → s'.fs.items q = s.fs.items q
  files : s'.fs.files = s.fs.files
  devFile : s'.devFile = s.devFile
  hands : s'.hands = s.hands
  freed : s'.freed = s.freed.filter (· ≠ store)

theorem devfsRegisterModule_spec {ms : List Nat} (h : LlistRep s.fs.items s.moduleHandles ms)
    (hlock : s.moduleHandles.lock = 0) (h0 : store ≠ 0) (hnew : store ∉ ms) (hf : 0 < fuel) :
    ∃ s', devfsRegisterModule fuel s store = some (s', 1) ∧ ModuleRegistered s store ms s' := by
  have hrep : LlistRep (Function.update s.fs.items store
      { s.fs.items store with data := handleOf store }) s.moduleHandles ms :=
    h.frame fun p hp => Function.update_of_ne (ne_of_mem_of_not_mem hp hnew) ..
  obtain ⟨r, hcall, hstep, hfree⟩ := llistAppend_returns hrep hlock h0 hnew
  have hne : r.2.list ≠ 0 := fun he => by simpa using hstep.rep.list_eq_zero_iff.mp he
  refine ⟨{ s with
      fs := { s.fs with items := r.1 }
      moduleHandles := r.2
      mods := Function.update s.mods (handleOf store) ⟨1, llistInit, store⟩
      freed := s.freed.filter (· ≠ store) }, ?_, ?_⟩
  · unfold devfsRegisterModule
    rw [if_neg h0]
    simp only [Devfs.take, Devfs.setItem, hcall, Option.bind_eq_bind, Option.bind_some, nextModid,
      nextIdLoop_eq _ _ hne hf, Devfs.setMod, Function.update_self, Function.update_idem,
      Option.pure_def]
    rfl
  · refine ⟨hstep.rep, hfree, Function.update_self .., fun h hh => Function.update_of_ne hh ..,
      ?_, rfl, rfl, rfl, rfl⟩
    intro q hq hqs
    have hq' : q ∉ ms ++ [store] := by simp [hq, hqs]
    exact (hstep.frame q hq hq').trans (Function.update_of_ne hqs ..)

/-- The state `s'` is `s` with the file in `store` registered last, for the
module with the handle `mhand`. -/
structure FileRegistered (s : Devfs) (mhand store : Nat) (fs xs : List Nat) (s' : Devfs) :
    Prop where
  files : LlistRep s'.fs.items (s'.mods mhand).files (fs ++ [store])
  children : LlistRep s'.fs.items (s'.fs.files s'.devFile).children (xs ++ [nodeOf store])
  filesLock : (s'.mods mhand).files.lock = 0
  childrenLock : (s'.fs.files s'.devFile).children.lock = 0
  modid : (s'.mods mhand).modid = (s.mods mhand).modid
  item : (s'.mods mhand).item = (s.mods mhand).item
  mods : ∀ h, h ≠ mhand → s'.mods h = s.mods h
  fileid : (s'.hands (handleOf store)).fileid = 1
  hands : ∀ h, h ≠ handleOf store → s'.hands h = s.hands h
  frame : ∀ q, q ∉ fs → q ∉ xs → q ≠ store → q ≠ nodeOf store → s'.fs.items q = s.fs.items q
  moduleHandles : s'.moduleHandles = s.moduleHandles
  devFile : s'.devFile = s.devFile
  freed : s'.freed = s.freed.filter (· ≠ store)

theorem devfsRegisterFile_spec {mhand : Nat} {fs xs : List Nat} (filename : CString)
    (hfs : LlistRep s.fs.items (s.mods mhand).files fs) (hflock : (s.mods mhand).files.lock = 0)
    (hxs : LlistRep s.fs.items (s.fs.files s.devFile).children xs)
    (hxlock : (s.fs.files s.devFile).children.lock = 0) (hm : mhand ≠ 0) (hd0 : s.devFile ≠ 0)
    (hd : s.devFile ≠ nodeOf store) (h0 : store ≠ 0) (hsf : store ∉ fs) (hsx : store ∉ xs)
    (hnf : nodeOf store ∉ fs) (hnx : nodeOf store ∉ xs) (hapart : ∀ p ∈ fs, p ∉ xs)
    (hf : 0 < fuel) :
    ∃ s', devfsRegisterFile fuel s mhand filename store true = some (s', 1) ∧
      FileRegistered s mhand store fs xs s' := by
  have hn0 : nodeOf store ≠ 0 := Nat.succ_ne_zero _
  have hsn : store ≠ nodeOf store := by unfold nodeOf; omega
  -- the cleared block
  obtain ⟨items, hitems⟩ : ∃ items, items = Function.update
    (Function.update s.fs.items store ⟨handleOf store, 0, 0⟩) (nodeOf store) ⟨0, 0, 0⟩ := ⟨_, rfl⟩
  have hsame : ∀ q, q ≠ store → q ≠ nodeOf store → items q = s.fs.items q := fun q hqs hqn => by
    rw [hitems, Function.update_of_ne hqn, Function.update_of_ne hqs]
  -- the module's list
  obtain ⟨r, hcall, hstep, hfree⟩ := llistAppend_returns (hfs.frame fun p hp =>
    hsame p (ne_of_mem_of_not_mem hp hsf) (ne_of_mem_of_not_mem hp hnf)) hflock h0 hsf
  have hframe : ∀ q, q ∉ fs → q ≠ store → q ≠ nodeOf store → r.1 q = s.fs.items q :=
    fun q hq hqs hqn => (hstep.frame q hq (by simp [hq, hqs])).trans (hsame q hqs hqn)
  have hne : r.2.list ≠ 0 := fun he => by simpa using hstep.rep.list_eq_zero_iff.mp he
  -- the children of `/dev`
  obtain ⟨file, hfile⟩ : ∃ file : Kfile, file = { blankFile with
    name := filename.take 256, impl := (s.fs.files s.devFile).inode, pflags := 0o644,
    flags := 2 } := ⟨_, rfl⟩
  have hdev : (Function.update s.fs.files (nodeOf store) file) s.devFile = s.fs.files s.devFile :=
    Function.update_of_ne hd ..
  obtain ⟨fs', inode, hadd, hkids, hkfree, hkframe⟩ := @fsAddFile_children
    ({ s.fs with items := r.1 }.setFile (nodeOf store) file) (nodeOf store) s.devFile xs
    (by
      simp only [FsState.setFile, hdev]
      exact hxs.frame fun p hp => hframe p (fun hpf => hapart p hpf hp)
        (ne_of_mem_of_not_mem hp hsx) (ne_of_mem_of_not_mem hp hnx))
    (by simpa only [FsState.setFile, hdev] using hxlock) hd hd0 hn0 hnx
  refine ⟨{ s with
      fs := fs'
      mods := Function.update s.mods mhand { s.mods mhand with files := r.2 }
      hands := Function.update s.hands (handleOf store) ⟨1, (s.mods mhand).modid, store⟩
      freed := s.freed.filter (· ≠ store) }, ?_, ?_⟩
  · unfold devfsRegisterFile
    rw [if_neg (not_or.mpr ⟨hm, h0⟩)]
    simp only [Devfs.take, Devfs.setItem, ← hitems, hcall, Option.bind_eq_bind, Option.bind_some,
      nextFileid, Devfs.setMod, Function.update_self, nextIdLoop_eq _ _ hne hf, ← hfile, hadd,
      Function.update_idem, Option.pure_def]
    rfl
  · refine ⟨?_, hkids, ?_, hkfree, ?_, ?_, fun h hh => Function.update_of_ne hh .., ?_,
      fun h hh => Function.update_of_ne hh .., ?_, rfl, rfl, rfl⟩
    · simp only [Function.update_self]
      refine hstep.rep.frame ?_
      intro p hp
      rcases List.mem_append.mp hp with hp | hp
      · exact hkframe p (hapart p hp) (ne_of_mem_of_not_mem hp hnf)
      · rw [List.mem_singleton.mp hp]
        exact hkframe store hsx hsn
    · simpa only [Function.update_self] using hfree
    · simp only [Function.update_self]
    · simp only [Function.update_self]
    · simp only [Function.update_self]
    · intro q hq hqx hqs hqn
      exact (hkframe q hqx hqn).trans (hframe q hq hqs hqn)

end Register

/-! ## Runs -/

/-- The items of the registrations are apart from each other and from `base`. -/
structure ItemsApart (base : List Nat) (reg : Registry) : Prop where
  own : ∀ x ∈ reg, (moduleItems x).Nodup
  one : ∀ x ∈ reg, ∀ y ∈ reg, ∀ p ∈ moduleItems x, p ∈ moduleItems y → x = y
  old : ∀ x ∈ reg, ∀ p ∈ moduleItems x, p ∉ base

theorem mem_moduleItems {x : Nat × List Nat} {p : Nat} :
    p ∈ moduleItems x ↔ p = x.1 ∨ ∃ f ∈ x.2, p = f ∨ p = nodeOf f := by
  simp [moduleItems]

theorem head_mem_moduleItems (x : Nat × List Nat) : x.1 ∈ moduleItems x := List.mem_cons_self

theorem file_mem_moduleItems {x : Nat × List Nat} {f : Nat} (hf : f ∈ x.2) : f ∈ moduleItems x :=
  mem_moduleItems.mpr (.inr ⟨f, hf, .inl rfl⟩)

theorem node_mem_moduleItems {x : Nat × List Nat} {f : Nat} (hf : f ∈ x.2) :
    nodeOf f ∈ moduleItems x :=
  mem_moduleItems.mpr (.inr ⟨f, hf, .inr rfl⟩)

theorem mem_inUse {base : List Nat} {reg : Registry} {p : Nat} :
    p ∈ inUse base reg ↔ p ∈ base ∨ ∃ x ∈ reg, p ∈ moduleItems x := by
  simp [inUse]

theorem mem_moduleItems_addFile {mhand store p : Nat} {x : Nat × List Nat} :
    p ∈ moduleItems (addFile mhand store x) ↔
      p ∈ moduleItems x ∨ handleOf x.1 = mhand ∧ (p = store ∨ p = nodeOf store) := by
  unfold addFile
  split
  · rename_i h
    simp [mem_moduleItems, h, or_and_right, exists_or, or_assoc]
  · rename_i h
    simp [h]

@[simp] theorem addFile_fst (mhand store : Nat) (x : Nat × List Nat) :
    (addFile mhand store x).1 = x.1 := by
  unfold addFile
  split <;> rfl

theorem handleOf_ne_zero (store : Nat) : handleOf store ≠ 0 := Nat.succ_ne_zero _

theorem handleOf_inj {p q : Nat} : handleOf p = handleOf q ↔ p = q := by
  simp [handleOf]

section Apart

variable {base : List Nat} {reg : Registry} {store : Nat}

theorem ItemsApart.registerModule (h : ItemsApart base reg) (hnew : FreshBlock base reg store) :
    ItemsApart base (reg ++ [(store, [])]) := by
  have hout : ∀ x ∈ reg, store ∉ moduleItems x := fun x hx hp =>
    hnew.2.1 (mem_inUse.mpr (.inr ⟨x, hx, hp⟩))
  have hitems : moduleItems (store, []) = [store] := rfl
  refine ⟨?_, ?_, ?_⟩
  · intro x hx
    rcases List.mem_append.mp hx with hx | hx
    · exact h.own x hx
    · rw [List.mem_singleton.mp hx, hitems]
      exact List.nodup_singleton store
  · intro x hx y hy p hpx hpy
    rcases List.mem_append.mp hx with hx | hx <;> rcases List.mem_append.mp hy with hy | hy
    · exact h.one x hx y hy p hpx hpy
    · rw [List.mem_singleton.mp hy, hitems, List.mem_singleton] at hpy
      exact absurd (hpy ▸ hpx) (hout x hx)
    · rw [List.mem_singleton.mp hx, hitems, List.mem_singleton] at hpx
      exact absurd (hpx ▸ hpy) (hout y hy)
    · rw [List.mem_singleton.mp hx, List.mem_singleton.mp hy]
  · intro x hx p hp
    rcases List.mem_append.mp hx with hx | hx
    · exact h.old x hx p hp
    · rw [List.mem_singleton.mp hx, hitems, List.mem_singleton] at hp
      exact fun hb => hnew.2.1 (mem_inUse.mpr (.inl (hp ▸ hb)))

theorem ItemsApart.registerFile (h : ItemsApart base reg) (mhand : Nat)
    (hnew : FreshBlock base reg store) : ItemsApart base (reg.map (addFile mhand store)) := by
  have hsn : store ≠ nodeOf store := by unfold nodeOf; omega
  have hout : ∀ x ∈ reg, ∀ p, p = store ∨ p = nodeOf store → p ∉ moduleItems x := by
    rintro x hx p (rfl | rfl) hp
    · exact hnew.2.1 (mem_inUse.mpr (.inr ⟨x, hx, hp⟩))
    · exact hnew.2.2 (mem_inUse.mpr (.inr ⟨x, hx, hp⟩))
  refine ⟨?_, ?_, ?_⟩
  · intro x' hx'
    obtain ⟨x, hx, rfl⟩ := List.mem_map.mp hx'
    unfold addFile
    split
    · have hperm : moduleItems (x.1, x.2 ++ [store]) = moduleItems x ++ [store, nodeOf store] := by
        simp [moduleItems]
      rw [hperm, List.nodup_append']
      refine ⟨h.own x hx, by simp [hsn], fun p hp hp' => hout x hx p (by simpa using hp') hp⟩
    · exact h.own x hx
  · intro x' hx' y' hy' p hpx hpy
    obtain ⟨x, hx, rfl⟩ := List.mem_map.mp hx'
    obtain ⟨y, hy, rfl⟩ := List.mem_map.mp hy'
    rw [mem_moduleItems_addFile] at hpx hpy
    suffices x = y by rw [this]
    rcases hpx with hpx | ⟨hxm, hpx⟩ <;> rcases hpy with hpy | ⟨hym, hpy⟩
    · exact h.one x hx y hy p hpx hpy
    · exact absurd hpx (hout x hx p hpy)
    · exact absurd hpy (hout y hy p hpx)
    · have hxy : x.1 = y.1 := handleOf_inj.mp (hxm.trans hym.symm)
      exact h.one x hx y hy x.1 (head_mem_moduleItems x) (hxy ▸ head_mem_moduleItems y)
  · intro x' hx' p hp hb
    obtain ⟨x, hx, rfl⟩ := List.mem_map.mp hx'
    rcases mem_moduleItems_addFile.mp hp with hp | ⟨-, rfl | rfl⟩
    · exact h.old x hx p hp hb
    · exact hnew.2.1 (mem_inUse.mpr (.inl hb))
    · exact hnew.2.2 (mem_inUse.mpr (.inl hb))

theorem ItemsApart.head_ne_file (h : ItemsApart base reg) {x y : Nat × List Nat} (hx : x ∈ reg)
    (hy : y ∈ reg) {f : Nat} (hf : f ∈ y.2) : x.1 ≠ f := by
  rintro rfl
  obtain rfl := h.one x hx y hy x.1 (head_mem_moduleItems x) (file_mem_moduleItems hf)
  exact (List.nodup_cons.mp (h.own x hx)).1 (List.mem_flatMap.mpr ⟨x.1, hf, List.mem_cons_self⟩)

theorem ItemsApart.head_ne_node (h : ItemsApart base reg) {x y : Nat × List Nat} (hx : x ∈ reg)
    (hy : y ∈ reg) {f : Nat} (hf : f ∈ y.2) : x.1 ≠ nodeOf f := by
  intro he
  obtain rfl := h.one x hx y hy x.1 (head_mem_moduleItems x) (he ▸ node_mem_moduleItems hf)
  refine (List.nodup_cons.mp (h.own x hx)).1 (List.mem_flatMap.mpr ⟨f, hf, ?_⟩)
  simp [he]

theorem ItemsApart.file_ne_node (h : ItemsApart base reg) {x y : Nat × List Nat} (hx : x ∈ reg)
    (hy : y ∈ reg) {f g : Nat} (hf : f ∈ x.2) (hg : g ∈ y.2) : f ≠ nodeOf g := by
  intro he
  obtain rfl := h.one x hx y hy f (file_mem_moduleItems hf) (he ▸ node_mem_moduleItems hg)
  by_cases hfg : f = g
  · subst hfg
    unfold nodeOf at he
    omega
  · have hpair := (List.nodup_flatMap.mp (List.nodup_cons.mp (h.own x hx)).2).2
    have : Std.Symm (Function.onFun List.Disjoint fun f => [f, nodeOf f]) :=
      ⟨fun _ _ hd _ hp hp' => hd hp' hp⟩
    have hdisj := hpair.forall hf hg hfg
    exact hdisj (List.mem_cons_self : f ∈ [f, nodeOf f]) (by simp [he])

end Apart

/-- The lists hold what is registered, as after registrations alone. Every
identifier is `1`. -/
structure DevLists (base kids : List Nat) (s : Devfs) (reg : Registry) : Prop where
  mods : LlistRep s.fs.items s.moduleHandles (reg.map Prod.fst)
  files : ∀ x ∈ reg, LlistRep s.fs.items (s.mods (handleOf x.1)).files x.2
  children : ∃ xs, LlistRep s.fs.items (s.fs.files s.devFile).children xs ∧
    ∀ p, p ∈ xs ↔ p ∈ kids ∨ ∃ x ∈ reg, ∃ f ∈ x.2, p = nodeOf f
  modsLock : s.moduleHandles.lock = 0
  filesLock : ∀ x ∈ reg, (s.mods (handleOf x.1)).files.lock = 0
  childrenLock : (s.fs.files s.devFile).children.lock = 0
  modid : ∀ x ∈ reg, (s.mods (handleOf x.1)).modid = 1
  item : ∀ x ∈ reg, (s.mods (handleOf x.1)).item = x.1
  fileid : ∀ x ∈ reg, ∀ f ∈ x.2, (s.hands (handleOf f)).fileid = 1
  live : ∀ x ∈ reg, x.1 ∉ s.freed ∧ ∀ f ∈ x.2, f ∉ s.freed
  dev : s.devFile ∈ base
  nonnull : s.devFile ≠ 0
  kids_old : ∀ p ∈ kids, p ∈ base
  apart : ItemsApart base reg

/-- At most one module, with at most one file. -/
def SingleReg (reg : Registry) : Prop := reg.length ≤ 1 ∧ ∀ x ∈ reg, x.2.length ≤ 1

section Runs

variable {base kids xs : List Nat} {s s' : Devfs} {reg : Registry} {store mhand : Nat}

theorem map_eq_replicate {f : α → Nat} {l : List α} (h : ∀ a ∈ l, f a = 1) :
    l.map f = List.replicate l.length 1 := by
  rw [List.eq_replicate_iff]
  exact ⟨List.length_map .., by simpa using h⟩

/-- The lists are in step, but the identifiers are only distinct if there is
one. -/
theorem DevLists.inv_iff (h : DevLists base kids s reg) : DevInv kids s reg ↔ SingleReg reg := by
  have hmods := map_eq_replicate h.modid
  have hfiles : ∀ x ∈ reg, x.2.map (fun f => (s.hands (handleOf f)).fileid) =
      List.replicate x.2.length 1 := fun x hx => map_eq_replicate (h.fileid x hx)
  constructor
  · intro hi
    have hids := hi.modids
    rw [hmods, List.nodup_replicate] at hids
    refine ⟨hids, ?_⟩
    intro x hx
    have hfids := hi.fileids x hx
    rwa [hfiles x hx, List.nodup_replicate] at hfids
  · rintro ⟨hlen, hflen⟩
    refine ⟨h.mods, h.files, h.children, ?_, ?_, h.live⟩
    · rw [hmods, List.nodup_replicate]
      exact hlen
    · intro x hx
      rw [hfiles x hx, List.nodup_replicate]
      exact hflen x hx

/-- The children of `/dev` are none of the other items. -/
theorem DevLists.child_cases (h : DevLists base kids s reg)
    (hxs : ∀ p, p ∈ xs ↔ p ∈ kids ∨ ∃ x ∈ reg, ∃ f ∈ x.2, p = nodeOf f) {p : Nat} (hp : p ∈ xs) :
    p ∈ inUse base reg ∧ ∀ y ∈ reg, p ≠ y.1 ∧ p ∉ y.2 := by
  rcases (hxs p).mp hp with hk | ⟨x, hx, f, hf, rfl⟩
  · have hb := h.kids_old p hk
    refine ⟨mem_inUse.mpr (.inl hb), fun y hy => ⟨?_, ?_⟩⟩
    · rintro rfl
      exact h.apart.old y hy y.1 (head_mem_moduleItems y) hb
    · intro hf
      exact h.apart.old y hy p (file_mem_moduleItems hf) hb
  · refine ⟨mem_inUse.mpr (.inr ⟨x, hx, node_mem_moduleItems hf⟩), fun y hy => ⟨?_, ?_⟩⟩
    · exact (h.apart.head_ne_node hy hx hf).symm
    · intro hg
      exact h.apart.file_ne_node hy hx hg hf rfl

theorem DevLists.registerModule (h : DevLists base kids s reg) (hnew : FreshBlock base reg store)
    (hreg : ModuleRegistered s store (reg.map Prod.fst) s') :
    DevLists base kids s' (reg ++ [(store, [])]) := by
  obtain ⟨xs, hxs, hmem⟩ := h.children
  have hin : ∀ x ∈ reg, ∀ p ∈ moduleItems x, p ≠ store := fun x hx p hp he =>
    hnew.2.1 (mem_inUse.mpr (.inr ⟨x, hx, he ▸ hp⟩))
  have hold : ∀ x ∈ reg, s'.mods (handleOf x.1) = s.mods (handleOf x.1) := fun x hx =>
    hreg.mods _ fun he => hin x hx x.1 (head_mem_moduleItems x) (handleOf_inj.mp he)
  have hheads : ∀ p, (∀ y ∈ reg, p ≠ y.1) → p ∉ reg.map Prod.fst := fun p hp hm => by
    obtain ⟨y, hy, he⟩ := List.mem_map.mp hm
    exact hp y hy he.symm
  have hkeep : ∀ {P : Nat × List Nat → Prop}, (∀ x ∈ reg, P x) → P (store, []) →
      ∀ x ∈ reg ++ [(store, [])], P x := fun hP hs x hx => by
    rcases List.mem_append.mp hx with hx | hx
    · exact hP x hx
    · exact List.mem_singleton.mp hx ▸ hs
  have hfreed : ∀ p, p ∉ s.freed → p ∉ s'.freed := fun p hp => by
    rw [hreg.freed]
    exact fun hm => hp (List.mem_of_mem_filter hm)
  refine ⟨?_, hkeep ?_ ?_, ⟨xs, ?_, ?_⟩, hreg.lock,
    hkeep ?_ ?_, ?_, hkeep ?_ ?_, hkeep ?_ ?_,
    hkeep ?_ ?_, hkeep ?_ ?_, ?_, ?_, h.kids_old,
    h.apart.registerModule hnew⟩
  · simpa using hreg.rep
  · intro x hx
    rw [hold x hx]
    refine (h.files x hx).frame fun p hp => hreg.frame p (hheads p ?_) ?_
    · intro y hy
      exact (h.apart.head_ne_file hy hx hp).symm
    · exact hin x hx p (file_mem_moduleItems hp)
  · rw [hreg.handle]
    exact llistRep_init _
  · rw [hreg.files, hreg.devFile]
    refine hxs.frame ?_
    intro p hp
    obtain ⟨huse, hne⟩ := h.child_cases hmem hp
    exact hreg.frame p (hheads p fun y hy => (hne y hy).1) fun he => hnew.2.1 (he ▸ huse)
  · intro p
    rw [hmem]
    simp
  · intro x hx
    rw [hold x hx]
    exact h.filesLock x hx
  · rw [hreg.handle]
    rfl
  · rw [hreg.files, hreg.devFile]
    exact h.childrenLock
  · intro x hx
    rw [hold x hx]
    exact h.modid x hx
  · rw [hreg.handle]
  · intro x hx
    rw [hold x hx]
    exact h.item x hx
  · rw [hreg.handle]
  · intro x hx
    rw [hreg.hands]
    exact h.fileid x hx
  · exact fun f hf => absurd hf List.not_mem_nil
  · intro x hx
    exact ⟨hfreed _ (h.live x hx).1, fun f hf => hfreed _ ((h.live x hx).2 f hf)⟩
  · refine ⟨?_, fun f hf => absurd hf List.not_mem_nil⟩
    rw [hreg.freed]
    simp
  · rw [hreg.devFile]
    exact h.dev
  · rw [hreg.devFile]
    exact h.nonnull

/-- The nodes of the files, when there is one file more. -/
theorem node_mem_addFile {x₀ : Nat × List Nat} (hx₀ : x₀ ∈ reg)
    (hcase : ∀ x ∈ reg, x = x₀ ∨ handleOf x.1 ≠ handleOf x₀.1) {p : Nat} :
    (∃ x ∈ reg.map (addFile (handleOf x₀.1) store), ∃ f ∈ x.2, p = nodeOf f) ↔
      (∃ x ∈ reg, ∃ f ∈ x.2, p = nodeOf f) ∨ p = nodeOf store := by
  have hself : addFile (handleOf x₀.1) store x₀ = (x₀.1, x₀.2 ++ [store]) := if_pos rfl
  constructor
  · rintro ⟨x', hx', f, hf, rfl⟩
    obtain ⟨x, hx, rfl⟩ := List.mem_map.mp hx'
    rcases hcase x hx with rfl | hne
    · rw [hself] at hf
      rcases List.mem_append.mp hf with hf | hf
      · exact .inl ⟨x, hx, f, hf, rfl⟩
      · exact .inr (by rw [List.mem_singleton.mp hf])
    · rw [addFile, if_neg hne] at hf
      exact .inl ⟨x, hx, f, hf, rfl⟩
  · rintro (⟨x, hx, f, hf, rfl⟩ | rfl)
    · refine ⟨_, List.mem_map_of_mem hx, f, ?_, rfl⟩
      unfold addFile
      split
      · exact List.mem_append_left _ hf
      · exact hf
    · refine ⟨_, List.mem_map_of_mem hx₀, store, ?_, rfl⟩
      rw [hself]
      exact List.mem_append_right _ (List.mem_singleton_self store)

theorem DevLists.registerFile (h : DevLists base kids s reg) {x₀ : Nat × List Nat} (hx₀ : x₀ ∈ reg)
    (hnew : FreshBlock base reg store)
    (hmem : ∀ p, p ∈ xs ↔ p ∈ kids ∨ ∃ x ∈ reg, ∃ f ∈ x.2, p = nodeOf f)
    (hreg : FileRegistered s (handleOf x₀.1) store x₀.2 xs s') :
    DevLists base kids s' (reg.map (addFile (handleOf x₀.1) store)) := by
  have hin : ∀ x ∈ reg, ∀ p ∈ moduleItems x, p ≠ store ∧ p ≠ nodeOf store := fun x hx p hp =>
    ⟨fun he => hnew.2.1 (mem_inUse.mpr (.inr ⟨x, hx, he ▸ hp⟩)),
      fun he => hnew.2.2 (mem_inUse.mpr (.inr ⟨x, hx, he ▸ hp⟩))⟩
  -- the module itself, or another one, which is as it was
  have hcase : ∀ x ∈ reg, x = x₀ ∨ handleOf x.1 ≠ handleOf x₀.1 := fun x hx => by
    by_cases he : x.1 = x₀.1
    · exact .inl (h.apart.one x hx x₀ hx₀ x.1 (head_mem_moduleItems x)
        (he ▸ head_mem_moduleItems x₀))
    · exact .inr fun h0 => he (handleOf_inj.mp h0)
  have hself : addFile (handleOf x₀.1) store x₀ = (x₀.1, x₀.2 ++ [store]) := if_pos rfl
  have hkeep : ∀ {P : Nat × List Nat → Prop}, P (x₀.1, x₀.2 ++ [store]) →
      (∀ x ∈ reg, handleOf x.1 ≠ handleOf x₀.1 → P x) →
      ∀ x ∈ reg.map (addFile (handleOf x₀.1) store), P x := fun h₀ hP x' hx' => by
    obtain ⟨x, hx, rfl⟩ := List.mem_map.mp hx'
    rcases hcase x hx with rfl | hne
    · rwa [hself]
    · rw [addFile, if_neg hne]
      exact hP x hx hne
  have hfreed : ∀ p, p ∉ s.freed → p ∉ s'.freed := fun p hp => by
    rw [hreg.freed]
    exact fun hm => hp (List.mem_of_mem_filter hm)
  have hstore : store ∉ s'.freed := by
    rw [hreg.freed]
    simp
  have hhand : ∀ x ∈ reg, ∀ f ∈ x.2, s'.hands (handleOf f) = s.hands (handleOf f) :=
    fun x hx f hf => hreg.hands _ fun he =>
      (hin x hx f (file_mem_moduleItems hf)).1 (handleOf_inj.mp he)
  refine ⟨?_, hkeep hreg.files ?_, ⟨_, hreg.children, ?_⟩, ?_,
    hkeep hreg.filesLock ?_, hreg.childrenLock, hkeep ?_ ?_,
    hkeep ?_ ?_, hkeep ?_ ?_,
    hkeep ⟨?_, ?_⟩ ?_, ?_, ?_, h.kids_old,
    h.apart.registerFile _ hnew⟩
  · rw [List.map_map, show Prod.fst ∘ addFile (handleOf x₀.1) store = Prod.fst from
      funext fun x => addFile_fst .., hreg.moduleHandles]
    refine h.mods.frame ?_
    intro p hp
    obtain ⟨y, hy, rfl⟩ := List.mem_map.mp hp
    obtain ⟨hs, hn⟩ := hin y hy y.1 (head_mem_moduleItems y)
    exact hreg.frame _ (fun hf => h.apart.head_ne_file hy hx₀ hf rfl)
      (fun hp => ((h.child_cases hmem hp).2 y hy).1 rfl) hs hn
  · intro x hx hne
    rw [hreg.mods _ hne]
    refine (h.files x hx).frame ?_
    intro p hp
    obtain ⟨hs, hn⟩ := hin x hx p (file_mem_moduleItems hp)
    refine hreg.frame p (fun hf => hne ?_) (fun hp' => ((h.child_cases hmem hp').2 x hx).2 hp) hs hn
    rw [h.apart.one x hx x₀ hx₀ p (file_mem_moduleItems hp) (file_mem_moduleItems hf)]
  · intro p
    rw [List.mem_append, List.mem_singleton, hmem, or_assoc, node_mem_addFile hx₀ hcase]
  · rw [hreg.moduleHandles]
    exact h.modsLock
  · intro x hx hne
    rw [hreg.mods _ hne]
    exact h.filesLock x hx
  · exact hreg.modid.trans (h.modid x₀ hx₀)
  · intro x hx hne
    rw [hreg.mods _ hne]
    exact h.modid x hx
  · exact hreg.item.trans (h.item x₀ hx₀)
  · intro x hx hne
    rw [hreg.mods _ hne]
    exact h.item x hx
  · intro f hf
    rcases List.mem_append.mp hf with hf | hf
    · rw [hhand x₀ hx₀ f hf]
      exact h.fileid x₀ hx₀ f hf
    · rw [List.mem_singleton.mp hf]
      exact hreg.fileid
  · intro x hx hne f hf
    rw [hhand x hx f hf]
    exact h.fileid x hx f hf
  · exact hfreed _ (h.live x₀ hx₀).1
  · intro f hf
    rcases List.mem_append.mp hf with hf | hf
    · exact hfreed f ((h.live x₀ hx₀).2 f hf)
    · exact List.mem_singleton.mp hf ▸ hstore
  · intro x hx hne
    exact ⟨hfreed _ (h.live x hx).1, fun f hf => hfreed f ((h.live x hx).2 f hf)⟩
  · rw [hreg.devFile]
    exact h.dev
  · rw [hreg.devFile]
    exact h.nonnull

/-- A registration returns, and the lists hold what is registered then. -/
theorem DevLists.step {fuel : Nat} {c : DevCall} (h : DevLists base kids s reg)
    (hlive : LiveCall base reg c) (hadd : c.IsRegister) (hf : 0 < fuel) :
    ∃ s', devStep fuel s c = some s' ∧ DevLists base kids s' (regStep reg c) := by
  cases c with
  | registerModule store =>
      have hnew : store ∉ reg.map Prod.fst := fun hm => by
        obtain ⟨x, hx, he⟩ := List.mem_map.mp hm
        exact hlive.2.1 (mem_inUse.mpr (.inr ⟨x, hx, he ▸ head_mem_moduleItems x⟩))
      obtain ⟨s', hcall, hreg⟩ := devfsRegisterModule_spec h.mods h.modsLock hlive.1 hnew hf
      exact ⟨s', by rw [devStep, hcall]; rfl, h.registerModule hlive hreg⟩
  | registerFile mhand filename store =>
      obtain ⟨⟨x₀, hx₀, rfl⟩, hnew⟩ := hlive
      obtain ⟨xs, hxs, hmem⟩ := h.children
      have hdev : s.devFile ≠ nodeOf store := fun he =>
        hnew.2.2 (mem_inUse.mpr (.inl (he ▸ h.dev)))
      have hfile : ∀ p ∈ x₀.2, p ∈ inUse base reg := fun p hp =>
        mem_inUse.mpr (.inr ⟨x₀, hx₀, file_mem_moduleItems hp⟩)
      obtain ⟨s', hcall, hreg⟩ := devfsRegisterFile_spec filename (h.files x₀ hx₀)
        (h.filesLock x₀ hx₀) hxs h.childrenLock (handleOf_ne_zero _) h.nonnull hdev hnew.1
        (fun hp => hnew.2.1 (hfile _ hp)) (fun hp => hnew.2.1 (h.child_cases hmem hp).1)
        (fun hp => hnew.2.2 (hfile _ hp)) (fun hp => hnew.2.2 (h.child_cases hmem hp).1)
        (fun p hp hpx => ((h.child_cases hmem hpx).2 x₀ hx₀).2 hp) hf
      exact ⟨s', by rw [devStep, hcall]; rfl, h.registerFile hx₀ hnew hmem hreg⟩
  | deregisterFile fhand => exact absurd hadd id
  | deregisterModule mhand => exact absurd hadd id

/-- A file that is deregistered stays in its module's list. -/
theorem DevLists.deregisterFile_bad {fuel fhand : Nat} (h : DevLists base kids s reg)
    (hlive : LiveCall base reg (.deregisterFile fhand)) (hf : 0 < fuel)
    (hstep : devStep fuel s (.deregisterFile fhand) = some s') :
    ¬ DevInv kids s' (regStep reg (.deregisterFile fhand)) := by
  obtain ⟨x, hx, f, hfx, rfl⟩ := hlive
  have hne : s.moduleHandles.list ≠ 0 := fun h0 => by
    have hnil := List.map_eq_nil_iff.mp (h.mods.list_eq_zero_iff.mp h0)
    exact List.not_mem_nil (hnil ▸ hx)
  rw [devStep, devfsDeregisterFile_eq (handleOf_ne_zero f) hne hf] at hstep
  obtain rfl : s = s' := Option.some.inj hstep
  intro hinv
  have hrep := hinv.files _ (List.mem_map_of_mem hx)
  have heq : x.2 = x.2.filter (handleOf · ≠ handleOf f) := (h.files x hx).unique hrep
  rw [heq, List.mem_filter] at hfx
  exact of_decide_eq_true hfx.2 rfl

/-- A module that is deregistered is only taken out if it has a file, which stays
among the children of `/dev`. -/
theorem DevLists.deregisterModule_bad {fuel mhand : Nat} (h : DevLists base kids s reg)
    (hsingle : SingleReg reg) (hlive : LiveCall base reg (.deregisterModule mhand)) (hf : 0 < fuel)
    (hstep : devStep fuel s (.deregisterModule mhand) = some s') :
    ¬ DevInv kids s' (regStep reg (.deregisterModule mhand)) := by
  obtain ⟨x, hx, rfl⟩ := hlive
  obtain rfl : reg = [x] := by
    cases reg with
    | nil => exact absurd hx List.not_mem_nil
    | cons y reg =>
        obtain rfl : reg = [] := by simpa using hsingle.1
        rw [List.mem_singleton.mp hx]
  have hrep : LlistRep s.fs.items s.moduleHandles [x.1] := h.mods
  by_cases hlist : (s.mods (handleOf x.1)).files.list = 0
  · rw [devStep, devfsDeregisterModule_none (handleOf_ne_zero _) hlist] at hstep
    cases hstep
  · obtain ⟨f, hfx⟩ := List.exists_mem_of_ne_nil x.2 fun h0 =>
      hlist ((h.files x hx).list_eq_zero_iff.mpr h0)
    obtain ⟨xs, hxs, hmem⟩ := h.children
    have hlocked : LlistRep s.fs.items { s.moduleHandles with lock := 1 } [x.1] :=
      hrep.of_list_eq _ rfl
    have hne : ¬ (x.1 = 0 ∨ s.moduleHandles.list = 0) := by
      rintro (h0 | h0)
      · exact hrep.nonnull (by simp [h0])
      · simpa using hrep.list_eq_zero_iff.mp h0
    rw [devStep, devfsDeregisterModule_eq (handleOf_ne_zero _) hlist hf, h.item x hx, llistRemove,
      if_neg hne, Llist.acquire, if_pos h.modsLock] at hstep
    obtain rfl := Option.some.inj hstep
    intro hinv
    obtain ⟨ys, hys, hmem'⟩ := hinv.children
    -- the children are the ones there were
    have hkids : LlistRep (llistRemoveUnlocked s.fs.items { s.moduleHandles with lock := 1 } x.1).1
        (s.fs.files s.devFile).children xs :=
      hxs.frame fun p hp => llistRemoveUnlocked_single_frame hlocked
        ((h.child_cases hmem hp).2 x hx).1
    obtain rfl : xs = ys := hkids.unique hys
    have hnode : nodeOf f ∈ xs := (hmem _).mpr (.inr ⟨x, hx, f, hfx, rfl⟩)
    rcases (hmem' _).mp hnode with hk | ⟨y, hy, -⟩
    · exact h.apart.old x hx _ (node_mem_moduleItems hfx) (h.kids_old _ hk)
    · simp [regStep] at hy

/-- The registrations that keep to one module with one file. -/
theorem singleReg_step {c : DevCall} (hsingle : SingleReg reg) (hadd : c.IsRegister) :
    SingleReg (regStep reg c) ↔ SingleCall reg c := by
  cases c with
  | registerModule store =>
      constructor
      · intro h
        have := h.1
        rw [regStep, List.length_append, List.length_singleton] at this
        exact List.length_eq_zero_iff.mp (by omega)
      · intro h
        have hnil : reg = [] := h
        subst hnil
        exact ⟨le_refl 1, fun x hx => by rw [List.mem_singleton.mp hx]; exact Nat.zero_le 1⟩
  | registerFile mhand filename store =>
      constructor
      · intro h x hx hxm
        have := h.2 _ (List.mem_map_of_mem hx)
        rw [addFile, if_pos hxm, List.length_append, List.length_singleton] at this
        exact List.length_eq_zero_iff.mp (by omega)
      · intro h
        refine ⟨(List.length_map ..).le.trans hsingle.1, ?_⟩
        intro x' hx'
        obtain ⟨x, hx, rfl⟩ := List.mem_map.mp hx'
        unfold addFile
        split
        · rename_i hxm
          simp [h x hx hxm]
        · exact hsingle.2 x hx
  | deregisterFile fhand => exact absurd hadd id
  | deregisterModule mhand => exact absurd hadd id

/-- After a call the state is the registry, or it was the first of its kind. -/
theorem devStep_cases {fuel : Nat} {c : DevCall} (h : DevLists base kids s reg)
    (hsingle : SingleReg reg) (hlive : LiveCall base reg c) (hf : 0 < fuel) :
    (SingleCall reg c ∧ ∃ s', devStep fuel s c = some s' ∧
        DevLists base kids s' (regStep reg c) ∧ SingleReg (regStep reg c)) ∨
      ¬ SingleCall reg c ∧ ∀ s', devStep fuel s c = some s' → ¬ DevInv kids s' (regStep reg c) := by
  by_cases hadd : c.IsRegister
  · obtain ⟨s', hstep, h'⟩ := h.step hlive hadd hf
    by_cases hc : SingleCall reg c
    · exact .inl ⟨hc, s', hstep, h', (singleReg_step hsingle hadd).mpr hc⟩
    · refine .inr ⟨hc, fun t ht hinv => hc ?_⟩
      obtain rfl : s' = t := Option.some.inj (hstep.symm.trans ht)
      exact (singleReg_step hsingle hadd).mp (h'.inv_iff.mp hinv)
  · cases c with
    | registerModule store => exact absurd trivial hadd
    | registerFile mhand filename store => exact absurd trivial hadd
    | deregisterFile fhand => exact .inr ⟨id, fun t ht => h.deregisterFile_bad hlive hf ht⟩
    | deregisterModule mhand =>
        exact .inr ⟨id, fun t ht => h.deregisterModule_bad hsingle hlive hf ht⟩

/-- By induction on the calls. -/
theorem registryOk_iff {fuel : Nat} (hf : 0 < fuel) {cs : List DevCall} :
    ∀ {s : Devfs} {reg : Registry}, DevLists base kids s reg → SingleReg reg →
      LiveRun base reg cs → (RegistryOk fuel kids s reg cs ↔ SingleRun reg cs) := by
  induction cs with
  | nil => exact fun h hsingle _ => iff_of_true (h.inv_iff.mpr hsingle) trivial
  | cons c cs ih =>
      intro s reg h hsingle hlive
      have hinv := h.inv_iff.mpr hsingle
      rcases devStep_cases h hsingle hlive.1 hf with ⟨hc, s', hstep, h', hsingle'⟩ | ⟨hc, hbad⟩
      · constructor
        · rintro ⟨-, t, ht, hok⟩
          obtain rfl : s' = t := Option.some.inj (hstep.symm.trans ht)
          exact ⟨hc, (ih h' hsingle' hlive.2).mp hok⟩
        · exact fun hrun => ⟨hinv, s', hstep, (ih h' hsingle' hlive.2).mpr hrun.2⟩
      · constructor
        · rintro ⟨-, t, ht, hok⟩
          exact absurd hok.inv (hbad t ht)
        · exact fun hrun => absurd hrun.1 hc

end Runs

/-- `devfs_init` leaves an empty registry, and `/dev` without children. -/
theorem devfsInit_lists {fs : FsState} {T : FileTree} {nodes : List Nat} {devFile : Nat}
    (h : FsRep fs T nodes) (h0 : devFile ≠ 0) (hnew : devFile ∉ nodes) :
    ∃ s, devfsInit fs devFile true = some (s, 0) ∧ DevLists (nodes ++ [devFile]) [] s [] := by
  have hroot : fs.fsRoot ∈ nodes := h.root_eq ▸ h.root_mem
  obtain ⟨fs', inode, hadd, -, hfile, -⟩ := @FsRep.add _ _ _ _ _ { blankFile with
    name := devName, impl := (fs.files fs.fsRoot).inode, pflags := 0o755, flags := 2 }
    h h0 hnew hroot
  refine ⟨⟨fs', llistInit, devFile, fun _ => ⟨0, llistInit, 0⟩, fun _ => ⟨0, 0, 0⟩, []⟩, ?_, ?_⟩
  · unfold devfsInit
    simp only [if_neg h0, hadd, Option.map_some]
  · refine ⟨llistRep_init _, nofun, ⟨[], ?_, by simp⟩, rfl, nofun, ?_, nofun, nofun, nofun, nofun,
      List.mem_append_right _ (List.mem_singleton_self devFile), h0, nofun, ⟨nofun, nofun, nofun⟩⟩
    · simp only [hfile]
      exact llistRep_init _
    · simp only [hfile]
      rfl

/-- **When the devfs registry is one.** After `devfs_init`, along every run of
calls with live handles and fresh memory, the state is the registry before and
after every call exactly if the run registers at most one module and at most
one file of it, and deregisters nothing. -/
theorem registry_ok_iff {fs : FsState} {T : FileTree} {nodes : List Nat} {devFile fuel : Nat}
    (h : FsRep fs T nodes) (h0 : devFile ≠ 0) (hnew : devFile ∉ nodes) (hf : 0 < fuel) :
    ∃ s, devfsInit fs devFile true = some (s, 0) ∧
      ∀ cs, LiveRun (nodes ++ [devFile]) [] cs →
        (RegistryOk fuel [] s [] cs ↔ SingleRun [] cs) := by
  obtain ⟨s, hinit, hlists⟩ := devfsInit_lists h h0 hnew
  exact ⟨s, hinit, fun cs hlive => registryOk_iff hf hlists ⟨Nat.zero_le 1, nofun⟩ hlive⟩

/-- The file tree with its root alone. -/
def bareFs : FsState := fsInit 16 (fun _ => blankFile) fun _ => ⟨0, 0, 0⟩

theorem bareFs_rep : FsRep bareFs (.single 16) [16] := fsInit_rep (by decide) _ _

theorem registry_ok_iff_bare :
    ∃ s, devfsInit bareFs 32 true = some (s, 0) ∧
      ∀ cs, LiveRun ([16] ++ [32]) [] cs → (RegistryOk 1 [] s [] cs ↔ SingleRun [] cs) :=
  registry_ok_iff bareFs_rep (by decide) (by decide) (by decide)

/-- A module registers, then a file of it, which deregisters. -/
def fileCalls : List DevCall :=
  [.registerModule 64, .registerFile 76 [dot] 128, .deregisterFile 140]

theorem liveRun_fileCalls : LiveRun [16, 32] [] fileCalls := by
  simp [fileCalls, LiveRun, LiveCall, FreshBlock, inUse, moduleItems, handleOf, nodeOf, regStep,
    addFile]

/-- The file stays in the list of its module. -/
theorem registry_keeps_file :
    ∃ s, devfsInit bareFs 32 true = some (s, 0) ∧ LiveRun [16, 32] [] fileCalls ∧
      ¬ RegistryOk 1 [] s [] fileCalls := by
  obtain ⟨s, hinit, hlists⟩ := devfsInit_lists bareFs_rep (by decide : 32 ≠ 0) (by decide)
  refine ⟨s, hinit, liveRun_fileCalls, ?_⟩
  intro hok
  have hsingle :=
    (registryOk_iff Nat.one_pos hlists ⟨Nat.zero_le 1, nofun⟩ liveRun_fileCalls).mp hok
  exact hsingle.2.2.1

end LambdaOs
