import Mathlib.Logic.Relation
import LambdaOs.LlistRefine
import LambdaOs.Word

/-!
# The file tree

`fs/fs.c`: files are `kfile_t` structures, each with a pointer to its parent
and an intrusive list of its children, linked through the structures
themselves. `fs_init` makes the root and `fs_add_file` appends a file to the
children of another.

A file is named by its pointer, `0` being `NULL`, and its list item by the
same number. `FileTree` is the tree that the structures stand for, with plain
lists of children; `FsRep` ties the two, and every tree that is built keeps it
(`Built.rep`).
-/

namespace LambdaOs

/-! ## Strings -/

/-- A character of a C string, which ends before the first zero byte. -/
abbrev CChar := { b : UInt8 // b ≠ 0 }

abbrev CString := List CChar

/-- The string of these bytes. -/
def CString.ofBytes (bytes : List UInt8) : CString :=
  bytes.filterMap fun b => if h : b ≠ 0 then some ⟨b, h⟩ else none

def slash : CChar := ⟨47, by decide⟩
def dot : CChar := ⟨46, by decide⟩

def strcmp : CString → CString → Int
  | [], [] => 0
  | [], d :: _ => 0 - d.val.toNat
  | c :: _, [] => c.val.toNat - 0
  | c :: s, d :: t => if c = d then strcmp s t else c.val.toNat - d.val.toNat

theorem CChar.toNat_pos (c : CChar) : 0 < c.val.toNat := by
  refine Nat.pos_of_ne_zero fun h => c.property ?_
  exact UInt8.toNat_inj.mp h

theorem strcmp_eq_zero {s t : CString} : strcmp s t = 0 ↔ s = t := by
  induction s generalizing t with
  | nil =>
    cases t with
    | nil => simp [strcmp]
    | cons d t =>
      have := d.toNat_pos
      simp only [strcmp, reduceCtorEq, iff_false]
      omega
  | cons c s ih =>
    cases t with
    | nil =>
      have := c.toNat_pos
      simp only [strcmp, reduceCtorEq, iff_false]
      omega
    | cons d t =>
      rw [strcmp, List.cons.injEq]
      split
      · rename_i hcd
        rw [ih]
        exact ⟨fun h => ⟨hcd, h⟩, fun h => h.2⟩
      · rename_i hcd
        have hne : c.val.toNat ≠ d.val.toNat := fun h =>
          hcd (Subtype.ext (UInt8.toNat_inj.mp h))
        refine ⟨?_, fun h => absurd h.1 hcd⟩
        intro h
        omega

/-! ## Files -/

/-- The operations that a driver gives its files. -/
inductive FileOps where
  | null
  | initrd
deriving Repr, DecidableEq

/-- `struct kfile`, less its lock and the target of a link. -/
structure Kfile where
  name : CString
  length : Nat
  impl : Nat
  inode : Nat
  uid : Nat
  gid : Nat
  pflags : Nat
  flags : Nat
  atime : Nat
  mtime : Nat
  ctime : Nat
  ops : FileOps
  info : Nat
  parent : Nat
  children : Llist
deriving Repr, DecidableEq

/-- The structure after `memset`. -/
def blankFile : Kfile where
  name := []
  length := 0
  impl := 0
  inode := 0
  uid := 0
  gid := 0
  pflags := 0
  flags := 0
  atime := 0
  mtime := 0
  ctime := 0
  ops := .null
  info := 0
  parent := 0
  children := llistInit

/-- The file structures, their list items, `_fs_root` and `c_inode`. -/
structure FsState where
  files : Nat → Kfile
  items : Items
  fsRoot : Nat
  cInode : Nat

def FsState.setFile (s : FsState) (f : Nat) (k : Kfile) : FsState :=
  { s with files := Function.update s.files f k }

/-- `fs_init`, with the memory it finds and the structure that it is given. -/
def fsInit (root : Nat) (files : Nat → Kfile) (items : Items) : FsState where
  files := Function.update files root { blankFile with pflags := 0o755, flags := 2 }
  items := items
  fsRoot := root
  cInode := 1

/-- `allocated` says whether `tlock_init` found memory. `none` is a list whose
lock is held. -/
def fsAddFile (s : FsState) (file parent : Nat) (allocated : Bool) : Option (FsState × Int) :=
  let inode := s.cInode
  let s := { s.setFile file { s.files file with inode := inode } with cInode := u32 (inode + 1) }
  if allocated = false then some (s, -1)
  else
    let parent := if parent = 0 then s.fsRoot else parent
    let items := Function.update s.items file { s.items file with data := file }
    (llistAppend items (s.files parent).children file).map fun r =>
      let s := { s.setFile parent { s.files parent with children := r.2 } with items := r.1 }
      let s := s.setFile file { s.files file with parent := parent }
      (s.setFile file { s.files file with children := llistInit }, i32 inode)

/-! ## The tree -/

/-- The root, and what every file is called, lies in and holds. -/
structure FileTree where
  root : Nat
  name : Nat → CString
  parent : Nat → Nat
  kids : Nat → List Nat

namespace FileTree

/-- A root without children. -/
def single (root : Nat) : FileTree where
  root := root
  name := fun _ => []
  parent := fun _ => root
  kids := fun _ => []

def add (T : FileTree) (file parent : Nat) (name : CString) : FileTree where
  root := T.root
  name := Function.update T.name file name
  parent := Function.update T.parent file parent
  kids := Function.update (Function.update T.kids parent (T.kids parent ++ [file])) file []

section

variable {T : FileTree} {file parent f c : Nat} {name : CString}

@[simp] theorem add_root : (T.add file parent name).root = T.root := rfl

@[simp] theorem add_name_self : (T.add file parent name).name file = name :=
  Function.update_self ..

theorem add_name (hf : f ≠ file) : (T.add file parent name).name f = T.name f :=
  Function.update_of_ne hf ..

@[simp] theorem add_parent_self : (T.add file parent name).parent file = parent :=
  Function.update_self ..

theorem add_parent (hf : f ≠ file) : (T.add file parent name).parent f = T.parent f :=
  Function.update_of_ne hf ..

@[simp] theorem add_kids_self : (T.add file parent name).kids file = [] :=
  Function.update_self ..

theorem add_kids_parent (hne : parent ≠ file) :
    (T.add file parent name).kids parent = T.kids parent ++ [file] :=
  (Function.update_of_ne hne ..).trans (Function.update_self ..)

theorem add_kids (hf : f ≠ file) (hp : f ≠ parent) :
    (T.add file parent name).kids f = T.kids f :=
  (Function.update_of_ne hf ..).trans (Function.update_of_ne hp ..)

theorem mem_add_kids (hne : parent ≠ file) :
    c ∈ (T.add file parent name).kids f ↔
      f ≠ file ∧ (c ∈ T.kids f ∨ (f = parent ∧ c = file)) := by
  by_cases hff : f = file
  · rw [hff, add_kids_self]
    simp
  · by_cases hfp : f = parent
    · rw [hfp, add_kids_parent hne, List.mem_append, List.mem_singleton]
      simp [hne]
    · rw [add_kids hff hfp]
      simp [hff, hfp]

end

end FileTree

/-- In `s` the files are `nodes`, and they make up `T`. -/
structure FsRep (s : FsState) (T : FileTree) (nodes : List Nat) : Prop where
  root_eq : s.fsRoot = T.root
  root_mem : T.root ∈ nodes
  nonnull : 0 ∉ nodes
  names : ∀ f ∈ nodes, (s.files f).name = T.name f
  rings : ∀ f ∈ nodes, LlistRep s.items (s.files f).children (T.kids f)
  unlocked : ∀ f ∈ nodes, (s.files f).children.lock = 0
  data : ∀ f ∈ nodes, ∀ c ∈ T.kids f, (s.items c).data = c
  kids : ∀ f ∈ nodes, ∀ c ∈ T.kids f, c ∈ nodes ∧ c ≠ T.root ∧ T.parent c = f
  parents : ∀ c ∈ nodes, c ≠ T.root → T.parent c ∈ nodes ∧ c ∈ T.kids (T.parent c)
  root_parent : (s.files T.root).parent = 0
  parent_eq : ∀ c ∈ nodes, c ≠ T.root → (s.files c).parent = T.parent c

/-! ## Building a tree -/

section Add

variable {s : FsState} {T : FileTree} {nodes : List Nat} {file parent : Nat} {k : Kfile}

theorem fsInit_rep {root : Nat} (h0 : root ≠ 0) (files : Nat → Kfile) (items : Items) :
    FsRep (fsInit root files items) (.single root) [root] := by
  have hself : (fsInit root files items).files root =
      { blankFile with pflags := 0o755, flags := 2 } := Function.update_self ..
  have hall : ∀ {P : Nat → Prop}, P root → ∀ f ∈ [root], P f := fun hP f hf =>
    (List.mem_singleton.mp hf) ▸ hP
  refine ⟨rfl, List.mem_singleton_self _, ?_, hall ?_, hall ?_, hall ?_, fun f _ => nofun,
    fun f _ => nofun, fun c hc hne => absurd (List.mem_singleton.mp hc) hne, ?_,
    fun c hc hne => absurd (List.mem_singleton.mp hc) hne⟩
  · simpa using h0.symm
  · rw [hself]
    rfl
  · rw [hself]
    exact llistRep_init _
  · rw [hself]
    rfl
  · exact congrArg Kfile.parent hself

/-- The file's structure and the children of its parent after a successful call. -/
theorem fsAddFile_eq (hlock : (s.files parent).children.lock = 0) (hne : parent ≠ file)
    (hp0 : parent ≠ 0) (hf0 : file ≠ 0) :
    let items := Function.update s.items file { s.items file with data := file }
    let r := llistAppendUnlocked items { (s.files parent).children with lock := 1 } file
    fsAddFile s file parent true = some
      ({ s with
          files := Function.update
            (Function.update s.files parent { s.files parent with children := r.2.release }) file
            { s.files file with inode := s.cInode, parent := parent, children := llistInit }
          items := r.1
          cInode := u32 (s.cInode + 1) }, i32 s.cInode) := by
  intro items r
  have hold : ∀ k', (s.setFile file k').files parent = s.files parent := fun k' =>
    Function.update_of_ne hne ..
  have happend : llistAppend items (s.files parent).children file =
      some (r.1, r.2.release) := by
    rw [llistAppend, if_neg hf0, Llist.acquire, if_pos hlock]
    rfl
  unfold fsAddFile
  simp only [if_neg hp0, reduceCtorEq, if_false, hold]
  rw [show (s.setFile file { s.files file with inode := s.cInode }).items = s.items from rfl,
    happend, Option.map_some]
  simp only [FsState.setFile, Function.update_self, Function.update_idem,
    Function.update_of_ne hne.symm]
  rw [Function.update_comm hne, Function.update_idem, Function.update_comm hne.symm]

/-- The call appends the file to the children of the parent, whatever else there
is in the file system. -/
theorem fsAddFile_children {xs : List Nat} (h : LlistRep s.items (s.files parent).children xs)
    (hlock : (s.files parent).children.lock = 0) (hne : parent ≠ file) (hp0 : parent ≠ 0)
    (hf0 : file ≠ 0) (hnew : file ∉ xs) :
    ∃ s' inode, fsAddFile s file parent true = some (s', inode) ∧
      LlistRep s'.items (s'.files parent).children (xs ++ [file]) ∧
      (s'.files parent).children.lock = 0 ∧
      ∀ q, q ∉ xs → q ≠ file → s'.items q = s.items q := by
  have hrep : LlistRep (Function.update s.items file { s.items file with data := file })
      { (s.files parent).children with lock := 1 } xs :=
    (h.frame fun q hq => Function.update_of_ne (ne_of_mem_of_not_mem hq hnew) ..).of_list_eq _ rfl
  refine ⟨_, _, fsAddFile_eq hlock hne hp0 hf0, ?_, ?_, ?_⟩
  · simp only [Function.update_of_ne hne, Function.update_self]
    exact (llistRep_append hrep hf0 hnew).of_list_eq _ rfl
  · simp only [Function.update_of_ne hne, Function.update_self]
    rfl
  · intro q hq hqf
    exact (llistAppendUnlocked_frame hrep hq hqf).trans (Function.update_of_ne hqf ..)

theorem FsRep.kids_add (h : FsRep s T nodes) (hnew : file ∉ nodes) (hp : parent ∈ nodes)
    {name : CString} {f c : Nat} (hf : f ∈ nodes ++ [file])
    (hc : c ∈ (T.add file parent name).kids f) :
    c ∈ nodes ++ [file] ∧ c ≠ T.root ∧ (T.add file parent name).parent c = f := by
  have hne : parent ≠ file := fun he => hnew (he ▸ hp)
  obtain ⟨hff, hc | ⟨rfl, rfl⟩⟩ := (FileTree.mem_add_kids hne).mp hc
  · have hfn : f ∈ nodes := by simpa [hff] using hf
    obtain ⟨hcn, hcr, hcp⟩ := h.kids f hfn c hc
    have hcf : c ≠ file := fun he => hnew (he ▸ hcn)
    exact ⟨List.mem_append_left _ hcn, hcr, (FileTree.add_parent hcf).trans hcp⟩
  · exact ⟨List.mem_append_right _ (List.mem_singleton_self _),
      fun he => hnew (he ▸ h.root_mem), FileTree.add_parent_self⟩

theorem FsRep.parents_add (h : FsRep s T nodes) (hnew : file ∉ nodes) (hp : parent ∈ nodes)
    {name : CString} {c : Nat} (hc : c ∈ nodes ++ [file]) (hcr : c ≠ T.root) :
    (T.add file parent name).parent c ∈ nodes ++ [file] ∧
      c ∈ (T.add file parent name).kids ((T.add file parent name).parent c) := by
  have hne : parent ≠ file := fun he => hnew (he ▸ hp)
  rcases List.mem_append.mp hc with hc | hc
  · have hcf : c ≠ file := fun he => hnew (he ▸ hc)
    obtain ⟨hpn, hin⟩ := h.parents c hc hcr
    rw [FileTree.add_parent hcf]
    refine ⟨List.mem_append_left _ hpn, (FileTree.mem_add_kids hne).mpr ⟨?_, Or.inl hin⟩⟩
    exact fun he => hnew (he ▸ hpn)
  · rw [List.mem_singleton.mp hc, FileTree.add_parent_self]
    exact ⟨List.mem_append_left _ hp, (FileTree.mem_add_kids hne).mpr ⟨hne, Or.inr ⟨rfl, rfl⟩⟩⟩

/-- The tree after the stores of `fs_add_file`. -/
theorem FsRep.add_rep (h : FsRep s T nodes) (hf0 : file ≠ 0) (hnew : file ∉ nodes)
    (hp : parent ∈ nodes) {s' : FsState} (hroot : s'.fsRoot = s.fsRoot) {l : Llist} {n : Nat}
    (hfile : s'.files file = { k with inode := n, parent := parent, children := llistInit })
    (hparent : s'.files parent = { s.files parent with children := l }) (hl : l.lock = 0)
    (hold : ∀ f, f ≠ file → f ≠ parent → s'.files f = s.files f)
    (hring : LlistRep s'.items l (T.kids parent ++ [file]))
    (hframe : ∀ q, q ∉ T.kids parent → q ≠ file → s'.items q = s.items q)
    (hdata : ∀ q ∈ T.kids parent ++ [file], (s'.items q).data = q) :
    FsRep s' (T.add file parent k.name) (nodes ++ [file]) := by
  have hne : parent ≠ file := fun he => hnew (he ▸ hp)
  have hnode : ∀ {f}, f ∈ nodes → f ≠ file := fun hf he => hnew (he ▸ hf)
  -- a file of the old tree, with the parent of the new file set apart
  have hcases : ∀ {P : Nat → Prop}, P file → P parent →
      (∀ f ∈ nodes, f ≠ file → f ≠ parent → P f) → ∀ f ∈ nodes ++ [file], P f := by
    intro P hPfile hPparent hPold f hf
    rcases List.mem_append.mp hf with hf | hf
    · by_cases hfp : f = parent
      · exact hfp ▸ hPparent
      · exact hPold f hf (hnode hf) hfp
    · exact (List.mem_singleton.mp hf) ▸ hPfile
  -- the items of another directory are not touched
  have hitems : ∀ f ∈ nodes, f ≠ parent → ∀ q ∈ T.kids f, s'.items q = s.items q := by
    intro f hf hfp q hq
    obtain ⟨hqn, -, hqf⟩ := h.kids f hf q hq
    refine hframe q (fun hqp => hfp ?_) (hnode hqn)
    rw [← hqf, (h.kids parent hp q hqp).2.2]
  refine ⟨hroot.trans h.root_eq, List.mem_append_left _ h.root_mem, ?_,
    hcases ?_ ?_ ?_, hcases ?_ ?_ ?_,
    hcases ?_ ?_ ?_, hcases ?_ ?_ ?_,
    fun f hf c hc => h.kids_add hnew hp hf hc, fun c hc hcr => h.parents_add hnew hp hc hcr, ?_,
    hcases (fun _ => ?_) ?_ ?_⟩
  · rw [List.mem_append, List.mem_singleton, not_or]
    exact ⟨h.nonnull, hf0.symm⟩
  · rw [hfile, FileTree.add_name_self]
  · rw [hparent, FileTree.add_name hne]
    exact h.names parent hp
  · intro f hf hff hfp
    rw [hold f hff hfp, FileTree.add_name hff]
    exact h.names f hf
  · rw [hfile, FileTree.add_kids_self]
    exact llistRep_init _
  · rw [hparent, FileTree.add_kids_parent hne]
    exact hring
  · intro f hf hff hfp
    rw [hold f hff hfp, FileTree.add_kids hff hfp]
    exact (h.rings f hf).frame (hitems f hf hfp)
  · rw [hfile]
    rfl
  · rw [hparent]
    exact hl
  · intro f hf hff hfp
    rw [hold f hff hfp]
    exact h.unlocked f hf
  · rw [FileTree.add_kids_self]
    nofun
  · rw [FileTree.add_kids_parent hne]
    exact hdata
  · intro f hf hff hfp
    rw [FileTree.add_kids hff hfp]
    intro c hc
    rw [hitems f hf hfp c hc]
    exact h.data f hf c hc
  · by_cases hrp : T.root = parent
    · rw [FileTree.add_root, hrp, hparent]
      exact hrp ▸ h.root_parent
    · rw [FileTree.add_root, hold _ (hnode h.root_mem) hrp]
      exact h.root_parent
  · rw [hfile, FileTree.add_parent_self]
  · intro hpr
    rw [hparent, FileTree.add_parent hne]
    exact h.parent_eq parent hp hpr
  · intro c hc hcf hcp hcr
    rw [hold c hcf hcp, FileTree.add_parent hcf]
    exact h.parent_eq c hc hcr

/-- A new file under one that is in the tree: the tree then, its structure, and
that of the others but for their children. -/
theorem FsRep.add (h : FsRep s T nodes) (hf0 : file ≠ 0) (hnew : file ∉ nodes)
    (hp : parent ∈ nodes) :
    ∃ s' r, fsAddFile (s.setFile file k) file parent true = some (s', r) ∧
      FsRep s' (T.add file parent k.name) (nodes ++ [file]) ∧
      s'.files file = { k with inode := s.cInode, parent := parent, children := llistInit } ∧
      ∀ f, f ≠ file → ∃ ch, s'.files f = { s.files f with children := ch } := by
  have hne : parent ≠ file := fun he => hnew (he ▸ hp)
  have hp0 : parent ≠ 0 := fun he => h.nonnull (he ▸ hp)
  have hout : file ∉ T.kids parent := fun hin => hnew (h.kids parent hp file hin).1
  have hpar : (s.setFile file k).files parent = s.files parent := Function.update_of_ne hne ..
  have hself : (s.setFile file k).files file = k := Function.update_self ..
  have heq := fsAddFile_eq (s := s.setFile file k) (by rw [hpar]; exact h.unlocked parent hp)
    hne hp0 hf0
  rw [hpar, hself] at heq
  simp only at heq
  -- the item with its data, before it is linked
  generalize hm : Function.update (s.setFile file k).items file
    { (s.setFile file k).items file with data := file } = m at heq
  have hmself : (m file).data = file := by
    rw [← hm, Function.update_self]
  have hmold : ∀ q, q ≠ file → m q = s.items q := fun q hq => by
    rw [← hm, Function.update_of_ne hq]
    rfl
  have hring : LlistRep m { (s.files parent).children with lock := 1 } (T.kids parent) :=
    ((h.rings parent hp).frame fun q hq => hmold q fun he => hout (he ▸ hq)).of_list_eq _ rfl
  have happend := llistRep_append hring hf0 hout
  have hframe : ∀ q, q ∉ T.kids parent → q ≠ file →
      (llistAppendUnlocked m { (s.files parent).children with lock := 1 } file).1 q =
        s.items q := fun q hq hqf =>
    (llistAppendUnlocked_frame hring hq hqf).trans (hmold q hqf)
  have hdata := llistAppendUnlocked_data m { (s.files parent).children with lock := 1 } file
  generalize llistAppendUnlocked m { (s.files parent).children with lock := 1 } file = r
    at heq happend hframe hdata
  generalize hF : Function.update (Function.update (s.setFile file k).files parent
    { s.files parent with children := r.2.release }) file
    { k with inode := (s.setFile file k).cInode, parent := parent, children := llistInit } = F
    at heq
  have hFfile : F file = { k with
      inode := s.cInode, parent := parent, children := llistInit } := by
    rw [← hF, Function.update_self]
    rfl
  have hFparent : F parent = { s.files parent with children := r.2.release } := by
    rw [← hF, Function.update_of_ne hne, Function.update_self]
  have hFold : ∀ f, f ≠ file → f ≠ parent → F f = s.files f := fun f hf hfp => by
    rw [← hF, Function.update_of_ne hf, Function.update_of_ne hfp]
    exact Function.update_of_ne hf ..
  have hFch : ∀ f, f ≠ file → ∃ ch, F f = { s.files f with children := ch } := fun f hf => by
    by_cases hfp : f = parent
    · exact ⟨_, hfp ▸ hFparent⟩
    · exact ⟨_, hFold f hf hfp⟩
  refine ⟨_, _, heq, ?_, hFfile, hFch⟩
  refine h.add_rep hf0 hnew hp rfl hFfile hFparent rfl hFold (happend.of_list_eq _ rfl) hframe
    ?_
  intro q hq
  change (r.1 q).data = q
  rw [hdata]
  rcases List.mem_append.mp hq with hq | hq
  · rw [hmold q fun he => hout (he ▸ hq)]
    exact h.data parent hp q hq
  · rw [List.mem_singleton.mp hq, hmself]

/-- Structures that are not in the tree do not matter to it. -/
theorem FsRep.congr (h : FsRep s T nodes) {s' : FsState} (hroot : s'.fsRoot = s.fsRoot)
    (hitems : s'.items = s.items) (hold : ∀ f ∈ nodes, s'.files f = s.files f) :
    FsRep s' T nodes := by
  refine ⟨hroot.trans h.root_eq, h.root_mem, h.nonnull, ?_, ?_,
    ?_, ?_, h.kids, h.parents, ?_, ?_⟩
  · intro f hf
    rw [hold f hf]
    exact h.names f hf
  · intro f hf
    rw [hold f hf, hitems]
    exact h.rings f hf
  · intro f hf
    rw [hold f hf]
    exact h.unlocked f hf
  · intro f hf c hc
    rw [hitems]
    exact h.data f hf c hc
  · rw [hold _ h.root_mem]
    exact h.root_parent
  · intro c hc hne
    rw [hold c hc]
    exact h.parent_eq c hc hne

theorem FsRep.setFile (h : FsRep s T nodes) (hnew : file ∉ nodes) (k : Kfile) :
    FsRep (s.setFile file k) T nodes := by
  refine h.congr rfl rfl ?_
  intro f hf
  have hne : f ≠ file := fun he => hnew (he ▸ hf)
  exact Function.update_of_ne hne ..

/-- Memory for the lock was not found: the tree is as it was. -/
theorem FsRep.addFailed (h : FsRep s T nodes) (hnew : file ∉ nodes) (parent : Nat) :
    ∃ s' r, fsAddFile (s.setFile file k) file parent false = some (s', r) ∧ FsRep s' T nodes := by
  refine ⟨_, _, rfl, h.congr rfl rfl ?_⟩
  intro f hf
  have hne : f ≠ file := fun he => hnew (he ▸ hf)
  exact (Function.update_of_ne hne ..).trans (Function.update_of_ne hne ..)

end Add

/-- The file system, with the tree that it stands for and its files. -/
structure FsSys where
  st : FsState
  tree : FileTree
  nodes : List Nat

/-- One call of `fs_add_file`, of a structure `k` that is not in the tree, under
`NULL` or a file that is; `ok` limits the names. -/
inductive FsAdd (ok : FileTree → Nat → CString → Prop) : FsSys → FsSys → Prop where
  | added {x : FsSys} {file parent : Nat} {k : Kfile} {s' : FsState} {r : Int}
      (hf0 : file ≠ 0) (hnew : file ∉ x.nodes) (hp : parent = 0 ∨ parent ∈ x.nodes)
      (hok : ok x.tree (if parent = 0 then x.tree.root else parent) k.name)
      (hadd : fsAddFile (x.st.setFile file k) file parent true = some (s', r)) :
      FsAdd ok x ⟨s', x.tree.add file (if parent = 0 then x.tree.root else parent) k.name,
        x.nodes ++ [file]⟩
  | failed {x : FsSys} {file parent : Nat} {k : Kfile} {s' : FsState} {r : Int}
      (hf0 : file ≠ 0) (hnew : file ∉ x.nodes)
      (hadd : fsAddFile (x.st.setFile file k) file parent false = some (s', r)) :
      FsAdd ok x ⟨s', x.tree, x.nodes⟩

/-- A tree built by `fs_init` and calls of `fs_add_file`. -/
def Built (ok : FileTree → Nat → CString → Prop) (x : FsSys) : Prop :=
  ∃ root files items, root ≠ 0 ∧
    Relation.ReflTransGen (FsAdd ok) ⟨fsInit root files items, .single root, [root]⟩ x

/-- `NULL` for a parent is the root. -/
theorem fsAddFile_null (s : FsState) (file : Nat) (allocated : Bool) (h : s.fsRoot ≠ 0) :
    fsAddFile s file 0 allocated = fsAddFile s file s.fsRoot allocated := by
  simp only [fsAddFile, if_true, FsState.setFile, if_neg h]

theorem FsAdd.rep {ok : FileTree → Nat → CString → Prop} {x y : FsSys} (hadd : FsAdd ok x y)
    (h : FsRep x.st x.tree x.nodes) : FsRep y.st y.tree y.nodes := by
  cases hadd with
  | added hf0 hnew hp hok hadd =>
    rename_i file parent k s' r
    have hr0 : x.st.fsRoot ≠ 0 := fun he => h.nonnull (by rw [← he, h.root_eq]; exact h.root_mem)
    by_cases hp0 : parent = 0
    · rw [hp0, fsAddFile_null (x.st.setFile file k) _ _ hr0] at hadd
      have hroot : (x.st.setFile file k).fsRoot = x.tree.root := h.root_eq
      rw [hroot] at hadd
      obtain ⟨s₁, r₁, heq, hrep, -⟩ := h.add (k := k) hf0 hnew h.root_mem
      rw [heq] at hadd
      obtain ⟨rfl, -⟩ := Prod.mk.inj (Option.some.inj hadd)
      rw [if_pos hp0]
      exact hrep
    · obtain ⟨s₁, r₁, heq, hrep, -⟩ := h.add (k := k) hf0 hnew (hp.resolve_left hp0)
      rw [heq] at hadd
      obtain ⟨rfl, -⟩ := Prod.mk.inj (Option.some.inj hadd)
      rw [if_neg hp0]
      exact hrep
  | failed hf0 hnew hadd =>
    rename_i file parent k s' r
    obtain ⟨s₁, r₁, heq, hrep⟩ := h.addFailed (k := k) hnew parent
    rw [heq] at hadd
    obtain ⟨rfl, -⟩ := Prod.mk.inj (Option.some.inj hadd)
    exact hrep

/-- Every tree that is built is represented. -/
theorem Built.rep {ok : FileTree → Nat → CString → Prop} {x : FsSys} (h : Built ok x) :
    FsRep x.st x.tree x.nodes := by
  obtain ⟨root, files, items, h0, hrun⟩ := h
  induction hrun with
  | refl => exact fsInit_rep h0 files items
  | tail _ hadd ih => exact hadd.rep ih

end LambdaOs
