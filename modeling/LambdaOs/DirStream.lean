import LambdaOs.ProcOpen

/-!
# Directory streams

`opendir`, `fdopendir` and `readdir` of the user library. A `DIR` has a
descriptor and the index of the next entry; `readdir` hands both to
`proc_fs_readdir`, and counts the index up as long as there is an entry.

`opendir` and `fdopendir` have one static `DIR` each, and set only its
descriptor. So a stream goes on at the index where the last stream of the same
function was left, and the streams of one function are one stream:
`dir_streams_list`.
-/

namespace LambdaOs

/-! ## The library -/

/-- `DIR` -/
structure Dir where
  fd : Nat
  cIdx : Nat
deriving Repr, DecidableEq

/-- The function whose static `DIR` a pointer leads to. -/
inductive DirPtr where
  | opendir
  | fdopendir
deriving Repr, DecidableEq

/-- The static variables of the three functions, over the kernel. -/
structure DirLib where
  kernel : OpenKernel
  dirs : DirPtr → Dir
  dirent : UserDirent

def DirLib.setDir (l : DirLib) (p : DirPtr) (d : Dir) : DirLib :=
  { l with dirs := Function.update l.dirs p d }

/-- `OPENDIR_FLAGS` -/
def opendirFlags : Nat := 0x1801

/-- `&d` in `readdir`, wherever it is, and `sizeof(struct dirent)`. -/
def direntAddr : Nat := 0x10000000
def direntSize : Nat := 260

section Library

variable (archiveOps streamOps fuel : Nat)

/-- `hand` is the handle that the kernel allocates. -/
def opendir (name : CString) (hand : Nat) (l : DirLib) :
    Except OpenFault (DirLib × Option DirPtr) := do
  let (kernel, fd) ← procFsOpen archiveOps streamOps fuel name opendirFlags hand l.kernel
  let l := { l with kernel := kernel }
  if fd < 0 then return (l, none)
  return (l.setDir .opendir { l.dirs .opendir with fd := wordOf fd }, some .opendir)

def fdopendir (fd : Int) (l : DirLib) : DirLib × Option DirPtr :=
  (l.setDir .fdopendir { l.dirs .fdopendir with fd := wordOf fd }, some .fdopendir)

/-- The result is what `*readdir(dirp)` is right after the call. -/
def readdir (dirp : Option DirPtr) (l : DirLib) :
    Except DescFault (DirLib × Option UserDirent) :=
  match dirp with
  | none => .ok (l, none)
  | some p => do
      let dir := l.dirs p
      let (ret, d) ← procFsReaddir fuel (i32 dir.fd) dir.cIdx direntAddr direntSize l.kernel
      let l := { l with dirent := d.getD l.dirent }
      if ret < 0 then return (l, none)
      return (l.setDir p { dir with cIdx := u32 (dir.cIdx + 1) }, some l.dirent)

/-! ## Programs -/

/-- A stream that a program has opened: the pointer it got, the file of the
descriptor, the index that its `DIR` had, and the calls of `readdir` since. -/
structure DirStream where
  ptr : DirPtr
  file : Nat
  start : Nat
  reads : Nat
deriving Repr, DecidableEq

structure DirSys where
  lib : DirLib
  streams : List DirStream

/-- The file that a descriptor is open on. -/
def FsKernel.descFile (s : OpenKernel) (desc : Int) : Nat :=
  match s.slot s.thread desc with
  | .ok hand => (s.hands hand).file
  | .error _ => 0

/-- A program with the streams that its variables hold, after a call that
returned a stream or `NULL`. -/
def DirSys.opened (x : DirSys) : DirLib × Option DirPtr → DirSys
  | (l, none) => { x with lib := l }
  | (l, some p) =>
      ⟨l, x.streams ++ [⟨p, l.kernel.descFile (i32 (l.dirs p).fd), (l.dirs p).cIdx, 0⟩]⟩

/-- `readdir` is of the stream with that number. -/
inductive DirCall where
  | opendir (name : CString) (hand : Nat)
  | fdopendir (fd : Int)
  | readdir (k : Nat)
deriving Repr, DecidableEq

/-- The program after a call, and what `readdir` returned. -/
def dirCall (x : DirSys) : DirCall → Option (DirSys × Option UserDirent)
  | .opendir name hand =>
      (opendir archiveOps streamOps fuel name hand x.lib).toOption.map fun r => (x.opened r, none)
  | .fdopendir fd => some (x.opened (fdopendir fd x.lib), none)
  | .readdir k =>
      x.streams[k]?.bind fun o =>
        (readdir fuel (some o.ptr) x.lib).toOption.map fun (l, d) =>
          (⟨l, x.streams.set k { o with reads := o.reads + 1 }⟩, d)

def dirStep (x : DirSys) (c : DirCall) : Option DirSys :=
  (dirCall archiveOps streamOps fuel x c).map Prod.fst

/-- Some calls of `readdir` in a row, and what they returned. -/
def readdirs (x : DirSys) (k : Nat) : Nat → Option (DirSys × List (Option UserDirent))
  | 0 => some (x, [])
  | n + 1 =>
      (dirCall archiveOps streamOps fuel x (.readdir k)).bind fun (x, d) =>
        (readdirs x k n).map fun (x, ds) => (x, d :: ds)

end Library

/-! ## What is promised -/

/-- The entries of a directory: itself, its parent, and its children in order. -/
def listing (fs : FsState) (T : FileTree) (f : Nat) : List UserDirent :=
  let parent := if (fs.files f).parent ≠ 0 then (fs.files f).parent else f
  ⟨(fs.files f).inode, [dot]⟩ :: ⟨(fs.files parent).inode, [dot, dot]⟩ ::
    (T.kids f).map fun c => ⟨(fs.files c).inode, T.name c⟩

/-- The next calls of `readdir` on the stream return the entries of its
directory that are left, one after the other, and `NULL` behind the last. -/
def ListsRest (archiveOps streamOps fuel : Nat) (fs : FsState) (T : FileTree) (x : DirSys)
    (k : Nat) : Prop :=
  ∀ o, x.streams[k]? = some o → ∀ n,
    ∃ x', readdirs archiveOps streamOps fuel x k n =
      some (x', (List.range n).map fun j => (listing fs T o.file)[o.reads + j]?)

/-- The descriptor is open, on that file. -/
structure FsKernel.OnFile (s : OpenKernel) (d : Fin maxOpenFiles) (f : Nat) : Prop where
  nonnull : (s.tables s.thread).openFiles d ≠ 0
  allocated : s.dev.allocated ((s.tables s.thread).openFiles d) = true
  file : (s.hands ((s.tables s.thread).openFiles d)).file = f

/-- Handles are allocated where none is, `fdopendir` is of an open file, and
`readdir` of a stream. -/
def DirLegal (nodes : List Nat) (x : DirSys) : DirCall → Prop
  | .opendir _ hand => x.lib.kernel.dev.allocated hand = false
  | .fdopendir fd => ∃ d : Fin maxOpenFiles, fd = d ∧ ∃ f ∈ nodes, x.lib.kernel.OnFile d f
  | .readdir k => k < x.streams.length

/-- The stream had index `0` when it was opened, and its function has opened no
other since. -/
def DirSys.Alone (x : DirSys) (k : Nat) : Prop :=
  ∀ o, x.streams[k]? = some o → o.start = 0 ∧ ∀ o' ∈ x.streams.drop (k + 1), o'.ptr ≠ o.ptr

/-- Only such streams are read. -/
def ReadsAlone (x : DirSys) : DirCall → Prop
  | .readdir k => x.Alone k
  | _ => True

/-- A program that has opened no stream, in a tree of files. -/
structure DirStart (fs : FsState) (nodes : List Nat) (x : DirSys) : Prop where
  fs : x.lib.kernel.fs = fs
  cwd : x.lib.kernel.dev.cwd x.lib.kernel.thread ∈ nodes
  thread : x.lib.kernel.thread ≠ 0
  dirs : ∀ p, x.lib.dirs p = ⟨0, 0⟩
  streams : x.streams = []

/-- File structures are where a 32-bit pointer that `kmalloc` returned leads. -/
def Pointers (nodes : List Nat) : Prop := ∀ f ∈ nodes, f < 4294967296 ∧ f % 4 = 0

/-! ## The kernel's side -/

section Kernel

variable {s s' : OpenKernel} {T : FileTree} {nodes : List Nat} {f : Nat}

@[simp] theorem listing_length (fs : FsState) :
    (listing fs T f).length = (T.kids f).length + 2 := by
  simp [listing]

/-- There are fewer files than words of memory. -/
theorem kids_lt (hrep : FsRep s.fs T nodes) (haddr : Pointers nodes) (hf : f ∈ nodes) :
    (T.kids f).length + 2 < 4294967296 := by
  have hmem : ∀ c ∈ T.kids f, c < 4294967296 ∧ c % 4 = 0 := fun c hc =>
    haddr c (hrep.kids f hf c hc).1
  have hnodup : ((T.kids f).map (· / 4)).Nodup := by
    refine (hrep.rings f hf).ring.nodup.map_on fun a ha b hb hab => ?_
    have := (hmem a ha).2
    have := (hmem b hb).2
    omega
  have hsub : (T.kids f).map (· / 4) ⊆ List.range 1073741824 := by
    intro x hx
    obtain ⟨c, hc, rfl⟩ := List.mem_map.mp hx
    have := (hmem c hc).1
    exact List.mem_range.mpr (by omega)
  have hle := (List.subperm_of_subset hnodup hsub).length_le
  rw [List.length_map, List.length_range] at hle
  omega

theorem procFsReaddir_entry (hrep : FsRep s.fs T nodes) {fuel : Nat} (hfuel : nodes.length ≤ fuel)
    (hthread : s.thread ≠ 0) {d : Fin maxOpenFiles} (hd : s.OnFile d f) (hf : f ∈ nodes)
    (idx : Nat) :
    procFsReaddir fuel d idx direntAddr direntSize s =
      .ok (match (listing s.fs T f)[idx]? with
        | some e => (userDirentSize + e.dName.length + 1, some e)
        | none => (-EUNSPEC, none)) := by
  have hd8 : ¬ (d : Int) > maxOpenFiles := by
    have := d.isLt
    omega
  have hf0 : f ≠ 0 := fun h0 => hrep.nonnull (h0 ▸ hf)
  have hderef : s.deref ((s.tables s.thread).openFiles d) =
      .ok (s.hands ((s.tables s.thread).openFiles d)) := if_neg hd.nonnull
  rw [procFsReaddir, if_neg hd8, if_neg (by decide), if_neg (by decide), if_neg hthread, slot_fin]
  change (do
    let h ← s.deref ((s.tables s.thread).openFiles d)
    _) = _
  rw [hderef]
  change (if (s.hands ((s.tables s.thread).openFiles d)).file = 0 then _ else _) = _
  rw [hd.file, if_neg hf0]
  match idx with
  | 0 => rfl
  | 1 => rfl
  | idx + 2 =>
    have hget := llistGet_eq idx (hrep.rings f hf) ((hrep.kids_length hf).trans hfuel)
    rw [if_neg (by omega), if_neg (by omega), Nat.add_sub_cancel, hget]
    simp only [listing, List.getElem?_cons_succ, List.getElem?_map, List.getD_eq_getElem?_getD]
    cases hc : (T.kids f)[idx]? with
    | none => rfl
    | some c =>
      have hcmem : c ∈ T.kids f := List.mem_of_getElem? hc
      have hcnode := (hrep.kids f hf c hcmem).1
      have hc0 : c ≠ 0 := fun h0 => hrep.nonnull (h0 ▸ hcnode)
      obtain ⟨n, rfl⟩ := Nat.exists_eq_succ_of_ne_zero hc0
      simp only [Option.getD_some, Option.map_some]
      rw [hrep.data f hf _ hcmem, hrep.names _ hcnode]
      rfl

/-- An open leaves open files open. -/
theorem OpenSpec.onFile {a b fuel flags hand : Nat} {path : CString} {ret : Int}
    (h : OpenSpec a b fuel path flags hand s s' ret) (hfresh : s.dev.allocated hand = false)
    {d : Fin maxOpenFiles} (hd : s.OnFile d f) : s'.OnFile d f := by
  have hslot : (s'.tables s'.thread).openFiles d = (s.tables s.thread).openFiles d := by
    rw [h.thread]
    exact h.slots _ _ hd.nonnull
  have hne : (s.tables s.thread).openFiles d ≠ hand := fun heq => by
    have halloc := hd.allocated
    rw [heq, hfresh] at halloc
    cases halloc
  refine ⟨?_, ?_, ?_⟩
  · rw [hslot]
    exact hd.nonnull
  · rw [hslot, h.allocated _ hne]
    exact hd.allocated
  · rw [hslot, h.hands _ hne]
    exact hd.file

theorem AddedOpen.onFile {fuel flags hand : Nat} {path : CString} {i : Fin maxOpenFiles}
    (h : AddedOpen fuel path flags hand s s' i) (hthread : s'.thread = s.thread) :
    s'.OnFile i (s'.hands hand).file := by
  have hslot : (s'.tables s'.thread).openFiles i = hand := by
    rw [hthread, h.tables, Function.update_self]
    exact Function.update_self ..
  refine ⟨?_, ?_, ?_⟩
  · rw [hslot]
    exact h.nonnull
  · rw [hslot]
    exact h.allocated
  · rw [hslot]

/-- An open does not leave the tree. -/
theorem AddedOpen.mem (hrep : FsRep s.fs T nodes) (hcwd : s.dev.cwd s.thread ∈ nodes)
    {fuel flags hand : Nat} {path : CString} {i : Fin maxOpenFiles}
    (h : AddedOpen fuel path flags hand s s' i) : (s'.hands hand).file ∈ nodes := by
  obtain ⟨f, hfind, hf, hends, -⟩ := h.file
  have hmem : f ∈ nodes := (fsFindFile_mem hrep (.inr hcwd) hfind).resolve_left hf
  generalize (s'.hands hand).file = g at hends
  clear hfind hf
  induction hends with
  | refl => exact hmem
  | tail _ hstep ih => exact hstep.2.mem hrep ih

theorem FsKernel.OnFile.descFile {d : Fin maxOpenFiles} (hd : s.OnFile d f) :
    s.descFile d = f := by
  rw [FsKernel.descFile, slot_fin]
  exact hd.file

end Kernel

/-! ## The library's side -/

section Library

variable {fs : FsState} {T : FileTree} {nodes : List Nat} {archiveOps streamOps fuel : Nat}

theorem i32_desc (d : Fin maxOpenFiles) : i32 d = d := if_pos (Nat.lt_trans d.isLt (by decide))

theorem wordOf_desc (d : Fin maxOpenFiles) : wordOf d = d := by
  have := d.isLt
  unfold maxOpenFiles at this
  unfold wordOf
  omega

/-- One call of `readdir`, on a `DIR` with the descriptor of a file. -/
theorem readdir_entry {l : DirLib} {p : DirPtr} {d : Fin maxOpenFiles} {f : Nat}
    (hrep : FsRep l.kernel.fs T nodes) (haddr : Pointers nodes) (hfuel : nodes.length ≤ fuel)
    (hthread : l.kernel.thread ≠ 0) (hfd : (l.dirs p).fd = d) (hd : l.kernel.OnFile d f)
    (hf : f ∈ nodes) :
    readdir fuel (some p) l =
      .ok (match (listing l.kernel.fs T f)[(l.dirs p).cIdx]? with
        | some e => (DirLib.setDir { l with dirent := e } p
            { l.dirs p with cIdx := (l.dirs p).cIdx + 1 }, some e)
        | none => (l, none)) := by
  rw [readdir]
  dsimp only
  rw [hfd, i32_desc, procFsReaddir_entry hrep hfuel hthread hd hf]
  cases he : (listing l.kernel.fs T f)[(l.dirs p).cIdx]? with
  | none => rfl
  | some e =>
    have hlt := (List.getElem?_eq_some_iff.mp he).1
    rw [listing_length] at hlt
    have hidx : u32 ((l.dirs p).cIdx + 1) = (l.dirs p).cIdx + 1 :=
      u32_of_lt (by have := kids_lt hrep haddr hf; omega)
    have hret : ¬ ((userDirentSize : Int) + e.dName.length + 1 < 0) := by
      unfold userDirentSize
      omega
    dsimp only [bind, Except.bind]
    rw [if_neg hret, hidx]
    rfl

end Library

/-! ## The invariant -/

/-- The `DIR` of the stream is on its file, and has come as far as it was
read. -/
def Reading (fs : FsState) (T : FileTree) (nodes : List Nat) (l : DirLib) (o : DirStream) : Prop :=
  ∃ d : Fin maxOpenFiles, (l.dirs o.ptr).fd = d ∧ l.kernel.OnFile d o.file ∧ o.file ∈ nodes ∧
    (l.dirs o.ptr).cIdx = min o.reads (listing fs T o.file).length

structure DirInv (fs : FsState) (T : FileTree) (nodes : List Nat) (x : DirSys) : Prop where
  files : x.lib.kernel.fs = fs
  cwd : x.lib.kernel.dev.cwd x.lib.kernel.thread ∈ nodes
  thread : x.lib.kernel.thread ≠ 0
  reading : ∀ k o, x.streams[k]? = some o → x.Alone k → Reading fs T nodes x.lib o

/-- What `Alone` looks at. -/
def DirStream.key (o : DirStream) : DirPtr × Nat := (o.ptr, o.start)

theorem map_key_set {os : List DirStream} {k : Nat} {o o' : DirStream} (hk : os[k]? = some o)
    (hkey : o'.key = o.key) : (os.set k o').map DirStream.key = os.map DirStream.key := by
  refine List.ext_getElem? fun j => ?_
  rw [List.getElem?_map, List.getElem?_map, List.getElem?_set]
  split
  · rename_i hjk
    subst hjk
    rw [if_pos (List.getElem?_eq_some_iff.mp hk).1, hk, Option.map_some, Option.map_some, hkey]
  · rfl

theorem DirSys.Alone.congr {x y : DirSys} {k : Nat}
    (h : x.streams.map DirStream.key = y.streams.map DirStream.key) (hal : y.Alone k) :
    x.Alone k := by
  intro o ho
  have hget : (y.streams.map DirStream.key)[k]? = some o.key := by
    rw [← h, List.getElem?_map, ho, Option.map_some]
  obtain ⟨o₁, ho₁, hkey⟩ := Option.map_eq_some_iff.mp (List.getElem?_map.symm.trans hget)
  obtain ⟨hptr, hstart⟩ := Prod.mk.inj hkey
  obtain ⟨hzero, hlast⟩ := hal o₁ ho₁
  refine ⟨hstart.symm.trans hzero, fun o' ho' => ?_⟩
  have hmem : o'.key ∈ (y.streams.drop (k + 1)).map DirStream.key := by
    rw [List.map_drop, ← h, ← List.map_drop]
    exact List.mem_map_of_mem ho'
  obtain ⟨o₂, ho₂, hkey₂⟩ := List.mem_map.mp hmem
  rw [← hptr, ← (Prod.mk.inj hkey₂).1]
  exact hlast o₂ ho₂

/-- Two streams that are both alone are of different functions. -/
theorem DirSys.Alone.ptr_ne {x : DirSys} {j k : Nat} {o o' : DirStream} (hj : x.Alone j)
    (ho' : x.streams[j]? = some o') (ho : x.streams[k]? = some o) (hk : x.Alone k) (hne : j ≠ k) :
    o'.ptr ≠ o.ptr := by
  have hmem : ∀ {a b : Nat} {oa : DirStream}, x.streams[b]? = some oa → a < b →
      oa ∈ x.streams.drop (a + 1) := fun {a b oa} hb hab =>
    List.mem_of_getElem? (i := b - (a + 1)) (by
      rw [List.getElem?_drop, ← hb]
      congr 1
      omega)
  rcases Nat.lt_or_gt_of_ne hne with hlt | hlt
  · exact Ne.symm ((hj o' ho').2 o (hmem ho hlt))
  · exact (hk o ho).2 o' (hmem ho' hlt)

section Inv

variable {fs : FsState} {T : FileTree} {nodes : List Nat} {archiveOps streamOps fuel : Nat}
variable {x x' : DirSys} {l : DirLib}

/-- What every call leaves of the kernel. -/
structure KernelKept (l l' : DirLib) : Prop where
  fs : l'.kernel.fs = l.kernel.fs
  cwd : l'.kernel.dev.cwd = l.kernel.dev.cwd
  thread : l'.kernel.thread = l.kernel.thread
  onFile : ∀ d f, l.kernel.OnFile d f → l'.kernel.OnFile d f

theorem KernelKept.refl (h : l.kernel = x.lib.kernel) : KernelKept x.lib l := by
  refine ⟨by rw [h], by rw [h], by rw [h], fun d f hd => ?_⟩
  rw [h]
  exact hd

theorem DirInv.kernel (h : DirInv fs T nodes x) (hk : KernelKept x.lib l) :
    l.kernel.fs = fs ∧ l.kernel.dev.cwd l.kernel.thread ∈ nodes ∧ l.kernel.thread ≠ 0 := by
  rw [hk.fs, hk.cwd, hk.thread]
  exact ⟨h.files, h.cwd, h.thread⟩

theorem Reading.kept {o : DirStream} (h : Reading fs T nodes x.lib o) (hk : KernelKept x.lib l)
    (hdir : l.dirs o.ptr = x.lib.dirs o.ptr) : Reading fs T nodes l o := by
  obtain ⟨d, hfd, hd, hmem, hidx⟩ := h
  exact ⟨d, by rw [hdir, hfd], hk.onFile d _ hd, hmem, by rw [hdir, hidx]⟩

/-- A call that returns `NULL`. -/
theorem DirInv.null (h : DirInv fs T nodes x) (hk : KernelKept x.lib l)
    (hdirs : l.dirs = x.lib.dirs) : DirInv fs T nodes (x.opened (l, none)) := by
  obtain ⟨hfs, hcwd, hthread⟩ := h.kernel hk
  exact ⟨hfs, hcwd, hthread, fun k o hko hal => (h.reading k o hko hal).kept hk (congrFun hdirs _)⟩

/-- A call that returns a stream. -/
theorem DirInv.stream (h : DirInv fs T nodes x) (hk : KernelKept x.lib l) {p : DirPtr}
    (hother : ∀ q, q ≠ p → l.dirs q = x.lib.dirs q) {d : Fin maxOpenFiles} {f : Nat}
    (hfd : (l.dirs p).fd = d) (hd : l.kernel.OnFile d f) (hf : f ∈ nodes) :
    DirInv fs T nodes (x.opened (l, some p)) := by
  obtain ⟨hfs, hcwd, hthread⟩ := h.kernel hk
  refine ⟨hfs, hcwd, hthread, fun k o hko hal => ?_⟩
  simp only [DirSys.opened] at hko
  obtain ⟨hstart, hlast⟩ := hal o hko
  by_cases hlt : k < x.streams.length
  · -- a stream of the other function
    rw [List.getElem?_append_left hlt] at hko
    simp only [DirSys.opened, List.drop_append_of_le_length (Nat.succ_le_of_lt hlt)] at hlast
    refine (h.reading k o hko fun o' ho' => ?_).kept hk (hother _ fun heq => ?_)
    · obtain rfl := Option.some.inj (hko.symm.trans ho')
      exact ⟨hstart, fun o' ho' => hlast o' (List.mem_append_left _ ho')⟩
    · exact hlast _ (List.mem_append_right _ (List.mem_singleton_self _)) heq.symm
  · -- the new stream
    obtain ⟨hk', hget⟩ := List.getElem?_eq_some_iff.mp hko
    rw [List.length_append, List.length_singleton] at hk'
    obtain rfl : k = x.streams.length := by omega
    rw [List.getElem_concat_length rfl] at hget
    subst hget
    have hfile : l.kernel.descFile (i32 (l.dirs p).fd) = f := by
      rw [hfd, i32_desc, hd.descFile]
    refine ⟨d, hfd, ?_, ?_, ?_⟩
    · rw [hfile]
      exact hd
    · rw [hfile]
      exact hf
    · rw [Nat.zero_min]
      exact hstart

theorem DirInv.opendir (h : DirInv fs T nodes x) (hrep : FsRep fs T nodes) {name : CString}
    {hand : Nat} (hfresh : x.lib.kernel.dev.allocated hand = false) {r : DirLib × Option DirPtr}
    (hr : opendir archiveOps streamOps fuel name hand x.lib = .ok r) :
    DirInv fs T nodes (x.opened r) := by
  obtain ⟨⟨kernel, fd⟩, hopen, hr⟩ := Except.bind_eq_ok_iff.mp hr
  have hspec := procFsOpen_spec hfresh hopen
  have hkept : KernelKept x.lib { x.lib with kernel := kernel } :=
    ⟨hspec.fs, hspec.cwd, hspec.thread, fun d f hd => hspec.onFile hfresh hd⟩
  dsimp only at hr
  by_cases hfd : fd < 0
  · rw [if_pos hfd] at hr
    cases hr
    exact h.null hkept rfl
  · rw [if_neg hfd] at hr
    cases hr
    obtain ⟨i, rfl, hadded⟩ := hspec.added (Int.not_lt.mp hfd)
    refine h.stream ?_ (d := i) (f := (kernel.hands hand).file) ?_ ?_ ?_ ?_
    · exact ⟨hkept.fs, hkept.cwd, hkept.thread, hkept.onFile⟩
    · intro q hq
      exact Function.update_of_ne hq ..
    · simp only [DirLib.setDir, Function.update_self, wordOf_desc]
    · exact hadded.onFile hspec.thread
    · exact hadded.mem (h.files.symm ▸ hrep) h.cwd

theorem DirInv.fdopendir (h : DirInv fs T nodes x) {d : Fin maxOpenFiles} {f : Nat}
    (hf : f ∈ nodes) (hd : x.lib.kernel.OnFile d f) :
    DirInv fs T nodes (x.opened (fdopendir d x.lib)) := by
  have hkept : KernelKept x.lib (LambdaOs.fdopendir d x.lib).1 := .refl rfl
  refine h.stream (p := .fdopendir) hkept (d := d) (f := f) ?_ ?_ hd hf
  · intro q hq
    exact Function.update_of_ne hq ..
  · simp only [LambdaOs.fdopendir, DirLib.setDir, Function.update_self, wordOf_desc]

/-- A call of `readdir` on a stream that is alone. -/
theorem DirInv.readdir (h : DirInv fs T nodes x) (hrep : FsRep fs T nodes) (haddr : Pointers nodes)
    (hfuel : nodes.length ≤ fuel) {k : Nat} {o : DirStream} (hko : x.streams[k]? = some o)
    (hal : x.Alone k) :
    ∃ x', dirCall archiveOps streamOps fuel x (.readdir k) =
      some (x', (listing fs T o.file)[o.reads]?) ∧ DirInv fs T nodes x' ∧
      x'.streams = x.streams.set k { o with reads := o.reads + 1 } := by
  obtain ⟨d, hfd, hd, hf, hidx⟩ := h.reading k o hko hal
  have hentry := readdir_entry (h.files.symm ▸ hrep) haddr hfuel h.thread hfd hd hf
  rw [h.files, hidx] at hentry
  simp only [dirCall, hko, Option.bind_some, hentry]
  have hset : (x.streams.set k { o with reads := o.reads + 1 }).map DirStream.key =
      x.streams.map DirStream.key := map_key_set hko rfl
  have hkept : ∀ l : DirLib, KernelKept x.lib l → (∀ q, q ≠ o.ptr → l.dirs q = x.lib.dirs q) →
      Reading fs T nodes l { o with reads := o.reads + 1 } →
      DirInv fs T nodes ⟨l, x.streams.set k { o with reads := o.reads + 1 }⟩ := by
    intro l hl hother hread
    obtain ⟨hfs, hcwd, hthread⟩ := h.kernel hl
    refine ⟨hfs, hcwd, hthread, fun j o' hjo halj => ?_⟩
    have halj' : x.Alone j := DirSys.Alone.congr hset.symm halj
    by_cases hjk : j = k
    · subst hjk
      rw [List.getElem?_set_self (List.getElem?_eq_some_iff.mp hko).1] at hjo
      cases hjo
      exact hread
    · rw [List.getElem?_set_ne (Ne.symm hjk)] at hjo
      exact (h.reading j o' hjo halj').kept hl (hother _ (halj'.ptr_ne hjo hko hal hjk))
  by_cases hlt : o.reads < (listing fs T o.file).length
  · -- an entry
    rw [Nat.min_eq_left (Nat.le_of_lt hlt), List.getElem?_eq_getElem hlt]
    refine ⟨_, rfl, hkept _ (.refl rfl) (fun q hq => Function.update_of_ne hq ..) ?_, rfl⟩
    refine ⟨d, ?_, hd, hf, ?_⟩
    · simp only [DirLib.setDir, Function.update_self, hfd]
    · simp only [DirLib.setDir, Function.update_self]
      omega
  · -- the end
    have hle := Nat.not_lt.mp hlt
    rw [Nat.min_eq_right hle, List.getElem?_eq_none (Nat.le_refl _), List.getElem?_eq_none hle]
    refine ⟨_, rfl, hkept _ (.refl rfl) (fun q _ => rfl) ⟨d, hfd, hd, hf, ?_⟩, rfl⟩
    dsimp only
    omega

theorem dirStep_inv (hrep : FsRep fs T nodes) (haddr : Pointers nodes)
    (hfuel : nodes.length ≤ fuel) {c : DirCall} (h : DirInv fs T nodes x)
    (hok : DirLegal nodes x c ∧ ReadsAlone x c)
    (hstep : dirStep archiveOps streamOps fuel x c = some x') : DirInv fs T nodes x' := by
  obtain ⟨hlegal, halone⟩ := hok
  cases c with
  | opendir name hand =>
    rw [dirStep, dirCall] at hstep
    cases hr : LambdaOs.opendir archiveOps streamOps fuel name hand x.lib with
    | error e =>
      rw [hr] at hstep
      cases hstep
    | ok r =>
      rw [hr] at hstep
      cases hstep
      exact h.opendir hrep hlegal hr
  | fdopendir fd =>
    obtain ⟨d, rfl, f, hf, hd⟩ := hlegal
    cases hstep
    exact h.fdopendir hf hd
  | readdir k =>
    obtain ⟨x₁, hcall, hinv, -⟩ := h.readdir hrep haddr hfuel
      (List.getElem?_eq_getElem (show k < x.streams.length from hlegal)) halone
    rw [dirStep, hcall] at hstep
    cases hstep
    exact hinv

theorem DirStart.inv (h : DirStart fs nodes x) : DirInv fs T nodes x := by
  refine ⟨h.fs, h.cwd, h.thread, fun k o hko _ => ?_⟩
  rw [h.streams] at hko
  cases hko

theorem DirInv.readdirs (h : DirInv fs T nodes x) (hrep : FsRep fs T nodes)
    (haddr : Pointers nodes) (hfuel : nodes.length ≤ fuel) {k : Nat} (hal : x.Alone k) :
    ListsRest archiveOps streamOps fuel fs T x k := by
  intro o hko n
  induction n generalizing x o with
  | zero => exact ⟨x, rfl⟩
  | succ n ih =>
    obtain ⟨x', hcall, hinv, hset⟩ := h.readdir hrep haddr hfuel hko hal
    have hal' : x'.Alone k := by
      refine DirSys.Alone.congr ?_ hal
      rw [hset]
      exact map_key_set hko rfl
    have hko' : x'.streams[k]? = some { o with reads := o.reads + 1 } := by
      rw [hset, List.getElem?_set_self (List.getElem?_eq_some_iff.mp hko).1]
    obtain ⟨x'', hrest⟩ := ih hinv hal' _ hko'
    refine ⟨x'', ?_⟩
    rw [LambdaOs.readdirs, hcall, Option.bind_some]
    dsimp only
    rw [hrest, Option.map_some, List.range_succ_eq_map, List.map_cons, List.map_map]
    simp only [Nat.add_zero, Function.comp_def, Nat.add_right_comm, Nat.succ_eq_add_one,
      Nat.add_assoc]

/-- **Streams that are alone list their directories**: in every run of a
program whose reads are of such streams, each of them goes on with the entries
that are left. -/
theorem dir_streams_list (hrep : FsRep fs T nodes) (haddr : Pointers nodes)
    (hfuel : nodes.length ≤ fuel) {x₀ : DirSys} (hstart : DirStart fs nodes x₀)
    {calls : List DirCall}
    (hrun : exec (dirStep archiveOps streamOps fuel) x₀ calls = some x)
    (hok : Guarded (dirStep archiveOps streamOps fuel)
      (fun x c => DirLegal nodes x c ∧ ReadsAlone x c) x₀ calls)
    {k : Nat} (hal : x.Alone k) : ListsRest archiveOps streamOps fuel fs T x k :=
  (exec_guarded_inv (fun _ _ _ hx hc hstep => dirStep_inv hrep haddr hfuel hx hc hstep)
    hstart.inv hok hrun).readdirs hrep haddr hfuel hal

end Inv

/-! ## The root, twice -/

/-- A program in the root, which has no children; slot `0` is taken. -/
def rootProgram : DirSys := ⟨⟨atRoot 32, fun _ => ⟨0, 0⟩, ⟨0, []⟩⟩, []⟩

theorem rootProgram_rep : FsRep (atRoot 32).fs (.single 16) [16] := fsInit_rep (by decide) _ _

theorem rootProgram_start : DirStart (atRoot 32).fs [16] rootProgram :=
  ⟨rfl, by decide, by decide, fun _ => rfl, rfl⟩

theorem rootProgram_pointers : Pointers [16] := by
  intro f hf
  rw [List.mem_singleton.mp hf]
  decide

/-- The first stream lists it. -/
theorem dir_streams_list_root : ∃ x,
    exec (dirStep 4096 8192 8) rootProgram [.opendir [dot] 64] = some x ∧
    ListsRest 4096 8192 8 (atRoot 32).fs (.single 16) x 0 := by
  have hok : Guarded (dirStep 4096 8192 8) (fun x c => DirLegal [16] x c ∧ ReadsAlone x c)
      rootProgram [.opendir [dot] 64] := ⟨⟨rfl, trivial⟩, fun _ _ => trivial⟩
  have hrun : exec (dirStep 4096 8192 8) rootProgram [.opendir [dot] 64] = some _ := rfl
  refine ⟨_, hrun, dir_streams_list rootProgram_rep rootProgram_pointers (by decide)
    rootProgram_start hrun hok fun o ho => ?_⟩
  cases ho
  exact ⟨rfl, nofun⟩

/-- A second one, after the first was read, is at its end. -/
theorem dir_stream_not_rewound : ∃ x,
    exec (dirStep 4096 8192 8) rootProgram
      [.opendir [dot] 64, .readdir 0, .readdir 0, .opendir [dot] 80] = some x ∧
    Guarded (dirStep 4096 8192 8) (DirLegal [16]) rootProgram
      [.opendir [dot] 64, .readdir 0, .readdir 0, .opendir [dot] 80] ∧
    ¬ ListsRest 4096 8192 8 (atRoot 32).fs (.single 16) x 1 := by
  refine ⟨_, rfl, ⟨rfl, fun x hx => ?_⟩, fun h => ?_⟩
  · cases hx
    refine ⟨Nat.zero_lt_one, fun x hx => ?_⟩
    cases hx
    refine ⟨Nat.zero_lt_one, fun x hx => ?_⟩
    cases hx
    exact ⟨rfl, fun _ _ => trivial⟩
  · obtain ⟨x', hread⟩ := h _ rfl 1
    exact absurd (Prod.mk.inj (Option.some.inj hread)).2 (by decide)

end LambdaOs
