import LambdaOs.Initrd
import LambdaOs.LzoDecode

/-!
# Mounting an archive

For every list of files in the old binary CPIO format, `initrd_mount` builds
the tree of the files. A record is read back as it was encoded
(`UpTo.cpioHeader`, `strAt_eq`), its path is split where its last component
begins (`dirname_path`, `basename_path`), and the directory is found in the
tree that the records before it built. `Mounted` is what holds between two
records: the files so far are the only ones below the mount point, each where
its path says and with the data of its record.
-/

namespace LambdaOs

/-! ## Archives -/

/-- A 32-bit number, the high half first. -/
def cpio32 (n : Nat) : List UInt8 := le16 (n / 65536) ++ le16 (n % 65536)

/-- What makes a length even. -/
def evenPad (n : Nat) (b : UInt8) : List UInt8 := if n % 2 = 1 then [b] else []

/-- A record: what its header says, a path, data, and the bytes that fill up. -/
structure CpioRecord where
  dev : UInt16
  ino : UInt16
  mode : UInt16
  uid : UInt16
  gid : UInt16
  nlink : UInt16
  rdev : UInt16
  mtime : UInt32
  path : CString
  data : List UInt8
  namePad : UInt8
  dataPad : UInt8

namespace CpioRecord

variable (r : CpioRecord)

/-- The components of the path. -/
def names : List CString := r.path.splitOn slash

def encodeHeader : List UInt8 :=
  le16 cpioMagic ++ (le16 r.dev.toNat ++ (le16 r.ino.toNat ++ (le16 r.mode.toNat ++
    (le16 r.uid.toNat ++ (le16 r.gid.toNat ++ (le16 r.nlink.toNat ++ (le16 r.rdev.toNat ++
      (cpio32 r.mtime.toNat ++ (le16 (r.path.length + 1) ++ cpio32 r.data.length)))))))))

def encodeName : List UInt8 :=
  r.path.map Subtype.val ++ (0 :: evenPad (r.path.length + 1) r.namePad)

def encodeData : List UInt8 := r.data ++ evenPad r.data.length r.dataPad

def encode : List UInt8 := r.encodeHeader ++ (r.encodeName ++ r.encodeData)

/-- A path that a file can be mounted at. -/
structure GoodPath : Prop where
  short : r.path.length < fileNameMax
  nonempty : ∀ c ∈ r.names, c ≠ []
  noDot : ∀ c ∈ r.names, c.head? ≠ some dot
  notTrailer : r.path ≠ trailerName

end CpioRecord

/-- The paths of an archive: every directory comes before what is in it. -/
structure GoodPaths (rs : List CpioRecord) : Prop where
  good : ∀ r ∈ rs, r.GoodPath
  distinct : (rs.map CpioRecord.path).Nodup
  parents : ∀ before r after, rs = before ++ r :: after → r.names.dropLast ≠ [] →
    ∃ d ∈ before, d.names = r.names.dropLast

/-! ## Reading a record -/

section Read

variable {m : Nat → UInt8} {e a n : Nat} {r : CpioRecord} {rest : List UInt8}

theorem le16_length (n : Nat) : (le16 n).length = 2 := rfl

theorem cpio32_length (n : Nat) : (cpio32 n).length = 4 := rfl

theorem CpioRecord.encodeHeader_length : r.encodeHeader.length = cpioHeaderSize := rfl

theorem le16At_eq (hn : n < 65536) (h : UpTo m e a (le16 n ++ rest)) : le16At m a = n := by
  have hlo : UpTo m e a ([UInt8.ofNat (n % 256)] ++ (UInt8.ofNat (n / 256) :: rest)) := h
  obtain ⟨hptr, hhi⟩ := hlo.next (n := 1) rfl
  rw [le16At, hptr, hlo.holds.1, hhi.holds.1,
    UInt8.toNat_ofNat_of_lt' (show n % 256 < 256 by omega),
    UInt8.toNat_ofNat_of_lt' (show n / 256 < 256 by omega), Nat.mod_add_div]

theorem le32At_eq (hn : n < 4294967296) (h : UpTo m e a (cpio32 n ++ rest)) :
    cpio2le (le32At m a) = n := by
  rw [cpio32, List.append_assoc] at h
  obtain ⟨hptr, hlo⟩ := h.next (le16_length _)
  rw [le32At, hptr, le16At_eq (by omega) h, le16At_eq (Nat.mod_lt _ (by decide)) hlo]
  have hshift : (n / 65536 + 65536 * (n % 65536)) >>> 16 = n % 65536 := by
    rw [Nat.shiftRight_eq_div_pow]
    omega
  have hhigh : u32 ((n / 65536 + 65536 * (n % 65536)) <<< 16) = 2 ^ 16 * (n / 65536) := by
    rw [Nat.shiftLeft_eq, u32]
    omega
  rw [cpio2le, hshift, hhigh, ← Nat.two_pow_add_eq_or_of_lt (Nat.mod_lt _ (by decide)),
    Nat.div_add_mod]

theorem evenPad_length (n : Nat) (b : UInt8) : (evenPad n b).length = n &&& 1 := by
  rw [evenPad, Nat.and_one_is_mod]
  split
  · rw [List.length_singleton]
    omega
  · rw [List.length_nil]
    omega

theorem CpioRecord.encodeName_length :
    r.encodeName.length = r.path.length + 1 + ((r.path.length + 1) &&& 1) := by
  rw [CpioRecord.encodeName, List.length_append, List.length_map, List.length_cons, evenPad_length]
  omega

theorem CpioRecord.encodeData_length :
    r.encodeData.length = r.data.length + (r.data.length &&& 1) := by
  rw [CpioRecord.encodeData, List.length_append, evenPad_length]

/-- The header, and the rest of the record behind it. -/
theorem UpTo.cpioHeader (h : UpTo m e a (r.encode ++ rest)) (hpath : r.path.length < fileNameMax) :
    (cpioHeaderAt m a).magic = cpioMagic ∧ (cpioHeaderAt m a).mode = r.mode.toNat ∧
      (cpioHeaderAt m a).namesize = r.path.length + 1 ∧
      cpio2le (cpioHeaderAt m a).filesize = r.data.length ∧
      u32 (a + cpioHeaderSize) = a + cpioHeaderSize ∧
      UpTo m e (a + cpioHeaderSize) (r.encodeName ++ (r.encodeData ++ rest)) := by
  have hends := h.ends
  have hlt := h.lt
  simp only [CpioRecord.encode, List.length_append, CpioRecord.encodeHeader_length,
    CpioRecord.encodeData_length, cpioHeaderSize] at hends
  simp only [CpioRecord.encode, List.append_assoc] at h
  obtain ⟨hptr, hname⟩ := h.next (n := cpioHeaderSize) CpioRecord.encodeHeader_length
  simp only [CpioRecord.encodeHeader, List.append_assoc] at h
  have hdev := (h.next (le16_length _)).2
  have hino := (hdev.next (le16_length _)).2
  have hmode := (hino.next (le16_length _)).2
  have huid := (hmode.next (le16_length _)).2
  have hgid := (huid.next (le16_length _)).2
  have hnlink := (hgid.next (le16_length _)).2
  have hrdev := (hnlink.next (le16_length _)).2
  have hmtime := (hrdev.next (le16_length _)).2
  have hnamesize := (hmtime.next (cpio32_length _)).2
  have hfilesize := (hnamesize.next (le16_length _)).2
  have hword : ∀ k ≤ 26, u32 (a + k) = a + k := fun k hk => u32_of_lt (by omega)
  refine ⟨le16At_eq (by decide) h, ?_, ?_, ?_, hptr, hname⟩
  · rw [cpioHeaderAt, hword 6 (by omega)]
    exact le16At_eq r.mode.toNat_lt hmode
  · rw [cpioHeaderAt, hword 20 (by omega)]
    exact le16At_eq (by simp only [fileNameMax] at hpath; omega) hnamesize
  · rw [cpioHeaderAt, hword 22 (by omega)]
    exact le32At_eq (by omega) hfilesize

/-- The pointer to the data, and to the next record. -/
theorem UpTo.cpioData (h : UpTo m e a (r.encodeName ++ (r.encodeData ++ rest))) :
    u32 (a + (r.path.length + 1) + ((r.path.length + 1) &&& 1)) = a + r.encodeName.length ∧
      UpTo m e (a + r.encodeName.length) (r.encodeData ++ rest) ∧
      u32 (a + r.encodeName.length + r.data.length + (r.data.length &&& 1)) =
        a + r.encodeName.length + r.encodeData.length ∧
      UpTo m e (a + r.encodeName.length + r.encodeData.length) rest := by
  obtain ⟨hname, hdata⟩ := h.next rfl
  obtain ⟨hnext, hrest⟩ := hdata.next rfl
  refine ⟨?_, hdata, ?_, hrest⟩
  · rw [← hname, CpioRecord.encodeName_length, Nat.add_assoc]
  · rw [← hnext, CpioRecord.encodeData_length, Nat.add_assoc]

/-- The characters of a name. -/
theorem strAt_eq {path : CString} {a : Nat} (h : UpTo m e a (path.map Subtype.val ++ 0 :: rest))
    (n : Nat) : strAt m a n = path.take n := by
  induction n generalizing path a with
  | zero => rw [strAt, List.take_zero]
  | succ n ih =>
      cases path with
      | nil =>
          have hzero : m a = 0 := h.holds.1
          rw [strAt, dif_neg (not_not.mpr hzero), List.take_nil]
      | cons c path =>
          have hcons : UpTo m e a ([c.val] ++ (path.map Subtype.val ++ 0 :: rest)) := h
          obtain ⟨hptr, hrest⟩ := hcons.next (n := 1) rfl
          have hchar : m a = c.val := h.holds.1
          rw [strAt, dif_pos (hchar ▸ c.property), List.take_succ_cons, hptr, ih hrest]
          exact congrArg (· :: _) (Subtype.ext hchar)

end Read

/-! ## Splitting a path -/

section Split

variable {after : CString}

theorem lastSlash_of_notMem {path : CString} {i : Nat} {p2 : Option Nat} (h : slash ∉ path) :
    lastSlash i p2 path = p2 := by
  induction path generalizing i with
  | nil => rfl
  | cons c path ih =>
      rw [List.mem_cons, not_or] at h
      rw [lastSlash, if_neg (Ne.symm h.1), ih h.2]

theorem lastSlash_append (h : slash ∉ after) (before : CString) (i : Nat) (p2 : Option Nat) :
    lastSlash i p2 (before ++ slash :: after) = some (i + before.length) := by
  induction before generalizing i p2 with
  | nil =>
      rw [List.nil_append, lastSlash, if_pos rfl, lastSlash_of_notMem h]
      rfl
  | cons c before ih =>
      rw [List.cons_append, lastSlash, ih, List.length_cons]
      congr 1
      omega

/-- The path up to its last separator. -/
theorem path_cases (path : CString) :
    slash ∉ path ∨ ∃ before after, path = before ++ slash :: after ∧ slash ∉ after := by
  by_cases hin : slash ∈ path
  · obtain ⟨as, bs, hrev, hnot⟩ := List.eq_append_cons_of_mem (List.mem_reverse.mpr hin)
    refine Or.inr ⟨bs.reverse, as.reverse, ?_, by rwa [List.mem_reverse]⟩
    rw [← List.reverse_reverse path, hrev]
    simp
  · exact Or.inl hin

/-- The directory and the last component. -/
theorem path_split (path : CString) :
    ∃ dirs, path.splitOn slash = dirs ++ [basename path] ∧ slash ∉ basename path ∧
      (dirs = [] ∧ dirname path = [dot] ∨
        dirs ≠ [] ∧ dirname path = joinPath dirs ∧ (joinPath dirs).length ≤ path.length) := by
  rcases path_cases path with hnot | ⟨before, after, rfl, hnot⟩
  · refine ⟨[], ?_, ?_, Or.inl ⟨rfl, ?_⟩⟩
    · rw [basename, lastSlash_of_notMem hnot, List.splitOn_eq_singleton hnot]
      rfl
    · rwa [basename, lastSlash_of_notMem hnot]
    · rw [dirname, lastSlash_of_notMem hnot]
  · have hlast := lastSlash_append hnot before 0 none
    have hbase : basename (before ++ slash :: after) = after := by
      rw [basename, hlast]
      simp
    have hdir : dirname (before ++ slash :: after) = before := by
      rw [dirname, hlast]
      simp
    have hjoin : joinPath (before.splitOn slash) = before := List.intercalate_splitOn slash
    refine ⟨before.splitOn slash, ?_, ?_, Or.inr ⟨List.splitOn_ne_nil slash before, ?_, ?_⟩⟩
    · rw [hbase, List.splitOn_append_cons_self, List.splitOn_eq_singleton hnot]
    · rwa [hbase]
    · rw [hdir, hjoin]
    · rw [hjoin, List.length_append]
      omega

end Split

/-! ## Between two records -/

/-- The structure `k` is for the file of a record, whose data is in memory. -/
structure FileOf (m : Nat → UInt8) (r : CpioRecord) (k : Kfile) : Prop where
  length : k.length = r.data.length
  flags : k.flags = modeFlags r.mode.toNat
  pflags : k.pflags = r.mode.toNat &&& 0o7777
  ops : k.ops = .initrd
  info : k.info ≠ 0
  holds : HoldsAt m k.info r.data
  fits : k.info + r.data.length < 4294967296

/-- The files of the records `done` are mounted, and nothing else is: `T₀` and
`nodes₀` are the tree without them. -/
structure Mounted (m : Nat → UInt8) (mnt : Nat) (T₀ : FileTree) (nodes₀ : List Nat)
    (done : List (CpioRecord × Nat)) (s : FsState) (T : FileTree) : Prop where
  rep : FsRep s T (nodes₀ ++ done.map Prod.snd)
  mnt_mem : mnt ∈ nodes₀
  fresh : ∀ x ∈ done, x.2 ∉ nodes₀
  nodup : (done.map Prod.snd).Nodup
  named : Named T (mnt :: done.map Prod.snd)
  closed : ∀ f ∈ mnt :: done.map Prod.snd, ∀ c ∈ T.kids f, c ∈ done.map Prod.snd
  below : ∀ x ∈ done, T.Below mnt x.1.names x.2
  only : ∀ names f, T.Below mnt names f → names = [] ∨ ∃ x ∈ done, x.2 = f ∧ x.1.names = names
  files : ∀ x ∈ done, FileOf m x.1 (s.files x.2)
  others : ∀ f ∈ nodes₀, f ≠ mnt → T.kids f = T₀.kids f

section Mounted

variable {m : Nat → UInt8} {mnt fuel e a : Nat} {T₀ T : FileTree} {nodes₀ : List Nat}
  {done : List (CpioRecord × Nat)} {s : FsState} {r : CpioRecord} {rest : List UInt8} {g : Grant}

theorem FileOf.children {k : Kfile} (h : FileOf m r k) (ch : Llist) :
    FileOf m r { k with children := ch } :=
  ⟨h.length, h.flags, h.pflags, h.ops, h.info, h.holds, h.fits⟩

theorem CpioRecord.names_inj {r' : CpioRecord} (h : r.names = r'.names) : r.path = r'.path := by
  have hjoin : ∀ x : CpioRecord, [slash].intercalate x.names = x.path := fun x =>
    List.intercalate_splitOn slash
  rw [← hjoin r, ← hjoin r', h]

theorem Mounted.subset (h : Mounted m mnt T₀ nodes₀ done s T) :
    mnt :: done.map Prod.snd ⊆ nodes₀ ++ done.map Prod.snd := by
  intro f hf
  rcases List.mem_cons.mp hf with rfl | hf
  · exact List.mem_append_left _ h.mnt_mem
  · exact List.mem_append_right _ hf

/-- An empty mount point. -/
theorem mounted_nil (h : FsRep s T nodes₀) (hmnt : mnt ∈ nodes₀) (hempty : T.kids mnt = []) :
    Mounted m mnt T nodes₀ [] s T := by
  have hkids : ∀ f ∈ mnt :: ([] : List (CpioRecord × Nat)).map Prod.snd, T.kids f = [] :=
    fun f hf => by rw [List.mem_singleton.mp hf, hempty]
  refine ⟨by simpa using h, hmnt, nofun, List.nodup_nil,
    ⟨?_, ?_, ?_, ?_⟩,
    ?_, nofun, ?_, nofun, fun f _ _ => rfl⟩
  · intro f hf c hc
    rw [hkids f hf] at hc
    cases hc
  · intro f hf c hc
    rw [hkids f hf] at hc
    cases hc
  · intro f hf c hc
    rw [hkids f hf] at hc
    cases hc
  · intro f hf c hc
    rw [hkids f hf] at hc
    cases hc
  · intro f hf c hc
    rw [hkids f hf] at hc
    cases hc
  · intro names f hb
    cases hb with
    | self => exact Or.inl rfl
    | child hc _ =>
      rw [hempty] at hc
      cases hc

/-- The directory of the next record is mounted, or is the mount point. -/
theorem Mounted.findDir (h : Mounted m mnt T₀ nodes₀ done s T) {file : Nat}
    (hnew : file ∉ nodes₀ ++ done.map Prod.snd) {dirs : List CString} {path : CString}
    (hdirs : dirs = [] ∧ dirname path = [dot] ∨
      dirs ≠ [] ∧ dirname path = joinPath dirs ∧ (joinPath dirs).length ≤ path.length)
    (hparent : dirs ≠ [] → ∃ x ∈ done, x.1.names = dirs)
    (hfuel : path.length + (nodes₀ ++ done.map Prod.snd).length < fuel) :
    ∃ dir ∈ mnt :: done.map Prod.snd, T.Below mnt dirs dir ∧
      fsFindFile (s.setFile file blankFile) fuel mnt (dirname path) = some dir := by
  have hrep := h.rep.setFile hnew blankFile
  have hmnt0 : mnt ≠ 0 := fun he => h.rep.nonnull (he ▸ h.subset List.mem_cons_self)
  rcases hdirs with ⟨rfl, hdot⟩ | ⟨hne, hdir, hlen⟩
  · obtain ⟨fuel, rfl⟩ : ∃ n, fuel = n + 1 := ⟨fuel - 1, by omega⟩
    rw [hdot]
    exact ⟨mnt, List.mem_cons_self, .self mnt, fsFindFile_dot hmnt0⟩
  · obtain ⟨x, hx, hnames⟩ := hparent hne
    have hb := h.below x hx
    rw [hnames] at hb
    rw [hdir]
    refine ⟨x.2, List.mem_cons_of_mem _ (List.mem_map_of_mem hx), hb, ?_⟩
    exact fsFindFile_below hrep h.subset h.named
      (fun f hf c hc => List.mem_cons_of_mem _ (h.closed f hf c hc)) List.mem_cons_self hne hb
      (by omega)

/-- The only names of a file that is mounted. -/
theorem Mounted.names_unique (h : Mounted m mnt T₀ nodes₀ done s T) {names names' : List CString}
    {f : Nat} (hb : T.Below mnt names f) (hb' : T.Below mnt names' f) : names = names' := by
  have hmnt : ∀ x ∈ done, x.2 ≠ mnt := fun x hx he => h.fresh x hx (he ▸ h.mnt_mem)
  rcases h.only _ _ hb with rfl | ⟨x, hx, hxf, rfl⟩
  · cases hb
    rcases h.only _ _ hb' with rfl | ⟨y, hy, hyf, -⟩
    · rfl
    · exact absurd hyf (hmnt y hy)
  · rcases h.only _ _ hb' with rfl | ⟨y, hy, hyf, rfl⟩
    · cases hb'
      exact absurd hxf (hmnt x hx)
    · have heq : x = y := List.inj_on_of_nodup_map h.nodup hx hy (hxf.trans hyf.symm)
      rw [heq]

/-- One more file. -/
theorem Mounted.add (h : Mounted m mnt T₀ nodes₀ done s T) {file dir : Nat} {dirs : List CString}
    {name : CString} {s' : FsState} (hnew : file ∉ nodes₀ ++ done.map Prod.snd)
    (hdir : dir ∈ mnt :: done.map Prod.snd) (hb : T.Below mnt dirs dir)
    (hnames : r.names = dirs ++ [name]) (hslash : slash ∉ name) (hgood : r.GoodPath)
    (hpath : ∀ x ∈ done, x.1.path ≠ r.path)
    (hrep : FsRep s' (T.add file dir name) (nodes₀ ++ done.map Prod.snd ++ [file]))
    (hfile : FileOf m r (s'.files file))
    (hold : ∀ f, f ≠ file → ∃ ch, s'.files f = { s.files f with children := ch }) :
    Mounted m mnt T₀ nodes₀ (done ++ [(r, file)]) s' (T.add file dir name) := by
  have hdirn := h.subset hdir
  have hname : name ∈ r.names := by
    rw [hnames]
    exact List.mem_append_right _ (List.mem_singleton_self _)
  have hok : GoodName T dir name := by
    refine ⟨hgood.nonempty name hname, hslash, hgood.noDot name hname, ?_⟩
    intro c hc heq
    -- a sibling of that name has the same path
    have hbc := hb.snoc hc
    rw [heq, ← hnames] at hbc
    rcases h.only _ _ hbc with hnil | ⟨x, hx, -, hxn⟩
    · rw [hnames] at hnil
      simp at hnil
    · exact hpath x hx (CpioRecord.names_inj hxn)
  have hne : ∀ x ∈ done, x.2 ≠ file := fun x hx he =>
    hnew (List.mem_append_right _ (he ▸ List.mem_map_of_mem hx))
  have hptrs : (done ++ [(r, file)]).map Prod.snd = done.map Prod.snd ++ [file] := by simp
  refine ⟨?_, h.mnt_mem, ?_, ?_, ?_, ?_, ?_,
    ?_, ?_, ?_⟩
  · rw [hptrs, ← List.append_assoc]
    exact hrep
  · intro x hx
    rcases List.mem_append.mp hx with hx | hx
    · exact h.fresh x hx
    · rw [List.mem_singleton.mp hx]
      exact fun hin => hnew (List.mem_append_left _ hin)
  · rw [hptrs]
    refine h.nodup.append (List.nodup_singleton _) ?_
    intro f hf hff
    rw [List.mem_singleton.mp hff] at hf
    exact hnew (List.mem_append_right _ hf)
  · rw [hptrs]
    exact h.named.add h.rep h.subset hnew hdirn hok
  · intro f hf c hc
    rw [hptrs] at hf ⊢
    rcases h.rep.mem_add_kids hnew hdirn h.subset hf hc with ⟨hf, hc, -⟩ | ⟨-, rfl, -⟩
    · exact List.mem_append_left _ (h.closed f hf c hc)
    · exact List.mem_append_right _ (List.mem_singleton_self _)
  · intro x hx
    rcases List.mem_append.mp hx with hx | hx
    · exact (h.below x hx).add h.rep hnew hdirn (h.subset List.mem_cons_self)
    · rw [List.mem_singleton.mp hx, hnames]
      exact hb.add_self h.rep hnew hdirn (h.subset List.mem_cons_self)
  · intro names f hbf
    rcases hbf.of_add h.rep hnew hdirn (h.subset List.mem_cons_self) with hbf | ⟨rfl, up, rfl, hup⟩
    · refine (h.only names f hbf).imp_right fun ⟨x, hx, hxf⟩ => ?_
      exact ⟨x, List.mem_append_left _ hx, hxf⟩
    · refine Or.inr ⟨(r, f), List.mem_append_right _ (List.mem_singleton_self _), rfl, ?_⟩
      rw [hnames, h.names_unique hup hb]
  · intro x hx
    rcases List.mem_append.mp hx with hx | hx
    · obtain ⟨ch, hch⟩ := hold x.2 (hne x hx)
      rw [hch]
      exact (h.files x hx).children ch
    · rw [List.mem_singleton.mp hx]
      exact hfile
  · intro f hf hfm
    have hff : f ≠ file := fun he => hnew (List.mem_append_left _ (he ▸ hf))
    have hfd : f ≠ dir := fun he => by
      rcases List.mem_cons.mp hdir with hm | hd
      · exact hfm (he.trans hm)
      · obtain ⟨x, hx, hxd⟩ := List.mem_map.mp hd
        exact h.fresh x hx (by rw [hxd, ← he]; exact hf)
    rw [FileTree.add_kids hff hfd]
    exact h.others f hf hfm

/-- The checks at a record. -/
theorem cpioEnd_eq (hr : UpTo m e a (r.encode ++ rest)) (hshort : r.path.length < fileNameMax) :
    cpioEnd m a = if r.path = trailerName then some .done else none := by
  obtain ⟨hmagic, -, -, -, hptr, hname⟩ := hr.cpioHeader hshort
  rw [CpioRecord.encodeName, List.append_assoc, List.cons_append] at hname
  rw [cpioEnd, if_neg (not_not.mpr hmagic), hptr, strAt_eq hname]
  simp only [strcmp_eq_zero]
  by_cases htrailer : r.path = trailerName
  · rw [if_pos htrailer, htrailer, if_pos (List.take_of_length_le (Nat.le_succ _))]
  · rw [if_neg htrailer, if_neg fun htake => htrailer ?_]
    -- a name that is cut off is longer than the trailer's
    have hlen := congrArg List.length htake
    rw [List.length_take] at hlen
    rwa [List.take_of_length_le (by omega)] at htake

/-- A record is mounted, and the next one is looked at. -/
theorem Mounted.entry (h : Mounted m mnt T₀ nodes₀ done s T)
    (hr : UpTo m e a (r.encode ++ rest)) (hgood : r.GoodPath)
    (hpath : ∀ x ∈ done, x.1.path ≠ r.path)
    (hparent : r.names.dropLast ≠ [] → ∃ x ∈ done, x.1.names = r.names.dropLast)
    (hg0 : g.file ≠ 0) (hlock : g.lock = true) (hnew : g.file ∉ nodes₀ ++ done.map Prod.snd)
    (hfuel : fileNameMax + (nodes₀ ++ done.map Prod.snd).length ≤ fuel) :
    ∃ s' T', cpioEntry m fuel mnt a g s = some (s', a + r.encode.length) ∧
      Mounted m mnt T₀ nodes₀ (done ++ [(r, g.file)]) s' T' := by
  have hshort := hgood.short
  obtain ⟨-, hmode, hnamesize, hfilesize, hptr, hname⟩ := hr.cpioHeader hshort
  obtain ⟨hdata, hdata', hnext, -⟩ := hname.cpioData
  have hstr : strAt m (a + cpioHeaderSize) fileNameMax = r.path := by
    rw [CpioRecord.encodeName, List.append_assoc, List.cons_append] at hname
    rw [strAt_eq hname, List.take_of_length_le (Nat.le_of_lt hshort)]
  obtain ⟨dirs, hnames, hslash, hdirs⟩ := path_split r.path
  have hdrop : r.names.dropLast = dirs := by
    rw [CpioRecord.names, hnames, List.dropLast_concat]
  rw [hdrop] at hparent
  have hroom : r.path.length + (nodes₀ ++ done.map Prod.snd).length < fuel := by omega
  obtain ⟨dir, hdir, hb, hfind⟩ := h.findDir hnew hdirs hparent hroom
  have hdirn := h.subset hdir
  have hdir0 : dir ≠ 0 := fun he => h.rep.nonnull (he ▸ hdirn)
  have hrep := h.rep.setFile hnew blankFile
  -- the structure that is added
  generalize hk : cpioFile (cpioHeaderAt m a) (basename r.path)
    ((s.setFile g.file blankFile).files dir).inode
    (a + cpioHeaderSize + r.encodeName.length) = k
  obtain ⟨s', ret, hadd, hrep', hfile, hold⟩ := hrep.add (k := k) hg0 hnew hdirn
  have hencode : a + cpioHeaderSize + r.encodeName.length + r.encodeData.length =
      a + r.encode.length := by
    rw [CpioRecord.encode, List.length_append, List.length_append, CpioRecord.encodeHeader_length]
    omega
  have hkname : k.name = basename r.path := by rw [← hk]; rfl
  have hof : FileOf m r (s'.files g.file) := by
    have hends := hdata'.ends
    have hlt := hdata'.lt
    rw [CpioRecord.encodeData, List.length_append, List.length_append] at hends
    rw [CpioRecord.encodeData, List.append_assoc] at hdata'
    rw [hfile, ← hk]
    refine ⟨hfilesize, ?_, ?_, rfl, ?_, (holdsAt_append.mp hdata'.holds).1, ?_⟩
    · rw [← hmode]
      rfl
    · rw [← hmode]
      rfl
    · change a + cpioHeaderSize + _ ≠ 0
      simp only [cpioHeaderSize]
      omega
    · change a + cpioHeaderSize + r.encodeName.length + r.data.length < _
      omega
  rw [hkname] at hrep'
  refine ⟨s', _, ?_, h.add hnew hdir hb hnames hslash hgood hpath hrep' hof ?_⟩
  · unfold cpioEntry
    simp only [hptr, hstr, hnamesize, hfilesize, hdata, hnext, hfind, hdir0, hk, hadd, hlock,
      hencode, Option.bind_eq_bind, Option.bind_some, if_false, Option.pure_def]
  · intro f hf
    obtain ⟨ch, hch⟩ := hold f hf
    have hsame : (s.setFile g.file blankFile).files f = s.files f := Function.update_of_ne hf ..
    rw [hsame] at hch
    exact ⟨ch, hch⟩

/-- The allocations succeed, with structures that are not in use. -/
structure GrantsOk (nodes : List Nat) (grants : List Grant) : Prop where
  nonnull : ∀ g ∈ grants, g.file ≠ 0
  locks : ∀ g ∈ grants, g.lock = true
  fresh : ∀ g ∈ grants, g.file ∉ nodes
  nodup : (grants.map Grant.file).Nodup

theorem GrantsOk.tail {nodes : List Nat} {grants : List Grant} (h : GrantsOk nodes (g :: grants)) :
    GrantsOk (nodes ++ [g.file]) grants := by
  obtain ⟨hnot, hnodup⟩ := List.nodup_cons.mp h.nodup
  refine ⟨fun g' hg => h.nonnull g' (List.mem_cons_of_mem _ hg),
    fun g' hg => h.locks g' (List.mem_cons_of_mem _ hg), ?_, hnodup⟩
  intro g' hg hin
  rcases List.mem_append.mp hin with hin | hin
  · exact h.fresh g' (List.mem_cons_of_mem _ hg) hin
  · exact hnot (List.mem_singleton.mp hin ▸ List.mem_map_of_mem hg)

/-- All records, up to the trailer. -/
theorem Mounted.loop {all : List CpioRecord} {trailer : CpioRecord} (hall : GoodPaths all)
    (htrailer : trailer.path = trailerName) {rs : List CpioRecord} {grants : List Grant}
    {done : List (CpioRecord × Nat)} {s : FsState} {T : FileTree} {a : Nat}
    (h : Mounted m mnt T₀ nodes₀ done s T) (heq : all = done.map Prod.fst ++ rs)
    (hr : UpTo m e a (rs.flatMap CpioRecord.encode ++ (trailer.encode ++ rest)))
    (hgrants : GrantsOk (nodes₀ ++ done.map Prod.snd) grants) (hlen : rs.length ≤ grants.length)
    (hfuel : fileNameMax + (nodes₀ ++ done.map Prod.snd).length + rs.length ≤ fuel) :
    ∃ s' T', cpioLoop m fuel mnt grants a s = (.done, s') ∧
      Mounted m mnt T₀ nodes₀ (done ++ rs.zip (grants.map Grant.file)) s' T' := by
  induction rs generalizing grants done s T a with
  | nil =>
      have hend : cpioEnd m a = some .done := by
        rw [cpioEnd_eq hr (by rw [htrailer]; decide), if_pos htrailer]
      refine ⟨s, T, ?_, by simpa using h⟩
      cases grants with
      | nil => rw [cpioLoop, hend]; rfl
      | cons g grants => rw [cpioLoop, hend]
  | cons r rs ih =>
      obtain ⟨g, grants, rfl⟩ := List.exists_cons_of_length_pos (Nat.zero_lt_of_lt hlen)
      have hmem : r ∈ all := by
        rw [heq]
        exact List.mem_append_right _ List.mem_cons_self
      have hgood := hall.good r hmem
      rw [List.flatMap_cons, List.append_assoc] at hr
      have hpath : ∀ x ∈ done, x.1.path ≠ r.path := by
        have hnodup := hall.distinct
        rw [heq, List.map_append, List.nodup_append] at hnodup
        exact fun x hx => hnodup.2.2 _ (List.mem_map_of_mem (List.mem_map_of_mem hx)) _
          List.mem_cons_self
      have hparent : r.names.dropLast ≠ [] → ∃ x ∈ done, x.1.names = r.names.dropLast := by
        intro hne
        obtain ⟨d, hd, hdn⟩ := hall.parents _ r rs heq hne
        obtain ⟨x, hx, rfl⟩ := List.mem_map.mp hd
        exact ⟨x, hx, hdn⟩
      rw [List.length_cons, List.length_cons] at hlen
      rw [List.length_cons] at hfuel
      have hg0 := hgrants.nonnull g List.mem_cons_self
      have hroom : fileNameMax + (nodes₀ ++ done.map Prod.snd).length ≤ fuel := by omega
      obtain ⟨s₁, T₁, hentry, hmounted⟩ := h.entry hr hgood hpath hparent hg0
        (hgrants.locks g List.mem_cons_self) (hgrants.fresh g List.mem_cons_self) hroom
      have hptrs : nodes₀ ++ (done ++ [(r, g.file)]).map Prod.snd =
          nodes₀ ++ done.map Prod.snd ++ [g.file] := by simp
      have hfresh := hgrants.tail
      have hrest : fileNameMax + (nodes₀ ++ done.map Prod.snd ++ [g.file]).length + rs.length ≤
          fuel := by
        rw [List.length_append, List.length_singleton]
        omega
      rw [← hptrs] at hfresh hrest
      obtain ⟨s', T', hloop, hlast⟩ := ih hmounted (by rw [heq]; simp) hr.skip hfresh
        (by omega) hrest
      refine ⟨s', T', ?_, ?_⟩
      · rw [cpioLoop, cpioEnd_eq hr hgood.short, if_neg hgood.notTrailer]
        simp only [if_neg hg0, hentry]
        exact hloop
      · rw [List.map_cons, List.zip_cons_cons, List.append_cons]
        exact hlast

end Mounted

/-! ## Reading the files -/

section Hand

variable {m : Nat → UInt8} {r : CpioRecord} {s : FsState} {f : Nat}

/-- A handle on the file of a record reads its data. -/
theorem FileOf.read (h : FileOf m r (s.files f)) (hf : f ≠ 0) {hand : KfileHand}
    (hops : hand.ops = .initrd) (hfile : hand.file = f) {sz : Nat} (hsz : sz < 4294967296) :
    fsRead m s hand 0 sz = r.data.take sz := by
  have hfits := h.fits
  have hread : ∀ n ≤ r.data.length,
      ((List.range n).map fun i => m (u32 ((s.files f).info + 0 + i))) = r.data.take n := by
    intro n hn
    refine List.ext_getElem? ?_
    intro i
    by_cases hi : i < n
    · rw [List.getElem?_map, List.getElem?_range hi, List.getElem?_take_of_lt hi,
        h.holds.getElem? (by omega), Option.map_some, Nat.add_zero, u32_of_lt (by omega)]
    · rw [List.getElem?_eq_none (by simpa using hi), List.getElem?_eq_none (by simp; omega)]
  unfold fsRead
  rw [hops, hfile]
  dsimp only
  rw [h.length, if_neg (by rw [not_or]; exact ⟨hf, h.info⟩)]
  by_cases hempty : r.data.length ≤ 0
  · rw [if_pos hempty, List.eq_nil_of_length_eq_zero (Nat.le_zero.mp hempty), List.take_nil]
  · rw [if_neg hempty, Nat.add_zero sz, u32_of_lt hsz]
    by_cases hlong : r.data.length < sz
    · rw [if_pos hlong, Nat.sub_zero, hread _ (Nat.le_refl _), List.take_length,
        List.take_of_length_le (by omega)]
    · rw [if_neg hlong, hread sz (by omega)]

theorem modeFlags_symlink {mode : Nat} (h : mode &&& 0o170000 ≠ cpioModeSymlink) :
    modeFlags mode &&& fsSymlink = 0 := by
  simp only [modeFlags, if_neg h]
  repeat' split
  all_goals rfl

/-- A file that is not a link is opened for reading. -/
theorem FileOf.open (h : FileOf m r (s.files f)) (hf : f ≠ 0)
    (hlink : r.mode.toNat &&& 0o170000 ≠ cpioModeSymlink) {hand : KfileHand}
    (hclosed : hand.openFlags &&& oflagsOpen = 0) (hwrite : hand.openFlags &&& oflagsWrite = 0)
    (fuel : Nat) :
    fsOpen m s (fuel + 1) f hand =
      some (0, ⟨hand.openFlags ||| oflagsOpen, .initrd, f⟩) := by
  unfold fsOpen
  dsimp only
  rw [if_neg (by rw [not_or, not_not]; exact ⟨hf, hclosed⟩), h.ops]
  dsimp only
  rw [if_neg (not_not.mpr hwrite), h.flags, if_neg (not_not.mpr (modeFlags_symlink hlink))]

end Hand

/-- An archive is taken for one, and is not taken for an lzop file. -/
theorem cpioArchive_eq {m : Nat → UInt8} {e a : Nat} {r : CpioRecord} {rest : List UInt8}
    (h : UpTo m e a (r.encode ++ rest)) (kmalloc : Nat → Nat) (fuel len : Nat) :
    cpioArchive kmalloc fuel a len m = (some a, m) ∧ (cpioHeaderAt m a).magic = cpioMagic := by
  simp only [CpioRecord.encode, CpioRecord.encodeHeader, List.append_assoc] at h
  have hfirst : m a = 0xc7 := h.holds.1
  refine ⟨?_, le16At_eq (by decide) h⟩
  have hbytes : (bytesAre a lzopStart).exec m = (.ok false, m) := by
    have hload : (inByte a).exec m = (.ok 0xc7, m) := by
      change (Except.ok (m a).toNat, m) = _
      rw [hfirst]
      rfl
    exact (MemProg.exec_bind_ok hload).trans rfl
  rw [cpioArchive, hbytes]

/-- **An archive is mounted as it is.** Every path leads from the mount point to
a file with the length, type and permissions of its record. A handle on it
reads its data, and unless the file is a link it is what opening it gives. There
are no other new files, and only the mount point has new children. -/
theorem initrd_mounts_archive {m : Nat → UInt8} {s : FsState} {T : FileTree} {nodes : List Nat}
    {mnt initrd e : Nat} {rs : List CpioRecord} {trailer : CpioRecord} {rest : List UInt8}
    {grants : List Grant} {fuel : Nat} (hpaths : GoodPaths rs)
    (htrailer : trailer.path = trailerName)
    (hmem : UpTo m e initrd (rs.flatMap CpioRecord.encode ++ (trailer.encode ++ rest)))
    (hrep : FsRep s T nodes) (hmnt : mnt ∈ nodes) (hempty : T.kids mnt = [])
    (hgrants : GrantsOk nodes grants) (hlen : rs.length ≤ grants.length)
    (hfuel : fileNameMax + nodes.length + rs.length < fuel) (kmalloc : Nat → Nat) (len : Nat) :
    ∃ s' T', initrdMount kmalloc fuel grants mnt initrd len s m = (.done, s', m) ∧
      (∀ x ∈ rs.zip (grants.map Grant.file),
        fsFindFile s' fuel mnt x.1.path = some x.2 ∧
        (s'.files x.2).length = x.1.data.length ∧
        (s'.files x.2).flags = modeFlags x.1.mode.toNat ∧
        (s'.files x.2).pflags = x.1.mode.toNat &&& 0o7777 ∧
        (∀ hand sz, hand.ops = .initrd → hand.file = x.2 → sz < 4294967296 →
          fsRead m s' hand 0 sz = x.1.data.take sz) ∧
        (x.1.mode.toNat &&& 0o170000 ≠ cpioModeSymlink → ∀ hand n,
          hand.openFlags &&& oflagsOpen = 0 → hand.openFlags &&& oflagsWrite = 0 →
            fsOpen m s' (n + 1) x.2 hand =
              some (0, ⟨hand.openFlags ||| oflagsOpen, .initrd, x.2⟩))) ∧
      FsRep s' T' (nodes ++ (grants.take rs.length).map Grant.file) ∧
      ∀ f ∈ nodes, f ≠ mnt → T'.kids f = T.kids f := by
  have hnil : nodes ++ ([] : List (CpioRecord × Nat)).map Prod.snd = nodes := List.append_nil _
  have hfresh := hgrants
  have hroom := Nat.le_of_lt hfuel
  rw [← hnil] at hfresh hroom
  obtain ⟨s', T', hloop, h⟩ := (mounted_nil (m := m) hrep hmnt hempty).loop hpaths htrailer rfl
    hmem hfresh hlen hroom
  rw [List.nil_append] at h
  have hptrs : (rs.zip (grants.map Grant.file)).map Prod.snd =
      (grants.take rs.length).map Grant.file := by
    rw [List.zip_eq_zip_take_min, List.length_map, Nat.min_eq_left hlen, List.take_length,
      ← List.map_take]
    refine List.map_snd_zip ?_
    rw [List.length_map, List.length_take]
    omega
  have hstart : ∃ r rest', rs.flatMap CpioRecord.encode ++ (trailer.encode ++ rest) =
      CpioRecord.encode r ++ rest' := by
    cases rs with
    | nil => exact ⟨trailer, rest, rfl⟩
    | cons r rs => exact ⟨r, _, by rw [List.flatMap_cons, List.append_assoc]⟩
  obtain ⟨r, rest', heq⟩ := hstart
  obtain ⟨harchive, hmagic⟩ := cpioArchive_eq (heq ▸ hmem) kmalloc fuel len
  have hlen' : (nodes ++ (rs.zip (grants.map Grant.file)).map Prod.snd).length =
      nodes.length + rs.length := by
    rw [hptrs, List.length_append, List.length_map, List.length_take, Nat.min_eq_left hlen]
  refine ⟨s', T', ?_, ?_, hptrs ▸ h.rep, h.others⟩
  · rw [initrdMount, harchive]
    dsimp only
    rw [if_neg (not_not.mpr hmagic), hloop]
  · intro x hx
    have hgood := hpaths.good x.1 (List.of_mem_zip hx).1
    have hjoin : joinPath x.1.names = x.1.path := List.intercalate_splitOn slash
    have hshort := hgood.short
    have hx0 : x.2 ≠ 0 := fun he =>
      h.rep.nonnull (he ▸ List.mem_append_right _ (List.mem_map_of_mem hx))
    have hfile := h.files x hx
    refine ⟨?_, hfile.length, hfile.flags, hfile.pflags,
      fun hand sz hops hf hsz => hfile.read hx0 hops hf hsz,
      fun hlink hand n hclosed hwrite => hfile.open hx0 hlink hclosed hwrite n⟩
    rw [← hjoin]
    exact fsFindFile_below h.rep h.subset h.named
      (fun f hf c hc => List.mem_cons_of_mem _ (h.closed f hf c hc)) List.mem_cons_self
      (show x.1.names ≠ [] from List.splitOn_ne_nil slash x.1.path) (h.below x hx)
      (by rw [hjoin]; omega)

/-! ## A small archive -/

def sampleRecord (mode : UInt16) (path : CString) (data : List UInt8) : CpioRecord where
  dev := 1
  ino := 2
  mode := mode
  uid := 0
  gid := 0
  nlink := 1
  rdev := 0
  mtime := 0x12345678
  path := path
  data := data
  namePad := 0
  dataPad := 0

/-- The directory `a` and the file `a/b`. -/
def sampleRecords : List CpioRecord :=
  [sampleRecord 0o040755 [letterA] [],
    sampleRecord 0o100644 [letterA, slash, letterB] [1, 2, 3]]

def sampleArchive : List UInt8 :=
  sampleRecords.flatMap CpioRecord.encode ++ ((sampleRecord 0 trailerName []).encode ++ [])

theorem sampleRecords_good : GoodPaths sampleRecords := by
  refine ⟨?_, by decide, ?_⟩
  · intro r hr
    rcases List.mem_cons.mp hr with rfl | hr
    · exact ⟨by decide, by decide, by decide, by decide⟩
    · rw [List.mem_singleton.mp hr]
      exact ⟨by decide, by decide, by decide, by decide⟩
  · intro before r after heq hne
    rcases before with _ | ⟨r₀, _ | ⟨r₁, before⟩⟩
    · obtain ⟨rfl, -⟩ := List.cons.inj heq
      exact absurd (by decide) hne
    · obtain ⟨rfl, htail⟩ := List.cons.inj heq
      obtain ⟨rfl, -⟩ := List.cons.inj htail
      exact ⟨_, List.mem_cons_self, by decide⟩
    · have hlen := congrArg List.length heq
      simp [sampleRecords] at hlen

theorem initrd_mounts_nested :
    ∃ s', initrdMount (fun _ => 0) 300 [⟨32, true⟩, ⟨48, true⟩] 16 0x10000 0 sampleRoot.st
        (bytesFrom 0x10000 sampleArchive) = (.done, s', bytesFrom 0x10000 sampleArchive) ∧
      fsFindFile s' 300 16 [letterA, slash, letterB] = some 48 ∧
      fsRead (bytesFrom 0x10000 sampleArchive) s' ⟨0x80000001, .initrd, 48⟩ 0 10 = [1, 2, 3] := by
  have hrep : FsRep sampleRoot.st sampleRoot.tree sampleRoot.nodes := fsInit_rep (by decide) _ _
  have hmem : UpTo (bytesFrom 0x10000 sampleArchive) (0x10000 + sampleArchive.length) 0x10000
      sampleArchive := ⟨by decide +kernel, rfl, by decide +kernel⟩
  have hgrants : GrantsOk sampleRoot.nodes [⟨32, true⟩, ⟨48, true⟩] :=
    ⟨by decide, by decide, by decide, by decide⟩
  have hmnt : 16 ∈ sampleRoot.nodes := by decide
  have hfuel : fileNameMax + sampleRoot.nodes.length + sampleRecords.length < 300 := by decide
  obtain ⟨s', T', hmount, hfiles, -, -⟩ := initrd_mounts_archive sampleRecords_good rfl hmem hrep
    hmnt rfl hgrants (by decide) hfuel (fun _ => 0) 0
  obtain ⟨hfind, -, -, -, hread, -⟩ := hfiles (_, 48) (List.mem_cons_of_mem _ List.mem_cons_self)
  exact ⟨s', hmount, hfind, hread ⟨0x80000001, .initrd, 48⟩ 10 rfl rfl (by decide)⟩

end LambdaOs
