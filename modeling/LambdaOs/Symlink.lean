import Mathlib.Data.Set.Finite.Basic
import Mathlib.Order.WellFounded
import LambdaOs.InitrdMount

/-!
# Symbolic links

`fs_open` of `fs/fs.c` and `_open` of `fs/initrd.c` call each other once for
each link they follow. `_open` copies the target of a link to a buffer of 128
bytes, with a zero byte behind it, and leaves the file it finds in `link`,
where `kfstat` of `fs/stat.c` goes on from it.

`LinkStep` is the graph of the links. Each link leads to one file, so a link
on a cycle is followed for ever, and where there is no cycle the graph is
well-founded: `opens_end_iff`.
-/

namespace LambdaOs

/-! ## Opening and `kfstat` -/

/-- `char symlink[128]` -/
def symlinkSize : Nat := 128

/-- Why a call does not return: it is not done yet, or it has written behind
its buffer. -/
inductive OpenStop where
  | unfinished
  | overflow
deriving Repr, DecidableEq

section Open

variable (m : Nat → UInt8) (s : FsState)

/-- The target of a link, up to its first zero byte. -/
def linkPath (f : Nat) : CString := strAt m (s.files f).info (s.files f).length

/-- `fs_open` with what it leaves in the `link` of the files. -/
def fsOpenLink : Nat → Nat → KfileHand → (Nat → Nat) →
    Except OpenStop (Int × KfileHand × (Nat → Nat))
  | 0, _, _, _ => .error .unfinished
  | fuel + 1, f, hand, link =>
      let k := s.files f
      if f = 0 ∨ hand.openFlags &&& oflagsOpen ≠ 0 then .ok (-EINVAL, hand, link)
      else
        match k.ops with
        | .null =>
            .ok (0, { hand with openFlags := hand.openFlags ||| oflagsOpen, file := f }, link)
        | .initrd =>
            if hand.openFlags &&& oflagsWrite ≠ 0 then .ok (-EROFS, hand, link)
            else if k.flags &&& fsSymlink ≠ 0 then
              -- the zero byte is stored at index `length`
              if symlinkSize ≤ k.length then .error .overflow
              else
                match fsFindFile s fuel k.parent (linkPath m s f) with
                | none => .error .unfinished
                | some target =>
                    let link := Function.update link f target
                    if target ≠ 0 then fsOpenLink fuel target hand link
                    else .ok (-ENOENT, hand, link)
            else .ok (0, ⟨hand.openFlags ||| oflagsOpen, .initrd, f⟩, link)

end Open

/-- The loop of `kfstat`. -/
def followLinks (s : FsState) (link : Nat → Nat) : Nat → Nat → Option Nat
  | 0, _ => none
  | fuel + 1, f =>
      if (s.files f).flags &&& fsSymlink = 0 then some f
      else if link f = 0 then some f
      else followLinks s link fuel (link f)

/-- `kstat_t` -/
structure Kstat where
  devId : Nat
  rdevId : Nat
  nLink : Nat
  uid : Nat
  gid : Nat
  inode : Nat
  mode : Nat
  ctime : Nat
  mtime : Nat
  size : Nat
  blksize : Nat
  allocSize : Nat
deriving Repr, DecidableEq

/-- The return value, and what is stored to `*buf`. -/
def kfstat (s : FsState) (link : Nat → Nat) (fuel f buf : Nat) : Option (Int × Option Kstat) :=
  if f = 0 ∨ buf = 0 then some (-EINVAL, none)
  else
    let k := s.files f
    (followLinks s link fuel f).map fun target =>
      let size := (s.files target).length
      (0, some ⟨0, 0, 0, k.uid, k.gid, k.inode, k.pflags, k.ctime, k.mtime, size, 1, size⟩)

/-! ## The graph of the links -/

section Graph

variable (m : Nat → UInt8) (s : FsState)

/-- `f` is a link of an archive. -/
def IsLink (f : Nat) : Prop := (s.files f).flags &&& fsSymlink ≠ 0 ∧ (s.files f).ops = .initrd

instance (f : Nat) : Decidable (IsLink s f) := inferInstanceAs (Decidable (_ ∧ _))

/-- The link `f` leads to the file `g`. -/
def LinkStep (f g : Nat) : Prop :=
  IsLink s f ∧ g ≠ 0 ∧ ∃ fuel, fsFindFile s fuel (s.files f).parent (linkPath m s f) = some g

/-- What opens leave in `link`, which `initrd_mount` has cleared. -/
inductive LinkState (nodes : List Nat) : (Nat → Nat) → Prop where
  | mounted : LinkState nodes fun _ => 0
  | opened {link link' : Nat → Nat} {fuel f : Nat} {hand hand' : KfileHand} {ret : Int}
      (h : LinkState nodes link) (hf : f ∈ nodes)
      (hopen : fsOpenLink m s fuel f hand link = .ok (ret, hand', link')) : LinkState nodes link'

/-- Every open ends, within its buffer, with an error or on a file that is no
link; and `kfstat` ends in every state that opens leave. -/
structure OpensEnd (nodes : List Nat) : Prop where
  opens : ∀ link, LinkState m s nodes link → ∀ f ∈ nodes, ∀ hand, ∃ fuel ret hand' link',
    fsOpenLink m s fuel f hand link = .ok (ret, hand', link') ∧
      (ret < 0 ∨ (s.files hand'.file).flags &&& fsSymlink = 0)
  buffer : ∀ link, LinkState m s nodes link → ∀ f ∈ nodes, ∀ hand fuel,
    fsOpenLink m s fuel f hand link ≠ .error .overflow
  stats : ∀ link, LinkState m s nodes link → ∀ f ∈ nodes, ∀ buf, ∃ fuel r,
    kfstat s link fuel f buf = some r

end Graph

/-! ## Looking up a target -/

section Lookup

variable {s : FsState} {T : FileTree} {nodes : List Nat}

theorem finddirLoop_mono {name : CString} {fuel fuel' : Nat} (hle : fuel ≤ fuel')
    {iter : LlistIterator} {g : Nat} (h : finddirLoop s name fuel iter = some g) :
    finddirLoop s name fuel' iter = some g := by
  induction fuel generalizing fuel' iter with
  | zero => cases h
  | succ fuel ih =>
    obtain ⟨fuel', rfl⟩ : ∃ n, fuel' = n + 1 := ⟨fuel' - 1, by omega⟩
    unfold finddirLoop at h ⊢
    split at h
    · cases h
    · exact h
    · split at h
      · rename_i hname
        rw [if_pos hname]
        exact h
      · rename_i hname
        rw [if_neg hname]
        exact ih (by omega) h

theorem fsFinddir_mono {name : CString} {fuel fuel' : Nat} (hle : fuel ≤ fuel') {f g : Nat}
    (h : fsFinddir fuel s f name = some g) : fsFinddir fuel' s f name = some g := by
  unfold fsFinddir at h ⊢
  split at h
  · rename_i hc
    rw [if_pos hc]
    exact finddirLoop_mono hle h
  · rename_i hc
    rw [if_neg hc]
    exact h

/-- Where a lookup goes on without a name. -/
def Beside (s : FsState) (f g : Nat) : Prop := g = f ∨ g = (s.files f).parent ∨ g = s.fsRoot

/-- What one call of `fs_find_file` does, from the file `f` that it looks at. -/
inductive FindCall (s : FsState) (f : Nat) (path : CString) (find : Nat → Option Nat) : Prop where
  | found (g : Nat) (hg : Beside s f g) (h : ∀ fuel, find fuel = some g)
  | goOn (g : Nat) (rest : CString) (hg : Beside s f g) (hlen : rest.length < path.length)
      (h : ∀ fuel, find fuel = fsFindFile s fuel g rest)
  | name (name : CString) (h : ∀ fuel, find fuel = fsFinddir fuel s f name)
  | dir (name rest : CString) (hlen : rest.length < path.length)
      (h : ∀ fuel, find fuel = (fsFinddir fuel s f name).bind fun g =>
        if g ≠ 0 then fsFindFile s fuel g rest else some 0)

theorem fsFindFile_call (s : FsState) (f : Nat) (c : CChar) (rest : CString) :
    FindCall s (if f = 0 then s.fsRoot else f) (c :: rest)
      fun fuel => fsFindFile s (fuel + 1) f (c :: rest) := by
  by_cases hdot : c = dot
  · cases rest with
    | nil => exact .found _ (.inl rfl) fun fuel => by simp only [fsFindFile, if_pos hdot]
    | cons d rest' =>
      by_cases hdots : d = dot
      · cases rest' with
        | nil =>
          exact .found _ (.inr (.inl rfl)) fun fuel => by
            simp only [fsFindFile, if_pos hdot, if_pos hdots]
        | cons e rest'' =>
          by_cases hsep : e = slash
          · exact .goOn _ rest'' (.inr (.inl rfl)) (by simp only [List.length_cons]; omega)
              fun fuel => by simp only [fsFindFile, if_pos hdot, if_pos hdots, if_pos hsep]
          · exact .goOn _ (e :: rest'') (.inr (.inl rfl)) (by simp only [List.length_cons]; omega)
              fun fuel => by simp only [fsFindFile, if_pos hdot, if_pos hdots, if_neg hsep]
      · by_cases hsep : d = slash
        · exact .goOn _ rest' (.inl rfl) (by simp only [List.length_cons]; omega)
            fun fuel => by simp only [fsFindFile, if_pos hdot, if_neg hdots, if_pos hsep]
        · exact .goOn _ (d :: rest') (.inl rfl) (by simp only [List.length_cons]; omega)
            fun fuel => by
              rw [fsFindFile.eq_def]
              simp only [if_pos hdot, if_neg hdots, if_neg hsep]
  · by_cases hsep : c = slash
    · by_cases hrest : rest ≠ []
      · exact .goOn _ rest (.inr (.inr rfl)) (by simp only [List.length_cons]; omega)
          fun fuel => by rw [fsFindFile.eq_def]; simp only [if_neg hdot, if_pos hsep, if_pos hrest]
      · exact .found _ (.inr (.inr rfl))
          fun fuel => by rw [fsFindFile.eq_def]; simp only [if_neg hdot, if_pos hsep, if_neg hrest]
    · cases hidx : strchr (c :: rest) slash with
      | none =>
        exact .name (c :: rest) fun fuel => by
          rw [fsFindFile.eq_def]
          simp only [if_neg hdot, if_neg hsep, hidx]
      | some i =>
        refine .dir ((c :: rest).take i) ((c :: rest).drop (i + 1)) ?_ fun fuel => ?_
        · simp only [List.length_drop, List.length_cons]
          omega
        · rw [fsFindFile.eq_def]
          simp only [if_neg hdot, if_neg hsep, hidx]

/-- More fuel gives the same file. -/
theorem fsFindFile_mono {fuel fuel' : Nat} (hle : fuel ≤ fuel') {f g : Nat} {path : CString}
    (h : fsFindFile s fuel f path = some g) : fsFindFile s fuel' f path = some g := by
  induction fuel generalizing fuel' f path with
  | zero => cases h
  | succ fuel ih =>
    obtain ⟨fuel', rfl⟩ : ∃ n, fuel' = n + 1 := ⟨fuel' - 1, by omega⟩
    have hle : fuel ≤ fuel' := by omega
    cases path with
    | nil => exact h
    | cons c rest =>
      cases fsFindFile_call s f c rest with
      | found g' _ hcall => exact (hcall fuel').trans ((hcall fuel).symm.trans h)
      | goOn g' path _ _ hcall =>
        rw [hcall] at h ⊢
        exact ih hle h
      | name name hcall =>
        rw [hcall] at h ⊢
        exact fsFinddir_mono hle h
      | dir name path _ hcall =>
        rw [hcall] at h ⊢
        obtain ⟨g', hg', h⟩ := Option.bind_eq_some_iff.mp h
        refine Option.bind_eq_some_iff.mpr ⟨g', fsFinddir_mono hle hg', ?_⟩
        split at h
        · rename_i hne
          rw [if_pos hne]
          exact ih hle h
        · rename_i hne
          rw [if_neg hne]
          exact h

theorem fsFindFile_unique {fuel fuel' f g g' : Nat} {path : CString}
    (h : fsFindFile s fuel f path = some g) (h' : fsFindFile s fuel' f path = some g') :
    g = g' := by
  have h1 := fsFindFile_mono (Nat.le_max_left fuel fuel') h
  have h2 := fsFindFile_mono (Nat.le_max_right fuel fuel') h'
  rw [h1, Option.some_inj] at h2
  exact h2

/-- Every path is looked up, and finds a file or nothing. -/
theorem fsFindFile_total (h : FsRep s T nodes) {fuel f : Nat} {path : CString}
    (hf : f = 0 ∨ f ∈ nodes) (hfuel : path.length + nodes.length < fuel) :
    ∃ g, fsFindFile s fuel f path = some g ∧ (g = 0 ∨ g ∈ nodes) := by
  induction fuel generalizing f path with
  | zero => exact absurd hfuel (Nat.not_lt_zero _)
  | succ fuel ih =>
    cases path with
    | nil => exact ⟨0, rfl, .inl rfl⟩
    | cons c rest =>
      have hroot : s.fsRoot ∈ nodes := h.root_eq ▸ h.root_mem
      have hstart : (if f = 0 then s.fsRoot else f) ∈ nodes := by
        split
        · exact hroot
        · rename_i hne
          exact hf.resolve_left hne
      have hcall := fsFindFile_call s f c rest
      generalize (if f = 0 then s.fsRoot else f) = f' at hstart hcall
      have hbeside : ∀ g, Beside s f' g → g = 0 ∨ g ∈ nodes := by
        rintro g (rfl | rfl | rfl)
        · exact .inr hstart
        · by_cases hr : f' = T.root
          · exact .inl (hr ▸ h.root_parent)
          · exact .inr (h.parent_eq f' hstart hr ▸ (h.parents f' hstart hr).1)
        · exact .inr hroot
      have hfind : ∀ name, nodes.length < fuel →
          ∃ g, fsFinddir fuel s f' name = some g ∧ (g = 0 ∨ g ∈ nodes) := by
        intro name hlt
        refine ⟨_, fsFinddir_eq h hstart hlt, ?_⟩
        cases hc : T.child? f' name with
        | none => exact .inl rfl
        | some g => exact .inr (h.child_mem hstart hc)
      have hlen : nodes.length < fuel := by
        rw [List.length_cons] at hfuel
        omega
      cases hcall with
      | found g hg hcall => exact ⟨g, hcall fuel, hbeside g hg⟩
      | goOn g path hg hshort hcall =>
        rw [hcall]
        exact ih (hbeside g hg) (by omega)
      | name name hcall =>
        rw [hcall]
        exact hfind name hlen
      | dir name path hshort hcall =>
        obtain ⟨g, hg, hmem⟩ := hfind name hlen
        rw [hcall, hg, Option.bind_some]
        split
        · exact ih hmem (by omega)
        · exact ⟨0, rfl, .inl rfl⟩

/-- A lookup does not leave the tree. -/
theorem fsFindFile_mem (h : FsRep s T nodes) {fuel f g : Nat} {path : CString}
    (hf : f = 0 ∨ f ∈ nodes) (hg : fsFindFile s fuel f path = some g) : g = 0 ∨ g ∈ nodes := by
  obtain ⟨g', hg', hmem⟩ := fsFindFile_total h hf (Nat.lt_succ_self (path.length + nodes.length))
  rw [fsFindFile_unique hg hg']
  exact hmem

theorem FsRep.parent_mem (h : FsRep s T nodes) {f : Nat} (hf : f ∈ nodes) :
    (s.files f).parent = 0 ∨ (s.files f).parent ∈ nodes := by
  by_cases hr : f = T.root
  · exact .inl (hr ▸ h.root_parent)
  · exact .inr (h.parent_eq f hf hr ▸ (h.parents f hf hr).1)

end Lookup

/-! ## Following links -/

section Follow

variable {m : Nat → UInt8} {s : FsState} {T : FileTree} {nodes : List Nat}

/-- A link leads to one file. -/
theorem LinkStep.unique {f g g' : Nat} (h : LinkStep m s f g) (h' : LinkStep m s f g') :
    g = g' := by
  obtain ⟨-, -, fuel, hg⟩ := h
  obtain ⟨-, -, fuel', hg'⟩ := h'
  exact fsFindFile_unique hg hg'

theorem LinkStep.mem (h : FsRep s T nodes) {f g : Nat} (hf : f ∈ nodes)
    (hstep : LinkStep m s f g) : g ∈ nodes := by
  obtain ⟨-, hne, fuel, hg⟩ := hstep
  exact (fsFindFile_mem h (h.parent_mem hf) hg).resolve_left hne

/-- What one call of `fs_open` does. -/
inductive OpenCall (m : Nat → UInt8) (s : FsState) (f : Nat) (hand : KfileHand) (link : Nat → Nat)
    (open' : Nat → Except OpenStop (Int × KfileHand × (Nat → Nat))) : Prop where
  | ends (ret : Int) (hand' : KfileHand) (hret : ret < 0 ∨ hand'.file = f ∧ ¬ IsLink s f)
      (h : ∀ fuel, open' fuel = .ok (ret, hand', link))
  | long (hlink : IsLink s f) (hlen : symlinkSize ≤ (s.files f).length)
      (h : ∀ fuel, open' fuel = .error .overflow)
  | follow (hlink : IsLink s f) (hlen : (s.files f).length < symlinkSize)
      (h : ∀ fuel, open' fuel =
        match fsFindFile s fuel (s.files f).parent (linkPath m s f) with
        | none => .error .unfinished
        | some target =>
            let link := Function.update link f target
            if target ≠ 0 then fsOpenLink m s fuel target hand link
            else .ok (-ENOENT, hand, link))

theorem fsOpenLink_call (f : Nat) (hand : KfileHand) (link : Nat → Nat) :
    OpenCall m s f hand link fun fuel => fsOpenLink m s (fuel + 1) f hand link := by
  by_cases hbad : f = 0 ∨ hand.openFlags &&& oflagsOpen ≠ 0
  · refine .ends (-EINVAL) hand (.inl (by decide)) fun fuel => ?_
    rw [fsOpenLink.eq_def]
    simp only [if_pos hbad]
  · cases hops : (s.files f).ops with
    | null =>
      refine .ends 0 ⟨hand.openFlags ||| oflagsOpen, hand.ops, f⟩ (.inr ⟨rfl, ?_⟩) fun fuel => ?_
      · rintro ⟨-, h⟩
        rw [hops] at h
        cases h
      · rw [fsOpenLink.eq_def]
        simp only [if_neg hbad, hops]
    | initrd =>
      by_cases hwrite : hand.openFlags &&& oflagsWrite ≠ 0
      · refine .ends (-EROFS) hand (.inl (by decide)) fun fuel => ?_
        rw [fsOpenLink.eq_def]
        simp only [if_neg hbad, hops, if_pos hwrite]
      · by_cases hflag : (s.files f).flags &&& fsSymlink ≠ 0
        · by_cases hlen : symlinkSize ≤ (s.files f).length
          · refine .long ⟨hflag, hops⟩ hlen fun fuel => ?_
            rw [fsOpenLink.eq_def]
            simp only [if_neg hbad, hops, if_neg hwrite, if_pos hflag, if_pos hlen]
          · refine .follow ⟨hflag, hops⟩ (Nat.lt_of_not_le hlen) fun fuel => ?_
            rw [fsOpenLink.eq_def]
            simp only [if_neg hbad, hops, if_neg hwrite, if_pos hflag, if_neg hlen]
        · refine .ends 0 ⟨hand.openFlags ||| oflagsOpen, .initrd, f⟩
            (.inr ⟨rfl, fun h => hflag h.1⟩) fun fuel => ?_
          rw [fsOpenLink.eq_def]
          simp only [if_neg hbad, hops, if_neg hwrite, if_neg hflag]

/-- An open for reading does follow a link. -/
theorem fsOpenLink_link {f fuel : Nat} {hand : KfileHand} {link : Nat → Nat} (hf : f ≠ 0)
    (hlink : IsLink s f) (hflags : hand.openFlags = 0) :
    fsOpenLink m s (fuel + 1) f hand link =
      if symlinkSize ≤ (s.files f).length then .error .overflow
      else
        match fsFindFile s fuel (s.files f).parent (linkPath m s f) with
        | none => .error .unfinished
        | some target =>
            let link := Function.update link f target
            if target ≠ 0 then fsOpenLink m s fuel target hand link
            else .ok (-ENOENT, hand, link) := by
  have hbad : ¬ (f = 0 ∨ hand.openFlags &&& oflagsOpen ≠ 0) := by
    rw [hflags, Nat.zero_and]
    exact fun h => h.elim hf fun h => h rfl
  have hwrite : ¬ hand.openFlags &&& oflagsWrite ≠ 0 := by
    rw [hflags, Nat.zero_and]
    exact fun h => h rfl
  rw [fsOpenLink.eq_def]
  simp only [if_neg hbad, hlink.2, if_neg hwrite, if_pos hlink.1]

theorem fsOpenLink_mono {fuel fuel' : Nat} (hle : fuel ≤ fuel') {f : Nat} {hand : KfileHand}
    {link : Nat → Nat} {r : Int × KfileHand × (Nat → Nat)}
    (h : fsOpenLink m s fuel f hand link = .ok r) : fsOpenLink m s fuel' f hand link = .ok r := by
  induction fuel generalizing fuel' f link with
  | zero => cases h
  | succ fuel ih =>
    obtain ⟨fuel', rfl⟩ : ∃ n, fuel' = n + 1 := ⟨fuel' - 1, by omega⟩
    have hle : fuel ≤ fuel' := by omega
    cases fsOpenLink_call (m := m) (s := s) f hand link with
    | ends ret hand' _ hcall => exact (hcall fuel').trans ((hcall fuel).symm.trans h)
    | long _ _ hcall => exact absurd ((hcall fuel).symm.trans h) (by simp)
    | follow _ _ hcall =>
      rw [hcall] at h ⊢
      cases hfind : fsFindFile s fuel (s.files f).parent (linkPath m s f) with
      | none =>
        rw [hfind] at h
        cases h
      | some target =>
        rw [hfind] at h
        rw [fsFindFile_mono hle hfind]
        by_cases hne : target ≠ 0
        · simp only [if_pos hne] at h ⊢
          exact ih hle h
        · simp only [if_neg hne] at h ⊢
          exact h

/-- The return value and the handle are those of `fsOpen`. -/
theorem fsOpenLink_fsOpen {fuel f : Nat} {hand hand' : KfileHand} {link link' : Nat → Nat}
    {ret : Int} (h : fsOpenLink m s fuel f hand link = .ok (ret, hand', link')) :
    fsOpen m s fuel f hand = some (ret, hand') := by
  induction fuel generalizing f link with
  | zero => cases h
  | succ fuel ih =>
    unfold fsOpenLink at h
    unfold fsOpen
    by_cases hbad : f = 0 ∨ hand.openFlags &&& oflagsOpen ≠ 0
    · simp only [if_pos hbad] at h ⊢
      cases h
      rfl
    · simp only [if_neg hbad] at h ⊢
      cases hops : (s.files f).ops with
      | null =>
        simp only [hops] at h ⊢
        cases h
        rfl
      | initrd =>
        simp only [hops] at h ⊢
        by_cases hwrite : hand.openFlags &&& oflagsWrite ≠ 0
        · rw [if_pos hwrite] at h ⊢
          cases h
          rfl
        · rw [if_neg hwrite] at h ⊢
          by_cases hflag : (s.files f).flags &&& fsSymlink ≠ 0
          · rw [if_pos hflag] at h ⊢
            split at h
            · cases h
            · rw [← linkPath]
              cases hfind : fsFindFile s fuel (s.files f).parent (linkPath m s f) with
              | none =>
                rw [hfind] at h
                cases h
              | some target =>
                rw [hfind] at h
                by_cases hne : target ≠ 0
                · simp only [if_pos hne] at h ⊢
                  exact ih h
                · simp only [if_neg hne] at h ⊢
                  cases h
                  rfl
          · rw [if_neg hflag] at h ⊢
            cases h
            rfl

/-- What opens find in `link`. -/
def LinksFollow (m : Nat → UInt8) (s : FsState) (link : Nat → Nat) : Prop :=
  ∀ f, link f = 0 ∨ LinkStep m s f (link f)

theorem LinksFollow.opened {fuel f : Nat} {hand hand' : KfileHand} {link link' : Nat → Nat}
    {ret : Int} (hl : LinksFollow m s link)
    (h : fsOpenLink m s fuel f hand link = .ok (ret, hand', link')) : LinksFollow m s link' := by
  induction fuel generalizing f link with
  | zero => cases h
  | succ fuel ih =>
    cases fsOpenLink_call (m := m) (s := s) f hand link with
    | ends ret hand' _ hcall =>
      cases (hcall fuel).symm.trans h
      exact hl
    | long _ _ hcall => cases (hcall fuel).symm.trans h
    | follow hlink _ hcall =>
      rw [hcall] at h
      cases hfind : fsFindFile s fuel (s.files f).parent (linkPath m s f) with
      | none =>
        rw [hfind] at h
        cases h
      | some target =>
        rw [hfind] at h
        have hl' : LinksFollow m s (Function.update link f target) := by
          intro g
          by_cases hg : g = f
          · subst hg
            rw [Function.update_self]
            by_cases hne : target = 0
            · exact .inl hne
            · exact .inr ⟨hlink, hne, fuel, hfind⟩
          · rw [Function.update_of_ne hg]
            exact hl g
        by_cases hne : target ≠ 0
        · simp only [if_pos hne] at h
          exact ih hl' h
        · simp only [if_neg hne] at h
          cases h
          exact hl'

theorem LinkState.follow {link : Nat → Nat} (h : LinkState m s nodes link) :
    LinksFollow m s link := by
  induction h with
  | mounted => exact fun _ => .inl rfl
  | opened _ _ hopen ih => exact ih.opened hopen

end Follow

/-! ## Without a cycle -/

section Acyclic

variable {m : Nat → UInt8} {s : FsState} {T : FileTree} {nodes : List Nat}

/-- The targets fit the buffer, with the zero byte. -/
def LinksFit (s : FsState) (nodes : List Nat) : Prop :=
  ∀ f ∈ nodes, IsLink s f → (s.files f).length < symlinkSize

def Acyclic (m : Nat → UInt8) (s : FsState) (nodes : List Nat) : Prop :=
  ∀ f ∈ nodes, ¬ Relation.TransGen (LinkStep m s) f f

/-- On finitely many files, links without a cycle come to an end. -/
theorem Acyclic.acc (h : FsRep s T nodes) (ha : Acyclic m s nodes) {f : Nat} (hf : f ∈ nodes) :
    Acc (fun g f => LinkStep m s f g) f := by
  let r : {f // f ∈ nodes} → {f // f ∈ nodes} → Prop := fun g f =>
    Relation.TransGen (LinkStep m s) f.1 g.1
  have : IsTrans _ r := ⟨fun _ _ _ hab hbc => hbc.trans hab⟩
  have : Std.Irrefl r := ⟨fun f => ha f.1 f.2⟩
  have : Finite {f // f ∈ nodes} := nodes.finite_toSet
  have hwf : WellFounded r := Finite.wellFounded_of_trans_of_irrefl r
  suffices ∀ f : {f // f ∈ nodes}, Acc (fun g f => LinkStep m s f g) f.1 from this ⟨f, hf⟩
  intro f
  induction f using hwf.induction with
  | _ f ih =>
    exact ⟨_, fun g hg => ih ⟨g, hg.mem h f.2⟩ (.single hg)⟩

theorem followLinks_ends {link : Nat → Nat} (hl : LinksFollow m s link) {f : Nat}
    (hacc : Acc (fun g f => LinkStep m s f g) f) :
    ∃ fuel g, followLinks s link fuel f = some g := by
  induction hacc with
  | intro f _ ih =>
    by_cases hflag : (s.files f).flags &&& fsSymlink = 0
    · exact ⟨1, f, by rw [followLinks, if_pos hflag]⟩
    · rcases hl f with h0 | hstep
      · exact ⟨1, f, by rw [followLinks, if_neg hflag, if_pos h0]⟩
      · obtain ⟨fuel, g, hg⟩ := ih _ hstep
        exact ⟨fuel + 1, g, by rw [followLinks, if_neg hflag, if_neg hstep.2.1, hg]⟩

theorem fsOpenLink_ends (h : FsRep s T nodes) (hfit : LinksFit s nodes) {f : Nat}
    (hacc : Acc (fun g f => LinkStep m s f g) f) (hf : f ∈ nodes) (hand : KfileHand)
    (link : Nat → Nat) : ∃ fuel ret hand' link',
      fsOpenLink m s fuel f hand link = .ok (ret, hand', link') ∧
        (ret < 0 ∨ hand'.file ∈ nodes ∧ ¬ IsLink s hand'.file) := by
  induction hacc generalizing link with
  | intro f _ ih =>
    cases fsOpenLink_call (m := m) (s := s) f hand link with
    | ends ret hand' hret hcall =>
      refine ⟨1, ret, hand', link, hcall 0, hret.imp_right ?_⟩
      rintro ⟨rfl, hlink⟩
      exact ⟨hf, hlink⟩
    | long hlink hlen => exact absurd (hfit f hf hlink) (Nat.not_lt_of_le hlen)
    | follow hlink _ hcall =>
      obtain ⟨n, target, hfind⟩ :
          ∃ n target, fsFindFile s n (s.files f).parent (linkPath m s f) = some target := by
        obtain ⟨target, hfind, -⟩ := fsFindFile_total h (h.parent_mem hf)
          (Nat.lt_succ_self ((linkPath m s f).length + nodes.length))
        exact ⟨_, target, hfind⟩
      by_cases hne : target ≠ 0
      · have hstep : LinkStep m s f target := ⟨hlink, hne, n, hfind⟩
        obtain ⟨fuel, ret, hand', link', hopen, hret⟩ :=
          ih target hstep (hstep.mem h hf) (Function.update link f target)
        refine ⟨max n fuel + 1, ret, hand', link', ?_, hret⟩
        rw [hcall, fsFindFile_mono (Nat.le_max_left n fuel) hfind]
        simp only [if_pos hne]
        exact fsOpenLink_mono (Nat.le_max_right n fuel) hopen
      · refine ⟨n + 1, -ENOENT, hand, Function.update link f target, ?_, .inl (by decide)⟩
        rw [hcall, hfind]
        simp only [if_neg hne]

theorem fsOpenLink_fits (h : FsRep s T nodes) (hfit : LinksFit s nodes) {fuel f : Nat}
    (hf : f ∈ nodes) (hand : KfileHand) (link : Nat → Nat) :
    fsOpenLink m s fuel f hand link ≠ .error .overflow := by
  induction fuel generalizing f link with
  | zero => exact fun h => by cases h
  | succ fuel ih =>
    cases fsOpenLink_call (m := m) (s := s) f hand link with
    | ends ret hand' _ hcall => exact fun h => by cases (hcall fuel).symm.trans h
    | long hlink hlen => exact absurd (hfit f hf hlink) (Nat.not_lt_of_le hlen)
    | follow _ _ hcall =>
      rw [hcall]
      cases hfind : fsFindFile s fuel (s.files f).parent (linkPath m s f) with
      | none => exact fun h => by cases h
      | some target =>
        by_cases hne : target ≠ 0
        · simp only [if_pos hne]
          exact ih ((fsFindFile_mem h (h.parent_mem hf) hfind).resolve_left hne) _
        · simp only [if_neg hne]
          exact fun h => by cases h

end Acyclic

/-! ## On a cycle -/

/-- An open that starts on a cycle does not return. -/
theorem fsOpenLink_cycle {m : Nat → UInt8} {s : FsState} {fuel f : Nat} {hand : KfileHand}
    {link : Nat → Nat} (hflags : hand.openFlags = 0) (hf : f ≠ 0)
    (hcycle : Relation.TransGen (LinkStep m s) f f) (r : Int × KfileHand × (Nat → Nat)) :
    fsOpenLink m s fuel f hand link ≠ .ok r := by
  induction fuel generalizing f link with
  | zero => exact fun h => by cases h
  | succ fuel ih =>
    obtain ⟨g, hstep, hback⟩ := Relation.TransGen.head'_iff.mp hcycle
    rw [fsOpenLink_link hf hstep.1 hflags]
    split
    · exact fun h => by cases h
    · cases hfind : fsFindFile s fuel (s.files f).parent (linkPath m s f) with
      | none => exact fun h => by cases h
      | some target =>
        by_cases hne : target ≠ 0
        · have heq : target = g := LinkStep.unique ⟨hstep.1, hne, fuel, hfind⟩ hstep
          simp only [if_pos hne]
          exact ih hne (heq ▸ .tail' hback hstep)
        · have hz : fsFindFile s fuel (s.files f).parent (linkPath m s f) = some 0 := by
            rw [hfind, not_not.mp hne]
          obtain ⟨-, hg0, n, hg⟩ := hstep
          exact absurd (fsFindFile_unique hg hz) hg0

/-- Opens of an archive's files end, and `kfstat` after them, if and only if no
link is too long for the buffer and no link comes back to itself. -/
theorem opens_end_iff {m : Nat → UInt8} {s : FsState} {T : FileTree} {nodes : List Nat}
    (h : FsRep s T nodes)
    (hops : ∀ f ∈ nodes, (s.files f).flags &&& fsSymlink ≠ 0 → (s.files f).ops = .initrd) :
    OpensEnd m s nodes ↔ LinksFit s nodes ∧ Acyclic m s nodes := by
  have hne : ∀ f ∈ nodes, f ≠ 0 := fun f hf he => h.nonnull (he ▸ hf)
  constructor
  · intro hend
    refine ⟨fun f hf hlink => ?_, fun f hf hcycle => ?_⟩
    · by_contra hlen
      have hover := hend.buffer _ .mounted f hf ⟨0, .null, 0⟩ 1
      rw [fsOpenLink_link (hne f hf) hlink rfl, if_pos (Nat.le_of_not_lt hlen)] at hover
      exact hover rfl
    · obtain ⟨fuel, ret, hand', link', hopen, -⟩ :=
        hend.opens _ .mounted f hf ⟨0, .null, 0⟩
      exact fsOpenLink_cycle rfl (hne f hf) hcycle _ hopen
  · rintro ⟨hfit, ha⟩
    refine ⟨fun link _ f hf hand => ?_, fun link _ f hf hand fuel => ?_,
      fun link hl f hf buf => ?_⟩
    · obtain ⟨fuel, ret, hand', link', hopen, hret⟩ :=
        fsOpenLink_ends h hfit (ha.acc h hf) hf hand link
      refine ⟨fuel, ret, hand', link', hopen, hret.imp_right fun ⟨hmem, hlink⟩ => ?_⟩
      by_contra hflag
      exact hlink ⟨hflag, hops _ hmem hflag⟩
    · exact fsOpenLink_fits h hfit hf hand link
    · by_cases hbad : f = 0 ∨ buf = 0
      · exact ⟨0, _, by rw [kfstat, if_pos hbad]⟩
      · obtain ⟨fuel, g, hg⟩ := followLinks_ends hl.follow (ha.acc h hf)
        exact ⟨fuel, _, by rw [kfstat, if_neg hbad, hg]; rfl⟩

/-! ## An archive with one link -/

/-- The link `a` in the root. -/
def linkRecord (target : List UInt8) : CpioRecord := sampleRecord 0o120777 [letterA] target

def linkArchive (target : List UInt8) : List UInt8 :=
  [linkRecord target].flatMap CpioRecord.encode ++ ((sampleRecord 0 trailerName []).encode ++ [])

def linkMemory (target : List UInt8) : Nat → UInt8 := bytesFrom 0x10000 (linkArchive target)

/-- The tree after the mount; the link is at `32`. -/
def linkTree (target : List UInt8) : FsState :=
  (initrdMount (fun _ => 0) 300 [⟨32, true⟩] 16 0x10000 0 sampleRoot.st (linkMemory target)).2.1

theorem linkTree_rep {target : List UInt8}
    (hmem : UpTo (linkMemory target) (0x10000 + (linkArchive target).length) 0x10000
      (linkArchive target)) : ∃ T, FsRep (linkTree target) T [16, 32] := by
  have hnames : (linkRecord target).names = [[letterA]] :=
    List.splitOn_eq_singleton (by decide : slash ∉ [letterA])
  have hpaths : GoodPaths [linkRecord target] := by
    refine ⟨?_, List.nodup_singleton _, ?_⟩
    · intro r hr
      rw [List.mem_singleton.mp hr]
      refine ⟨(by decide : [letterA].length < fileNameMax), ?_, ?_,
        (by decide : [letterA] ≠ trailerName)⟩
      · rw [hnames]
        decide
      · rw [hnames]
        decide
    · intro before r after heq hne
      rcases before with _ | ⟨r₀, before⟩
      · obtain ⟨rfl, -⟩ := List.cons.inj heq
        rw [hnames] at hne
        exact absurd rfl hne
      · have hlen := congrArg List.length heq
        simp at hlen
  have hrep : FsRep sampleRoot.st sampleRoot.tree sampleRoot.nodes := fsInit_rep (by decide) _ _
  have hgrants : GrantsOk sampleRoot.nodes [⟨32, true⟩] :=
    ⟨by decide, by decide, by decide, by decide⟩
  obtain ⟨s', T', hmount, -, hrep', -⟩ := initrd_mounts_archive hpaths rfl hmem hrep
    (List.mem_singleton_self 16) rfl hgrants (Nat.le_refl 1)
    (by decide : fileNameMax + 1 + 1 < 300) (fun _ => 0) 0
  refine ⟨T', ?_⟩
  rw [linkTree, hmount]
  exact hrep'

/-- A link to nothing can be opened, with an error. -/
theorem dangling_link_ends : OpensEnd (linkMemory [98]) (linkTree [98]) [16, 32] := by
  obtain ⟨T, hrep⟩ : ∃ T, FsRep (linkTree [98]) T [16, 32] :=
    linkTree_rep ⟨by decide +kernel, rfl, by decide +kernel⟩
  have hfind : fsFindFile (linkTree [98]) 4 ((linkTree [98]).files 32).parent
      (linkPath (linkMemory [98]) (linkTree [98]) 32) = some 0 := by decide +kernel
  have hfiles : ∀ f ∈ [16, 32], (((linkTree [98]).files f).flags &&& fsSymlink ≠ 0 → f = 32 ∧
      ((linkTree [98]).files f).ops = .initrd) ∧
        ((linkTree [98]).files f).length < symlinkSize := by
    decide +kernel
  refine (opens_end_iff hrep fun f hf hflag => ((hfiles f hf).1 hflag).2).mpr
    ⟨fun f hf _ => (hfiles f hf).2, fun f hf hcycle => ?_⟩
  obtain ⟨g, ⟨hlink, hne, fuel, hg⟩, -⟩ := Relation.TransGen.head'_iff.mp hcycle
  obtain ⟨rfl, -⟩ := (hfiles f hf).1 hlink.1
  exact hne (fsFindFile_unique hg hfind)

/-- The link `a` to `a`, and a link with a target of 128 bytes. -/
theorem bad_links_not_end :
    (∃ T, FsRep (linkTree [97]) T [16, 32]) ∧
    ¬ OpensEnd (linkMemory [97]) (linkTree [97]) [16, 32] ∧
    (∃ T, FsRep (linkTree (List.replicate 128 97)) T [16, 32]) ∧
    ¬ OpensEnd (linkMemory (List.replicate 128 97)) (linkTree (List.replicate 128 97))
      [16, 32] := by
  refine ⟨linkTree_rep ⟨by decide +kernel, rfl, by decide +kernel⟩, fun hend => ?_,
    linkTree_rep ⟨by decide +kernel, rfl, by decide +kernel⟩, fun hend => ?_⟩
  · have hfind : fsFindFile (linkTree [97]) 4 ((linkTree [97]).files 32).parent
        (linkPath (linkMemory [97]) (linkTree [97]) 32) = some 32 := by decide +kernel
    have hlink : IsLink (linkTree [97]) 32 := by decide +kernel
    obtain ⟨fuel, ret, hand', link', hopen, -⟩ :=
      hend.opens _ .mounted 32 (by simp) ⟨0, .null, 0⟩
    exact fsOpenLink_cycle rfl (by simp) (.single ⟨hlink, by simp, 4, hfind⟩) _ hopen
  · have hlink : IsLink (linkTree (List.replicate 128 97)) 32 ∧
        symlinkSize ≤ ((linkTree (List.replicate 128 97)).files 32).length := by decide +kernel
    have hover := hend.buffer _ .mounted 32 (by simp) ⟨0, .null, 0⟩ 1
    rw [fsOpenLink_link (by simp) hlink.1 rfl, if_pos hlink.2] at hover
    exact hover rfl

end LambdaOs
