import LambdaOs.FsWalk

/-!
# Names of files

In a tree whose names are not empty, hold no separator, do not begin with a
dot and differ among the children of a file, the names from one file down to
another lead from the one to the other, and no other file is found by them.
New files do not change that: a file keeps its name and its place
(`FsAdd.below`), so that what its path named it names in every later tree.
-/

namespace LambdaOs

/-! ## Good names -/

/-- A new file gets a name that can be looked up, and that no sibling has. -/
def GoodName (T : FileTree) (parent : Nat) (name : CString) : Prop :=
  name ≠ [] ∧ slash ∉ name ∧ name.head? ≠ some dot ∧ ∀ c ∈ T.kids parent, T.name c ≠ name

instance (T : FileTree) (parent : Nat) (name : CString) : Decidable (GoodName T parent name) :=
  inferInstanceAs (Decidable (_ ∧ _))

/-- The names of a tree. -/
structure Named (T : FileTree) (nodes : List Nat) : Prop where
  nonempty : ∀ f ∈ nodes, ∀ c ∈ T.kids f, T.name c ≠ []
  noSlash : ∀ f ∈ nodes, ∀ c ∈ T.kids f, slash ∉ T.name c
  noDot : ∀ f ∈ nodes, ∀ c ∈ T.kids f, (T.name c).head? ≠ some dot
  distinct : ∀ f ∈ nodes, ∀ c ∈ T.kids f, ∀ d ∈ T.kids f, T.name c = T.name d → c = d

/-- The names from below one file down to another. -/
inductive FileTree.Below (T : FileTree) : Nat → List CString → Nat → Prop where
  | self (f : Nat) : T.Below f [] f
  | child {a c f : Nat} {names : List CString} (hc : c ∈ T.kids a) (hf : T.Below c names f) :
      T.Below a (T.name c :: names) f

/-- The names, joined by separators. -/
def joinPath (names : List CString) : CString := [slash].intercalate names

theorem FileTree.Below.snoc {T : FileTree} {a p c : Nat} {names : List CString}
    (h : T.Below a names p) (hc : c ∈ T.kids p) : T.Below a (names ++ [T.name c]) c := by
  induction h with
  | self f => exact .child hc (.self c)
  | child hc' _ ih => exact .child hc' (ih hc)

/-! ## New files -/

section Add

variable {T : FileTree} {nodes part : List Nat} {s : FsState} {file parent : Nat} {name : CString}

theorem Named.single (root : Nat) : Named (.single root) [root] :=
  ⟨fun _ _ => nofun, fun _ _ => nofun, fun _ _ => nofun, fun _ _ => nofun⟩

/-- A file that is added without a parent goes under the root. -/
theorem FsRep.under_mem (h : FsRep s T nodes) (hp : parent = 0 ∨ parent ∈ nodes) :
    (if parent = 0 then T.root else parent) ∈ nodes := by
  split
  · exact h.root_mem
  · rename_i hp0
    exact hp.resolve_left hp0

/-- The children of a file in the tree with one more, and their names. -/
theorem FsRep.mem_add_kids (h : FsRep s T nodes) (hnew : file ∉ nodes) (hp : parent ∈ nodes)
    (hsub : part ⊆ nodes) {f c : Nat} (hf : f ∈ part ++ [file])
    (hc : c ∈ (T.add file parent name).kids f) :
    (f ∈ part ∧ c ∈ T.kids f ∧ (T.add file parent name).name c = T.name c) ∨
      (f = parent ∧ c = file ∧ (T.add file parent name).name c = name) := by
  have hne : parent ≠ file := fun he => hnew (he ▸ hp)
  obtain ⟨hff, hc | ⟨rfl, rfl⟩⟩ := (FileTree.mem_add_kids hne).mp hc
  · have hfp : f ∈ part := by simpa [hff] using hf
    have hcf : c ≠ file := fun he => hnew (he ▸ (h.kids f (hsub hfp) c hc).1)
    exact Or.inl ⟨hfp, hc, FileTree.add_name hcf⟩
  · exact Or.inr ⟨rfl, rfl, FileTree.add_name_self⟩

theorem Named.add (hn : Named T part) (h : FsRep s T nodes) (hsub : part ⊆ nodes)
    (hnew : file ∉ nodes) (hp : parent ∈ nodes) (hok : GoodName T parent name) :
    Named (T.add file parent name) (part ++ [file]) := by
  obtain ⟨hne, hslash, hdot, hother⟩ := hok
  refine ⟨?_, ?_, ?_,
    ?_⟩
  · intro f hf c hc
    rcases h.mem_add_kids hnew hp hsub hf hc with ⟨hf, hc, hname⟩ | ⟨-, -, hname⟩
    · rw [hname]
      exact hn.nonempty f hf c hc
    · rw [hname]
      exact hne
  · intro f hf c hc
    rcases h.mem_add_kids hnew hp hsub hf hc with ⟨hf, hc, hname⟩ | ⟨-, -, hname⟩
    · rw [hname]
      exact hn.noSlash f hf c hc
    · rw [hname]
      exact hslash
  · intro f hf c hc
    rcases h.mem_add_kids hnew hp hsub hf hc with ⟨hf, hc, hname⟩ | ⟨-, -, hname⟩
    · rw [hname]
      exact hn.noDot f hf c hc
    · rw [hname]
      exact hdot
  · intro f hf c hc d hd heq
    rcases h.mem_add_kids hnew hp hsub hf hc with ⟨hfn, hc, hcn⟩ | ⟨hfp, hcf, hcn⟩ <;>
      rcases h.mem_add_kids hnew hp hsub hf hd with ⟨hfn', hd, hdn⟩ | ⟨hfp', hdf, hdn⟩
    · exact hn.distinct f hfn c hc d hd (by rw [← hcn, ← hdn, heq])
    · exact absurd (hcn.symm.trans (heq.trans hdn)) (hother c (hfp' ▸ hc))
    · exact absurd (hdn.symm.trans (heq.symm.trans hcn)) (hother d (hfp ▸ hd))
    · rw [hcf, hdf]

/-- Files keep their place. -/
theorem FileTree.Below.add (h : FsRep s T nodes) (hnew : file ∉ nodes) (hp : parent ∈ nodes)
    {a f : Nat} {names : List CString} (hb : T.Below a names f) (ha : a ∈ nodes) :
    (T.add file parent name).Below a names f := by
  have hne : parent ≠ file := fun he => hnew (he ▸ hp)
  induction hb with
  | self f => exact .self f
  | child hc hb ih =>
    rename_i a c f names
    have hcn := (h.kids a ha c hc).1
    have haf : a ≠ file := fun he => hnew (he ▸ ha)
    have hname : (T.add file parent name).name c = T.name c :=
      FileTree.add_name fun he => hnew (he ▸ hcn)
    rw [← hname]
    exact .child ((FileTree.mem_add_kids hne).mpr ⟨haf, Or.inl hc⟩) (ih hcn)

/-- The new file is below its parent. -/
theorem FileTree.Below.add_self (h : FsRep s T nodes) (hnew : file ∉ nodes) (hp : parent ∈ nodes)
    {a : Nat} {up : List CString} (hb : T.Below a up parent) (ha : a ∈ nodes) :
    (T.add file parent name).Below a (up ++ [name]) file := by
  have hne : parent ≠ file := fun he => hnew (he ▸ hp)
  have hin : file ∈ (T.add file parent name).kids parent :=
    (FileTree.mem_add_kids hne).mpr ⟨hne, Or.inr ⟨rfl, rfl⟩⟩
  have hbn := (hb.add h hnew hp ha).snoc hin
  rwa [FileTree.add_name_self] at hbn

/-- What is below a file with one more file in the tree was there, or is the new
file. -/
theorem FileTree.Below.of_add (h : FsRep s T nodes) (hnew : file ∉ nodes) (hp : parent ∈ nodes)
    {a f : Nat} {names : List CString} (hb : (T.add file parent name).Below a names f)
    (ha : a ∈ nodes) :
    T.Below a names f ∨ f = file ∧ ∃ up, names = up ++ [name] ∧ T.Below a up parent := by
  induction hb with
  | self f => exact Or.inl (.self f)
  | child hc hb ih =>
    rename_i a c f names
    rcases h.mem_add_kids hnew hp (List.Subset.refl _) (List.mem_append_left _ ha) hc with
      ⟨-, hc, hname⟩ | ⟨rfl, rfl, hname⟩
    · rw [hname]
      rcases ih (h.kids a ha c hc).1 with hb | ⟨hf, up, rfl, hup⟩
      · exact Or.inl (.child hc hb)
      · exact Or.inr ⟨hf, T.name c :: up, rfl, .child hc hup⟩
    · -- the new file has no children
      rw [hname]
      cases hb with
      | self => exact Or.inr ⟨rfl, [], rfl, .self a⟩
      | child hc' _ =>
        rw [FileTree.add_kids_self] at hc'
        cases hc'

end Add

/-- What a tree of good names keeps while it is built. -/
structure NamedSys (x : FsSys) : Prop where
  rep : FsRep x.st x.tree x.nodes
  named : Named x.tree x.nodes
  reached : ∀ f ∈ x.nodes, ∃ names, x.tree.Below x.tree.root names f

section Step

variable {x y : FsSys}

theorem NamedSys.step (h : NamedSys x) (hadd : FsAdd GoodName x y) : NamedSys y := by
  have hrep := hadd.rep h.rep
  cases hadd with
  | added hf0 hnew hp hok hcall =>
    rename_i file parent k s' r
    have hpn := h.rep.under_mem hp
    generalize (if parent = 0 then x.tree.root else parent) = p at hrep hok hpn
    refine ⟨hrep, h.named.add h.rep (List.Subset.refl _) hnew hpn hok, ?_⟩
    intro f hf
    rcases List.mem_append.mp hf with hf | hf
    · obtain ⟨names, hb⟩ := h.reached f hf
      exact ⟨names, hb.add h.rep hnew hpn h.rep.root_mem⟩
    · obtain ⟨names, hb⟩ := h.reached p hpn
      rw [List.mem_singleton.mp hf]
      exact ⟨_, hb.add_self h.rep hnew hpn h.rep.root_mem⟩
  | failed hf0 hnew hcall => exact ⟨hrep, h.named, h.reached⟩

/-- A later tree has the same root, and every file of the tree at its place. -/
theorem FsAdd.below {ok : FileTree → Nat → CString → Prop} (hadd : FsAdd ok x y)
    (h : FsRep x.st x.tree x.nodes) :
    y.tree.root = x.tree.root ∧ (∀ f ∈ x.nodes, f ∈ y.nodes) ∧
      ∀ a ∈ x.nodes, ∀ names f, x.tree.Below a names f → y.tree.Below a names f := by
  cases hadd with
  | added hf0 hnew hp hok hcall =>
    rename_i file parent k s' r
    have hpn := h.under_mem hp
    exact ⟨rfl, fun f hf => List.mem_append_left _ hf,
      fun a ha names f hb => hb.add h hnew hpn ha⟩
  | failed => exact ⟨rfl, fun f hf => hf, fun a ha names f hb => hb⟩

theorem NamedSys.run (h : NamedSys x) (hrun : Relation.ReflTransGen (FsAdd GoodName) x y) :
    NamedSys y ∧ y.tree.root = x.tree.root ∧ (∀ f ∈ x.nodes, f ∈ y.nodes) ∧
      ∀ a ∈ x.nodes, ∀ names f, x.tree.Below a names f → y.tree.Below a names f := by
  induction hrun with
  | refl => exact ⟨h, rfl, fun f hf => hf, fun a ha names f hb => hb⟩
  | tail _ hadd ih =>
    obtain ⟨hy, hroot, hnodes, hbelow⟩ := ih
    obtain ⟨hroot', hnodes', hbelow'⟩ := hadd.below hy.rep
    exact ⟨hy.step hadd, hroot'.trans hroot, fun f hf => hnodes' f (hnodes f hf),
      fun a ha names f hb => hbelow' a (hnodes a ha) names f (hbelow a ha names f hb)⟩

theorem Built.namedSys (hx : Built GoodName x) : NamedSys x := by
  obtain ⟨root, files, items, h0, hrun⟩ := hx
  have hstart : NamedSys ⟨fsInit root files items, .single root, [root]⟩ :=
    ⟨fsInit_rep h0 files items, .single root,
      fun f hf => ⟨[], by rw [List.mem_singleton.mp hf]; exact .self root⟩⟩
  exact (hstart.run hrun).1

end Step

/-! ## Names lead to files -/

section Lead

variable {s : FsState} {T : FileTree} {nodes part : List Nat} {a f : Nat} {names : List CString}

/-- The child of that name is the child. -/
theorem Named.child?_eq (hn : Named T nodes) (ha : a ∈ nodes) {c : Nat} (hc : c ∈ T.kids a) :
    T.child? a (T.name c) = some c := by
  obtain ⟨d, hd⟩ : ∃ d, T.child? a (T.name c) = some d := by
    refine Option.isSome_iff_exists.mp (List.find?_isSome.mpr ⟨c, hc, ?_⟩)
    exact decide_eq_true rfl
  have hname := List.find?_some hd
  rw [hd, hn.distinct a ha d (List.mem_of_find?_eq_some hd) c hc (of_decide_eq_true hname)]

/-- The walk down a path of names arrives, and is clear. The names have to be
good below the file it starts at. -/
theorem Named.walk_below (hn : Named T part) (hclosed : ∀ f ∈ part, ∀ c ∈ T.kids f, c ∈ part)
    (ha : a ∈ part) (hb : T.Below a names f) :
    names.foldlM T.go a = some f ∧ (names ≠ [] → T.Clear a names) ∧
      ∀ name ∈ names, slash ∉ name := by
  induction hb with
  | self f => exact ⟨rfl, fun hne => absurd rfl hne, nofun⟩
  | child hc hb ih =>
    rename_i a c f names
    obtain ⟨hwalk, hclear, hslash⟩ := ih (hclosed a ha c hc)
    have hne := hn.nonempty a ha c hc
    have hdot := hn.noDot a ha c hc
    have hgo : T.go a (T.name c) = some c :=
      (FileTree.go_name hne hdot).trans (hn.child?_eq ha hc)
    refine ⟨?_, fun _ => ?_, List.forall_mem_cons.mpr ⟨hn.noSlash a ha c hc, hslash⟩⟩
    · rw [List.foldlM_cons, hgo]
      exact hwalk
    · by_cases hnil : names = []
      · rw [hnil]
        exact ⟨hne, fun hd => absurd hd hdot⟩
      · rw [FileTree.clear_cons hnil, if_neg hne]
        refine ⟨fun hd => absurd hd hdot, ?_⟩
        intro f' hf'
        obtain rfl := Option.some.inj (hgo.symm.trans hf')
        exact hclear hnil

/-- The lookup of the joined names from the file they start at. -/
theorem fsFindFile_below (h : FsRep s T nodes) (hsub : part ⊆ nodes) (hn : Named T part)
    (hclosed : ∀ f ∈ part, ∀ c ∈ T.kids f, c ∈ part) (ha : a ∈ part)
    (hne : names ≠ []) (hb : T.Below a names f) {fuel : Nat}
    (hfuel : (joinPath names).length + nodes.length < fuel) :
    fsFindFile s fuel a (joinPath names) = some f := by
  obtain ⟨hwalk, hclear, hslash⟩ := hn.walk_below hclosed ha hb
  have hsplit : (joinPath names).splitOn slash = names :=
    List.splitOn_intercalate slash hslash hne
  rw [fsFindFile_eq_walk h (hsub ha) hfuel (by rw [hsplit]; exact hclear hne), hsplit, hwalk]
  rfl

/-- The lookup of an absolute path, from anywhere. -/
theorem fsFindFile_root_below (h : FsRep s T nodes) (hn : Named T nodes)
    (hb : T.Below T.root names f) (g : Nat) {fuel : Nat}
    (hfuel : (slash :: joinPath names).length + nodes.length < fuel) :
    fsFindFile s fuel g (slash :: joinPath names) = some f := by
  obtain ⟨fuel, rfl⟩ : ∃ n, fuel = n + 1 := ⟨fuel - 1, by omega⟩
  have hclosed : ∀ f ∈ nodes, ∀ c ∈ T.kids f, c ∈ nodes := fun f hf c hc => (h.kids f hf c hc).1
  obtain ⟨-, hclear, hslash⟩ := hn.walk_below hclosed h.root_mem hb
  rw [fsFindFile_slash, h.root_eq]
  by_cases hnil : names = []
  · rw [hnil] at hb ⊢
    cases hb
    rfl
  · have hne : joinPath names ≠ [] := by
      intro he
      have hsplit : (joinPath names).splitOn slash = names :=
        List.splitOn_intercalate slash hslash hnil
      rw [he] at hsplit
      have hempty := hclear hnil
      rw [← hsplit] at hempty
      exact hempty.1 rfl
    rw [if_pos hne]
    refine fsFindFile_below h (List.Subset.refl _) hn hclosed h.root_mem hnil hb ?_
    rw [List.length_cons] at hfuel
    omega

end Lead

/-- **Paths name files.** Every file has names from the root; the path of these
leads to it from anywhere, and the names from one of its ancestors from there,
in the tree and in every later one. -/
theorem paths_name_files {x : FsSys} (hx : Built GoodName x) {f : Nat} (hf : f ∈ x.nodes) :
    (∃ names, x.tree.Below x.tree.root names f) ∧
    ∀ y, Relation.ReflTransGen (FsAdd GoodName) x y →
      (∀ names, x.tree.Below x.tree.root names f → ∀ g fuel,
        (slash :: joinPath names).length + y.nodes.length < fuel →
          fsFindFile y.st fuel g (slash :: joinPath names) = some f) ∧
      (∀ a ∈ x.nodes, ∀ names, names ≠ [] → x.tree.Below a names f → ∀ fuel,
        (joinPath names).length + y.nodes.length < fuel →
          fsFindFile y.st fuel a (joinPath names) = some f) := by
  have h := hx.namedSys
  refine ⟨h.reached f hf, ?_⟩
  intro y hrun
  obtain ⟨hy, hroot, hnodes, hbelow⟩ := h.run hrun
  refine ⟨?_, ?_⟩
  · intro names hb g fuel hfuel
    have hb' := hbelow _ h.rep.root_mem names f hb
    rw [← hroot] at hb'
    exact fsFindFile_root_below hy.rep hy.named hb' g hfuel
  · intro a ha names hne hb fuel hfuel
    exact fsFindFile_below hy.rep (List.Subset.refl _) hy.named
      (fun f hf c hc => (hy.rep.kids f hf c hc).1) (hnodes a ha) hne (hbelow a ha names f hb) hfuel

/-- `a/b`, and `x` that comes later. -/
theorem paths_name_nested_file :
    let x := (sampleRoot.plus 32 16 [letterA]).plus 48 32 [letterB]
    let y := x.plus 64 16 [letterX]
    fsFindFile y.st 20 0 [slash, letterA, slash, letterB] = some 48 ∧
      fsFindFile y.st 20 32 [letterB] = some 48 := by
  intro x y
  have h₀ : FsRep sampleRoot.st sampleRoot.tree sampleRoot.nodes := fsInit_rep (by decide) _ _
  have h₁ : FsAdd GoodName _ _ :=
    FsSys.plus_add 32 16 [letterA] h₀ (by decide) (by decide) (by decide) (by decide)
  have h₂ : FsAdd GoodName _ _ :=
    FsSys.plus_add 48 32 [letterB] (h₁.rep h₀) (by decide) (by decide) (by decide) (by decide)
  have h₃ : FsAdd GoodName _ _ :=
    FsSys.plus_add 64 16 [letterX] (h₂.rep (h₁.rep h₀)) (by decide) (by decide) (by decide)
      (by decide)
  have hx : Built GoodName x :=
    ⟨16, fun _ => blankFile, fun _ => ⟨0, 0, 0⟩, by decide,
      (Relation.ReflTransGen.single h₁).tail h₂⟩
  obtain ⟨hroot, hbelow⟩ :=
    (paths_name_files hx (f := 48) (by decide)).2 y (Relation.ReflTransGen.single h₃)
  have hb : x.tree.Below 32 [[letterB]] 48 :=
    FileTree.Below.child (T := x.tree) (a := 32) (c := 48) (by decide) (.self 48)
  have ha : x.tree.Below 16 [[letterA], [letterB]] 48 :=
    FileTree.Below.child (T := x.tree) (a := 16) (c := 32) (by decide) hb
  exact ⟨hroot _ ha 0 20 (by decide), hbelow 32 (by decide) _ (by decide) hb 20 (by decide)⟩

end LambdaOs
