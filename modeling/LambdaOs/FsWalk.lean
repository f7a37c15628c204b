import Mathlib.Data.List.Find
import Mathlib.Data.List.Perm.Subperm
import LambdaOs.Fs

/-!
# Looking up a path

`fs_finddir` and `fs_find_file`. The lookup recurses on the path: it looks at
up to two characters to tell `.`, `..` and `/`, and otherwise takes the path
up to the next separator for the name of a child.

`FileTree.walk` is what a path means, component by component. The lookup
follows it as long as the walk does not come to what the two characters do not
tell: a name that begins with a dot, an empty component away from the root
(the lookup goes on from the root), an empty last component (it finds nothing)
or a last `..` at the root, which has no parent. `FileTree.Clear` says so of a
walk, and `fsFindFile_eq_walk` is by induction on the components.
-/

namespace LambdaOs

/-! ## The lookups -/

/-- The loop of `fs_finddir`. `none` is the panic of `llist_iterate`, or no fuel. -/
def finddirLoop (s : FsState) (name : CString) : Nat → LlistIterator → Option Nat
  | 0, _ => none
  | fuel + 1, iter =>
      match llistIterate s.items iter with
      | none => none
      | some (_, none) => some 0
      | some (iter, some file) =>
          if strcmp (s.files file).name name = 0 then some file else finddirLoop s name fuel iter

def fsFinddir (fuel : Nat) (s : FsState) (f : Nat) (name : CString) : Option Nat :=
  if f ≠ 0 ∧ (s.files f).children.list ≠ 0 then
    finddirLoop s name fuel (llistIteratorInit (s.files f).children)
  else some 0

/-- `strchr`: the index of the character. -/
def strchr (s : CString) (c : CChar) : Option Nat := s.findIdx? (· = c)

/-- The file, `0` for `NULL`; `none` when the fuel runs out. -/
def fsFindFile (s : FsState) : Nat → Nat → CString → Option Nat
  | 0, _, _ => none
  | _ + 1, _, [] => some 0
  | fuel + 1, f, c :: rest =>
      let f := if f = 0 then s.fsRoot else f
      if c = dot then
        match rest with
        | [] => some f
        | d :: rest' =>
            if d = dot then
              match rest' with
              | [] => some (s.files f).parent
              | e :: rest'' =>
                  if e = slash then fsFindFile s fuel (s.files f).parent rest''
                  else fsFindFile s fuel (s.files f).parent rest'
            else if d = slash then fsFindFile s fuel f rest'
            else fsFindFile s fuel f rest
      else if c = slash then
        if rest ≠ [] then fsFindFile s fuel s.fsRoot rest else some s.fsRoot
      else
        match strchr (c :: rest) slash with
        | some i =>
            (fsFinddir fuel s f ((c :: rest).take i)).bind fun f =>
              if f ≠ 0 then fsFindFile s fuel f ((c :: rest).drop (i + 1)) else some 0
        | none => fsFinddir fuel s f (c :: rest)

/-! ## What a path means -/

namespace FileTree

variable (T : FileTree)

/-- The root is its own parent. -/
def up (f : Nat) : Nat := if f = T.root then T.root else T.parent f

def child? (f : Nat) (name : CString) : Option Nat := (T.kids f).find? (T.name · = name)

/-- One component. -/
def go (f : Nat) (c : CString) : Option Nat :=
  if c = [] ∨ c = [dot] then some f
  else if c = [dot, dot] then some (T.up f)
  else T.child? f c

/-- Where a walk starts: at the root or at `g`. -/
def start (g : Nat) (path : CString) : Nat := if path.head? = some slash then T.root else g

/-- The components of a path, one after another. -/
def walk (g : Nat) (path : CString) : Option Nat :=
  (path.splitOn slash).foldlM T.go (T.start g path)

/-- The walk from `f` comes to nothing that the lookup takes for something
else. -/
def Clear : Nat → List CString → Prop
  | _, [] => False
  | f, [c] => c ≠ [] ∧ (c.head? = some dot → c = [dot] ∨ c = [dot, dot] ∧ f ≠ T.root)
  | f, c :: cs =>
      if c = [] then f = T.root ∧ (cs = [[]] ∨ Clear f cs)
      else
        (c.head? = some dot → c = [dot] ∨ c = [dot, dot]) ∧
          ∀ f' ∈ T.go f c, Clear f' cs

/-- The walk is clear up to its last component, which is empty, or is `..` at
the root. -/
def EndsLost : Nat → List CString → Prop
  | _, [] => False
  | f, [c] => c = [] ∨ c = [dot, dot] ∧ f = T.root
  | f, c :: cs =>
      if c = [] then f = T.root ∧ cs ≠ [[]] ∧ EndsLost f cs
      else
        (c.head? = some dot → c = [dot] ∨ c = [dot, dot]) ∧
          ∃ f' ∈ T.go f c, EndsLost f' cs

instance Clear.decidable : (f : Nat) → (cs : List CString) → Decidable (T.Clear f cs)
  | _, [] => isFalse id
  | _, [_] => inferInstanceAs (Decidable (_ ∧ _))
  | f, c :: d :: cs =>
      have := fun f' => Clear.decidable f' (d :: cs)
      inferInstanceAs (Decidable (if c = [] then f = T.root ∧ (d :: cs = [[]] ∨ T.Clear f (d :: cs))
        else (c.head? = some dot → c = [dot] ∨ c = [dot, dot]) ∧
          ∀ f' ∈ T.go f c, T.Clear f' (d :: cs)))

end FileTree

/-! ## The children -/

section Finddir

variable {s : FsState} {T : FileTree} {nodes : List Nat} {f fuel : Nat} {name : CString}

/-- The loop from an item on looks at the items after it. -/
theorem finddirLoop_from {first : Nat} {post pre : List Nat} {x : Nat} (fuel : Nat)
    (h : Standing s.items first pre x post) (h0 : 0 ∉ pre ++ x :: post)
    (hdata : ∀ c ∈ post, (s.items c).data = c) (hfuel : post.length < fuel) :
    finddirLoop s name fuel ⟨first, x⟩ =
      some ((post.find? fun c => (s.files c).name = name).getD 0) := by
  induction fuel generalizing pre x post with
  | zero => exact absurd hfuel (Nat.not_lt_zero _)
  | succ fuel ih =>
      have hf0 : first ≠ 0 := fun hf => h0 (hf ▸ List.mem_of_head? h.head)
      have hx0 : x ≠ 0 := fun hx => h0 (by simp [hx])
      cases post with
      | nil => simp [finddirLoop, llistIterate, hf0, hx0, h.next_nil]
      | cons y post =>
          obtain ⟨hn, hne, h'⟩ := h.next_cons
          have hy0 : y ≠ 0 := fun hy => h0 (by simp [hy])
          have hstep : llistIterate s.items ⟨first, x⟩ = some (⟨first, y⟩, some y) := by
            simp [llistIterate, hf0, hx0, hn, hne, hy0, hdata y (by simp)]
          have hrest := ih h' (by simpa using h0)
            (fun c hc => hdata c (List.mem_cons_of_mem _ hc)) (Nat.lt_of_succ_lt_succ hfuel)
          rw [finddirLoop, hstep]
          simp only [strcmp_eq_zero]
          by_cases hname : (s.files y).name = name
          · rw [if_pos hname, List.find?_cons_of_pos (by simpa using hname), Option.getD_some]
          · rw [if_neg hname, hrest, List.find?_cons_of_neg (by simpa using hname)]

/-- Children are files, so there are no more of them than files. -/
theorem FsRep.kids_length (h : FsRep s T nodes) (hf : f ∈ nodes) :
    (T.kids f).length ≤ nodes.length :=
  (List.subperm_of_subset (h.rings f hf).ring.nodup fun c hc => (h.kids f hf c hc).1).length_le

/-- `fs_finddir` finds the first child of that name. -/
theorem fsFinddir_eq (h : FsRep s T nodes) (hf : f ∈ nodes) (hfuel : nodes.length < fuel) :
    fsFinddir fuel s f name = some ((T.child? f name).getD 0) := by
  have hf0 : f ≠ 0 := fun he => h.nonnull (he ▸ hf)
  have hring := h.rings f hf
  have hdata := h.data f hf
  have hlen := h.kids_length hf
  have hnames : T.child? f name = (T.kids f).find? fun c => (s.files c).name = name := by
    refine List.find?_congr fun c hc => ?_
    rw [h.names c (h.kids f hf c hc).1]
  rw [hnames]
  obtain ⟨fuel, rfl⟩ : ∃ n, fuel = n + 1 := ⟨fuel - 1, by omega⟩
  cases hk : T.kids f with
  | nil =>
    rw [hk] at hring
    rw [fsFinddir, if_neg fun hc => hc.2 (hring.list_eq_zero_iff.mpr rfl)]
    rfl
  | cons x xs =>
    rw [hk] at hring hdata hlen
    have hlist : (s.files f).children.list = x := hring.head
    have hx0 : x ≠ 0 := fun hx => hring.nonnull (by simp [hx])
    have hstep : llistIterate s.items (llistIteratorInit (s.files f).children) =
        some (⟨x, x⟩, some x) := by
      simp [llistIteratorInit, llistIterate, hlist, hx0, hdata x (by simp)]
    have hpost : xs.length < fuel := by
      simp at hlen
      omega
    have hrest : finddirLoop s name fuel ⟨(s.files f).children.list, x⟩ = _ :=
      finddirLoop_from fuel hring.standing hring.nonnull
        (fun c hc => hdata c (List.mem_cons_of_mem _ hc)) hpost
    rw [hlist] at hrest
    rw [fsFinddir, if_pos ⟨hf0, by rw [hlist]; exact hx0⟩, finddirLoop, hstep]
    simp only [strcmp_eq_zero]
    by_cases hname : (s.files x).name = name
    · rw [if_pos hname, List.find?_cons_of_pos (by simpa using hname), Option.getD_some]
    · rw [if_neg hname, hrest, List.find?_cons_of_neg (by simpa using hname)]

end Finddir

/-! ## The branches of `fs_find_file` -/

section Branches

variable {s : FsState} {f fuel : Nat} {c rest : CString}

theorem dot_ne_slash : dot ≠ slash := by decide

theorem fsFindFile_null (path : CString) (h : s.fsRoot ≠ 0) :
    fsFindFile s fuel 0 path = fsFindFile s fuel s.fsRoot path := by
  cases fuel with
  | zero => rfl
  | succ fuel =>
    cases path with
    | nil => rfl
    | cons c rest => simp only [fsFindFile, if_true, if_neg h]

theorem fsFindFile_slash :
    fsFindFile s (fuel + 1) f (slash :: rest) =
      if rest ≠ [] then fsFindFile s fuel s.fsRoot rest else some s.fsRoot := by
  simp [fsFindFile, dot_ne_slash.symm]

theorem fsFindFile_dot (hf : f ≠ 0) : fsFindFile s (fuel + 1) f [dot] = some f := by
  simp [fsFindFile, hf]

theorem fsFindFile_dot_slash (hf : f ≠ 0) :
    fsFindFile s (fuel + 1) f (dot :: slash :: rest) = fsFindFile s fuel f rest := by
  simp [fsFindFile, hf, dot_ne_slash.symm]

theorem fsFindFile_dotdot (hf : f ≠ 0) :
    fsFindFile s (fuel + 1) f [dot, dot] = some (s.files f).parent := by
  simp [fsFindFile, hf]

theorem fsFindFile_dotdot_slash (hf : f ≠ 0) :
    fsFindFile s (fuel + 1) f (dot :: dot :: slash :: rest) =
      fsFindFile s fuel (s.files f).parent rest := by
  simp [fsFindFile, hf]

/-- A name that is followed by a separator. -/
theorem fsFindFile_name_slash (hf : f ≠ 0) (hc : c ≠ []) (hslash : slash ∉ c)
    (hdot : c.head? ≠ some dot) :
    fsFindFile s (fuel + 1) f (c ++ slash :: rest) =
      (fsFinddir fuel s f c).bind fun f =>
        if f ≠ 0 then fsFindFile s fuel f rest else some 0 := by
  obtain ⟨d, ds, rfl⟩ := List.exists_cons_of_ne_nil hc
  have hd : d ≠ dot := fun he => hdot (by rw [he]; rfl)
  have hs : d ≠ slash := fun he => hslash (he ▸ List.mem_cons_self)
  have hidx : strchr (d :: ds ++ slash :: rest) slash = some (d :: ds).length := by
    have hnone : (d :: ds).findIdx? (· = slash) = none :=
      List.findIdx?_eq_none_iff.mpr fun x hx => decide_eq_false fun he => hslash (he ▸ hx)
    rw [strchr, List.findIdx?_append, hnone, List.findIdx?_cons]
    simp
  rw [List.cons_append] at hidx ⊢
  simp only [fsFindFile, if_neg hf, if_neg hd, if_neg hs, hidx]
  rw [← List.cons_append, List.take_left, ← List.drop_drop, List.drop_left]
  rfl

/-- A name that ends the path. -/
theorem fsFindFile_name (hf : f ≠ 0) (hc : c ≠ []) (hslash : slash ∉ c)
    (hdot : c.head? ≠ some dot) :
    fsFindFile s (fuel + 1) f c = fsFinddir fuel s f c := by
  obtain ⟨d, ds, rfl⟩ := List.exists_cons_of_ne_nil hc
  have hd : d ≠ dot := fun he => hdot (by rw [he]; rfl)
  have hs : d ≠ slash := fun he => hslash (he ▸ List.mem_cons_self)
  have hidx : strchr (d :: ds) slash = none :=
    List.findIdx?_eq_none_iff.mpr fun x hx => decide_eq_false fun he => hslash (he ▸ hx)
  simp only [fsFindFile, if_neg hf, if_neg hd, if_neg hs, hidx]

end Branches

/-! ## The lookup follows the walk -/

/-- The first component of a path. -/
theorem first_component (path : CString) :
    slash ∉ path ∨ ∃ c rest, path = c ++ slash :: rest ∧ slash ∉ c := by
  by_cases hin : slash ∈ path
  · obtain ⟨c, rest, rfl, hc⟩ := List.eq_append_cons_of_mem hin
    exact Or.inr ⟨c, rest, rfl, hc⟩
  · exact Or.inl hin

section Walk

variable {s : FsState} {T : FileTree} {nodes : List Nat}

theorem FsRep.up_mem (h : FsRep s T nodes) {f : Nat} (hf : f ∈ nodes) : T.up f ∈ nodes := by
  unfold FileTree.up
  split
  · exact h.root_mem
  · rename_i hne
    exact (h.parents f hf hne).1

theorem FsRep.child_mem (h : FsRep s T nodes) {f f' : Nat} (hf : f ∈ nodes) {name : CString}
    (hc : T.child? f name = some f') : f' ∈ nodes :=
  (h.kids f hf f' (List.mem_of_find?_eq_some hc)).1

theorem FileTree.clear_cons {f : Nat} {c : CString} {cs : List CString} (hcs : cs ≠ []) :
    T.Clear f (c :: cs) ↔
      if c = [] then f = T.root ∧ (cs = [[]] ∨ T.Clear f cs)
      else
        (c.head? = some dot → c = [dot] ∨ c = [dot, dot]) ∧
          ∀ f' ∈ T.go f c, T.Clear f' cs := by
  cases cs with
  | nil => exact absurd rfl hcs
  | cons d ds => rw [Clear]; exact hcs

theorem FileTree.go_name {f : Nat} {c : CString} (hc : c ≠ []) (hdot : c.head? ≠ some dot) :
    T.go f c = T.child? f c := by
  rw [go, if_neg, if_neg]
  · rintro rfl
    exact hdot rfl
  · rintro (rfl | rfl)
    · exact hc rfl
    · exact hdot rfl

/-- The parent field, or the root for a root that has none. -/
theorem fsFindFile_parent (h : FsRep s T nodes) {f fuel : Nat} (hf : f ∈ nodes)
    (path : CString) :
    fsFindFile s fuel (s.files f).parent path = fsFindFile s fuel (T.up f) path := by
  unfold FileTree.up
  split
  · rename_i he
    have hr0 : s.fsRoot ≠ 0 := fun h0 => h.nonnull (by rw [← h0, h.root_eq]; exact h.root_mem)
    rw [he, h.root_parent, fsFindFile_null path hr0, h.root_eq]
  · rename_i hne
    rw [h.parent_eq f hf hne]

theorem fsFindFile_eq_walk (h : FsRep s T nodes) {fuel f : Nat} {path : CString} (hf : f ∈ nodes)
    (hfuel : path.length + nodes.length < fuel) (hclear : T.Clear f (path.splitOn slash)) :
    fsFindFile s fuel f path = some (((path.splitOn slash).foldlM T.go f).getD 0) := by
  induction fuel generalizing f path with
  | zero => exact absurd hfuel (Nat.not_lt_zero _)
  | succ fuel ih =>
      have hf0 : f ≠ 0 := fun he => h.nonnull (he ▸ hf)
      rcases first_component path with hslash | ⟨c, rest, rfl, hslash⟩
      · -- the last component
        rw [List.splitOn_eq_singleton hslash] at hclear ⊢
        obtain ⟨hne, hdots⟩ := hclear
        have hone : [path].foldlM T.go f = T.go f path := by simp
        have hpos := List.length_pos_of_ne_nil hne
        rw [hone]
        by_cases hdot : path.head? = some dot
        · rcases hdots hdot with rfl | ⟨rfl, hroot⟩
          · rw [fsFindFile_dot hf0]
            rfl
          · rw [fsFindFile_dotdot hf0, h.parent_eq f hf hroot, FileTree.go, if_neg (by decide),
              if_pos rfl, FileTree.up, if_neg hroot, Option.getD_some]
        · rw [fsFindFile_name hf0 hne hslash hdot, fsFinddir_eq h hf (by omega),
            FileTree.go_name hne hdot]
      · -- a component and the rest of the path
        rw [List.splitOn_append_cons_self_of_not_mem hslash] at hclear ⊢
        have hlen : rest.length + nodes.length < fuel := by
          simp only [List.length_append, List.length_cons] at hfuel
          omega
        have hcs : rest.splitOn slash ≠ [] := List.splitOn_ne_nil slash rest
        rw [FileTree.clear_cons hcs] at hclear
        rw [List.foldlM_cons]
        by_cases hempty : c = []
        · -- the lookup goes on from the root, where it is already
          rw [if_pos hempty] at hclear
          obtain ⟨hroot, hrest⟩ := hclear
          rw [hempty, List.nil_append, fsFindFile_slash, h.root_eq, ← hroot]
          change _ = some (((rest.splitOn slash).foldlM T.go f).getD 0)
          by_cases hnil : rest = []
          · rw [hnil, if_neg (not_not.mpr rfl)]
            rfl
          · rw [if_pos hnil]
            refine ih hf hlen (hrest.resolve_left fun he => hnil ?_)
            have hjoin : [slash].intercalate (rest.splitOn slash) = rest :=
              List.intercalate_splitOn slash
            rw [he] at hjoin
            exact hjoin.symm
        · rw [if_neg hempty] at hclear
          obtain ⟨hdots, hnext⟩ := hclear
          by_cases hdot : c.head? = some dot
          · rcases hdots hdot with rfl | rfl
            · rw [List.cons_append, List.nil_append, fsFindFile_dot_slash hf0]
              exact ih hf hlen (hnext f rfl)
            · have hup : T.go f [dot, dot] = some (T.up f) := by
                rw [FileTree.go, if_neg (by decide), if_pos rfl]
              rw [List.cons_append, List.cons_append, List.nil_append,
                fsFindFile_dotdot_slash hf0, fsFindFile_parent h hf, hup]
              exact ih (h.up_mem hf) hlen (hnext _ hup)
          · rw [fsFindFile_name_slash hf0 hempty hslash hdot, fsFinddir_eq h hf (by omega),
              FileTree.go_name hempty hdot, Option.bind_some]
            cases hchild : T.child? f c with
            | none => simp
            | some f' =>
              have hf' := h.child_mem hf hchild
              have hf'0 : f' ≠ 0 := fun he => h.nonnull (he ▸ hf')
              rw [Option.getD_some, if_pos hf'0]
              exact ih hf' hlen
                (hnext f' ((FileTree.go_name hempty hdot).trans hchild))

theorem FileTree.endsLost_cons {f : Nat} {c : CString} {cs : List CString} (hcs : cs ≠ []) :
    T.EndsLost f (c :: cs) ↔
      if c = [] then f = T.root ∧ cs ≠ [[]] ∧ T.EndsLost f cs
      else
        (c.head? = some dot → c = [dot] ∨ c = [dot, dot]) ∧
          ∃ f' ∈ T.go f c, T.EndsLost f' cs := by
  cases cs with
  | nil => exact absurd rfl hcs
  | cons d ds => rw [EndsLost]; exact hcs

/-- The lookup finds nothing where the walk ends at a file. -/
theorem fsFindFile_lost (h : FsRep s T nodes) {fuel f : Nat} {path : CString} (hf : f ∈ nodes)
    (hfuel : path.length + nodes.length < fuel) (hlost : T.EndsLost f (path.splitOn slash)) :
    fsFindFile s fuel f path = some 0 ∧
      ∃ f' ∈ nodes, (path.splitOn slash).foldlM T.go f = some f' := by
  induction fuel generalizing f path with
  | zero => exact absurd hfuel (Nat.not_lt_zero _)
  | succ fuel ih =>
      have hf0 : f ≠ 0 := fun he => h.nonnull (he ▸ hf)
      rcases first_component path with hslash | ⟨c, rest, rfl, hslash⟩
      · rw [List.splitOn_eq_singleton hslash] at hlost ⊢
        have hone : [path].foldlM T.go f = T.go f path := by simp
        rw [hone]
        rcases hlost with rfl | ⟨rfl, hroot⟩
        · exact ⟨rfl, f, hf, rfl⟩
        · rw [fsFindFile_dotdot hf0, hroot, h.root_parent]
          refine ⟨rfl, T.root, h.root_mem, ?_⟩
          rw [FileTree.go, if_neg (by decide), if_pos rfl, FileTree.up, if_pos rfl]
      · rw [List.splitOn_append_cons_self_of_not_mem hslash] at hlost ⊢
        have hlen : rest.length + nodes.length < fuel := by
          simp only [List.length_append, List.length_cons] at hfuel
          omega
        have hcs : rest.splitOn slash ≠ [] := List.splitOn_ne_nil slash rest
        rw [FileTree.endsLost_cons hcs] at hlost
        rw [List.foldlM_cons]
        by_cases hempty : c = []
        · rw [if_pos hempty] at hlost
          obtain ⟨hroot, hrest, hlost⟩ := hlost
          have hnil : rest ≠ [] := by
            rintro rfl
            exact hrest rfl
          rw [hempty, List.nil_append, fsFindFile_slash, if_pos hnil, h.root_eq, ← hroot]
          exact ih hf hlen hlost
        · rw [if_neg hempty] at hlost
          obtain ⟨hdots, f', hgo, hlost⟩ := hlost
          by_cases hdot : c.head? = some dot
          · rcases hdots hdot with rfl | rfl
            · obtain rfl : f = f' := Option.some.inj hgo
              rw [List.cons_append, List.nil_append, fsFindFile_dot_slash hf0]
              exact ih hf hlen hlost
            · have hup : T.go f [dot, dot] = some (T.up f) := by
                rw [FileTree.go, if_neg (by decide), if_pos rfl]
              obtain rfl : T.up f = f' := Option.some.inj (hup.symm.trans hgo)
              rw [List.cons_append, List.cons_append, List.nil_append,
                fsFindFile_dotdot_slash hf0, fsFindFile_parent h hf, hup]
              exact ih (h.up_mem hf) hlen hlost
          · rw [FileTree.go_name hempty hdot] at hgo
            have hf' := h.child_mem hf hgo
            have hf'0 : f' ≠ 0 := fun he => h.nonnull (he ▸ hf')
            rw [fsFindFile_name_slash hf0 hempty hslash hdot, fsFinddir_eq h hf (by omega),
              FileTree.go_name hempty hdot, hgo, Option.bind_some, Option.getD_some, if_pos hf'0]
            exact ih hf' hlen hlost

/-- A path from the root does not look at the file it is given. -/
theorem fsFindFile_start {g fuel : Nat} (path : CString) :
    fsFindFile s fuel g path = fsFindFile s fuel (T.start g path) path := by
  unfold FileTree.start
  split
  · rename_i hhead
    obtain ⟨rest, rfl⟩ := List.head?_eq_some_iff.mp hhead
    cases fuel with
    | zero => rfl
    | succ fuel => rw [fsFindFile_slash, fsFindFile_slash]
  · rfl

theorem FsRep.start_mem (h : FsRep s T nodes) {g : Nat} (hg : g ∈ nodes) (path : CString) :
    T.start g path ∈ nodes := by
  unfold FileTree.start
  split
  · exact h.root_mem
  · exact hg

end Walk

/-- **A lookup follows the walk of its path where that is clear**, and finds
nothing where the walk is clear up to an empty last component or a last `..`
at the root. -/
theorem find_file_follows_clear_walk {x : FsSys} (hx : Built (fun _ _ _ => True) x) {g : Nat}
    (hg : g ∈ x.nodes) {path : CString} {fuel : Nat}
    (hfuel : path.length + x.nodes.length < fuel) :
    (x.tree.Clear (x.tree.start g path) (path.splitOn slash) →
      fsFindFile x.st fuel g path = some ((x.tree.walk g path).getD 0)) ∧
    (x.tree.EndsLost (x.tree.start g path) (path.splitOn slash) →
      fsFindFile x.st fuel g path ≠ some ((x.tree.walk g path).getD 0)) := by
  have h := hx.rep
  have hstart := h.start_mem hg path
  rw [fsFindFile_start (T := x.tree) path]
  refine ⟨fun hclear => fsFindFile_eq_walk h hstart hfuel hclear, ?_⟩
  intro hlost
  obtain ⟨hnull, f', hf', hwalk⟩ := fsFindFile_lost h hstart hfuel hlost
  have hw : x.tree.walk g path = some f' := hwalk
  rw [hnull, hw, Option.getD_some]
  intro he
  exact h.nonnull (Option.some.inj he ▸ hf')

/-! ## A small tree -/

def letterA : CChar := ⟨97, by decide⟩
def letterB : CChar := ⟨98, by decide⟩
def letterX : CChar := ⟨120, by decide⟩

/-- The root at `16`. -/
def sampleRoot : FsSys :=
  ⟨fsInit 16 (fun _ => blankFile) (fun _ => ⟨0, 0, 0⟩), .single 16, [16]⟩

/-- The system after one more file, for a call that succeeds. -/
def FsSys.plus (x : FsSys) (file parent : Nat) (name : CString) : FsSys :=
  ⟨((fsAddFile (x.st.setFile file { blankFile with name := name }) file parent true).map
    Prod.fst).getD x.st, x.tree.add file parent name, x.nodes ++ [file]⟩

theorem FsSys.plus_add {ok : FileTree → Nat → CString → Prop} {x : FsSys} (file parent : Nat)
    (name : CString) (h : FsRep x.st x.tree x.nodes) (hf0 : file ≠ 0) (hnew : file ∉ x.nodes)
    (hp : parent ∈ x.nodes) (hok : ok x.tree parent name) :
    FsAdd ok x (x.plus file parent name) := by
  have hp0 : parent ≠ 0 := fun he => h.nonnull (he ▸ hp)
  obtain ⟨s', r, heq, -⟩ := h.add (k := { blankFile with name := name }) hf0 hnew hp
  have hadd : FsAdd ok x _ := .added hf0 hnew (Or.inr hp) (by rw [if_neg hp0]; exact hok) heq
  rw [if_neg hp0] at hadd
  rw [FsSys.plus, heq]
  exact hadd

/-- The root holds `a` and `.x`, and `a` holds `b`. -/
def sampleTree : FsSys :=
  ((sampleRoot.plus 32 16 [letterA]).plus 48 32 [letterB]).plus 64 16 [dot, letterX]

theorem sampleTree_built : Built (fun _ _ _ => True) sampleTree := by
  refine ⟨16, fun _ => blankFile, fun _ => ⟨0, 0, 0⟩, by decide, ?_⟩
  have h₀ : FsRep sampleRoot.st sampleRoot.tree sampleRoot.nodes := fsInit_rep (by decide) _ _
  have h₁ : FsAdd (fun _ _ _ => True) _ _ :=
    FsSys.plus_add 32 16 [letterA] h₀ (by decide) (by decide) (by decide) trivial
  have h₂ : FsAdd (fun _ _ _ => True) _ _ :=
    FsSys.plus_add 48 32 [letterB] (h₁.rep h₀) (by decide) (by decide) (by decide) trivial
  have h₃ : FsAdd (fun _ _ _ => True) _ _ :=
    FsSys.plus_add 64 16 [dot, letterX] (h₂.rep (h₁.rep h₀)) (by decide) (by decide) (by decide)
      trivial
  exact ((Relation.ReflTransGen.single h₁).tail h₂).tail h₃

/-- `./a/../a/b` from the root is clear. -/
theorem find_file_follows_dots :
    let path := [dot, slash, letterA, slash, dot, dot, slash, letterA, slash, letterB]
    sampleTree.tree.walk 16 path = some 48 ∧ fsFindFile sampleTree.st 20 16 path = some 48 := by
  intro path
  have hwalk : sampleTree.tree.walk 16 path = some 48 := by decide +kernel
  refine ⟨hwalk, ?_⟩
  have hfind := (@find_file_follows_clear_walk sampleTree sampleTree_built 16 (by decide) path 20
    (by decide)).1 ?_
  · rw [hfind, hwalk]
    rfl
  · decide +kernel

/-- `.x`, `a/`, `a//b` and `..` from `a` or the root: each is a file, and is
not found, or not that file. -/
theorem find_file_leaves_walk :
    let find := fun g path => (sampleTree.tree.walk g path, fsFindFile sampleTree.st 20 g path)
    find 16 [dot, letterX] = (some 64, some 0) ∧
    find 16 [letterA, slash] = (some 32, some 0) ∧
    find 16 [letterA, slash, slash, letterB] = (some 48, some 0) ∧
    find 16 [dot, dot] = (some 16, some 0) ∧
    ¬ ∀ x, Built (fun _ _ _ => True) x → ∀ g ∈ x.nodes, ∀ path, path ≠ [] →
      ∀ fuel, path.length + x.nodes.length < fuel →
        fsFindFile x.st fuel g path = some ((x.tree.walk g path).getD 0) := by
  intro find
  have hdot : find 16 [dot, letterX] = (some 64, some 0) := by decide +kernel
  refine ⟨hdot, by decide +kernel, by decide +kernel, by decide +kernel, ?_⟩
  intro hall
  have hfind := hall sampleTree sampleTree_built 16 (by decide) [dot, letterX] (by decide) 20
    (by decide)
  obtain ⟨hwalk, hnull⟩ := Prod.mk.inj hdot
  rw [hwalk, hnull] at hfind
  cases hfind

end LambdaOs
