import LambdaOs.Execvp

/-!
# The modules that are loaded before user space

`modules_preload` of `mod/preload.c`, and of `mod/module.c` what it needs of
`module_install`: the check of the requirements, and the list of the loaded
modules. The file has the path of a module in each of its lines. A path is
copied to a block of 257 bytes before it is looked up, and its length is not
checked.

The modules of the lines are installed in order up to the first that is not
found or refused, if none of the paths that are come to is too long, and every
loaded module has what it requires in front of it
(`modules_preload_in_order`).

What the file of a module is made into when it is read, and whether it can be
placed, is given; its start function is not run, since what it returns is
ignored.
-/

namespace LambdaOs

/-! ## `module.c` -/

/-- The metadata of a module that has been placed; there may be no list of
requirements. -/
structure ModuleImage where
  ident : CString
  requirements : Option (List CString)
deriving DecidableEq

/-- The loop over the loaded modules. -/
def findModule (req : CString) : List ModuleImage → Bool
  | [] => false
  | mod :: mods => if strcmp req mod.ident = 0 then true else findModule req mods

def checkRequirementsLoop (loaded : List ModuleImage) : List CString → Int
  | [] => 0
  | req :: reqs => if findModule req loaded then checkRequirementsLoop loaded reqs else -EUNSPEC

def checkRequirements (loaded : List ModuleImage) (mod : ModuleImage) : Int :=
  match mod.requirements with
  | none => 0
  | some reqs => checkRequirementsLoop loaded reqs

/-- `loaded_modules` and the return value. `image` is what a file is made into. -/
def Preload.moduleInstall (image : Nat → Option ModuleImage) (file : Nat)
    (loaded : List ModuleImage) : List ModuleImage × Int :=
  match image file with
  | none => (loaded, -EUNSPEC)
  | some mod =>
      if checkRequirements loaded mod ≠ 0 then (loaded, -EUNSPEC) else (loaded ++ [mod], 0)

/-! ## `preload.c` -/

/-- `'\n'` -/
def newline : UInt8 := 10

/-- `MOD_MAXPATH` -/
def modMaxpath : Nat := 256

/-- `memcpy` and the terminator; `none` is a store behind the block. -/
def putPath (line : List UInt8) (b : ArgBytes) : Option ArgBytes := do
  let b ← (b.storeBytes 0 line).toOption
  (b.store line.length 0).toOption

section Preload

variable (fuel : Nat) (s : FsState) (image : Nat → Option ModuleImage)

/-- The loop, from `&text[idx]` on; `none` is a store behind the block, or a
lookup that does not return. -/
def preloadLoop : Nat → List UInt8 → ArgBytes → List ModuleImage →
    Option (List ModuleImage × Int)
  | 0, _, _, _ => none
  | rounds + 1, text, b, loaded =>
      if text = [] then some (loaded, 0)
      else do
        let b ← putPath (firstPiece newline text) b
        let path ← bufferString b
        let file ← fsFindFile s fuel 0 path
        if file = 0 then return (loaded, -ENOENT)
        else
          let (loaded, ret) := Preload.moduleInstall image file loaded
          if ret ≠ 0 then return (loaded, -EUNSPEC)
          else preloadLoop rounds (afterPiece newline text) b loaded

/-- `file` is what is in the file, if it can be read, and `block` what is in the
block that is allocated. -/
def modulesPreload (file : Option (List UInt8)) (block : ArgBytes) (loaded : List ModuleImage) :
    Option (List ModuleImage × Int) :=
  match file with
  | none => some (loaded, -ENOENT)
  | some text => preloadLoop fuel s image (text.length + 1) text block loaded

end Preload

/-! ## What the lines stand for -/

/-- The path ends at the first zero of a line. -/
def pathOf (line : List UInt8) : CString := CString.ofBytes (line.takeWhile (· ≠ 0))

section Lines

variable (find : CString → Nat) (image : Nat → Option ModuleImage)

def preloadLine (line : List UInt8) (loaded : List ModuleImage) : List ModuleImage × Int :=
  if find (pathOf line) = 0 then (loaded, -ENOENT)
  else Preload.moduleInstall image (find (pathOf line)) loaded

def preloadLines : List (List UInt8) → List ModuleImage → List ModuleImage × Int
  | [], loaded => (loaded, 0)
  | line :: lines, loaded =>
      if (preloadLine find image line loaded).2 = 0 then
        preloadLines lines (preloadLine find image line loaded).1
      else preloadLine find image line loaded

/-- The lines up to the first that fails. -/
def linesSeen : List (List UInt8) → List ModuleImage → List (List UInt8)
  | [], _ => []
  | line :: lines, loaded =>
      line :: if (preloadLine find image line loaded).2 = 0 then
        linesSeen lines (preloadLine find image line loaded).1 else []

end Lines

/-- The answer when the module of a line cannot be installed: there is no such
file, or it is made into no module, or something the module requires is not
loaded. -/
def LineRefused (find : CString → Nat) (image : Nat → Option ModuleImage)
    (loaded : List ModuleImage) (line : List UInt8) (ret : Int) : Prop :=
  find (pathOf line) = 0 ∧ ret = -ENOENT ∨
    find (pathOf line) ≠ 0 ∧ ret = -EUNSPEC ∧
      ∀ mod, image (find (pathOf line)) = some mod →
        ∃ reqs, mod.requirements = some reqs ∧ ∃ req ∈ reqs, ∀ m ∈ loaded, m.ident ≠ req

/-- Every module has what it requires in front of it. -/
def RequirementsMet (loaded : List ModuleImage) : Prop :=
  ∀ before mod after, loaded = before ++ mod :: after → ∀ reqs, mod.requirements = some reqs →
    ∀ req ∈ reqs, ∃ m ∈ before, m.ident = req

/-! ## One module -/

section Install

variable {image : Nat → Option ModuleImage} {file : Nat} {loaded loaded' : List ModuleImage}
variable {mod : ModuleImage} {ret : Int}

theorem findModule_iff {req : CString} : findModule req loaded ↔ ∃ m ∈ loaded, m.ident = req := by
  induction loaded with
  | nil => simp [findModule]
  | cons m ms ih =>
      rw [findModule, List.exists_mem_cons_iff, ← ih]
      split
      · rename_i h
        exact iff_of_true rfl (.inl (strcmp_eq_zero.mp h).symm)
      · rename_i h
        rw [strcmp_eq_zero] at h
        exact ⟨.inr, fun hm => hm.resolve_left fun he => h he.symm⟩

theorem checkRequirementsLoop_eq_zero {reqs : List CString} :
    checkRequirementsLoop loaded reqs = 0 ↔ ∀ req ∈ reqs, ∃ m ∈ loaded, m.ident = req := by
  induction reqs with
  | nil => simp [checkRequirementsLoop]
  | cons req reqs ih =>
      rw [checkRequirementsLoop, List.forall_mem_cons, ← findModule_iff, ← ih]
      split
      · rename_i h
        exact (and_iff_right h).symm
      · rename_i h
        exact iff_of_false (by decide) fun hall => h hall.1

theorem checkRequirements_eq_zero :
    checkRequirements loaded mod = 0 ↔
      ∀ reqs, mod.requirements = some reqs → ∀ req ∈ reqs, ∃ m ∈ loaded, m.ident = req := by
  rw [checkRequirements]
  cases mod.requirements with
  | none => simp
  | some reqs => simpa using checkRequirementsLoop_eq_zero

theorem checkRequirements_ne_zero (h : checkRequirements loaded mod ≠ 0) :
    ∃ reqs, mod.requirements = some reqs ∧ ∃ req ∈ reqs, ∀ m ∈ loaded, m.ident ≠ req := by
  rw [Ne, checkRequirements_eq_zero] at h
  push Not at h
  exact h

/-- A module is appended, or nothing is. -/
theorem Preload.moduleInstall_cases (h : moduleInstall image file loaded = (loaded', ret)) :
    (ret = -EUNSPEC ∧ loaded' = loaded ∧
      ∀ mod, image file = some mod → checkRequirements loaded mod ≠ 0) ∨
      ∃ mod, image file = some mod ∧ checkRequirements loaded mod = 0 ∧ ret = 0 ∧
        loaded' = loaded ++ [mod] := by
  rw [moduleInstall] at h
  split at h
  · rename_i himage
    cases h
    exact .inl ⟨rfl, rfl, fun mod hmod => absurd (himage.symm.trans hmod) nofun⟩
  · rename_i mod himage
    split at h
    · rename_i hreq
      cases h
      exact .inl ⟨rfl, rfl, fun mod' hmod => Option.some.inj (himage.symm.trans hmod) ▸ hreq⟩
    · rename_i hreq
      cases h
      exact .inr ⟨mod, himage, not_not.mp hreq, rfl, rfl⟩

theorem RequirementsMet.append (h : RequirementsMet loaded)
    (hmod : checkRequirements loaded mod = 0) : RequirementsMet (loaded ++ [mod]) := by
  intro before mod' after heq
  rcases List.eq_nil_or_concat after with rfl | ⟨after, last, rfl⟩
  · obtain ⟨rfl, hlast⟩ := List.append_inj' heq rfl
    cases hlast
    exact checkRequirements_eq_zero.mp hmod
  · rw [List.concat_eq_append, ← List.cons_append, ← List.append_assoc] at heq
    obtain ⟨hinit, -⟩ := List.append_inj' heq rfl
    exact h before mod' after hinit

end Install

/-! ## One line -/

theorem CString.map_ofBytes {bytes : List UInt8} (h : 0 ∉ bytes) :
    (CString.ofBytes bytes).map Subtype.val = bytes := by
  induction bytes with
  | nil => rfl
  | cons b bytes ih =>
      have hb : b ≠ 0 := fun he => h (he ▸ List.mem_cons_self)
      have hrest := ih fun hm => h (List.mem_cons_of_mem _ hm)
      rw [CString.ofBytes] at hrest ⊢
      rw [List.filterMap_cons, dif_pos hb, List.map_cons, hrest]

theorem bufferString_line (line rest : List UInt8) :
    bufferString (line ++ 0 :: rest) = some (pathOf line) := by
  have hmap : (pathOf line).map Subtype.val = line.takeWhile (· ≠ 0) :=
    CString.map_ofBytes not_mem_firstPiece
  by_cases hzero : 0 ∈ line
  · have hline : line = (pathOf line).map Subtype.val ++ 0 :: afterPiece 0 line := by
      rw [hmap]
      exact firstPiece_append hzero
    conv_lhs => rw [hline]
    rw [List.append_assoc, List.cons_append]
    exact bufferString_mem _ _
  · have hline : line = (pathOf line).map Subtype.val := by
      rw [hmap]
      exact (firstPiece_of_not_mem hzero).symm
    conv_lhs => rw [hline]
    exact bufferString_mem _ _

theorem pathOf_length (line : List UInt8) : (pathOf line).length ≤ line.length := by
  have hmap : (pathOf line).map Subtype.val = line.takeWhile (· ≠ 0) :=
    CString.map_ofBytes not_mem_firstPiece
  rw [← List.length_map Subtype.val, hmap]
  exact (List.takeWhile_prefix _).length_le

section Path

variable {line : List UInt8} {b : ArgBytes}

theorem putPath_eq (h : line.length < b.length) :
    ∃ rest, putPath line b = some (line ++ 0 :: rest) ∧ (line ++ 0 :: rest).length = b.length := by
  obtain ⟨x, rest, hrest⟩ : ∃ x rest, b.drop line.length = x :: rest := by
    refine List.exists_cons_of_ne_nil fun hnil => ?_
    rw [List.drop_eq_nil_iff] at hnil
    omega
  have hfirst : b.storeBytes 0 line = .ok (line ++ x :: rest) := by
    rw [ArgBytes.storeBytes_eq (by omega), Nat.zero_add, hrest]
    rfl
  refine ⟨rest, ?_, ?_⟩
  · rw [putPath, hfirst]
    simp only [Except.toOption, Option.bind_eq_bind, Option.bind_some, ArgBytes.store_at]
  · have hlen := congrArg List.length hrest
    rw [List.length_drop, List.length_cons] at hlen
    rw [List.length_append, List.length_cons]
    omega

/-- The terminator of a path as long as the block is behind it. -/
theorem putPath_eq_none (h : b.length ≤ line.length) : putPath line b = none := by
  rw [putPath]
  cases hfirst : b.storeBytes 0 line with
  | error _ => rfl
  | ok b' =>
      have hlen := ArgBytes.storeBytes_length hfirst
      have hstore : b'.store line.length 0 = .error .fault := if_neg (by omega)
      simp only [Except.toOption, Option.bind_eq_bind, Option.bind_some, hstore]

end Path

/-! ## The file -/

section File

variable {fuel rounds : Nat} {s : FsState} {image : Nat → Option ModuleImage}
variable {find : CString → Nat} {text : List UInt8} {b : ArgBytes} {loaded : List ModuleImage}

/-- A line whose path is within the block. -/
theorem preloadLoop_step (rounds : Nat) (image : Nat → Option ModuleImage)
    (loaded : List ModuleImage) (htext : text ≠ []) (hb : b.length = modMaxpath + 1)
    (hlen : (firstPiece newline text).length ≤ modMaxpath)
    (hfind : ∀ path, path.length ≤ modMaxpath → fsFindFile s fuel 0 path = some (find path)) :
    ∃ b', b'.length = modMaxpath + 1 ∧
      preloadLoop fuel s image (rounds + 1) text b loaded =
        if (preloadLine find image (firstPiece newline text) loaded).2 = 0 then
          preloadLoop fuel s image rounds (afterPiece newline text) b'
            (preloadLine find image (firstPiece newline text) loaded).1
        else some (preloadLine find image (firstPiece newline text) loaded) := by
  generalize hline : firstPiece newline text = line at hlen ⊢
  obtain ⟨rest, hput, hlen'⟩ := @putPath_eq line b (by omega)
  have hlook := hfind (pathOf line) ((pathOf_length line).trans hlen)
  refine ⟨_, hlen'.trans hb, ?_⟩
  rw [preloadLoop, if_neg htext, hline, hput]
  simp only [Option.bind_eq_bind, Option.bind_some, bufferString_line, hlook, preloadLine]
  by_cases hfile : find (pathOf line) = 0
  · simp [hfile, ENOENT]
  · simp only [hfile, if_false]
    rcases hinst : Preload.moduleInstall image (find (pathOf line)) loaded with ⟨loaded', ret⟩
    rcases Preload.moduleInstall_cases hinst with ⟨rfl, -, -⟩ | ⟨mod, -, -, rfl, -⟩
    · simp [EUNSPEC]
    · simp

/-- From a line on, with no path that is too long. -/
theorem preloadLoop_eq (hrounds : text.length < rounds) (hb : b.length = modMaxpath + 1)
    (hfind : ∀ path, path.length ≤ modMaxpath → fsFindFile s fuel 0 path = some (find path))
    (hlen : ∀ line ∈ linesSeen find image (linesOf newline text) loaded,
      line.length ≤ modMaxpath) :
    preloadLoop fuel s image rounds text b loaded =
      some (preloadLines find image (linesOf newline text) loaded) := by
  induction rounds generalizing text b loaded with
  | zero => exact absurd hrounds (Nat.not_lt_zero _)
  | succ rounds ih =>
      by_cases htext : text = []
      · rw [preloadLoop, if_pos htext, htext, linesOf_nil, preloadLines]
      · have hafter := afterPiece_length newline htext
        rw [linesOf_step htext, linesSeen, List.forall_mem_cons] at hlen
        obtain ⟨b', hb', hstep⟩ :=
          preloadLoop_step rounds image loaded htext hb hlen.1 hfind
        rw [hstep, linesOf_step htext, preloadLines]
        split
        · rename_i hret
          rw [if_pos hret] at hlen
          exact ih (by omega) hb' hlen.2
        · rfl

/-- From a line on, with a path that is too long. -/
theorem preloadLoop_eq_none (hb : b.length = modMaxpath + 1)
    (hfind : ∀ path, path.length ≤ modMaxpath → fsFindFile s fuel 0 path = some (find path))
    (hlen : ∃ line ∈ linesSeen find image (linesOf newline text) loaded,
      modMaxpath < line.length) :
    preloadLoop fuel s image rounds text b loaded = none := by
  induction rounds generalizing text b loaded with
  | zero => rfl
  | succ rounds ih =>
      have htext : text ≠ [] := by
        rintro rfl
        simp [linesSeen] at hlen
      by_cases hline : (firstPiece newline text).length ≤ modMaxpath
      · obtain ⟨b', hb', hstep⟩ :=
          preloadLoop_step rounds image loaded htext hb hline hfind
        rw [linesOf_step htext, linesSeen, List.exists_mem_cons_iff] at hlen
        have hrest := hlen.resolve_left (Nat.not_lt.mpr hline)
        rw [hstep]
        split
        · rename_i hret
          rw [if_pos hret] at hrest
          exact ih hb' hrest
        · rename_i hret
          rw [if_neg hret] at hrest
          simp at hrest
      · rw [preloadLoop, if_neg htext, putPath_eq_none (by omega)]
        rfl

/-- A line adds its module, or the call ends with it. -/
theorem preloadLine_cases (line : List UInt8) :
    (∃ ret, preloadLine find image line loaded = (loaded, ret) ∧ ret ≠ 0 ∧
      LineRefused find image loaded line ret) ∨
    ∃ mod, find (pathOf line) ≠ 0 ∧ image (find (pathOf line)) = some mod ∧
      checkRequirements loaded mod = 0 ∧
      preloadLine find image line loaded = (loaded ++ [mod], 0) := by
  rw [preloadLine]
  split
  · rename_i hfile
    exact .inl ⟨-ENOENT, rfl, by decide, .inl ⟨hfile, rfl⟩⟩
  · rename_i hfile
    rcases hinst : Preload.moduleInstall image (find (pathOf line)) loaded with ⟨loaded', ret⟩
    rcases Preload.moduleInstall_cases hinst with ⟨rfl, rfl, hmod⟩ | ⟨mod, himage, hreq, rfl, rfl⟩
    · exact .inl ⟨_, rfl, by decide,
        .inr ⟨hfile, rfl, fun mod himage => checkRequirements_ne_zero (hmod mod himage)⟩⟩
    · exact .inr ⟨mod, hfile, himage, hreq, rfl⟩

/-- What the lines have added, in their order, and the line the call ends with
when it fails. -/
theorem preloadLines_spec {lines : List (List UInt8)} :
    ∃ mods, (preloadLines find image lines loaded).1 = loaded ++ mods ∧
      mods.map some = (lines.take mods.length).map (fun line => image (find (pathOf line))) ∧
      (∀ line ∈ lines.take mods.length, find (pathOf line) ≠ 0) ∧
      ((preloadLines find image lines loaded).2 = 0 → mods.length = lines.length) ∧
      ((preloadLines find image lines loaded).2 ≠ 0 → ∃ line, lines[mods.length]? = some line ∧
        LineRefused find image (loaded ++ mods) line (preloadLines find image lines loaded).2) ∧
      (RequirementsMet loaded → RequirementsMet (preloadLines find image lines loaded).1) := by
  induction lines generalizing loaded with
  | nil =>
      exact ⟨[], by simp [preloadLines], rfl, by simp, fun _ => rfl, fun h => absurd rfl h, id⟩
  | cons line lines ih =>
      rw [preloadLines]
      rcases @preloadLine_cases image find loaded line with
        ⟨ret, heq, hret, hrefused⟩ | ⟨mod, hfile, himage, hreq, heq⟩
      · rw [heq, if_neg hret]
        exact ⟨[], (List.append_nil _).symm, rfl, by simp, fun h => absurd h hret,
          fun _ => ⟨line, rfl, (List.append_nil loaded).symm ▸ hrefused⟩, id⟩
      · rw [heq, if_pos rfl]
        obtain ⟨mods, hmods, hmap, hfound, hall, hfail, hmet⟩ := @ih (loaded ++ [mod])
        refine ⟨mod :: mods, ?_, ?_, ?_, fun h => congrArg (· + 1) (hall h), fun h => ?_,
          fun h => hmet (h.append hreq)⟩
        · rw [hmods, List.append_assoc, List.singleton_append]
        · rw [List.map_cons, List.length_cons, List.take_succ_cons, List.map_cons, himage, hmap]
        · rw [List.length_cons, List.take_succ_cons, List.forall_mem_cons]
          exact ⟨hfile, hfound⟩
        · obtain ⟨line', hline', hrefused⟩ := hfail h
          refine ⟨line', hline', ?_⟩
          rw [List.append_assoc, List.singleton_append] at hrefused
          exact hrefused

/-- The modules of the lines are installed in order up to the first that is not
found or refused, each of them behind what it requires. The call stores behind
the block when and only when it comes to a path that is too long. -/
theorem modules_preload_in_order {T : FileTree} {nodes : List Nat} (h : FsRep s T nodes)
    (hfuel : modMaxpath + nodes.length < fuel) (hb : b.length = modMaxpath + 1) :
    ((∃ r, modulesPreload fuel s image (some text) b loaded = some r) ↔
      ∀ line ∈ linesSeen (fun path => (fsFindFile s fuel 0 path).getD 0) image
        (linesOf newline text) loaded, line.length ≤ modMaxpath) ∧
    ∀ loaded' ret, modulesPreload fuel s image (some text) b loaded = some (loaded', ret) →
      ∃ mods, loaded' = loaded ++ mods ∧
        mods.map some = ((linesOf newline text).take mods.length).map
          (fun line => image ((fsFindFile s fuel 0 (pathOf line)).getD 0)) ∧
        (∀ line ∈ (linesOf newline text).take mods.length,
          (fsFindFile s fuel 0 (pathOf line)).getD 0 ≠ 0) ∧
        (ret = 0 → mods.length = (linesOf newline text).length) ∧
        (ret ≠ 0 → ∃ line, (linesOf newline text)[mods.length]? = some line ∧
          LineRefused (fun path => (fsFindFile s fuel 0 path).getD 0) image loaded' line ret) ∧
        (RequirementsMet loaded → RequirementsMet loaded') := by
  have hfind : ∀ path, path.length ≤ modMaxpath →
      fsFindFile s fuel 0 path = some ((fsFindFile s fuel 0 path).getD 0) := by
    intro path hpath
    obtain ⟨g, hg, -⟩ := fsFindFile_total h (.inl rfl) (by omega : path.length + _ < fuel)
    rw [hg, Option.getD_some]
  by_cases hlen : ∀ line ∈ linesSeen (fun path => (fsFindFile s fuel 0 path).getD 0) image
      (linesOf newline text) loaded, line.length ≤ modMaxpath
  · have hrun := preloadLoop_eq (Nat.lt_succ_self _) hb hfind hlen
    refine ⟨iff_of_true ⟨_, hrun⟩ hlen, ?_⟩
    intro loaded' ret hret
    obtain ⟨mods, hmods, hmap, hfound, hall, hfail, hmet⟩ :=
      @preloadLines_spec image (fun path => (fsFindFile s fuel 0 path).getD 0) loaded
        (linesOf newline text)
    rw [Option.some.inj (hrun.symm.trans hret)] at hmods hall hfail hmet
    replace hmods : loaded' = loaded ++ mods := hmods
    exact ⟨mods, hmods, hmap, hfound, hall, fun h => hmods ▸ hfail h, hmet⟩
  · have hlong : ∃ line ∈ linesSeen (fun path => (fsFindFile s fuel 0 path).getD 0) image
        (linesOf newline text) loaded, modMaxpath < line.length := by
      push Not at hlen
      exact hlen
    have hrun : modulesPreload fuel s image (some text) b loaded = none :=
      preloadLoop_eq_none hb hfind hlong
    rw [hrun]
    exact ⟨iff_of_false (by simp) hlen, by simp⟩

end File

/-! ## Two modules, the second of which requires the first -/

/-- `a`, and `b` that requires it. -/
def sampleImage (file : Nat) : Option ModuleImage :=
  if file = 32 then some ⟨[letterA], none⟩
  else if file = 48 then some ⟨[letterB], some [[letterA]]⟩
  else none

/-- `/a` and `/a/b`, without a newline at the end. -/
def sampleLines : List UInt8 := [47, 97, 10, 47, 97, 47, 98]

theorem modules_preload_two :
    modulesPreload 300 sampleTree.st sampleImage (some sampleLines) (List.replicate 257 0) [] =
        some ([⟨[letterA], none⟩, ⟨[letterB], some [[letterA]]⟩], 0) ∧
      RequirementsMet [⟨[letterA], none⟩, ⟨[letterB], some [[letterA]]⟩] := by
  have hrun : modulesPreload 300 sampleTree.st sampleImage (some sampleLines)
      (List.replicate 257 0) [] =
        some ([⟨[letterA], none⟩, ⟨[letterB], some [[letterA]]⟩], 0) := by decide +kernel
  have hall := @modules_preload_in_order 300 sampleTree.st sampleImage sampleLines
    (List.replicate 257 0) [] sampleTree.tree sampleTree.nodes sampleTree_built.rep (by decide)
    List.length_replicate
  obtain ⟨mods, -, -, -, -, -, hmet⟩ := hall.2 _ _ hrun
  refine ⟨hrun, hmet ?_⟩
  intro before mod after h
  cases before <;> cases h

end LambdaOs
