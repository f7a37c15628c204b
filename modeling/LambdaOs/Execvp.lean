import LambdaOs.Errno
import LambdaOs.Pieces
import LambdaOs.ProcFs
import LambdaOs.ShellReplace
import LambdaOs.StrCompare

/-!
# Looking for a program along the search path

`execvp` of the user library (`unistd/execvp.c`), with the `access` it asks the
kernel by. A path with a slash is run as it is; for another one the entries of
`PATH` are taken in turn. Each that is short enough is put together with the
path in a static buffer of 256 bytes, and the first that there is a file for is
run.

`candidates` is what the entries stand for. In a file tree the first one that
`access` finds is run, and no byte is stored outside of the buffer
(`execvp_first_found`).
-/

namespace LambdaOs

/-! ## `access` -/

/-- `SYSCALL_ACCESS_FLAG_CWDOVER` -/
def accessFlagCwdover : Nat := 1

section Access

variable {δ : Type} (fuel : Nat) (s : FsKernel δ) (cwd : Nat)

/-- `none` when the lookup does not return. -/
def procFsAccess (dirfd : Int) (pathname : CString) (flags : Nat) : Option Int :=
  let lookup (dir : Nat) : Option Int :=
    (fsFindFile s.fs fuel dir pathname).map fun file => if file = 0 then -ENOENT else 0
  if flags &&& accessFlagCwdover ≠ 0 then
    match s.slot s.thread dirfd with
    | .error _ => some (-EBADF)
    | .ok hand => if hand = 0 then some (-EBADF) else lookup (s.hands hand).file
  else lookup cwd

/-- The mode is not passed on. -/
def Unistd.access (path : CString) : Option Int := procFsAccess fuel s cwd 0 path 0

end Access

/-! ## `execvp` -/

def colon : CChar := ⟨58, by decide⟩

/-- `"PATH"` -/
def pathName : CString := CString.ofBytes [80, 65, 84, 72]

/-- `"/bin:/usr/bin"` -/
def defaultPath : CString :=
  CString.ofBytes [47, 98, 105, 110, 58, 47, 117, 115, 114, 47, 98, 105, 110]

/-- `EXECVP_PATH_MAX` -/
def execvpPathMax : Nat := 255

/-- What a call comes to: `-1`, or a call of `execve`. -/
inductive ExecvpEnd
  | failed
  | execve (path : CString)
deriving DecidableEq

/-- The string at the start of a buffer. -/
def bufferString (b : ArgBytes) : Option CString :=
  (b.strlen 0).toOption.map fun n => CString.ofBytes (b.take n)

/-- `memcpy`, the slash and `strcpy`. -/
def putCandidate (entry path : CString) (b : ArgBytes) : Option ArgBytes := do
  let b ← (b.storeBytes 0 (entry.map Subtype.val)).toOption
  let b ← (b.store entry.length slash.val).toOption
  (b.storeBytes (entry.length + 1) (path.mem [])).toOption

section Loop

variable {δ : Type} (fuel : Nat) (s : FsKernel δ) (cwd : Nat) (path : CString)

/-- One entry: the name that there is a file for, and `filepath`. `none` is an
access outside of the buffer, or a lookup that does not return. -/
def tryEntry (entry : CString) (b : ArgBytes) : Option (Option CString × ArgBytes) :=
  if u32 (path.length + entry.length + 1) < execvpPathMax then do
    let b ← putCandidate entry path b
    let filepath ← bufferString b
    let ret ← Unistd.access fuel s cwd filepath
    return (if ret = 0 then some filepath else none, b)
  else some (none, b)

/-- The loop over `env_path`. -/
def execvpLoop : Nat → CString → ArgBytes → Option (ExecvpEnd × ArgBytes)
  | 0, _, _ => none
  | rounds + 1, envPath, b => do
      let stop := strchr envPath colon
      let (found, b) ← tryEntry fuel s cwd path (envPath.take (stop.getD envPath.length)) b
      match found with
      | some filepath => return (.execve filepath, b)
      | none =>
          match stop with
          | some i => execvpLoop rounds (envPath.drop (i + 1)) b
          | none => return (.failed, b)

end Loop

/-- The string that is searched. -/
def searchPath (environ : Option (List EnvEntry)) : CString :=
  ((getenv environ pathName).map EnvValue.text).getD defaultPath

/-- `path` is `none` for `NULL`, and `argv` says whether it is not. -/
def execvp {δ : Type} (fuel : Nat) (s : FsKernel δ) (cwd : Nat) (environ : Option (List EnvEntry))
    (path : Option CString) (argv : Bool) (filepath : ArgBytes) :
    Option (ExecvpEnd × ArgBytes) :=
  match path with
  | none => some (.failed, filepath)
  | some path =>
      if argv = false then some (.failed, filepath)
      else if (strchr path slash).isSome then some (.execve path, filepath)
      else
        let envPath := searchPath environ
        execvpLoop fuel s cwd path (envPath.length + 1) envPath filepath

/-- The names that are short enough, in the order of the entries. -/
def candidates (envPath path : CString) : List CString :=
  ((envPath.splitOn colon).filter fun entry => path.length + entry.length + 1 < execvpPathMax).map
    fun entry => entry ++ slash :: path

/-! ## The buffer -/

theorem CString.ofBytes_map (s : CString) : CString.ofBytes (s.map Subtype.val) = s := by
  induction s with
  | nil => rfl
  | cons c s ih =>
      rw [CString.ofBytes] at ih
      rw [CString.ofBytes, List.map_cons, List.filterMap_cons, ih, dif_pos c.property]

section Buffer

variable {entry path : CString} {b : ArgBytes}

/-- A name that is short enough is put together within the buffer. -/
theorem putCandidate_eq (h : path.length + entry.length + 1 < b.length) :
    ∃ rest, putCandidate entry path b = some (CString.mem (entry ++ slash :: path) rest) ∧
      (CString.mem (entry ++ slash :: path) rest).length = b.length := by
  obtain ⟨x, rest, hrest⟩ : ∃ x rest, b.drop entry.length = x :: rest := by
    refine List.exists_cons_of_ne_nil fun hnil => ?_
    rw [List.drop_eq_nil_iff] at hnil
    omega
  have hlen : rest.length + entry.length + 1 = b.length := by
    have hdrop := congrArg List.length hrest
    rw [List.length_drop, List.length_cons] at hdrop
    omega
  have hfirst : b.storeBytes 0 (entry.map Subtype.val) =
      .ok (entry.map Subtype.val ++ x :: rest) := by
    rw [ArgBytes.storeBytes_eq (by rw [List.length_map]; omega), List.length_map, Nat.zero_add,
      hrest]
    rfl
  have hslash := ArgBytes.store_at (entry.map Subtype.val) rest x slash.val
  have hlast : ArgBytes.storeBytes (entry.length + 1) (CString.mem path [])
      (entry.map Subtype.val ++ slash.val :: rest) =
        .ok (CString.mem (entry ++ slash :: path) (rest.drop (path.length + 1))) := by
    have hold : (rest.take (path.length + 1)).length = (CString.mem path []).length := by
      rw [List.length_take, CString.mem, List.length_append, List.length_map,
        List.length_singleton]
      omega
    have hstore := ArgBytes.storeBytes_at (entry.map Subtype.val ++ [slash.val]) _ _
      (rest.drop (path.length + 1)) hold
    rw [List.take_append_drop] at hstore
    simpa [CString.mem] using hstore
  rw [List.length_map] at hslash
  refine ⟨rest.drop (path.length + 1), ?_, ?_⟩
  · rw [putCandidate, hfirst]
    simp only [Except.toOption, Option.bind_eq_bind, Option.bind_some, hslash, hlast]
  · rw [CString.mem, List.length_append, List.length_map, List.length_append, List.length_cons,
      List.length_cons, List.length_drop]
    omega

theorem bufferString_mem (s : CString) (rest : List UInt8) :
    bufferString (s.mem rest) = some s := by
  have hlen : ArgBytes.strlen (s.mem rest) 0 = .ok s.length := ArgBytes.strlen_at [] s rest
  have htake : (s.mem rest).take s.length = s.map Subtype.val := by
    rw [CString.mem, List.take_left' (List.length_map _)]
  rw [bufferString, hlen]
  simp only [Except.toOption, Option.map_some, htake, CString.ofBytes_map]

end Buffer

/-! ## The search -/

section Search

variable {δ : Type} {fuel : Nat} {s : FsKernel δ} {cwd : Nat} {path envPath : CString}
variable {b : ArgBytes} {found : CString → Bool}

/-- What an entry stands for, if it is short enough. -/
def candidateOf (path entry : CString) : Option CString :=
  if path.length + entry.length + 1 < execvpPathMax then some (entry ++ slash :: path) else none

theorem candidates_step :
    candidates envPath path =
      (candidateOf path (firstPiece colon envPath)).toList ++
        if colon ∈ envPath then candidates (afterPiece colon envPath) path else [] := by
  rw [candidates, splitOn_step, List.filter_cons, candidateOf]
  split <;> split <;> simp_all [candidates]

/-- Where `access` says whether there is a file, one entry is looked at. -/
theorem tryEntry_eq (entry : CString) (hb : b.length = execvpPathMax + 1)
    (hlt : path.length + entry.length + 1 < 4294967296)
    (hfound : ∀ c ∈ candidateOf path entry,
      Unistd.access fuel s cwd c = some (if found c then 0 else -ENOENT)) :
    ∃ b', b'.length = execvpPathMax + 1 ∧
      tryEntry fuel s cwd path entry b =
        some ((candidateOf path entry).filter found, b') := by
  rw [tryEntry, u32_of_lt hlt]
  rw [candidateOf] at hfound ⊢
  split
  · rename_i hshort
    rw [if_pos hshort] at hfound
    obtain ⟨rest, hput, hlen⟩ := @putCandidate_eq entry path b (by omega)
    have hret := hfound _ rfl
    refine ⟨_, hlen.trans hb, ?_⟩
    simp only [hput, Option.bind_eq_bind, Option.bind_some, bufferString_mem, hret]
    by_cases hf : found (entry ++ slash :: path)
    · simp [hf, Option.filter]
    · simp [hf, Option.filter, ENOENT]
  · exact ⟨b, hb, rfl⟩

theorem strchr_eq (t : CString) (c : CChar) :
    strchr t c = if c ∈ t then some (firstPiece c t).length else none := by
  split
  · rename_i h
    conv_lhs => rw [firstPiece_append h]
    exact strchr_append not_mem_firstPiece
  · rename_i h
    exact List.findIdx?_eq_none_iff.mpr fun x hx => decide_eq_false fun he => h (he ▸ hx)

theorem take_strchr (t : CString) (c : CChar) :
    t.take ((strchr t c).getD t.length) = firstPiece c t := by
  rw [strchr_eq]
  split
  · exact (List.prefix_iff_eq_take.mp (List.takeWhile_prefix _)).symm
  · rename_i h
    rw [firstPiece_of_not_mem h, Option.getD_none, List.take_length]

/-- What the first of the names with a file comes to. -/
def firstFound (found : CString → Bool) (cs : List CString) : ExecvpEnd :=
  match cs.find? found with
  | some c => .execve c
  | none => .failed

/-- From an entry on. -/
theorem execvpLoop_eq {rounds : Nat} (hrounds : envPath.length < rounds)
    (hb : b.length = execvpPathMax + 1) (hlt : path.length + envPath.length + 1 < 4294967296)
    (hfound : ∀ c ∈ candidates envPath path,
      Unistd.access fuel s cwd c = some (if found c then 0 else -ENOENT)) :
    ∃ b', b'.length = execvpPathMax + 1 ∧
      execvpLoop fuel s cwd path rounds envPath b =
        some (firstFound found (candidates envPath path), b') := by
  induction rounds generalizing envPath b with
  | zero => exact absurd hrounds (Nat.not_lt_zero _)
  | succ rounds ih =>
      have hle : (firstPiece colon envPath).length ≤ envPath.length :=
        (List.takeWhile_prefix _).length_le
      rw [candidates_step] at hfound ⊢
      obtain ⟨b₁, hb₁, htry⟩ := tryEntry_eq (firstPiece colon envPath) hb (by omega)
        fun c hc => hfound c (List.mem_append_left _ (Option.mem_toList.mpr hc))
      have hone : (candidateOf path (firstPiece colon envPath)).toList.find? found =
          (candidateOf path (firstPiece colon envPath)).filter found := by
        cases candidateOf path (firstPiece colon envPath) with
        | none => rfl
        | some c => cases hc : found c <;> simp [hc, Option.filter]
      rw [execvpLoop, take_strchr, htry, strchr_eq, firstFound, List.find?_append, hone]
      cases (candidateOf path (firstPiece colon envPath)).filter found with
      | some c => exact ⟨b₁, hb₁, rfl⟩
      | none =>
          by_cases hcolon : colon ∈ envPath
          · have hshort := afterPiece_length colon (List.ne_nil_of_mem hcolon)
            rw [if_pos hcolon] at hfound
            obtain ⟨b₂, hb₂, hrest⟩ := ih (by omega) hb₁ (by omega)
              fun c hc => hfound c (List.mem_append_right _ hc)
            refine ⟨b₂, hb₂, ?_⟩
            rw [if_pos hcolon, if_pos hcolon]
            exact hrest
          · rw [if_neg hcolon, if_neg hcolon]
            exact ⟨b₁, hb₁, rfl⟩

end Search

/-! ## In a file tree -/

section Tree

variable {δ : Type} {fuel : Nat} {s : FsKernel δ} {cwd : Nat} {T : FileTree} {nodes : List Nat}

theorem FsRep.go_mem {fs : FsState} (h : FsRep fs T nodes) {f f' : Nat} {c : CString}
    (hf : f ∈ nodes) (hgo : T.go f c = some f') : f' ∈ nodes := by
  rw [FileTree.go] at hgo
  split at hgo
  · exact Option.some.inj hgo ▸ hf
  · split at hgo
    · exact Option.some.inj hgo ▸ h.up_mem hf
    · exact h.child_mem hf hgo

theorem FsRep.walk_mem {fs : FsState} (h : FsRep fs T nodes) (hcwd : cwd ∈ nodes)
    {path : CString} {f : Nat} (hwalk : T.walk cwd path = some f) : f ∈ nodes := by
  rw [FileTree.walk, foldlM_eq_exec] at hwalk
  exact exec_inv (fun _ _ _ hf hgo => h.go_mem hf hgo) (h.start_mem hcwd path) hwalk

/-- A path of any form gets an answer. -/
theorem Unistd.access_total (h : FsRep s.fs T nodes) (hcwd : cwd ∈ nodes) {path : CString}
    (hfuel : path.length + nodes.length < fuel) :
    Unistd.access fuel s cwd path =
      some (if Unistd.access fuel s cwd path = some 0 then 0 else -ENOENT) := by
  obtain ⟨g, hfind, -⟩ := fsFindFile_total h (.inr hcwd) hfuel
  have haccess : Unistd.access fuel s cwd path = some (if g = 0 then -ENOENT else 0) := by
    rw [Unistd.access, procFsAccess, if_neg (by decide)]
    dsimp only
    rw [hfind]
    rfl
  rw [haccess]
  by_cases hg : g = 0
  · rw [if_pos hg, if_neg (by decide)]
  · rw [if_neg hg, if_pos rfl]

/-- Where the walk of a path is clear, `access` says whether it leads to a
file. -/
theorem Unistd.access_eq (h : FsRep s.fs T nodes) (hcwd : cwd ∈ nodes) {path : CString}
    (hfuel : path.length + nodes.length < fuel)
    (hclear : T.Clear (T.start cwd path) (path.splitOn slash)) :
    Unistd.access fuel s cwd path = some 0 ↔ (T.walk cwd path).isSome := by
  have hfind : fsFindFile s.fs fuel cwd path = some ((T.walk cwd path).getD 0) := by
    rw [fsFindFile_start (T := T) path]
    exact fsFindFile_eq_walk h (h.start_mem hcwd path) hfuel hclear
  rw [Unistd.access, procFsAccess, if_neg (by decide)]
  dsimp only
  rw [hfind]
  cases hwalk : T.walk cwd path with
  | none => simp [ENOENT]
  | some f =>
      have hne : f ≠ 0 := fun he => h.nonnull (he ▸ h.walk_mem hcwd hwalk)
      simp [hne]

/-- The first entry of the search path in which `access` finds the program is
the one it is run from, and nothing is stored outside of the buffer. On a clear
walk `access` finds what the tree has. -/
theorem execvp_first_found {environ : Option (List EnvEntry)} {path : CString} {b : ArgBytes}
    (h : FsRep s.fs T nodes) (hcwd : cwd ∈ nodes) (hslash : slash ∉ path)
    (hb : b.length = execvpPathMax + 1) (hfuel : execvpPathMax + nodes.length < fuel)
    (hlt : path.length + (searchPath environ).length + 1 < 4294967296) :
    (∃ b', b'.length = execvpPathMax + 1 ∧
      execvp fuel s cwd environ (some path) true b =
        some (firstFound (fun c => Unistd.access fuel s cwd c = some 0)
          (candidates (searchPath environ) path), b')) ∧
    ∀ c ∈ candidates (searchPath environ) path, T.Clear (T.start cwd c) (c.splitOn slash) →
      (Unistd.access fuel s cwd c = some 0 ↔ (T.walk cwd c).isSome) := by
  have hshort : ∀ c ∈ candidates (searchPath environ) path, c.length < execvpPathMax := by
    intro c hc
    obtain ⟨entry, hentry, rfl⟩ := List.mem_map.mp hc
    have hlen := of_decide_eq_true (List.mem_filter.mp hentry).2
    rw [List.length_append, List.length_cons]
    omega
  refine ⟨?_, fun c hc hclear => ?_⟩
  · have hnone : strchr path slash = none := by rw [strchr_eq, if_neg hslash]
    simp only [execvp, hnone, Bool.true_eq_false, if_false, Option.isSome_none, Bool.false_eq_true]
    refine execvpLoop_eq (Nat.lt_succ_self _) hb hlt fun c hc => ?_
    have hlen := hshort c hc
    have hfuel : c.length + nodes.length < fuel := by omega
    simpa only [decide_eq_true_eq] using Unistd.access_total h hcwd hfuel
  · have hlen := hshort c hc
    exact Unistd.access_eq h hcwd (by omega) hclear

end Tree

/-! ## A program in the second entry -/

/-- `PATH=/x:/a` -/
def sampleSearch : Option (List EnvEntry) :=
  some [⟨1, CString.ofBytes [80, 65, 84, 72, 61, 47, 120, 58, 47, 97]⟩]

theorem execvp_second_found :
    ∃ b', b'.length = execvpPathMax + 1 ∧
      execvp 260 { emptyKernel with fs := sampleTree.st } 16 sampleSearch (some [letterB]) true
        (List.replicate 256 0) = some (.execve [slash, letterA, slash, letterB], b') := by
  obtain ⟨b', hb', hrun⟩ := (@execvp_first_found Unit 260
    { emptyKernel with fs := sampleTree.st } 16 sampleTree.tree sampleTree.nodes sampleSearch
    [letterB] (List.replicate 256 0) sampleTree_built.rep (by decide) (by decide)
    List.length_replicate (by decide) (by decide)).1
  have hfirst : firstFound
      (fun c => Unistd.access 260 { emptyKernel with fs := sampleTree.st } 16 c = some 0)
      (candidates (searchPath sampleSearch) [letterB]) =
        .execve [slash, letterA, slash, letterB] := by decide +kernel
  exact ⟨b', hb', hfirst ▸ hrun⟩

end LambdaOs
