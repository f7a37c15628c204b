import LambdaOs.Environ
import LambdaOs.StrCompare

/-!
# The kernel command line

`cmdline_init` and the lookups of `kern/cmdline.c`. A pointer into the command
line is what may be read from it on: the rest of the line, its `NUL`, and the
bytes behind that. A read of more than that gives `none`.

The options are counted from the first character that is not a space and cut
out from the first character of the line. The loop that cuts steps over the
character behind each option and looks at the next one, which behind the last
option is the byte after the `NUL`. `Spaced` is a line without spaces at its
ends, as its options with the gaps between them.
-/

namespace LambdaOs

def space : CChar := ⟨32, by decide⟩

/-! ## `cmdline_init` -/

structure CmdlineVars where
  vars : List CString
  nvars : Nat
deriving DecidableEq

/-- `while(*cmdline == ' ') cmdline++` -/
def skipSpaces : List UInt8 → Option (List UInt8)
  | [] => none
  | c :: m => if c = 32 then skipSpaces m else some (c :: m)

def cmdlineStrlen : List UInt8 → Option Nat
  | [] => none
  | c :: m => if c = 0 then some 0 else (cmdlineStrlen m).map (· + 1)

/-- The loop that counts the options; the flag is set inside the loop over the
spaces. -/
def countVars : Bool → Nat → List UInt8 → Option Nat
  | _, _, [] => none
  | true, count, c :: m => countVars (c = 32) count m
  | false, count, c :: m =>
      if c = 0 then some count
      else if c = 32 then countVars true (count + 1) m
      else countVars false count m

/-- `for(; str[j] && str[j] != ' '; j++)` with the characters it goes over, and
the pointer `&str[j]`. -/
def cutVar : List UInt8 → Option (CString × List UInt8)
  | [] => none
  | c :: m =>
      if hc : c ≠ 0 ∧ c ≠ 32 then (cutVar m).map fun (var, str) => (⟨c, hc.1⟩ :: var, str)
      else some ([], c :: m)

/-- The loop that cuts out `count` options. -/
def cutVars : Nat → List UInt8 → Option (List CString)
  | 0, _ => some []
  | count + 1, str => do
      let (var, str) ← cutVar str
      let cmdline ← skipSpaces str.tail
      let vars ← cutVars count cmdline
      return var :: vars

def cmdlineInit (line : List UInt8) : Option CmdlineVars := do
  let cmdline ← skipSpaces line
  if (← cmdlineStrlen cmdline) = 0 then return ⟨[], 0⟩
  else
    let count ← countVars false 1 cmdline
    let vars ← cutVars count line
    return ⟨vars, count⟩

/-! ## The lookups -/

/-- `strlen`, cut down to where the first `=` is. -/
def nameLen (v : CString) : Nat := v.findIdx (· = eqSign)

def findVarLoop (var : CString) : List CString → Option CString
  | [] => none
  | v :: vars =>
      if nameLen v = var.length ∧
          KernelString.strncmp (var.mem []) (v.mem []) (nameLen v) = some 0 then some v
      else findVarLoop var vars

def findVar (s : CmdlineVars) (var : CString) : Option CString :=
  findVarLoop var (s.vars.take s.nvars)

def cmdlineGetstr (s : CmdlineVars) (var : CString) : Option CString :=
  match findVar s var with
  | none => none
  | some v => if nameLen v < v.length then some (v.drop (nameLen v + 1)) else none

/-- `"true"` -/
def trueLower : CString := CString.ofBytes [116, 114, 117, 101]

/-- `"TRUE"` -/
def trueUpper : CString := CString.ofBytes [84, 82, 85, 69]

def cmdlineGetbool (s : CmdlineVars) (var : CString) : Int :=
  match cmdlineGetstr s var with
  | none => if (findVar s var).isSome then 1 else 0
  | some v => if strcmp v trueLower = 0 ∨ strcmp v trueUpper = 0 then 1 else 0

/-! ## What is asked of them -/

/-- The maximal runs of characters that are not spaces. -/
def tokensOf (line : CString) : List CString := (line.splitOn space).filter (· ≠ [])

/-- The part of a token in front of its first `=`. -/
def tokenName (t : CString) : CString := t.takeWhile (· ≠ eqSign)

/-- The text behind the first `=` of a token. -/
def tokenValue (t : CString) : Option CString :=
  if eqSign ∈ t then some (t.dropWhile (· ≠ eqSign)).tail else none

def firstToken (tokens : List CString) (var : CString) : Option CString :=
  tokens.find? fun t => tokenName t = var

/-- The bytes of the line and its terminator are all that is read, the tokens
are stored, and the lookups find them. -/
def CmdlineRight (line : CString) : Prop :=
  ∃ s, cmdlineInit (line.mem []) = some s ∧ s.vars = tokensOf line ∧
    s.nvars = (tokensOf line).length ∧
    ∀ var,
      cmdlineGetstr s var = (firstToken (tokensOf line) var).bind tokenValue ∧
      (cmdlineGetbool s var = 1 ↔ ∃ t, firstToken (tokensOf line) var = some t ∧
        (t = var ∨ t = var ++ eqSign :: trueLower ∨ t = var ++ eqSign :: trueUpper))

/-! ## The lookups find the tokens -/

@[simp] theorem tokenName_cons_eqSign (v : CString) : tokenName (eqSign :: v) = [] := by
  simp [tokenName]

theorem tokenName_cons {c : CChar} (hc : c ≠ eqSign) (v : CString) :
    tokenName (c :: v) = c :: tokenName v := by
  simp [tokenName, hc]

@[simp] theorem nameLen_eq (v : CString) : nameLen v = (tokenName v).length := by
  induction v with
  | nil => rfl
  | cons c v ih =>
      by_cases hc : c = eqSign
      · simp [nameLen, hc, List.findIdx_cons]
      · simp only [nameLen] at ih
        simp [nameLen, tokenName_cons hc, hc, List.findIdx_cons, ih]

/-- A token is its name, or its name and its value with `=` between them. -/
theorem token_split (t : CString) :
    t = tokenName t ∧ tokenValue t = none ∨
      ∃ v, t = tokenName t ++ eqSign :: v ∧ tokenValue t = some v := by
  induction t with
  | nil => exact .inl ⟨rfl, rfl⟩
  | cons c t ih =>
      by_cases hc : c = eqSign
      · subst hc
        exact .inr ⟨t, by simp, by simp [tokenValue]⟩
      · have hval : tokenValue (c :: t) = tokenValue t := by
          simp [tokenValue, hc, Ne.symm hc]
        rw [tokenName_cons hc, hval]
        rcases ih with ⟨h, hv⟩ | ⟨v, h, hv⟩
        · exact .inl ⟨congrArg (c :: ·) h, hv⟩
        · exact .inr ⟨v, congrArg (c :: ·) h, hv⟩

/-- The kernel's `strncmp` up to the length of a string that is not empty. -/
theorem kernelStrncmp_eq_zero {var t : CString} (hvar : var ≠ []) :
    KernelString.strncmp (var.mem []) (t.mem []) var.length = some 0 ↔ var <+: t := by
  induction var generalizing t with
  | nil => exact absurd rfl hvar
  | cons c var ih =>
      cases t with
      | nil => simp [KernelString.strncmp, c.property, uint8Diff_eq_zero]
      | cons d t =>
          rw [List.cons_prefix_cons]
          by_cases h : c = d
          · cases var with
            | nil => simp [KernelString.strncmp, KernelString.preDec, h]
            | cons e var =>
                simpa [KernelString.strncmp, KernelString.preDec, h, d.property]
                  using ih (t := t) (List.cons_ne_nil e var)
          · have hval : c.val ≠ d.val := fun he => h (Subtype.ext he)
            simp [KernelString.strncmp, h, hval, uint8Diff_eq_zero]

/-- The comparison of `_find_var` is that of the names, unless the name asked
for is empty. -/
theorem findVarLoop_eq {var : CString} (hvar : var ≠ []) (vars : List CString) :
    findVarLoop var vars = firstToken vars var := by
  induction vars with
  | nil => rfl
  | cons t vars ih =>
      have hcmp : (nameLen t = var.length ∧
          KernelString.strncmp (var.mem []) (t.mem []) (nameLen t) = some 0) ↔
          tokenName t = var := by
        rw [nameLen_eq]
        constructor
        · rintro ⟨hlen, h⟩
          rw [hlen, kernelStrncmp_eq_zero hvar] at h
          have htake : tokenName t <+: t := List.takeWhile_prefix _
          exact List.IsPrefix.eq_of_length (List.prefix_of_prefix_length_le htake h hlen.le) hlen
        · rintro rfl
          exact ⟨rfl, (kernelStrncmp_eq_zero hvar).mpr (List.takeWhile_prefix _)⟩
      rw [findVarLoop, firstToken, List.find?_cons, ih]
      by_cases h : tokenName t = var
      · rw [if_pos (hcmp.mpr h)]
        simp [h]
      · rw [if_neg fun hc => h (hcmp.mp hc)]
        simp [h, firstToken]

section Lookups

variable {s : CmdlineVars} {var : CString}

theorem findVar_eq (hn : s.nvars = s.vars.length) (hvar : var ≠ []) :
    findVar s var = firstToken s.vars var := by
  rw [findVar, hn, List.take_length, findVarLoop_eq hvar]

theorem cmdlineGetstr_eq (hn : s.nvars = s.vars.length) (hvar : var ≠ []) :
    cmdlineGetstr s var = (firstToken s.vars var).bind tokenValue := by
  rw [cmdlineGetstr, findVar_eq hn hvar]
  cases firstToken s.vars var with
  | none => rfl
  | some t =>
      simp only [nameLen_eq, Option.bind_some]
      rcases token_split t with ⟨h, hv⟩ | ⟨v, h, hv⟩
      · rw [hv, ← h]
        simp
      · rw [hv]
        have hlen : (tokenName t).length < t.length := by
          have := congrArg List.length h
          simp only [List.length_append, List.length_cons] at this
          omega
        have hdrop : (tokenName t ++ eqSign :: v).drop ((tokenName t).length + 1) = v := by
          simp [List.drop_append]
        rw [← h] at hdrop
        simp [hlen, hdrop]

theorem cmdlineGetbool_eq_one (hn : s.nvars = s.vars.length) (hvar : var ≠ []) :
    cmdlineGetbool s var = 1 ↔ ∃ t, firstToken s.vars var = some t ∧
      (t = var ∨ t = var ++ eqSign :: trueLower ∨ t = var ++ eqSign :: trueUpper) := by
  rw [cmdlineGetbool, cmdlineGetstr_eq hn hvar, findVar_eq hn hvar]
  cases hf : firstToken s.vars var with
  | none => simp
  | some t =>
      have hname : tokenName t = var := by simpa using List.find?_some hf
      rcases token_split t with ⟨h, hv⟩ | ⟨v, h, hv⟩
      · simp [hv, ← hname, ← h]
      · rw [hname] at h
        subst h
        simp [hv, strcmp_eq_zero, or_iff_not_imp_left]

end Lookups

/-! ## Lines without spaces at their ends -/

/-- An option: not empty, and without spaces. -/
def IsToken (w : CString) : Prop := w ≠ [] ∧ space ∉ w

/-- A line that begins and ends with an option, and its options. -/
inductive Spaced : CString → List CString → Prop
  | one {w : CString} (hw : IsToken w) : Spaced w [w]
  | cons {w line : CString} {ts : List CString} (hw : IsToken w) (n : Nat)
      (hline : Spaced line ts) :
      Spaced (w ++ List.replicate (n + 1) space ++ line) (w :: ts)

def Blank (line : CString) : Prop := ∀ c ∈ line, c = space

theorem tokensOf_append_space (s t : CString) :
    tokensOf (s ++ space :: t) = tokensOf s ++ tokensOf t := by
  rw [tokensOf, List.splitOn_append_cons_self, List.filter_append]
  rfl

theorem tokensOf_space_cons (t : CString) : tokensOf (space :: t) = tokensOf t :=
  tokensOf_append_space [] t

@[simp] theorem tokensOf_replicate_append (n : Nat) (t : CString) :
    tokensOf (List.replicate n space ++ t) = tokensOf t := by
  induction n with
  | zero => rfl
  | succ n ih => rw [List.replicate_succ, List.cons_append, tokensOf_space_cons, ih]

theorem tokensOf_append_replicate (s : CString) (n : Nat) (t : CString) :
    tokensOf (s ++ List.replicate (n + 1) space ++ t) = tokensOf s ++ tokensOf t := by
  rw [List.append_assoc, List.replicate_succ, List.cons_append, tokensOf_append_space,
    tokensOf_replicate_append]

theorem tokensOf_token {w : CString} (hw : IsToken w) : tokensOf w = [w] := by
  rw [tokensOf, List.splitOn_eq_singleton hw.2]
  simp [hw.1]

theorem Spaced.tokensOf_eq {line : CString} {ts : List CString} (h : Spaced line ts) :
    tokensOf line = ts := by
  induction h with
  | one hw => exact tokensOf_token hw
  | cons hw n _ ih => rw [tokensOf_append_replicate, tokensOf_token hw, ih, List.singleton_append]

theorem Blank.eq_replicate {line : CString} (h : Blank line) :
    line = List.replicate line.length space :=
  List.eq_replicate_iff.mpr ⟨rfl, h⟩

theorem Blank.tokensOf_eq {line : CString} (h : Blank line) : tokensOf line = [] := by
  rw [h.eq_replicate, ← List.append_nil (List.replicate _ _), tokensOf_replicate_append]
  rfl

/-- Every line is spaces only, or its options with spaces at both ends. -/
theorem blank_or_spaced (line : CString) :
    Blank line ∨ ∃ j core ts k, Spaced core ts ∧
      line = List.replicate j space ++ core ++ List.replicate k space := by
  induction line with
  | nil => exact .inl nofun
  | cons c line ih =>
      by_cases hc : c = space
      · subst hc
        rcases ih with h | ⟨j, core, ts, k, h, rfl⟩
        · exact .inl (by simpa [Blank] using h)
        · exact .inr ⟨j + 1, core, ts, k, h, by simp [List.replicate_succ]⟩
      · have hcw : IsToken [c] := ⟨by simp, by simpa using Ne.symm hc⟩
        rcases ih with h | ⟨j, core, ts, k, h, rfl⟩
        · exact .inr ⟨0, [c], [[c]], line.length, .one hcw, by simp [← h.eq_replicate]⟩
        · cases j with
          | succ j => exact .inr ⟨0, _, _, k, .cons hcw j h, by simp⟩
          | zero =>
              -- the character belongs to the first option
              cases h with
              | one hw =>
                  refine .inr ⟨0, c :: core, _, k, .one ⟨by simp, ?_⟩, by simp⟩
                  simpa [Ne.symm hc] using hw.2
              | @cons w core ts hw n h =>
                  refine .inr ⟨0, _, _, k, .cons (w := c :: w) ⟨by simp, ?_⟩ n h, by simp⟩
                  simpa [Ne.symm hc] using hw.2

/-! ## The loops over such a line -/

theorem CChar.val_eq_space {c : CChar} : c.val = 32 ↔ c = space := by
  rw [Subtype.ext_iff]
  rfl

@[simp] theorem skipSpaces_replicate (j : Nat) (s : CString) (past : List UInt8) :
    skipSpaces (CString.mem (List.replicate j space ++ s) past) = skipSpaces (s.mem past) := by
  induction j with
  | zero => rfl
  | succ j ih =>
      rw [List.replicate_succ, List.cons_append, CString.mem_cons, skipSpaces,
        if_pos (CChar.val_eq_space.mpr rfl), ih]

theorem skipSpaces_of_head {s : CString} (hs : s.head? ≠ some space) (past : List UInt8) :
    skipSpaces (s.mem past) = some (s.mem past) := by
  cases s with
  | nil => rfl
  | cons c s =>
      have hc : ¬ c.val = 32 := fun h => hs (congrArg some (CChar.val_eq_space.mp h))
      rw [CString.mem_cons, skipSpaces, if_neg hc]

@[simp] theorem cmdlineStrlen_mem (s : CString) (past : List UInt8) :
    cmdlineStrlen (s.mem past) = some s.length := by
  induction s with
  | nil => rfl
  | cons c s ih => rw [CString.mem_cons, cmdlineStrlen, if_neg c.2, ih]; rfl

theorem cutVar_token {w rest : CString} (hw : space ∉ w)
    (hrest : rest = [] ∨ rest.head? = some space) (past : List UInt8) :
    cutVar (CString.mem (w ++ rest) past) = some (w, rest.mem past) := by
  induction w with
  | nil =>
      rcases hrest with rfl | hrest
      · rfl
      · obtain ⟨r, rfl⟩ := List.head?_eq_some_iff.mp hrest
        rfl
  | cons c w ih =>
      rw [List.mem_cons, not_or] at hw
      have hc : c.val ≠ 0 ∧ c.val ≠ 32 := ⟨c.2, fun h => hw.1 (CChar.val_eq_space.mp h).symm⟩
      rw [List.cons_append, CString.mem_cons, cutVar, dif_pos hc, ih hw.2]
      rfl

/-- One option, and the look at what is behind it. -/
theorem cutVars_succ {w : CString} {m str : List UInt8} (h : cutVar m = some (w, str)) (n : Nat) :
    cutVars (n + 1) m = (skipSpaces str.tail).bind fun m => (cutVars n m).map (w :: ·) := by
  rw [cutVars, h, Option.bind_eq_bind, Option.bind_some]
  change (skipSpaces str.tail).bind (fun m => (cutVars n m).bind fun vars => some (w :: vars)) = _
  simp only [Option.map_eq_bind, Function.comp_def]

theorem countVars_token {w : CString} (hw : space ∉ w) (n : Nat) (rest : CString)
    (past : List UInt8) :
    countVars false n (CString.mem (w ++ rest) past) = countVars false n (rest.mem past) := by
  induction w with
  | nil => rfl
  | cons c w ih =>
      rw [List.mem_cons, not_or] at hw
      rw [List.cons_append, CString.mem_cons, countVars, if_neg c.2,
        if_neg fun h => hw.1 (CChar.val_eq_space.mp h).symm, ih hw.2]

/-- The loop over the spaces, which takes with it what stands behind them. -/
theorem countVars_replicate (n j : Nat) (m : List UInt8) {b : UInt8} (hb : b ≠ 32) :
    countVars true n ((List.replicate j space).map Subtype.val ++ b :: m) =
      countVars false n m := by
  induction j with
  | zero => simp [countVars, hb]
  | succ j ih =>
      rw [List.replicate_succ, List.map_cons, List.cons_append, countVars,
        decide_eq_true (CChar.val_eq_space.mpr rfl), ih]

theorem countVars_gap {w : CString} (hw : space ∉ w) (n k : Nat) {c : CChar} (hc : c ≠ space)
    (s : CString) (past : List UInt8) :
    countVars false n (CString.mem (w ++ List.replicate (k + 1) space ++ c :: s) past) =
      countVars false (n + 1) (CString.mem (c :: s) past) := by
  have hc32 : c.val ≠ 32 := fun h => hc (CChar.val_eq_space.mp h)
  rw [List.append_assoc, countVars_token hw, List.replicate_succ, List.cons_append,
    CString.mem_cons, countVars, if_neg space.2, if_pos (CChar.val_eq_space.mpr rfl),
    CString.mem, List.map_append, List.append_assoc, List.map_cons, List.cons_append,
    countVars_replicate _ _ _ hc32, CString.mem_cons, countVars, if_neg c.2, if_neg hc32]
  rfl

/-- Spaces in front of the terminator take the loop past it. -/
theorem countVars_trailing (n k : Nat) (past : List UInt8) :
    countVars false n (CString.mem (List.replicate (k + 1) space) past) =
      countVars false (n + 1) past := by
  rw [List.replicate_succ, CString.mem_cons, countVars, if_neg space.2,
    if_pos (CChar.val_eq_space.mpr rfl), CString.mem, countVars_replicate _ _ _ (by decide)]

theorem le_of_countVars {b : Bool} {n count : Nat} {m : List UInt8}
    (h : countVars b n m = some count) : n ≤ count := by
  induction m generalizing b n with
  | nil => cases b <;> cases h
  | cons c m ih =>
      cases b with
      | true => exact ih h
      | false =>
          rw [countVars] at h
          split at h
          · cases h
            rfl
          · split at h
            · exact Nat.le_of_succ_le (ih h)
            · exact ih h

/-! ## A line between spaces -/

namespace Spaced

variable {line : CString} {ts : List CString}

theorem head (h : Spaced line ts) : ∃ c s, line = c :: s ∧ c ≠ space := by
  have htok : ∀ {w : CString}, IsToken w → ∃ c s, w = c :: s ∧ c ≠ space := by
    rintro (_ | ⟨c, w⟩) hw
    · exact absurd rfl hw.1
    · exact ⟨c, w, rfl, fun h => hw.2 (h ▸ List.mem_cons_self)⟩
  cases h with
  | one hw => exact htok hw
  | cons hw n h =>
      obtain ⟨c, s, rfl, hc⟩ := htok hw
      exact ⟨c, _, rfl, hc⟩

/-- It does not begin with a space, whatever comes behind it. -/
theorem head_append (h : Spaced line ts) (rest : CString) :
    (line ++ rest).head? ≠ some space := by
  obtain ⟨c, s, rfl, hc⟩ := h.head
  exact fun h => hc (Option.some.inj h)

theorem head?_ne (h : Spaced line ts) : line.head? ≠ some space := by
  have := h.head_append []
  rwa [List.append_nil] at this

theorem length_pos (h : Spaced line ts) : 0 < ts.length := by
  cases h <;> simp

/-- One more for each gap between two options. -/
theorem countVars_append (h : Spaced line ts) (n : Nat) {rest : CString}
    (past : List UInt8) :
    countVars false (n + 1) (CString.mem (line ++ rest) past) =
      countVars false (n + ts.length) (rest.mem past) := by
  induction h generalizing n with
  | one hw => exact countVars_token hw.2 (n + 1) rest past
  | @cons w line ts hw k h ih =>
      obtain ⟨c, s, rfl, hc⟩ := h.head
      rw [List.append_assoc, List.cons_append, countVars_gap hw.2 _ _ hc, ← List.cons_append, ih,
        List.length_cons, Nat.add_assoc, Nat.add_comm 1]

/-- As many options as there are, and then a look behind the terminator. -/
theorem cutVars_mem (h : Spaced line ts) (past : List UInt8) :
    cutVars ts.length (line.mem past) = (skipSpaces past).map fun _ => ts := by
  induction h with
  | @one w hw =>
      have hcut := cutVar_token hw.2 (.inl rfl) past
      rw [List.append_nil] at hcut
      rw [List.length_singleton, cutVars_succ hcut, CString.mem_nil, List.tail_cons]
      cases skipSpaces past <;> rfl
  | @cons w line ts hw k h ih =>
      have hcut : cutVar (CString.mem (w ++ (List.replicate (k + 1) space ++ line)) past) = _ :=
        cutVar_token hw.2 (.inr rfl) past
      rw [List.append_assoc, List.length_cons, cutVars_succ hcut, List.replicate_succ,
        List.cons_append, CString.mem_cons, List.tail_cons, skipSpaces_replicate,
        skipSpaces_of_head h.head?_ne, Option.bind_some, ih]
      cases skipSpaces past <;> rfl

/-- The command line without spaces at its ends. -/
theorem cmdlineInit_mem (h : Spaced line ts) (past : List UInt8) :
    cmdlineInit (line.mem past) = (skipSpaces past).map fun _ => ⟨ts, ts.length⟩ := by
  have hcount : countVars false (0 + 1) (CString.mem (line ++ []) past) = _ :=
    h.countVars_append 0 past
  rw [List.append_nil, Nat.zero_add, Nat.zero_add, CString.mem_nil, countVars, if_pos rfl]
    at hcount
  have hlen : line.length ≠ 0 := by
    obtain ⟨c, s, rfl, -⟩ := h.head
    exact Nat.succ_ne_zero _
  simp only [cmdlineInit, skipSpaces_of_head h.head?_ne, cmdlineStrlen_mem, Option.bind_eq_bind,
    Option.bind_some, if_neg hlen, hcount, h.cutVars_mem]
  cases skipSpaces past <;> rfl

end Spaced

/-- Nothing but spaces: there are no options, and the pointer stops at the
terminator. -/
theorem Blank.cmdlineInit_mem {line : CString} (h : Blank line) (past : List UInt8) :
    cmdlineInit (line.mem past) = some ⟨[], 0⟩ := by
  have hskip : skipSpaces (line.mem past) = some (CString.mem [] past) := by
    rw [h.eq_replicate, ← List.append_nil (List.replicate _ _), skipSpaces_replicate]
    rfl
  simp only [cmdlineInit, hskip, cmdlineStrlen_mem, Option.bind_eq_bind, Option.bind_some,
    List.length_nil]
  rfl

/-- What a run that stored something did, on a line that is not blank. -/
theorem cmdlineInit_cases {line m : List UInt8} {s : CmdlineVars} {cs : CString}
    {past : List UInt8} (hskip : skipSpaces line = some m) (hm : m = cs.mem past) (hcs : cs ≠ [])
    (h : cmdlineInit line = some s) :
    countVars false 1 m = some s.nvars ∧ cutVars s.nvars line = some s.vars := by
  have hlen : ¬ cs.length = 0 := by simpa using hcs
  subst hm
  simp only [cmdlineInit, hskip, cmdlineStrlen_mem, Option.bind_eq_bind, Option.bind_some,
    if_neg hlen] at h
  obtain ⟨count, hcount, h⟩ := Option.bind_eq_some_iff.mp h
  obtain ⟨vars, hvars, h⟩ := Option.bind_eq_some_iff.mp h
  cases h
  exact ⟨hcount, hvars⟩

/-- A line that begins with a space has an empty first option. -/
theorem cutVars_space {n : Nat} {line : CString} {past : List UInt8} {vars : List CString}
    (h : cutVars n (CString.mem (space :: line) past) = some vars) (hn : 0 < n) :
    [] ∈ vars := by
  obtain ⟨n, rfl⟩ := Nat.exists_eq_succ_of_ne_zero hn.ne'
  have hcut : cutVar (CString.mem (space :: line) past) =
      some ([], CString.mem (space :: line) past) := rfl
  rw [Nat.succ_eq_add_one, cutVars_succ hcut] at h
  obtain ⟨m, -, h⟩ := Option.bind_eq_some_iff.mp h
  obtain ⟨rest, -, rfl⟩ := Option.map_eq_some_iff.mp h
  exact List.mem_cons_self

/-- With a space at either end the options stored are not the tokens. -/
theorem cmdlineInit_ends {core : CString} {ts : List CString} (h : Spaced core ts) {j k : Nat}
    (hjk : 0 < j ∨ 0 < k) {past : List UInt8} {s : CmdlineVars}
    (hs : cmdlineInit (CString.mem
      (List.replicate j space ++ core ++ List.replicate k space) past) = some s) :
    ¬ (s.vars = ts ∧ s.nvars = ts.length) := by
  rintro ⟨hvars, hn⟩
  obtain ⟨c, rest, hcore, -⟩ := h.head
  have hskip := skipSpaces_replicate j (core ++ List.replicate k space) past
  rw [skipSpaces_of_head (h.head_append _), ← List.append_assoc] at hskip
  obtain ⟨hcount, hcut⟩ := cmdlineInit_cases hskip rfl (by simp [hcore]) hs
  rcases hjk with hj | hk
  · -- an empty option is no token
    obtain ⟨j, rfl⟩ := Nat.exists_eq_succ_of_ne_zero hj.ne'
    have hmem := cutVars_space (n := s.nvars) hcut (hn ▸ h.length_pos)
    rw [hvars, ← h.tokensOf_eq] at hmem
    simp [tokensOf] at hmem
  · -- the gap behind the last option has been counted
    obtain ⟨k, rfl⟩ := Nat.exists_eq_succ_of_ne_zero hk.ne'
    rw [h.countVars_append 0, Nat.zero_add, Nat.succ_eq_add_one, countVars_trailing] at hcount
    have := le_of_countVars hcount
    omega

theorem head?_of_ends {core : CString} {ts : List CString} (h : Spaced core ts) (j k : Nat) :
    (List.replicate j space ++ core ++ List.replicate k space).head? ≠ some space ↔ j = 0 := by
  obtain ⟨c, s, rfl, hc⟩ := h.head
  cases j with
  | zero => simpa using hc
  | succ j => simp [List.replicate_succ]

theorem Spaced.last {line : CString} {ts : List CString} (h : Spaced line ts) :
    line.getLast? ≠ some space := by
  induction h with
  | one hw => exact fun h => hw.2 (List.mem_of_getLast? h)
  | cons _ _ h ih =>
      obtain ⟨c, s, hline, -⟩ := h.head
      rwa [List.getLast?_append_of_ne_nil _ (by simp [hline])]

theorem getLast?_of_ends {core : CString} {ts : List CString} (h : Spaced core ts) (j k : Nat) :
    (List.replicate j space ++ core ++ List.replicate k space).getLast? ≠ some space ↔ k = 0 := by
  obtain ⟨c, s, hcore, -⟩ := h.head
  cases k with
  | zero =>
      have hne : core ≠ [] := by simp [hcore]
      simpa [List.getLast?_append_of_ne_nil _ hne] using h.last
  | succ k =>
      rw [List.replicate_succ', ← List.append_assoc]
      simp

theorem Spaced.tokensOf_ends {core : CString} {ts : List CString} (h : Spaced core ts)
    (j k : Nat) : tokensOf (List.replicate j space ++ core ++ List.replicate k space) = ts := by
  rw [List.append_assoc, tokensOf_replicate_append]
  cases k with
  | zero => rw [List.replicate_zero, List.append_nil, h.tokensOf_eq]
  | succ k =>
      have := tokensOf_append_replicate core k []
      rwa [List.append_nil, h.tokensOf_eq, show tokensOf [] = [] from rfl, List.append_nil] at this

/-- The options of a line, given that there is something to read behind it
other than a space: they are the tokens when there is no space at its ends. -/
theorem cmdlineInit_stores_iff (line : CString) {b : UInt8} (hb : b ≠ 32) (past : List UInt8) :
    cmdlineInit (line.mem (b :: past)) = some ⟨tokensOf line, (tokensOf line).length⟩ ↔
      Blank line ∨ (line.head? ≠ some space ∧ line.getLast? ≠ some space) := by
  rcases blank_or_spaced line with h | ⟨j, core, ts, k, h, rfl⟩
  · simp only [h, true_or, iff_true]
    rw [h.cmdlineInit_mem, h.tokensOf_eq]
    rfl
  · have hnb : ¬ Blank (List.replicate j space ++ core ++ List.replicate k space) := by
      obtain ⟨c, s, rfl, hc⟩ := h.head
      exact fun hb => hc (hb c (by simp))
    rw [h.tokensOf_ends, head?_of_ends h, getLast?_of_ends h]
    simp only [hnb, false_or]
    constructor
    · intro hs
      by_contra hjk
      exact cmdlineInit_ends h (by omega) hs ⟨rfl, rfl⟩
    · rintro ⟨rfl, rfl⟩
      have hskip : skipSpaces (b :: past) = some (b :: past) := if_neg hb
      simp [h.cmdlineInit_mem, hskip]

/-- The byte behind the terminator is looked at in every line with an option
and no space at its ends. With one there, other options are stored. -/
theorem cmdline_init_right_iff_blank (line : CString) : CmdlineRight line ↔ Blank line := by
  constructor
  · rintro ⟨s, hs, hvars, hn, -⟩
    rcases blank_or_spaced line with h | ⟨j, core, ts, k, h, rfl⟩
    · exact h
    · exfalso
      rw [h.tokensOf_ends] at hvars hn
      by_cases hjk : 0 < j ∨ 0 < k
      · exact cmdlineInit_ends h hjk hs ⟨hvars, hn⟩
      · obtain ⟨rfl, rfl⟩ : j = 0 ∧ k = 0 := by omega
        simp [h.cmdlineInit_mem, skipSpaces] at hs
  · intro h
    refine ⟨⟨[], 0⟩, h.cmdlineInit_mem [], ?_⟩
    rw [h.tokensOf_eq]
    exact ⟨rfl, rfl, fun var => ⟨rfl, by simp [cmdlineGetbool, cmdlineGetstr, findVar,
      findVarLoop, firstToken]⟩⟩

/-- `a` is read past its terminator; with a space in front of it the option is
empty, and with one behind it the loop that counts leaves the line. -/
theorem cmdline_init_wrong_on_option :
    cmdlineInit (CString.mem (CString.ofBytes [97]) []) = none ∧
      cmdlineInit (CString.mem (CString.ofBytes [32, 97]) []) = some ⟨[[]], 1⟩ ∧
      countVars false 1 (CString.mem (CString.ofBytes [97, 32]) []) = none ∧
      ¬ CmdlineRight (CString.ofBytes [97]) := by
  refine ⟨by decide, by decide, by decide, ?_⟩
  rintro ⟨s, hs, -⟩
  have hnone : cmdlineInit (CString.mem (CString.ofBytes [97]) []) = none := by decide
  rw [hnone] at hs
  cases hs

end LambdaOs
