import LambdaOs.Fs

/-!
# Splitting a command line of the shell

`_args_split` of `lshell/src/shell.c`. Its loop goes over the string three
times: it counts the parameters, allocates them, and writes them. The pointer
into the string jumps over escaped characters and runs of whitespace, so the
characters to be skipped are counted.

Memory is the list of pointers and the blocks they point at, whose bytes have
no value before they are written. A null pointer that is used and a place
outside of an allocation are a `fault`. The stores are logged; the log is not
part of the program.

`lexChars` is the quoting grammar, with a `none` for each character that
separates words.
-/

namespace LambdaOs

def backslash : CChar := ⟨92, by decide⟩
def dollar : CChar := ⟨36, by decide⟩

/-- `QUOTE_REPLACE` -/
def quoteReplace : CChar := ⟨31, by decide⟩

/-- `DOLLAR_REPLACE` -/
def dollarReplace : CChar := ⟨1, by decide⟩

/-- `isspace` of the user library. -/
def userIsspace (c : CChar) : Bool :=
  c.val = 32 ∨ c.val = 10 ∨ c.val = 13 ∨ c.val = 12 ∨ c.val = 9 ∨ c.val = 11

def isQuote (c : CChar) : Bool := c.val = 39 ∨ c.val = 34

/-! ## Memory -/

abbrev ParamBlock := List (Option UInt8)

/-- A store to `params[p]`, to its end `params[p]`, or to `params[p][l]`. -/
inductive SplitStore
  | slot (p : Nat)
  | last (p : Nat)
  | char (p l : Nat)
deriving DecidableEq

/-- The list of parameters, how often `malloc` has been called, and the stores. -/
structure SplitMem where
  params : Option (List (Option ParamBlock))
  calls : Nat
  log : List SplitStore
deriving DecidableEq

/-- How the loop is left before its end: at a fault, by `goto FAILURE`, or by
`return NULL`. -/
inductive SplitStop
  | fault
  | failure (m : SplitMem)
  | null
deriving DecidableEq

/-- `params[p] = v` -/
def storeSlot (m : SplitMem) (p : Nat) (v : Option ParamBlock) (e : SplitStore) :
    Except SplitStop SplitMem :=
  match m.params with
  | none => .error .fault
  | some slots =>
      if p < slots.length then .ok { m with params := some (slots.set p v), log := m.log ++ [e] }
      else .error .fault

/-- `params[p][l] = c` -/
def storeChar (m : SplitMem) (p l : Nat) (c : UInt8) : Except SplitStop SplitMem :=
  match m.params with
  | none => .error .fault
  | some slots =>
      match slots[p]? with
      | some (some block) =>
          if l < block.length then
            .ok { m with
              params := some (slots.set p (some (block.set l (some c))))
              log := m.log ++ [.char p l] }
          else .error .fault
      | _ => .error .fault

/-- `params[p] = malloc(size)`, and `goto FAILURE` when that is `NULL`. -/
def allocParam (grant : Nat → Bool) (m : SplitMem) (p size : Nat) : Except SplitStop SplitMem := do
  let block := if grant m.calls then some (List.replicate size none) else none
  let m ← storeSlot { m with calls := m.calls + 1 } p block (.slot p)
  if block = none then .error (.failure m) else .ok m

/-! ## `_args_split` -/

inductive SplitRun
  | count | alloc | real
deriving DecidableEq

/-- `param` and `len`, and the memory. -/
structure SplitAt where
  param : Nat
  len : Nat
  mem : SplitMem
deriving DecidableEq

/-- A character is stored in the last run and counted in each. -/
def putParam (run : SplitRun) (st : SplitAt) (c : CChar) : Except SplitStop SplitAt := do
  let m ← if run = .real then storeChar st.mem st.param st.len c.val else .ok st.mem
  return { st with len := st.len + 1, mem := m }

/-- The end of a parameter at whitespace. -/
def nextParam (grant : Nat → Bool) (run : SplitRun) (st : SplitAt) : Except SplitStop SplitAt := do
  let m ← match run with
    | .count => .ok st.mem
    | .alloc => allocParam grant st.mem st.param (st.len + 1)
    | .real => storeChar st.mem st.param st.len 0
  if st.param + 1 ≥ 32 then .error (.failure m)
  else .ok { st with param := st.param + 1, len := 0, mem := m }

/-- The body of the loop, with how many characters it goes over beside its own,
and `strch` (`none` for 0). -/
def splitBody (grant : Nat → Bool) (run : SplitRun) (strch : Option CChar) (st : SplitAt)
    (c : CChar) (str : CString) : Except SplitStop (Nat × Option CChar × SplitAt) :=
  if strch = some c then (putParam run st quoteReplace).map fun st => (0, none, st)
  else if userIsspace c ∧ strch = none then
    (nextParam grant run st).map fun st => ((str.takeWhile userIsspace).length, none, st)
  else if c = backslash ∧ str ≠ [] then
    let d := str.headD c
    (putParam run st (if d = dollar then dollarReplace else d)).map fun st => (1, strch, st)
  else if strch = none ∧ isQuote c then
    (putParam run st quoteReplace).map fun st => (0, some c, st)
  else (putParam run st c).map fun st => (0, strch, st)

def splitLoop (grant : Nat → Bool) (run : SplitRun) :
    Nat → Option CChar → SplitAt → CString → Except SplitStop SplitAt
  | _, _, st, [] => .ok st
  | skip + 1, strch, st, _ :: str => splitLoop grant run skip strch st str
  | 0, strch, st, c :: str => do
      let (skip, strch, st) ← splitBody grant run strch st c str
      splitLoop grant run skip strch st str

/-- What follows the loop in each run. -/
def splitEnd (grant : Nat → Bool) (run : SplitRun) (st : SplitAt) : Except SplitStop SplitAt := do
  let m ← match run with
    | .count =>
        if grant st.mem.calls then
          .ok { st.mem with
            params := some (List.replicate (st.param + 2) none), calls := st.mem.calls + 1 }
        else .error .null
    | .alloc => allocParam grant st.mem st.param (st.len + 1)
    | .real => storeChar st.mem st.param st.len 0
  let m ← storeSlot m (st.param + 1) none (.last (st.param + 1))
  return { st with mem := m }

def splitRun (grant : Nat → Bool) (run : SplitRun) (str : CString) (m : SplitMem) :
    Except SplitStop SplitAt := do
  let st ← splitLoop grant run 0 none ⟨0, 0, m⟩ str
  splitEnd grant run st

/-- `for(unsigned i = 0; params[i]; i++)` at `FAILURE`; `none` for a fault. -/
def freeParams : List (Option ParamBlock) → Option Unit
  | [] => none
  | none :: _ => some ()
  | some _ :: slots => freeParams slots

/-- What is returned, `some none` for `NULL`; `none` for a fault. -/
def argsSplit (grant : Nat → Bool) (str : CString) : Option (Option (List (Option ParamBlock))) :=
  let runs := do
    let s ← splitRun grant .count str ⟨none, 0, []⟩
    let s ← splitRun grant .alloc str s.mem
    let s ← splitRun grant .real str s.mem
    return s.mem.params
  match runs with
  | .ok params => some params
  | .error .null => some none
  | .error .fault => none
  | .error (.failure m) => do
      let slots ← m.params
      freeParams slots
      return none

example : argsSplit (fun _ => true) (CString.ofBytes [97, 32, 32, 34, 98, 32, 34]) =
    some (some [some [some 97, some 0], some [some 31, some 98, some 32, some 31, some 0],
      none]) := by decide

example : argsSplit (fun _ => true) (CString.ofBytes [32, 97]) =
    some (some [some [some 0], some [some 97, some 0], none]) := by decide

/-! ## The grammar -/

/-- The characters words are made of, with a `none` for each that separates
words: whitespace outside of quotes and not escaped. The flag is set behind a
backslash, and the quote that is open goes along. -/
def lexChars : Bool → Option CChar → CString → List (Option CChar)
  | _, _, [] => []
  | true, quote, c :: str =>
      some (if c = dollar then dollarReplace else c) :: lexChars false quote str
  | false, quote, c :: str =>
      if quote = some c then some quoteReplace :: lexChars false none str
      else if userIsspace c ∧ quote = none then none :: lexChars false none str
      else if c = backslash ∧ str ≠ [] then lexChars true quote str
      else if quote = none ∧ isQuote c then some quoteReplace :: lexChars false (some c) str
      else some c :: lexChars false quote str

/-- What lies between the separators, with `pre` in front of it. -/
def wordsFrom : CString → List (Option CChar) → List CString
  | pre, [] => [pre]
  | pre, some c :: items => wordsFrom (pre ++ [c]) items
  | pre, none :: items => pre :: wordsFrom [] items

/-- The words of a command line. -/
def shellWords (str : CString) : List CString :=
  (wordsFrom [] (lexChars false none str)).filter (· ≠ [])

/-- A word in its allocation. -/
def wordBlock (w : CString) : ParamBlock := w.map (fun c => some c.val) ++ [some 0]

/-- The words are returned, or `NULL` because `malloc` failed or there are too
many. -/
def SplitRight (str : CString) : Prop :=
  ∀ grant, (argsSplit grant str = some (some ((shellWords str).map (fun w => some (wordBlock w)) ++
        [none])) ∧ (shellWords str).length ≤ 32) ∨
    argsSplit grant str = some none ∧
      ((∃ k ≤ (shellWords str).length, grant k = false) ∨ 32 < (shellWords str).length)

/-! ## The loop follows the grammar -/

/-- The separators of one run of whitespace are one. -/
def joinBlanks : Bool → List (Option CChar) → List (Option CChar)
  | _, [] => []
  | true, none :: items => joinBlanks true items
  | false, none :: items => none :: joinBlanks true items
  | _, some c :: items => some c :: joinBlanks false items

/-- A run over what the grammar makes of the string. -/
def splitItems (grant : Nat → Bool) (run : SplitRun) :
    SplitAt → List (Option CChar) → Except SplitStop SplitAt
  | st, [] => .ok st
  | st, some c :: items => do
      let st ← putParam run st c
      splitItems grant run st items
  | st, none :: items => do
      let st ← nextParam grant run st
      splitItems grant run st items

theorem joinBlanks_true_append (n : Nat) (items : List (Option CChar)) :
    joinBlanks true (List.replicate n none ++ items) = joinBlanks true items := by
  induction n with
  | zero => rfl
  | succ n ih => rw [List.replicate_succ, List.cons_append, joinBlanks, ih]

/-- Where no separator follows, it makes no difference whether one went before. -/
theorem joinBlanks_true {items : List (Option CChar)} (h : items.head? ≠ some none) :
    joinBlanks true items = joinBlanks false items := by
  match items, h with
  | [], _ => rfl
  | some c :: items, _ => rfl
  | none :: items, h => exact absurd rfl h

/-- Whitespace outside of quotes only separates. -/
theorem lexChars_blanks (str : CString) :
    lexChars false none str =
      List.replicate (str.takeWhile userIsspace).length none ++
        lexChars false none (str.dropWhile userIsspace) := by
  induction str with
  | nil => rfl
  | cons c str ih =>
      cases hc : userIsspace c with
      | false => simp [hc]
      | true =>
          rw [List.takeWhile_cons_of_pos hc, List.dropWhile_cons_of_pos hc, lexChars]
          simp [hc, List.replicate_succ, ← ih]

theorem lexChars_head {str : CString} (h : ∀ c ∈ str.head?, userIsspace c = false) :
    (lexChars false none str).head? ≠ some none := by
  match str with
  | [] => simp [lexChars]
  | c :: str =>
      have hc : userIsspace c = false := h c rfl
      rw [lexChars, if_neg (by simp), if_neg (by simp [hc])]
      split
      · next hs =>
          match str, hs.2 with
          | d :: str, _ => simp [lexChars]
      · split <;> simp

/-- The loop steps over whitespace that follows whitespace. -/
theorem splitLoop_blanks (grant : Nat → Bool) (run : SplitRun) (strch : Option CChar)
    (st : SplitAt) (str : CString) :
    splitLoop grant run (str.takeWhile userIsspace).length strch st str =
      splitLoop grant run 0 strch st (str.dropWhile userIsspace) := by
  induction str with
  | nil => rfl
  | cons c str ih =>
      cases hc : userIsspace c with
      | false => simp [hc]
      | true =>
          rw [List.takeWhile_cons_of_pos hc, List.dropWhile_cons_of_pos hc, List.length_cons,
            splitLoop, ih]

theorem Except.map_bind {ε α β γ : Type} (x : Except ε α) (f : α → β) (g : β → Except ε γ) :
    (x.map f >>= g) = x >>= fun a => g (f a) := by
  cases x <;> rfl

/-- Each run takes the items of the string one after the other. -/
theorem splitLoop_eq (grant : Nat → Bool) (run : SplitRun) (strch : Option CChar) (st : SplitAt)
    (str : CString) :
    splitLoop grant run 0 strch st str =
      splitItems grant run st (joinBlanks false (lexChars false strch str)) := by
  induction hn : str.length using Nat.strong_induction_on generalizing strch st str with
  | _ n ih =>
    match str with
    | [] => rfl
    | c :: str =>
        have hrest : ∀ rest : CString, rest.length ≤ str.length → ∀ strch st,
            splitLoop grant run 0 strch st rest =
              splitItems grant run st (joinBlanks false (lexChars false strch rest)) :=
          fun rest hlen strch st => ih rest.length (by rw [← hn]; exact Nat.lt_succ_of_le hlen)
            strch st rest rfl
        rw [splitLoop, splitBody, lexChars]
        by_cases hclose : strch = some c
        · rw [if_pos hclose, if_pos hclose, Except.map_bind, joinBlanks, splitItems]
          simp only [hrest str le_rfl]
        rw [if_neg hclose, if_neg hclose]
        by_cases hblank : userIsspace c ∧ strch = none
        · -- the run of whitespace has been stepped over, and is one separator
          have hhead : (lexChars false none (str.dropWhile userIsspace)).head? ≠ some none := by
            refine lexChars_head fun d hd => ?_
            have := List.head?_dropWhile_not userIsspace str
            rwa [Option.mem_def.mp hd] at this
          rw [if_pos hblank, if_pos hblank, Except.map_bind, joinBlanks, splitItems,
            lexChars_blanks, joinBlanks_true_append, joinBlanks_true hhead]
          simp only [splitLoop_blanks, hrest _ (List.dropWhile_suffix _).length_le]
        rw [if_neg hblank, if_neg hblank]
        by_cases hesc : c = backslash ∧ str ≠ []
        · match str, hesc.2 with
          | d :: str, _ =>
              rw [if_pos hesc, if_pos hesc, Except.map_bind, lexChars, joinBlanks, splitItems]
              simp only [splitLoop, hrest str (Nat.le_succ _)]
              rfl
        rw [if_neg hesc, if_neg hesc]
        by_cases hopen : strch = none ∧ isQuote c
        · rw [if_pos hopen, if_pos hopen, Except.map_bind, joinBlanks, splitItems]
          simp only [hrest str le_rfl]
        · rw [if_neg hopen, if_neg hopen, Except.map_bind, joinBlanks, splitItems]
          simp only [hrest str le_rfl]

/-! ## Stores at a known place -/

theorem storeSlot_at (a b : List (Option ParamBlock)) (x v : Option ParamBlock) (calls : Nat)
    (log : List SplitStore) (e : SplitStore) :
    storeSlot ⟨some (a ++ x :: b), calls, log⟩ a.length v e =
      .ok ⟨some (a ++ v :: b), calls, log ++ [e]⟩ := by
  simp [storeSlot]

theorem storeSlot_last (a : List (Option ParamBlock)) (x y v : Option ParamBlock) (calls : Nat)
    (log : List SplitStore) (e : SplitStore) :
    storeSlot ⟨some (a ++ [x, y]), calls, log⟩ (a.length + 1) v e =
      .ok ⟨some (a ++ [x, v]), calls, log ++ [e]⟩ := by
  simp [storeSlot]

theorem storeChar_at (a b : List (Option ParamBlock)) (u v : ParamBlock) (x : Option UInt8)
    (c : UInt8) (calls : Nat) (log : List SplitStore) :
    storeChar ⟨some (a ++ some (u ++ x :: v) :: b), calls, log⟩ a.length u.length c =
      .ok ⟨some (a ++ some (u ++ some c :: v) :: b), calls, log ++ [.char a.length u.length]⟩ := by
  simp [storeChar]

theorem allocParam_at (grant : Nat → Bool) (a b : List (Option ParamBlock))
    (x : Option ParamBlock) (calls size : Nat) (log : List SplitStore) :
    allocParam grant ⟨some (a ++ x :: b), calls, log⟩ a.length size =
      if grant calls then
        .ok ⟨some (a ++ some (List.replicate size none) :: b), calls + 1, log ++ [.slot a.length]⟩
      else .error (.failure ⟨some (a ++ none :: b), calls + 1, log ++ [.slot a.length]⟩) := by
  rw [allocParam, storeSlot_at]
  cases grant calls <;> rfl

section Places

variable (grant : Nat → Bool) (a b : List (Option ParamBlock)) (x : Option ParamBlock)
  (calls len : Nat) (log : List SplitStore)

theorem nextParam_alloc (hp : a.length + 1 < 32) :
    nextParam grant .alloc ⟨a.length, len, ⟨some (a ++ x :: b), calls, log⟩⟩ =
      if grant calls then
        .ok ⟨a.length + 1, 0, ⟨some (a ++ some (List.replicate (len + 1) none) :: b), calls + 1,
          log ++ [.slot a.length]⟩⟩
      else .error (.failure ⟨some (a ++ none :: b), calls + 1, log ++ [.slot a.length]⟩) := by
  have hlt : ¬ a.length + 1 ≥ 32 := by omega
  rw [nextParam]
  simp only [allocParam_at, if_neg hlt]
  cases grant calls <;> rfl

theorem splitEnd_alloc :
    splitEnd grant .alloc ⟨a.length, len, ⟨some (a ++ [x, none]), calls, log⟩⟩ =
      if grant calls then
        .ok ⟨a.length, len, ⟨some (a ++ [some (List.replicate (len + 1) none), none]), calls + 1,
          log ++ [.slot a.length, .last (a.length + 1)]⟩⟩
      else .error (.failure ⟨some (a ++ [none, none]), calls + 1, log ++ [.slot a.length]⟩) := by
  rw [splitEnd]
  simp only [allocParam_at]
  cases grant calls with
  | false => rfl
  | true =>
      simp only [if_true, bind, Except.bind, storeSlot_last, List.append_assoc]
      rfl

theorem nextParam_real (hp : a.length + 1 < 32) (u : ParamBlock) (y : Option UInt8) :
    nextParam grant .real ⟨a.length, u.length, ⟨some (a ++ some (u ++ [y]) :: b), calls, log⟩⟩ =
      .ok ⟨a.length + 1, 0, ⟨some (a ++ some (u ++ [some 0]) :: b), calls,
        log ++ [.char a.length u.length]⟩⟩ := by
  have hlt : ¬ a.length + 1 ≥ 32 := by omega
  rw [nextParam]
  simp only [storeChar_at, if_neg hlt]
  rfl

theorem splitEnd_real (u : ParamBlock) (y : Option UInt8) :
    splitEnd grant .real ⟨a.length, u.length, ⟨some (a ++ [some (u ++ [y]), none]), calls, log⟩⟩ =
      .ok ⟨a.length, u.length, ⟨some (a ++ [some (u ++ [some 0]), none]), calls,
        log ++ [.char a.length u.length, .last (a.length + 1)]⟩⟩ := by
  rw [splitEnd]
  simp only [storeChar_at, bind, Except.bind, storeSlot_last, List.append_assoc]
  rfl

theorem putParam_real (u v : ParamBlock) (y : Option UInt8) (c : CChar) :
    putParam .real ⟨a.length, u.length, ⟨some (a ++ some (u ++ y :: v) :: b), calls, log⟩⟩ c =
      .ok ⟨a.length, u.length + 1, ⟨some (a ++ some (u ++ some c.val :: v) :: b), calls,
        log ++ [.char a.length u.length]⟩⟩ := by
  rw [putParam]
  simp only [storeChar_at]
  rfl

end Places

theorem freeParams_at {a : List (Option ParamBlock)} (ha : ∀ x ∈ a, x ≠ none)
    (b : List (Option ParamBlock)) : freeParams (a ++ none :: b) = some () := by
  induction a with
  | nil => rfl
  | cons x a ih =>
      match x, ha x List.mem_cons_self with
      | some block, _ => exact ih fun x hx => ha x (List.mem_cons_of_mem _ hx)

/-! ## The three runs in terms of the words -/

/-- The parameter of a word as it is allocated. -/
def freshParam (w : CString) : Option ParamBlock := some (List.replicate (w.length + 1) none)

/-- The parameter with the first characters of its word, `t` being the others. -/
def partParam (pre t : CString) : Option ParamBlock :=
  some (pre.map (fun c => some c.val) ++ List.replicate (t.length + 1) none)

def doneParam (w : CString) : Option ParamBlock := some (wordBlock w)

theorem wordsFrom_cons (pre : CString) (items : List (Option CChar)) :
    ∃ t rest, wordsFrom pre items = (pre ++ t) :: rest := by
  induction items generalizing pre with
  | nil => exact ⟨[], [], by simp [wordsFrom]⟩
  | cons x items ih =>
      cases x with
      | none => exact ⟨[], wordsFrom [] items, by simp [wordsFrom]⟩
      | some c =>
          obtain ⟨t, rest, h⟩ := ih (pre ++ [c])
          exact ⟨c :: t, rest, by simpa [wordsFrom] using h⟩

/-- A store that stays inside of what the words need. -/
def StoreOk (ws : List CString) : SplitStore → Prop
  | .slot p => p < ws.length
  | .last p => p = ws.length
  | .char p l => ∃ w, ws[p]? = some w ∧ l ≤ w.length

/-- The items, and what follows the loop. -/
def splitRest (grant : Nat → Bool) (run : SplitRun) (st : SplitAt)
    (items : List (Option CChar)) : Except SplitStop SplitAt := do
  let st ← splitItems grant run st items
  splitEnd grant run st

theorem splitRest_next (grant : Nat → Bool) (run : SplitRun) (st : SplitAt)
    (items : List (Option CChar)) :
    splitRest grant run st (none :: items) =
      nextParam grant run st >>= fun st => splitRest grant run st items := by
  rw [splitRest, splitItems]
  cases nextParam grant run st <;> rfl

theorem splitRest_put (grant : Nat → Bool) (run : SplitRun) (st : SplitAt) (c : CChar)
    (items : List (Option CChar)) :
    splitRest grant run st (some c :: items) =
      putParam run st c >>= fun st => splitRest grant run st items := by
  rw [splitRest, splitItems]
  cases putParam run st c <;> rfl

theorem splitRun_eq (grant : Nat → Bool) (run : SplitRun) (str : CString) (m : SplitMem) :
    splitRun grant run str m =
      splitRest grant run ⟨0, 0, m⟩ (joinBlanks false (lexChars false none str)) := by
  rw [splitRun, splitRest, splitLoop_eq]

/-- The counting run finds one parameter for each word, if it can. -/
theorem splitItems_count (grant : Nat → Bool) {p : Nat} (hp : p < 32) (pre : CString)
    (items : List (Option CChar)) (m : SplitMem) :
    if p + (wordsFrom pre items).length ≤ 32 then
      ∃ len, splitItems grant .count ⟨p, pre.length, m⟩ items =
        .ok ⟨p + (wordsFrom pre items).length - 1, len, m⟩
    else splitItems grant .count ⟨p, pre.length, m⟩ items = .error (.failure m) := by
  induction items generalizing p pre with
  | nil =>
      have hone : p + (wordsFrom pre []).length ≤ 32 := Nat.succ_le_of_lt hp
      rw [if_pos hone]
      exact ⟨pre.length, rfl⟩
  | cons x items ih =>
      cases x with
      | some c =>
          have h := ih hp (pre ++ [c])
          rw [List.length_append] at h
          exact h
      | none =>
          rw [wordsFrom, List.length_cons, splitItems]
          by_cases hp' : p + 1 ≥ 32
          · have hpos : 0 < (wordsFrom [] items).length := by
              obtain ⟨t, rest, h⟩ := wordsFrom_cons [] items
              simp [h]
            rw [if_neg (by omega)]
            simp [nextParam, hp', bind, Except.bind]
          · have h := ih (by omega : p + 1 < 32) []
            have hnext : nextParam grant .count ⟨p, pre.length, m⟩ = .ok ⟨p + 1, 0, m⟩ := by
              simp [nextParam, hp', bind, Except.bind]
            rw [hnext]
            rw [show p + ((wordsFrom [] items).length + 1) =
              p + 1 + (wordsFrom [] items).length by omega]
            exact h

section Alloc

variable (grant : Nat → Bool) {ws : List CString}

/-- The memory of the allocating run between two parameters. -/
def allocMem (done : List CString) (n calls : Nat) (log : List SplitStore) : SplitMem :=
  ⟨some (done.map freshParam ++ List.replicate (n + 1) none), calls, log⟩

/-- A list of parameters that can be freed after `malloc` refused one. -/
def Refused (calls n : Nat) (r : Except SplitStop SplitAt) : Prop :=
  ∃ slots calls' log, r = .error (.failure ⟨some slots, calls', log⟩) ∧
    freeParams slots = some () ∧ ∃ k, calls ≤ k ∧ k < calls + n ∧ grant k = false

/-- A parameter of its length for each word. -/
def Allocated (ws : List CString) (calls n : Nat) (r : Except SplitStop SplitAt) : Prop :=
  ∃ len log, r = .ok ⟨ws.length - 1, len, ⟨some (ws.map freshParam ++ [none]), calls + n, log⟩⟩ ∧
    (∀ e ∈ log, StoreOk ws e) ∧ ∀ k, calls ≤ k → k < calls + n → grant k = true

theorem freeParams_done (done : List CString) (b : List (Option ParamBlock)) :
    freeParams (done.map freshParam ++ none :: b) = some () :=
  freeParams_at (by simp [freshParam]) b

theorem splitRest_alloc {done : List CString} {pre : CString} {items : List (Option CChar)}
    (hws : ws = done ++ wordsFrom pre items) (hlen : ws.length ≤ 32) (calls : Nat)
    {log : List SplitStore} (hlog : ∀ e ∈ log, StoreOk ws e) :
    Allocated grant ws calls (wordsFrom pre items).length (splitRest grant .alloc
        ⟨done.length, pre.length, allocMem done (wordsFrom pre items).length calls log⟩ items) ∨
      Refused grant calls (wordsFrom pre items).length (splitRest grant .alloc
        ⟨done.length, pre.length, allocMem done (wordsFrom pre items).length calls log⟩ items) := by
  induction items generalizing done pre calls log with
  | nil =>
      have hend := splitEnd_alloc grant (done.map freshParam) none calls pre.length log
      rw [List.length_map] at hend
      have hlast : done.length + 1 = ws.length := by simp [hws, wordsFrom]
      cases hg : grant calls with
      | false =>
          rw [hg] at hend
          exact .inr ⟨_, _, _, hend, freeParams_done done [none], calls, le_rfl,
            Nat.lt_succ_self _, hg⟩
      | true =>
          rw [hg] at hend
          have hgrant : ∀ k, calls ≤ k → k < calls + (wordsFrom pre []).length →
              grant k = true := by
            intro k hk hk'
            rw [wordsFrom, List.length_singleton] at hk'
            rwa [show k = calls by omega]
          refine .inl ⟨pre.length, log ++ [.slot done.length, .last (done.length + 1)], ?_, ?_,
            hgrant⟩
          · refine Eq.trans hend ?_
            simp [hws, wordsFrom, freshParam]
          · intro e he
            rcases List.mem_append.mp he with he | he
            · exact hlog e he
            · rcases List.mem_pair.mp he with rfl | rfl
              · exact Nat.lt_of_lt_of_eq (Nat.lt_succ_self _) hlast
              · exact hlast
  | cons x items ih =>
      cases x with
      | some c =>
          have h := @ih done (pre ++ [c]) hws calls log hlog
          rw [List.length_append] at h
          exact h
      | none =>
          have hpos : 0 < (wordsFrom [] items).length := by
            obtain ⟨t, rest, h⟩ := wordsFrom_cons [] items
            simp [h]
          have hlt : done.length + 1 < 32 := by
            have := congrArg List.length hws
            simp only [wordsFrom, List.length_append, List.length_cons] at this
            omega
          have hnext := nextParam_alloc grant (done.map freshParam)
            (List.replicate ((wordsFrom [] items).length + 1) none) none calls pre.length log
            (by rwa [List.length_map])
          rw [List.length_map] at hnext
          cases hg : grant calls with
          | false =>
              rw [hg] at hnext
              refine .inr ⟨_, calls + 1, log ++ [.slot done.length], ?_,
                freeParams_done done (List.replicate ((wordsFrom [] items).length + 1) none),
                calls, le_rfl, ?_, hg⟩
              · rw [splitRest_next]
                exact congrArg (· >>= fun st => splitRest grant .alloc st items) hnext
              · rw [wordsFrom, List.length_cons]
                omega
          | true =>
              rw [hg] at hnext
              have hslot : ∀ e ∈ log ++ [.slot done.length], StoreOk ws e := by
                intro e he
                rcases List.mem_append.mp he with he | he
                · exact hlog e he
                · rw [List.mem_singleton.mp he, hws]
                  simp [StoreOk, wordsFrom]
              have h := @ih (done ++ [pre]) [] (by simp [hws, wordsFrom]) (calls + 1) _ hslot
              have hr : splitRest grant .alloc ⟨done.length, pre.length,
                    allocMem done (wordsFrom pre (none :: items)).length calls log⟩
                    (none :: items) =
                  splitRest grant .alloc ⟨(done ++ [pre]).length, 0, allocMem (done ++ [pre])
                    (wordsFrom [] items).length (calls + 1) (log ++ [.slot done.length])⟩
                    items := by
                rw [splitRest_next]
                refine (congrArg (· >>= fun st => splitRest grant .alloc st items) hnext).trans ?_
                simp [allocMem, bind, Except.bind, freshParam]
              rw [hr, wordsFrom, List.length_cons]
              have hcalls : calls + 1 + (wordsFrom [] items).length =
                  calls + ((wordsFrom [] items).length + 1) := by omega
              rcases h with ⟨len, log', hr, hlog', hgrant⟩ |
                ⟨slots, calls', log', hr, hfree, k, hk, hk', hgk⟩
              · rw [hcalls] at hr
                refine .inl ⟨len, log', hr, hlog', fun k hk hk' => ?_⟩
                rcases Nat.eq_or_lt_of_le hk with rfl | hk
                · exact hg
                · exact hgrant k hk (hcalls ▸ hk')
              · exact .inr ⟨slots, calls', log', hr, hfree, k, by omega, by omega, hgk⟩

end Alloc

section Real

variable (grant : Nat → Bool) {ws : List CString}

/-- The memory of the writing run within a parameter. -/
def realMem (done : List CString) (pre t : CString) (rest : List CString) (calls : Nat)
    (log : List SplitStore) : SplitMem :=
  ⟨some (done.map doneParam ++ partParam pre t :: (rest.map freshParam ++ [none])), calls, log⟩

/-- Each word is written, within what has been allocated for it. -/
theorem splitRest_real {done : List CString} {pre t : CString} {rest : List CString}
    {items : List (Option CChar)} (hw : wordsFrom pre items = (pre ++ t) :: rest)
    (hws : ws = done ++ wordsFrom pre items) (hlen : ws.length ≤ 32) (calls : Nat)
    {log : List SplitStore} (hlog : ∀ e ∈ log, StoreOk ws e) :
    ∃ len log', splitRest grant .real ⟨done.length, pre.length, realMem done pre t rest calls log⟩
        items = .ok ⟨ws.length - 1, len, ⟨some (ws.map doneParam ++ [none]), calls, log'⟩⟩ ∧
      ∀ e ∈ log', StoreOk ws e := by
  have hstore : ∀ e ∈ log ++ [.char done.length pre.length], StoreOk ws e := by
    intro e he
    rcases List.mem_append.mp he with he | he
    · exact hlog e he
    · rw [List.mem_singleton.mp he]
      exact ⟨pre ++ t, by simp [hws, hw], by simp⟩
  induction items generalizing done pre t rest log with
  | nil =>
      obtain ⟨ht, rfl⟩ : t = [] ∧ rest = [] := by simpa [wordsFrom] using hw.symm
      have hend := splitEnd_real grant (done.map doneParam) calls log
        (pre.map fun c => some c.val) none
      rw [List.length_map, List.length_map] at hend
      have hlast : done.length + 1 = ws.length := by simp [hws, wordsFrom]
      refine ⟨pre.length, log ++ [.char done.length pre.length, .last (done.length + 1)], ?_, ?_⟩
      · subst ht
        refine Eq.trans hend ?_
        simp [hws, wordsFrom, doneParam, wordBlock]
      · intro e he
        rw [List.append_cons] at he
        rcases List.mem_append.mp he with he | he
        · exact hstore e he
        · rw [List.mem_singleton.mp he]
          exact hlast
  | cons x items ih =>
      cases x with
      | some c =>
          obtain ⟨t', rest', hw'⟩ := wordsFrom_cons (pre ++ [c]) items
          have heq : (pre ++ [c] ++ t') :: rest' = (pre ++ t) :: rest := hw'.symm.trans hw
          obtain ⟨ht, rfl⟩ : c :: t' = t ∧ rest' = rest := by simpa using heq
          subst ht
          have hput := putParam_real (done.map doneParam) (rest'.map freshParam ++ [none]) calls log
            (pre.map fun c => some c.val) (List.replicate (c :: t').length none) none c
          rw [List.length_map, List.length_map] at hput
          have hnext : ∀ e ∈ log ++ [.char done.length pre.length] ++
              [.char done.length (pre ++ [c]).length], StoreOk ws e := by
            intro e he
            rcases List.mem_append.mp he with he | he
            · exact hstore e he
            · rw [List.mem_singleton.mp he]
              exact ⟨pre ++ (c :: t'), by simp [hws, hw], by simp⟩
          have h := @ih done (pre ++ [c]) t' rest' hw' hws _ hstore hnext
          have hr : splitRest grant .real
                ⟨done.length, pre.length, realMem done pre (c :: t') rest' calls log⟩
                (some c :: items) =
              splitRest grant .real ⟨done.length, (pre ++ [c]).length, realMem done (pre ++ [c]) t'
                rest' calls (log ++ [.char done.length pre.length])⟩ items := by
            rw [splitRest_put]
            refine (congrArg (· >>= fun st => splitRest grant .real st items) hput).trans ?_
            simp [realMem, partParam, bind, Except.bind, List.replicate_succ]
          rw [hr]
          exact h
      | none =>
          obtain ⟨ht, hrest⟩ : t = [] ∧ rest = wordsFrom [] items := by
            simpa [wordsFrom, eq_comm] using hw
          obtain ⟨t', rest', hw'⟩ := wordsFrom_cons [] items
          rw [List.nil_append] at hw'
          have hlt : done.length + 1 < 32 := by
            have := congrArg List.length hws
            simp only [wordsFrom, hw', List.length_append, List.length_cons] at this
            omega
          subst ht
          have hnext := nextParam_real grant (done.map doneParam) (rest.map freshParam ++ [none])
            calls log (by rwa [List.length_map]) (pre.map fun c => some c.val) none
          rw [List.length_map, List.length_map] at hnext
          have hchar : ∀ e ∈ log ++ [.char done.length pre.length] ++
              [.char (done ++ [pre]).length ([] : CString).length], StoreOk ws e := by
            intro e he
            rcases List.mem_append.mp he with he | he
            · exact hstore e he
            · rw [List.mem_singleton.mp he]
              exact ⟨t', by simp [hws, wordsFrom, hw'], by simp⟩
          have h := @ih (done ++ [pre]) [] t' rest' hw' (by simp [hws, wordsFrom]) _ hstore hchar
          have hr : splitRest grant .real
                ⟨done.length, pre.length, realMem done pre [] rest calls log⟩ (none :: items) =
              splitRest grant .real ⟨(done ++ [pre]).length, 0, realMem (done ++ [pre]) [] t' rest'
                calls (log ++ [.char done.length pre.length])⟩ items := by
            rw [splitRest_next]
            refine (congrArg (· >>= fun st => splitRest grant .real st items) hnext).trans ?_
            simp [realMem, hrest, hw', bind, Except.bind, doneParam, wordBlock, freshParam,
              partParam]
          rw [hr]
          exact h

end Real

end LambdaOs
