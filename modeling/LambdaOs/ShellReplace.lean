import LambdaOs.Environ
import LambdaOs.Run
import LambdaOs.ShellSplit

/-!
# Variables in the arguments of a command

`_args_replace` of `lshell/src/shell.c`. An argument is the block it is
allocated in; each read and write is checked against the length the block has
at that moment, which an expansion changes. `expand` is what is to become of
the text.

The strings of the environment, what `malloc` and `realloc` refuse, and what is
in the bytes by which a block has grown are given.
-/

namespace LambdaOs

/-- The function is left at an access outside of the block, or with `-1`. -/
inductive ReplaceStop
  | fault
  | failed
deriving DecidableEq

/-! ## Blocks -/

abbrev ArgBytes := List UInt8

namespace ArgBytes

def load (b : ArgBytes) (k : Nat) : Except ReplaceStop UInt8 :=
  match b[k]? with
  | some c => .ok c
  | none => .error .fault

def store (b : ArgBytes) (k : Nat) (c : UInt8) : Except ReplaceStop ArgBytes :=
  if k < b.length then .ok (b.set k c) else .error .fault

def strlenFrom : List UInt8 → Except ReplaceStop Nat
  | [] => .error .fault
  | c :: m => if c = 0 then .ok 0 else (strlenFrom m).map (· + 1)

/-- `strlen(&args[i][k])` -/
def strlen (b : ArgBytes) (k : Nat) : Except ReplaceStop Nat := strlenFrom (b.drop k)

/-- `memcpy` within a block, from the first byte on. -/
def memcpy (dest src : Nat) : Nat → ArgBytes → Except ReplaceStop ArgBytes
  | 0, b => .ok b
  | n + 1, b => do
      let c ← load b src
      let b ← store b dest c
      memcpy (dest + 1) (src + 1) n b

def loadBytes (b : ArgBytes) (k : Nat) : Nat → Except ReplaceStop (List UInt8)
  | 0 => .ok []
  | n + 1 => do
      let c ← load b k
      let cs ← loadBytes b (k + 1) n
      return c :: cs

def storeBytes (k : Nat) : List UInt8 → ArgBytes → Except ReplaceStop ArgBytes
  | [], b => .ok b
  | c :: cs, b => do
      let b ← store b k c
      storeBytes (k + 1) cs b

/-- `memmove` within a block. -/
def memmove (b : ArgBytes) (dest src n : Nat) : Except ReplaceStop ArgBytes := do
  let cs ← loadBytes b src n
  storeBytes dest cs b

/-- What `realloc` makes of a block. -/
def resize (junk : Nat → UInt8) (b : ArgBytes) (size : Nat) : ArgBytes :=
  b.take size ++ (List.range (size - b.length)).map junk

end ArgBytes

/-! ## `_args_replace` -/

/-- `isalnum` of the user library. -/
def userIsalnum (c : UInt8) : Bool :=
  (65 ≤ c ∧ c ≤ 90) ∨ (97 ≤ c ∧ c ≤ 122) ∨ (48 ≤ c ∧ c ≤ 57)

def isVarByte (c : UInt8) : Bool := c = 95 ∨ userIsalnum c

/-- What the surroundings of a call decide. -/
structure ReplaceEnv where
  environ : Option (List EnvEntry)
  grant : Nat → Bool
  junk : Nat → UInt8

/-- `args[i]`, `arg_len` and `j`, and how often memory has been asked for. -/
structure ReplaceAt where
  block : ArgBytes
  argLen : Nat
  j : Nat
  calls : Nat
deriving DecidableEq

/-- The loop over `k`, which has `n` places to go. -/
def findVarEnd (b : ArgBytes) : Nat → Nat → Except ReplaceStop (Option Nat)
  | _, 0 => .ok none
  | k, n + 1 => do
      let c ← b.load k
      if isVarByte c then findVarEnd b (k + 1) n else return some k

/-- The expansion of the variable whose name ends in front of `k`. -/
def expandVar (env : ReplaceEnv) (st : ReplaceAt) (k : Nat) : Except ReplaceStop ReplaceAt := do
  let varSz := k - (st.j + 1)
  if varSz > 64 then .error .failed
  else if env.grant st.calls = false then .error .failed
  else
    let name ← st.block.loadBytes (st.j + 1) varSz
    let val := ((getenv env.environ (CString.ofBytes name)).map EnvValue.text).getD []
    let argLen := st.argLen - (varSz + 1) + val.length
    -- a size of 0 frees the block and gives NULL
    if argLen = 0 ∨ env.grant (st.calls + 1) = false then .error .failed
    else
      let b := st.block.resize env.junk argLen
      let n ← b.strlen k
      let b ← b.memmove (st.j + val.length) k n
      let b ← ArgBytes.storeBytes st.j (val.map Subtype.val) b
      let b ← b.store argLen 0
      return ⟨b, argLen, st.j + val.length, st.calls + 2⟩

/-- The body of the loop over `j`, with the `j++` that follows it. -/
def replaceBody (env : ReplaceEnv) (st : ReplaceAt) : Except ReplaceStop ReplaceAt := do
  let c ← st.block.load st.j
  if c = 36 then
    match ← findVarEnd st.block (st.j + 1) (st.argLen - st.j) with
    | none => return { st with j := st.j + 1 }
    | some k =>
        let st ← expandVar env st k
        return { st with j := st.j + 1 }
  else if c = dollarReplace.val then
    let b ← st.block.store st.j 36
    return { st with block := b, j := st.j + 1 }
  else if c = quoteReplace.val then
    let n ← st.block.strlen (st.j + 1)
    let b ← ArgBytes.memcpy st.j (st.j + 1) (n + 1) st.block
    return { st with block := b, argLen := st.argLen - 1 }
  else return { st with j := st.j + 1 }

/-- The loop over `j`; each round takes one off `arg_len - j`. -/
def replaceLoop (env : ReplaceEnv) : Nat → ReplaceAt → Except ReplaceStop ReplaceAt
  | 0, st => if st.j < st.argLen then .error .fault else .ok st
  | bound + 1, st =>
      if st.j < st.argLen then do
        let st ← replaceBody env st
        replaceLoop env bound st
      else .ok st

def argsReplaceFrom (env : ReplaceEnv) : Nat → List ArgBytes → Except ReplaceStop (List ArgBytes)
  | _, [] => .ok []
  | calls, b :: args => do
      let argLen ← b.strlen 0
      let st ← replaceLoop env argLen ⟨b, argLen, 0, calls⟩
      let args ← argsReplaceFrom env st.calls args
      return st.block :: args

/-- The arguments after `_args_replace` has returned 0. -/
def argsReplace (env : ReplaceEnv) (args : List ArgBytes) : Except ReplaceStop (List ArgBytes) :=
  argsReplaceFrom env 0 args

/-! ## What it is to do -/

/-- The value of a variable, empty if it is not set. -/
def varValue (environ : Option (List EnvEntry)) (name : CString) : CString :=
  ((environ.getD []).findSome? fun e =>
    if (name ++ [eqSign]).isPrefixOf e.text then some (e.text.drop (name.length + 1))
    else none).getD []

/-- The name of a variable at the beginning of a text. -/
def varName (s : CString) : CString := (s.takeWhile fun c => isVarByte c.val).take 64

/-- The text of an argument with its variables expanded. The characters of a
name are skipped once its value stands in their place. -/
def expand (environ : Option (List EnvEntry)) : Nat → CString → CString
  | _, [] => []
  | skip + 1, _ :: s => expand environ skip s
  | 0, c :: s =>
      if c = dollar then varValue environ (varName s) ++ expand environ (varName s).length s
      else if c = dollarReplace then dollar :: expand environ 0 s
      else if c = quoteReplace then expand environ 0 s
      else c :: expand environ 0 s

/-- A text in its block, with what else there is room for. -/
structure ArgText where
  text : CString
  room : List UInt8
deriving DecidableEq

def ArgText.block (a : ArgText) : ArgBytes := a.text.map Subtype.val ++ 0 :: a.room

/-- Each argument becomes its expansion. -/
def ReplaceRight (env : ReplaceEnv) (args : List ArgText) : Prop :=
  ∃ blocks, argsReplace env (args.map ArgText.block) = .ok blocks ∧
    List.Forall₂ (fun a b => ∃ room, b = ArgText.block ⟨expand env.environ 0 a.text, room⟩)
      args blocks

/-! ## Accesses within a block -/

namespace ArgBytes

theorem load_at (a b : ArgBytes) (c : UInt8) : load (a ++ c :: b) a.length = .ok c := by
  simp [load]

theorem store_at (a b : ArgBytes) (x c : UInt8) :
    store (a ++ x :: b) a.length c = .ok (a ++ c :: b) := by
  simp [store]

theorem strlenFrom_text (s : CString) (room : List UInt8) :
    strlenFrom (s.map Subtype.val ++ 0 :: room) = .ok s.length := by
  induction s with
  | nil => rfl
  | cons c s ih => rw [List.map_cons, List.cons_append, strlenFrom, if_neg c.2, ih]; rfl

theorem strlen_at (a : ArgBytes) (s : CString) (room : List UInt8) :
    strlen (a ++ (s.map Subtype.val ++ 0 :: room)) a.length = .ok s.length := by
  rw [strlen, List.drop_left, strlenFrom_text]

/-- Moving what follows a byte down by one; the last byte stays as well. -/
theorem memcpy_down (a m b : ArgBytes) (x : UInt8) :
    memcpy a.length (a.length + 1) m.length (a ++ x :: (m ++ b)) =
      .ok (a ++ (m ++ m.getLastD x :: b)) := by
  induction m generalizing a x with
  | nil => rfl
  | cons c m ih =>
      have hload := load_at (a ++ [x]) (m ++ b) c
      rw [List.length_append, List.length_singleton, List.append_assoc, List.singleton_append]
        at hload
      have h := ih (a ++ [c]) c
      rw [List.length_append, List.length_singleton, List.append_assoc, List.singleton_append] at h
      rw [List.length_cons, memcpy, List.cons_append, hload]
      simp only [bind, Except.bind, store_at]
      rw [h]
      simp [List.getLast?_cons]

theorem store_length {b b' : ArgBytes} {k : Nat} {c : UInt8} (h : store b k c = .ok b') :
    k < b.length ∧ b'.length = b.length := by
  rw [store] at h
  split at h
  · next hk =>
      cases h
      exact ⟨hk, List.length_set⟩
  · cases h

theorem storeBytes_length {b b' : ArgBytes} {k : Nat} {cs : List UInt8}
    (h : storeBytes k cs b = .ok b') : b'.length = b.length := by
  induction cs generalizing k b with
  | nil =>
      cases h
      rfl
  | cons c cs ih =>
      obtain ⟨b₁, hb₁, h⟩ := Except.bind_eq_ok_iff.mp h
      rw [ih h, (store_length hb₁).2]

/-- A store over as many bytes as there are. -/
theorem storeBytes_at (a old cs rest : List UInt8) (h : old.length = cs.length) :
    storeBytes a.length cs (a ++ (old ++ rest)) = .ok (a ++ (cs ++ rest)) := by
  induction cs generalizing a old with
  | nil =>
      rw [List.eq_nil_of_length_eq_zero h]
      rfl
  | cons c cs ih =>
      obtain ⟨x, old, rfl⟩ := List.exists_cons_of_length_eq_add_one h
      have hrest := ih (a ++ [c]) old (by simpa using h)
      rw [List.length_append, List.length_singleton, List.append_assoc, List.singleton_append]
        at hrest
      rw [storeBytes, List.cons_append, store_at, Except.bind_eq_ok_iff]
      refine ⟨_, rfl, ?_⟩
      rw [hrest, List.append_assoc]
      rfl

theorem storeBytes_eq {b : ArgBytes} {k : Nat} {cs : List UInt8} (h : k + cs.length ≤ b.length) :
    storeBytes k cs b = .ok (b.take k ++ (cs ++ b.drop (k + cs.length))) := by
  have hk : (b.take k).length = k := List.length_take_of_le (by omega)
  have hsplit : b = b.take k ++ ((b.drop k).take cs.length ++ b.drop (k + cs.length)) := by
    rw [← List.drop_drop, List.take_append_drop, List.take_append_drop]
  have hold : ((b.drop k).take cs.length).length = cs.length := by
    rw [List.length_take, List.length_drop]
    omega
  have hstore := storeBytes_at (b.take k) _ cs (b.drop (k + cs.length)) hold
  rwa [hk, ← hsplit] at hstore

theorem memmove_length {b b' : ArgBytes} {dest src n : Nat} (h : memmove b dest src n = .ok b') :
    b'.length = b.length := by
  obtain ⟨cs, -, h⟩ := Except.bind_eq_ok_iff.mp h
  exact storeBytes_length h

theorem length_resize (junk : Nat → UInt8) (b : ArgBytes) (size : Nat) :
    (b.resize junk size).length = size := by
  rw [resize, List.length_append, List.length_take, List.length_map, List.length_range]
  omega

end ArgBytes

/-! ## A variable -/

/-- The terminator ends a name. -/
theorem findVarEnd_ne_none {b : ArgBytes} {n k i : Nat} (hi : i < n) (h0 : b[k + i]? = some 0) :
    findVarEnd b k n ≠ .ok none := by
  induction n generalizing k i with
  | zero => omega
  | succ n ih =>
      intro h
      obtain ⟨c, hc, h⟩ := Except.bind_eq_ok_iff.mp h
      cases i with
      | zero =>
          rw [Nat.add_zero] at h0
          rw [ArgBytes.load, h0] at hc
          cases hc
          exact absurd h (by simp [isVarByte, userIsalnum, pure, Except.pure])
      | succ i =>
          split at h
          · exact ih (by omega : i < n) (by rwa [show k + 1 + i = k + (i + 1) by omega]) h
          · cases h

/-- The terminator is put behind a block that has the length of the text. -/
theorem expandVar_ne_ok (env : ReplaceEnv) (st st' : ReplaceAt) (k : Nat) :
    expandVar env st k ≠ .ok st' := by
  intro h
  rw [expandVar] at h
  split at h
  · cases h
  · split at h
    · cases h
    · obtain ⟨name, -, h⟩ := Except.bind_eq_ok_iff.mp h
      dsimp only at h
      split at h
      · cases h
      · obtain ⟨n, -, h⟩ := Except.bind_eq_ok_iff.mp h
        obtain ⟨b₁, hmove, h⟩ := Except.bind_eq_ok_iff.mp h
        obtain ⟨b₂, hval, h⟩ := Except.bind_eq_ok_iff.mp h
        obtain ⟨b₃, hend, -⟩ := Except.bind_eq_ok_iff.mp h
        have hlt := (ArgBytes.store_length hend).1
        rw [ArgBytes.storeBytes_length hval, ArgBytes.memmove_length hmove,
          ArgBytes.length_resize] at hlt
        exact Nat.lt_irrefl _ hlt

theorem replaceBody_dollar (env : ReplaceEnv) {st : ReplaceAt} (st' : ReplaceAt)
    (hdollar : st.block[st.j]? = some 36) (hend : st.block[st.argLen]? = some 0)
    (hj : st.j < st.argLen) : replaceBody env st ≠ .ok st' := by
  intro h
  obtain ⟨c, hc, h⟩ := Except.bind_eq_ok_iff.mp h
  rw [ArgBytes.load, hdollar] at hc
  cases hc
  rw [if_pos rfl] at h
  obtain ⟨r, hr, h⟩ := Except.bind_eq_ok_iff.mp h
  cases r with
  | none =>
      refine findVarEnd_ne_none (by omega : st.argLen - (st.j + 1) < _) ?_ hr
      rwa [Nat.add_sub_cancel' hj]
  | some k =>
      obtain ⟨st₁, hst₁, -⟩ := Except.bind_eq_ok_iff.mp h
      exact expandVar_ne_ok env st st₁ k hst₁

/-! ## The loop over an argument -/

/-- The block with what has been gone over and what is to come. -/
def textBlock (done todo : CString) (room : List UInt8) : ArgBytes :=
  done.map Subtype.val ++ (todo.map Subtype.val ++ 0 :: room)

theorem textBlock_cons (done : CString) (c : CChar) (todo : CString) (room : List UInt8) :
    textBlock done (c :: todo) room = textBlock (done ++ [c]) todo room := by
  simp [textBlock]

theorem length_done (done : CString) : (done.map Subtype.val).length = done.length :=
  List.length_map _

/-- The terminator is at the end of the text. -/
theorem textBlock_end (done todo : CString) (room : List UInt8) :
    (textBlock done todo room)[done.length + todo.length]? = some 0 := by
  simp [textBlock]

theorem load_textBlock (done : CString) (c : CChar) (todo : CString) (room : List UInt8) :
    (textBlock done (c :: todo) room).load done.length = .ok c.val := by
  rw [← length_done]
  exact ArgBytes.load_at _ _ _

section Body

variable (env : ReplaceEnv) (done todo : CString) (room : List UInt8) (argLen calls : Nat)

theorem replaceBody_plain {c : CChar} (h : c ≠ dollar) (hd : c ≠ dollarReplace)
    (hq : c ≠ quoteReplace) :
    replaceBody env ⟨textBlock done (c :: todo) room, argLen, done.length, calls⟩ =
      .ok ⟨textBlock (done ++ [c]) todo room, argLen, (done ++ [c]).length, calls⟩ := by
  have h36 : c.val ≠ 36 := fun e => h (Subtype.ext e)
  rw [replaceBody]
  simp only [load_textBlock, bind, Except.bind]
  rw [if_neg h36, if_neg fun e => hd (Subtype.ext e), if_neg fun e => hq (Subtype.ext e),
    textBlock_cons, List.length_append]
  rfl

theorem replaceBody_dollarReplace :
    replaceBody env ⟨textBlock done (dollarReplace :: todo) room, argLen, done.length, calls⟩ =
      .ok ⟨textBlock (done ++ [dollar]) todo room, argLen, (done ++ [dollar]).length, calls⟩ := by
  have hstore : (textBlock done (dollarReplace :: todo) room).store done.length 36 =
      .ok (textBlock done (dollar :: todo) room) := by
    rw [← length_done]
    exact ArgBytes.store_at _ _ _ _
  rw [replaceBody]
  simp only [load_textBlock, bind, Except.bind]
  rw [if_neg (by decide), if_true, hstore, textBlock_cons, List.length_append]
  rfl

theorem replaceBody_quoteReplace :
    replaceBody env ⟨textBlock done (quoteReplace :: todo) room, argLen, done.length, calls⟩ =
      .ok ⟨textBlock done todo (0 :: room), argLen - 1, done.length, calls⟩ := by
  have hlen : (textBlock done (quoteReplace :: todo) room).strlen (done.length + 1) =
      .ok todo.length := by
    have := ArgBytes.strlen_at ((done ++ [quoteReplace]).map Subtype.val) todo room
    rw [length_done, List.length_append] at this
    rw [textBlock_cons]
    exact this
  have hcopy : ArgBytes.memcpy done.length (done.length + 1) (todo.length + 1)
      (textBlock done (quoteReplace :: todo) room) = .ok (textBlock done todo (0 :: room)) := by
    have := ArgBytes.memcpy_down (done.map Subtype.val) (todo.map Subtype.val ++ [0]) room
      quoteReplace.val
    rw [length_done, List.length_append, List.length_map, List.append_assoc, List.append_assoc,
      List.getLastD_concat] at this
    exact this
  rw [replaceBody]
  simp only [load_textBlock, bind, Except.bind]
  rw [if_neg (by decide), if_neg (by decide), if_true, hlen]
  simp only [hcopy]
  rfl

end Body

section Loop

variable (env : ReplaceEnv)

/-- Without variables the rest of the text is gone over in place. -/
theorem replaceLoop_plain {todo : CString} (h : dollar ∉ todo) (done : CString)
    (room : List UInt8) (calls : Nat) {bound : Nat} (hbound : todo.length ≤ bound) :
    ∃ argLen j room', replaceLoop env bound
        ⟨textBlock done todo room, done.length + todo.length, done.length, calls⟩ =
      .ok ⟨textBlock (done ++ expand env.environ 0 todo) [] room', argLen, j, calls⟩ := by
  induction todo generalizing done room bound with
  | nil => cases bound <;> simp [replaceLoop, expand]
  | cons c todo ih =>
      rw [List.mem_cons, not_or] at h
      obtain ⟨bound, rfl⟩ := Nat.exists_eq_add_of_le' (Nat.lt_of_lt_of_le (Nat.succ_pos _) hbound)
      have hle : todo.length ≤ bound := Nat.le_of_succ_le_succ hbound
      have hj : done.length < done.length + (c :: todo).length := by simp
      have hlen : ∀ d : CChar, done.length + (c :: todo).length =
          (done ++ [d]).length + todo.length := by
        intro d
        simp only [List.length_append, List.length_cons, List.length_nil]
        omega
      rw [replaceLoop, if_pos hj, expand, if_neg (Ne.symm h.1)]
      by_cases hd : c = dollarReplace
      · subst hd
        rw [if_pos rfl, replaceBody_dollarReplace, hlen dollar,
          List.append_cons done dollar (expand env.environ 0 todo)]
        exact ih h.2 (done ++ [dollar]) room hle
      by_cases hq : c = quoteReplace
      · subst hq
        rw [if_neg hd, if_pos rfl, replaceBody_quoteReplace]
        exact ih h.2 done (0 :: room) hle
      · rw [if_neg hd, if_neg hq, replaceBody_plain env _ _ _ _ _ (Ne.symm h.1) hd hq, hlen c,
          List.append_cons done c (expand env.environ 0 todo)]
        exact ih h.2 (done ++ [c]) room hle

/-- The first variable is reached, and there is no way past it. -/
theorem replaceLoop_dollar {todo : CString} (h : dollar ∈ todo) (done : CString)
    (room : List UInt8) (calls bound : Nat) (st : ReplaceAt) :
    replaceLoop env bound
      ⟨textBlock done todo room, done.length + todo.length, done.length, calls⟩ ≠ .ok st := by
  induction todo generalizing done room bound with
  | nil => cases h
  | cons c todo ih =>
      have hj : done.length < done.length + (c :: todo).length := by simp
      cases bound with
      | zero =>
          rw [replaceLoop, if_pos hj]
          exact nofun
      | succ bound =>
          have hlen : ∀ d : CChar, done.length + (c :: todo).length =
              (done ++ [d]).length + todo.length := by
            intro d
            simp only [List.length_append, List.length_cons, List.length_nil]
            omega
          rw [replaceLoop, if_pos hj]
          by_cases hc : c = dollar
          · intro hrun
            obtain ⟨st₁, hst₁, -⟩ := Except.bind_eq_ok_iff.mp hrun
            subst hc
            exact replaceBody_dollar env st₁ (by simp [textBlock, dollar])
              (textBlock_end done (dollar :: todo) room) hj hst₁
          have hmem : dollar ∈ todo := by
            rcases List.mem_cons.mp h with rfl | h
            · exact absurd rfl hc
            · exact h
          by_cases hd : c = dollarReplace
          · subst hd
            rw [replaceBody_dollarReplace, hlen dollar]
            exact ih hmem (done ++ [dollar]) room bound
          by_cases hq : c = quoteReplace
          · subst hq
            rw [replaceBody_quoteReplace]
            exact ih hmem done (0 :: room) bound
          · rw [replaceBody_plain env _ _ _ _ _ hc hd hq, hlen c]
            exact ih hmem (done ++ [c]) room bound

end Loop

/-! ## All arguments -/

theorem textBlock_nil (text : CString) (room : List UInt8) :
    textBlock [] text room = ArgText.block ⟨text, room⟩ := rfl

theorem textBlock_done (text : CString) (room : List UInt8) :
    textBlock text [] room = ArgText.block ⟨text, room⟩ := rfl

theorem strlen_block (a : ArgText) : a.block.strlen 0 = .ok a.text.length :=
  ArgBytes.strlen_at [] a.text a.room

theorem argsReplaceFrom_plain (env : ReplaceEnv) {args : List ArgText}
    (h : ∀ a ∈ args, dollar ∉ a.text) (calls : Nat) :
    ∃ blocks, argsReplaceFrom env calls (args.map ArgText.block) = .ok blocks ∧
      List.Forall₂ (fun a b => ∃ room, b = ArgText.block ⟨expand env.environ 0 a.text, room⟩)
        args blocks := by
  induction args generalizing calls with
  | nil => exact ⟨[], rfl, .nil⟩
  | cons a args ih =>
      obtain ⟨argLen, j, room, hloop⟩ := replaceLoop_plain env (h a List.mem_cons_self) [] a.room
        calls le_rfl
      rw [List.length_nil, Nat.zero_add, textBlock_nil, List.nil_append, textBlock_done] at hloop
      obtain ⟨blocks, hblocks, hall⟩ := ih (fun a ha => h a (List.mem_cons_of_mem _ ha)) calls
      refine ⟨_ :: blocks, ?_, .cons ⟨room, rfl⟩ hall⟩
      rw [List.map_cons, argsReplaceFrom, strlen_block]
      simp only [bind, Except.bind, hloop, hblocks]
      rfl

theorem argsReplaceFrom_dollar (env : ReplaceEnv) {args : List ArgText}
    (h : ∃ a ∈ args, dollar ∈ a.text) (calls : Nat) (blocks : List ArgBytes) :
    argsReplaceFrom env calls (args.map ArgText.block) ≠ .ok blocks := by
  induction args generalizing calls blocks with
  | nil => simp at h
  | cons a args ih =>
      intro hrun
      rw [List.map_cons, argsReplaceFrom, strlen_block] at hrun
      obtain ⟨_, hlen, hrun⟩ := Except.bind_eq_ok_iff.mp hrun
      cases hlen
      obtain ⟨st, hloop, hrun⟩ := Except.bind_eq_ok_iff.mp hrun
      obtain ⟨rest, hrest, -⟩ := Except.bind_eq_ok_iff.mp hrun
      by_cases ha : dollar ∈ a.text
      · have := replaceLoop_dollar env ha [] a.room calls a.text.length st
        rw [List.length_nil, Nat.zero_add] at this
        exact this hloop
      · obtain ⟨b, hb, hbd⟩ := h
        rcases List.mem_cons.mp hb with rfl | hb
        · exact ha hbd
        · exact ih ⟨b, hb, hbd⟩ st.calls rest hrest

/-- The arguments become what they are to become when there is no variable in
them: each expansion takes a block without room for the terminator, also when
all memory that is asked for is granted. -/
theorem args_replace_right_iff (env : ReplaceEnv) (args : List ArgText) :
    ReplaceRight env args ↔ ∀ a ∈ args, dollar ∉ a.text := by
  constructor
  · rintro ⟨blocks, hrun, -⟩ a ha hd
    exact argsReplaceFrom_dollar env ⟨a, ha, hd⟩ 0 blocks hrun
  · exact fun h => argsReplaceFrom_plain env h 0

/-- `$A` with `A=b`: the terminator is stored behind the block. With `A` unset
the block is freed instead, and `-1` returned. -/
theorem args_replace_wrong :
    argsReplace ⟨some [⟨1, CString.ofBytes [65, 61, 98]⟩], fun _ => true, fun _ => 0⟩
      [ArgText.block ⟨CString.ofBytes [36, 65], []⟩] = .error .fault ∧
    argsReplace ⟨none, fun _ => true, fun _ => 0⟩
      [ArgText.block ⟨CString.ofBytes [36, 65], []⟩] = .error .failed ∧
    ¬ ReplaceRight ⟨some [⟨1, CString.ofBytes [65, 61, 98]⟩], fun _ => true, fun _ => 0⟩
      [⟨CString.ofBytes [36, 65], []⟩] := by
  have hfault : argsReplace ⟨some [⟨1, CString.ofBytes [65, 61, 98]⟩], fun _ => true, fun _ => 0⟩
      [ArgText.block ⟨CString.ofBytes [36, 65], []⟩] = .error .fault := by decide
  refine ⟨hfault, by decide, ?_⟩
  rintro ⟨blocks, hrun, -⟩
  cases hfault.symm.trans hrun

end LambdaOs
