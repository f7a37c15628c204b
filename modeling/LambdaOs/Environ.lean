import LambdaOs.FsWalk

/-!
# The environment of a process

`getenv` and `setenv` of the user library (`stdlib/getenv.c`,
`stdlib/setenv.c`). The environment is an array of `NAME=value` strings, each
in an allocation of its own, or `NULL` when the process was started without
one. Both functions compare as many characters as the name of the stored
entry has, so what they find is the first entry whose name is a prefix of the
one asked for (`picks`).

`malloc` and `realloc` are the allocation's number (`0` for `NULL`) and
whether the array could grow. What is freed is not tracked.
-/

namespace LambdaOs

/-! ## The string functions -/

def eqSign : CChar := ⟨61, by decide⟩
def percent : CChar := ⟨37, by decide⟩
def letterS : CChar := ⟨115, by decide⟩

/-- `strncmp`; only whether the result is zero is ever used. -/
def strncmp : CString → CString → Nat → Int
  | _, _, 0 => 0
  | [], [], _ + 1 => 0
  | [], d :: _, _ + 1 => 0 - d.val.toNat
  | c :: _, [], _ + 1 => c.val.toNat - 0
  | c :: s, d :: t, n + 1 =>
      if n = 0 ∨ c ≠ d then c.val.toNat - d.val.toNat else strncmp s t n

/-- `print` on the plain characters, `%%` and `%s` of a format, with the text
put out so far. `none` is a stop at `maxlen`, or another directive. -/
def print (maxlen : Nat) : Bool → CString → List CString → CString → Option CString
  | _, [], _, out => some out
  | isInSpec, c :: format, varg, out =>
      if maxlen ≤ out.length then none
      else if isInSpec = false then
        if c = percent then print maxlen true format varg out
        else print maxlen false format varg (out ++ [c])
      else if c = percent then print maxlen false format varg (out ++ [percent])
      else if c = letterS then
        match varg with
        | [] => none
        | arg :: varg => print maxlen false format varg (out ++ arg)
      else none

def snprintf (size : Nat) (format : CString) (varg : List CString) : Option CString :=
  print size false format varg []

/-! ## The two functions -/

/-- A string of the environment, in its allocation. -/
structure EnvEntry where
  block : Nat
  text : CString
deriving DecidableEq

/-- A pointer into a string of the environment, and what it points at. -/
structure EnvValue where
  block : Nat
  off : Nat
  text : CString
deriving DecidableEq

def getenvLoop (name : CString) : List EnvEntry → Option EnvValue
  | [] => none
  | e :: environ =>
      match strchr e.text eqSign with
      | some eq =>
          if strncmp e.text name eq = 0 then some ⟨e.block, eq + 1, e.text.drop (eq + 1)⟩
          else getenvLoop name environ
      | none => getenvLoop name environ

def getenv (environ : Option (List EnvEntry)) (name : CString) : Option EnvValue :=
  environ.bind (getenvLoop name)

/-- The loop of `setenv`; `none` when it reaches the end of the array. -/
def setenvLoop (name : CString) (overwrite : Int) (new : EnvEntry) :
    List EnvEntry → Option (List EnvEntry)
  | [] => none
  | e :: environ =>
      match strchr e.text eqSign with
      | some eq =>
          if strncmp e.text name eq = 0 then
            some (if overwrite ≠ 0 then new :: environ else e :: environ)
          else (setenvLoop name overwrite new environ).map (e :: ·)
      | none => (setenvLoop name overwrite new environ).map (e :: ·)

/-- `"%s=%s"` -/
def assignFormat : CString := [percent, letterS, eqSign, percent, letterS]

/-- The return value and the environment; `new` is what `malloc` returns, and
`grown` whether `realloc` succeeds. -/
def setenv (environ : Option (List EnvEntry)) (name value : Option CString) (overwrite : Int)
    (new : Nat) (grown : Bool) : Int × Option (List EnvEntry) :=
  match environ, name, value with
  | some env, some name, some value =>
      if name.length = 0 then (-1, some env)
      else if new = 0 then (-1, some env)
      else
        let len := name.length + value.length + 2
        let entry : EnvEntry := ⟨new, (snprintf len assignFormat [name, value]).getD []⟩
        match setenvLoop name overwrite entry env with
        | some env => (0, some env)
        | none => if grown then (0, some (env ++ [entry])) else (-1, some env)
  | environ, _, _ => (-1, environ)

/-! ## What they compute -/

theorem CChar.sub_eq_zero {c d : CChar} :
    (c.val.toNat : Int) - (d.val.toNat : Int) = 0 ↔ c = d := by
  constructor
  · intro h
    exact Subtype.ext (UInt8.toNat_inj.mp (by omega))
  · rintro rfl
    exact Int.sub_self _

/-- Comparing as many characters as the first string's front has asks whether
that is the front of the second. -/
theorem strncmp_append_eq_zero {n t x : CString} :
    strncmp (n ++ t) x n.length = 0 ↔ n <+: x := by
  induction n generalizing x with
  | nil => simp [strncmp]
  | cons c n ih =>
      cases x with
      | nil =>
          have := c.toNat_pos
          simp only [List.cons_append, List.length_cons, strncmp, List.prefix_nil, reduceCtorEq,
            iff_false]
          omega
      | cons d x =>
          rw [List.cons_append, List.length_cons, strncmp, List.cons_prefix_cons]
          by_cases hcd : c = d
          · cases n with
            | nil => simp [hcd]
            | cons e n =>
                rw [if_neg (by simp [hcd]), ih]
                simp [hcd]
          · rw [if_pos (.inr hcd), CChar.sub_eq_zero]
            simp [hcd]

theorem strchr_append {n t : CString} {c : CChar} (hn : c ∉ n) :
    strchr (n ++ c :: t) c = some n.length := by
  have hnone : n.findIdx? (fun x => decide (x = c)) = none := by
    refine List.findIdx?_eq_none_iff.mpr fun x hx => decide_eq_false ?_
    rintro rfl
    exact hn hx
  simp [strchr, List.findIdx?_append, hnone, List.findIdx?_cons]

/-- The format of `setenv` needs all the room it was given, and no more. -/
theorem snprintf_assign (name value : CString) :
    snprintf (name.length + value.length + 2) assignFormat [name, value] =
      some (name ++ eqSign :: value) := by
  have h1 : ¬ name.length + value.length + 2 ≤ name.length := by omega
  have h2 : ¬ name.length + value.length + 2 ≤ name.length + 1 := by omega
  have hs : letterS ≠ percent := by decide
  have he : eqSign ≠ percent := by decide
  simp [snprintf, assignFormat, print, h1, h2, hs, he]

/-! ## Environments of names and values -/

/-- A string `name=value` in its allocation. -/
structure EnvVar where
  block : Nat
  name : CString
  value : CString
  plain : eqSign ∉ name
deriving DecidableEq

namespace EnvVar

def entry (x : EnvVar) : EnvEntry := ⟨x.block, x.name ++ eqSign :: x.value⟩

/-- The pointer `getenv` makes of it. -/
def found (x : EnvVar) : EnvValue := ⟨x.block, x.name.length + 1, x.value⟩

theorem strchr_entry (x : EnvVar) : strchr x.entry.text eqSign = some x.name.length :=
  strchr_append x.plain

theorem strncmp_entry (x : EnvVar) (name : CString) :
    strncmp x.entry.text name x.name.length = 0 ↔ x.name <+: name :=
  strncmp_append_eq_zero

theorem drop_entry (x : EnvVar) : x.entry.text.drop (x.name.length + 1) = x.value := by
  rw [entry, List.drop_append]
  simp

end EnvVar

/-- The environment of these variables, or none at all. -/
def environOf (vars : Option (List EnvVar)) : Option (List EnvEntry) :=
  vars.map (·.map EnvVar.entry)

/-- The variable both functions take for `name`: the first whose own name is a
prefix of it. -/
def picks (vars : List EnvVar) (name : CString) : Option EnvVar :=
  vars.find? fun x => x.name <+: name

theorem picks_cons (x : EnvVar) (vars : List EnvVar) (name : CString) :
    picks (x :: vars) name = if x.name <+: name then some x else picks vars name := by
  rw [picks, List.find?_cons]
  by_cases h : x.name <+: name <;> simp [h, picks]

theorem mem_of_picks {vars : List EnvVar} {name : CString} {x : EnvVar}
    (h : picks vars name = some x) : x ∈ vars ∧ x.name <+: name :=
  ⟨List.mem_of_find?_eq_some h, by simpa using List.find?_some h⟩

theorem getenvLoop_eq (vars : List EnvVar) (name : CString) :
    getenvLoop name (vars.map EnvVar.entry) = (picks vars name).map EnvVar.found := by
  induction vars with
  | nil => rfl
  | cons x vars ih =>
      rw [List.map_cons, getenvLoop, x.strchr_entry, picks_cons]
      simp only [x.strncmp_entry, x.drop_entry, ih]
      split <;> rfl

theorem getenv_environOf (vars : List EnvVar) (name : CString) :
    getenv (environOf (some vars)) name = (picks vars name).map EnvVar.found :=
  getenvLoop_eq vars name

/-- `x` in the place of the variable picked for its name, or else at the end. -/
def assign (x : EnvVar) : List EnvVar → List EnvVar
  | [] => [x]
  | y :: vars => if y.name <+: x.name then x :: vars else y :: assign x vars

theorem setenvLoop_eq (x : EnvVar) (overwrite : Int) (vars : List EnvVar) :
    setenvLoop x.name overwrite x.entry (vars.map EnvVar.entry) =
      if (picks vars x.name).isSome then
        some ((if overwrite ≠ 0 then assign x vars else vars).map EnvVar.entry)
      else none := by
  induction vars with
  | nil => rfl
  | cons y vars ih =>
      rw [List.map_cons, setenvLoop, y.strchr_entry, picks_cons]
      simp only [y.strncmp_entry, ih, assign]
      by_cases hy : y.name <+: x.name
      · by_cases how : overwrite = 0 <;> simp [hy, how]
      · by_cases hp : (picks vars x.name).isSome <;> by_cases how : overwrite = 0 <;>
          simp [hy, hp, how]

theorem assign_eq_append {x : EnvVar} {vars : List EnvVar} (h : picks vars x.name = none) :
    assign x vars = vars ++ [x] := by
  induction vars with
  | nil => rfl
  | cons y vars ih =>
      rw [picks_cons] at h
      by_cases hy : y.name <+: x.name
      · simp [hy] at h
      · rw [if_neg hy] at h
        rw [assign, if_neg hy, ih h]
        rfl

/-- What `setenv` makes of an environment of variables. -/
theorem setenv_environOf (x : EnvVar) (overwrite : Int) (vars : List EnvVar) (hname : x.name ≠ [])
    (hnew : x.block ≠ 0) :
    setenv (environOf (some vars)) (some x.name) (some x.value) overwrite x.block true =
      (0, environOf (some (if overwrite ≠ 0 ∨ picks vars x.name = none then assign x vars
        else vars))) := by
  have hlen : ¬ x.name.length = 0 := by simpa using hname
  have hentry : (⟨x.block, (snprintf (x.name.length + x.value.length + 2) assignFormat
      [x.name, x.value]).getD []⟩ : EnvEntry) = x.entry := by
    rw [snprintf_assign]
    rfl
  rw [environOf, Option.map_some, setenv]
  simp only [if_neg hlen, if_neg hnew, hentry, setenvLoop_eq]
  cases hp : picks vars x.name with
  | none => simp [assign_eq_append hp, environOf]
  | some y => by_cases how : overwrite = 0 <;> simp [how, environOf]

/-! ## The laws of a map -/

/-- An entry of the environment has this name. -/
def HasName (environ : Option (List EnvEntry)) (name : CString) : Prop :=
  ∃ env ∈ environ, ∃ e ∈ env, ∃ value, e.text = name ++ eqSign :: value

/-- The environment is a map at the names `a` and `b`: setting `a` to `v` gives
it this value and leaves `b` alone, setting it without overwriting does so
only when it was not set, and exactly the names without an entry are not
found. -/
structure EnvLaws (environ : Option (List EnvEntry)) (a b v : CString) (new : Nat) : Prop where
  set : (getenv (setenv environ (some a) (some v) 1 new true).2 a).map EnvValue.text = some v
  others : b ≠ a → getenv (setenv environ (some a) (some v) 1 new true).2 b = getenv environ b
  keeps : HasName environ a → (setenv environ (some a) (some v) 0 new true).2 = environ
  adds : ¬ HasName environ a →
    HasName (setenv environ (some a) (some v) 0 new true).2 a ∧
      (getenv (setenv environ (some a) (some v) 0 new true).2 a).map EnvValue.text = some v
  null : getenv environ b = none ↔ ¬ HasName environ b

section Laws

variable {vars : List EnvVar} {x : EnvVar} {name : CString}

theorem hasName_environOf (hname : eqSign ∉ name) :
    HasName (environOf (some vars)) name ↔ name ∈ vars.map EnvVar.name := by
  rw [List.mem_map]
  constructor
  · rintro ⟨env, henv, e, he, value, htext⟩
    obtain rfl : vars.map EnvVar.entry = env := Option.some.inj henv
    obtain ⟨y, hy, rfl⟩ := List.mem_map.mp he
    refine ⟨y, hy, (List.append_inj htext ?_).1⟩
    -- the first `=` is behind the name on both sides
    have hlen := y.strchr_entry
    rw [htext, strchr_append hname] at hlen
    exact (Option.some.inj hlen).symm
  · rintro ⟨y, hy, rfl⟩
    exact ⟨_, rfl, y.entry, List.mem_map_of_mem hy, y.value, rfl⟩

/-- The name picks no variable, or a variable has it. -/
def Exact (vars : List EnvVar) (name : CString) : Prop :=
  picks vars name = none ∨ name ∈ vars.map EnvVar.name

theorem picks_of_mem (h : name ∈ vars.map EnvVar.name) : picks vars name ≠ none := by
  obtain ⟨y, hy, rfl⟩ := List.mem_map.mp h
  intro hnone
  simpa using List.find?_eq_none.mp hnone y hy

theorem picks_assign_self (x : EnvVar) (vars : List EnvVar) :
    picks (assign x vars) x.name = some x := by
  induction vars with
  | nil => rw [assign, picks_cons, if_pos (List.prefix_refl _)]
  | cons y vars ih =>
      rw [assign]
      split
      · rw [picks_cons, if_pos (List.prefix_refl _)]
      · rename_i hy
        rw [picks_cons, if_neg hy, ih]

theorem mem_assign_self (x : EnvVar) (vars : List EnvVar) : x ∈ assign x vars :=
  (mem_of_picks (picks_assign_self x vars)).1

theorem mem_assign {y : EnvVar} (h : y ∈ assign x vars) : y = x ∨ y ∈ vars := by
  induction vars with
  | nil => exact .inl (List.mem_singleton.mp h)
  | cons z vars ih =>
      rw [assign] at h
      split at h
      · exact (List.mem_cons.mp h).imp_right (List.mem_cons_of_mem z)
      · rcases List.mem_cons.mp h with rfl | h
        · exact .inr List.mem_cons_self
        · exact (ih h).imp_right (List.mem_cons_of_mem z)

/-- **What an assignment changes.** The pick of another name stays, unless it
was the variable replaced, or is the new one. -/
theorem picks_assign_iff (hnd : (x :: vars).Nodup) :
    picks (assign x vars) name = picks vars name ↔
      (picks vars x.name = picks vars name → picks vars name = none ∧ ¬ x.name <+: name) := by
  induction vars with
  | nil =>
      rw [assign, picks_cons]
      by_cases hx : x.name <+: name <;> simp [hx, picks]
  | cons y vars ih =>
      obtain ⟨hx, hnd⟩ := List.nodup_cons.mp hnd
      obtain ⟨hy, hnd⟩ := List.nodup_cons.mp hnd
      have hout : ∀ {n : CString}, picks vars n ≠ some y := fun hp => hy (mem_of_picks hp).1
      rw [assign, picks_cons y vars x.name, picks_cons y vars name]
      by_cases hyx : y.name <+: x.name
      · rw [if_pos hyx, if_pos hyx, picks_cons]
        by_cases hyn : y.name <+: name
        · -- the variable replaced was the pick
          have hne : (if x.name <+: name then some x else picks vars name) ≠ some y := by
            split
            · rintro heq
              exact hx (Option.some.inj heq ▸ List.mem_cons_self)
            · exact hout
          simp [hyn, hne]
        · have hxn : ¬ x.name <+: name := fun hp => hyn (hyx.trans hp)
          rw [if_neg hxn, if_neg hyn]
          exact ⟨fun _ heq => absurd heq.symm hout, fun _ => rfl⟩
      · rw [if_neg hyx, if_neg hyx, picks_cons]
        by_cases hyn : y.name <+: name
        · rw [if_pos hyn, if_pos hyn]
          exact ⟨fun _ heq => absurd heq hout, fun _ => rfl⟩
        · rw [if_neg hyn, if_neg hyn]
          exact ih (List.nodup_cons.mpr ⟨fun hmem => hx (List.mem_cons_of_mem y hmem), hnd⟩)

/-- Strings in different allocations have different pointers into them. -/
theorem map_found_inj {l : List EnvVar} (hblocks : (l.map EnvVar.block).Nodup)
    {p q : Option EnvVar} (hp : ∀ y ∈ p, y ∈ l) (hq : ∀ y ∈ q, y ∈ l) :
    p.map EnvVar.found = q.map EnvVar.found ↔ p = q := by
  refine ⟨?_, fun heq => heq ▸ rfl⟩
  intro heq
  cases p with
  | none => exact (Option.map_eq_none_iff.mp heq.symm).symm
  | some y =>
      obtain ⟨z, hz, hfound⟩ := Option.map_eq_some_iff.mp heq.symm
      rw [hz, Option.some.injEq]
      have hblock : z.block = y.block := congrArg EnvValue.block hfound
      exact (List.inj_on_of_nodup_map hblocks (hq z hz) (hp y rfl) hblock).symm

/-- **When the environment is a map.** For an environment of strings in
allocations of their own, two names and a value, the laws hold exactly when
there is an environment, what each name picks is none or the name is set, and
the two different names do not pick the same variable, or both none with `a` a
prefix of `b`. -/
theorem getenv_setenv_iff {vars : Option (List EnvVar)} {a b v : CString} {new : Nat}
    (hblocks : ∀ l ∈ vars, (new :: l.map EnvVar.block).Nodup) (hnew : new ≠ 0) (ha : a ≠ [])
    (haeq : eqSign ∉ a) (hbeq : eqSign ∉ b) :
    EnvLaws (environOf vars) a b v new ↔
      ∃ l, vars = some l ∧ Exact l a ∧ Exact l b ∧
        (b ≠ a → picks l a = picks l b → picks l b = none ∧ ¬ a <+: b) := by
  cases vars with
  | none =>
      -- without an environment nothing can be set
      exact ⟨fun h => (nomatch h.set), fun ⟨_, hl, _⟩ => (nomatch hl)⟩
  | some l =>
      let x : EnvVar := ⟨new, a, v, haeq⟩
      have hnodup : ((x :: l).map EnvVar.block).Nodup := hblocks l rfl
      have hset : (setenv (environOf (some l)) (some a) (some v) 1 new true).2 =
          environOf (some (assign x l)) := by
        rw [setenv_environOf x 1 l ha hnew, if_pos (.inl (by decide))]
      have hkeep : (setenv (environOf (some l)) (some a) (some v) 0 new true).2 =
          environOf (some (if picks l a = none then assign x l else l)) := by
        rw [setenv_environOf x 0 l ha hnew]
        simp only [ne_eq, not_true_eq_false, false_or, x]
      have hothers : getenv (environOf (some (assign x l))) b = getenv (environOf (some l)) b ↔
          (picks l a = picks l b → picks l b = none ∧ ¬ a <+: b) := by
        rw [getenv_environOf, getenv_environOf, map_found_inj hnodup
          (fun y hy => List.mem_cons.mpr (mem_assign (mem_of_picks hy).1))
          (fun y hy => List.mem_cons_of_mem x (mem_of_picks hy).1)]
        exact picks_assign_iff hnodup.of_map
      have hself : (getenv (environOf (some (assign x l))) a).map EnvValue.text = some v := by
        rw [getenv_environOf, picks_assign_self x l]
        rfl
      have hhas := @hasName_environOf l a haeq
      have hnull : getenv (environOf (some l)) b = none ↔ picks l b = none := by
        rw [getenv_environOf, Option.map_eq_none_iff]
      constructor
      · intro h
        refine ⟨l, rfl, ?_, ?_, fun hne => hothers.mp ?_⟩
        · refine Decidable.or_iff_not_imp_left.mpr ?_
          intro hpick
          refine Decidable.byContradiction ?_
          intro hnot
          have hadds := (h.adds fun hn => hnot (hhas.mp hn)).1
          rw [hkeep, if_neg hpick] at hadds
          exact hnot (hhas.mp hadds)
        · refine Decidable.or_iff_not_imp_right.mpr ?_
          intro hnot
          exact hnull.mp (h.null.mpr fun hn => hnot ((hasName_environOf hbeq).mp hn))
        · rw [← hset]
          exact h.others hne
      · rintro ⟨l', hl, hexa, hexb, hsep⟩
        obtain rfl := Option.some.inj hl
        refine ⟨?_, ?_, ?_, ?_, ?_⟩
        · rw [hset]
          exact hself
        · intro hne
          rw [hset]
          exact hothers.mpr (hsep hne)
        · intro hn
          rw [hkeep, if_neg (picks_of_mem (hhas.mp hn))]
        · intro hn
          have hpick : picks l a = none := hexa.resolve_right fun hmem => hn (hhas.mpr hmem)
          rw [hkeep, if_pos hpick]
          exact ⟨(hasName_environOf haeq).mpr (List.mem_map.mpr ⟨x, mem_assign_self x l, rfl⟩),
            hself⟩
        · rw [hnull, hasName_environOf hbeq]
          exact ⟨fun hpick hmem => picks_of_mem hmem hpick, fun hnot => hexb.resolve_right hnot⟩

end Laws

/-- The environment `a=x`. -/
def oneVar : List EnvVar := [⟨16, [letterA], [letterX], by decide⟩]

/-- Another name, `b`, is set beside it. -/
theorem getenv_setenv_iff_one :
    EnvLaws (environOf (some oneVar)) [letterB] [letterA] [letterX] 32 := by
  refine (getenv_setenv_iff ?_ (by decide) (by decide) (by decide) (by decide)).mpr
    ⟨oneVar, rfl, .inl (by decide), .inr (by decide), fun _ => by decide⟩
  intro l hl
  obtain rfl := Option.some.inj hl
  decide

/-- Setting `ab` replaces the string of `a`, which is then not found. -/
theorem setenv_loses_prefix :
    getenv (environOf (some oneVar)) [letterA] = some ⟨16, 2, [letterX]⟩
      ∧ getenv (setenv (environOf (some oneVar)) (some [letterA, letterB]) (some [letterX]) 1 32
          true).2 [letterA] = none
      ∧ ¬ EnvLaws (environOf (some oneVar)) [letterA, letterB] [letterA] [letterX] 32 :=
  ⟨by decide, by decide, fun h => absurd (h.others (by decide)) (by decide)⟩

end LambdaOs
