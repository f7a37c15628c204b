import LambdaOs.ShellSplit

/-!
# The words of a command line

What `_args_split` returns, in terms of its quoting grammar. Its parameters are
the words of the string with an empty one for whitespace at either end, or for
an empty string: `paramWords`. Either there are more than 32 of them, and the
counting run walks through a list it has not allocated yet, or the three runs
agree on them.
-/

namespace LambdaOs

/-- The parameters of a command line. -/
def paramWords (str : CString) : List CString :=
  wordsFrom [] (joinBlanks false (lexChars false none str))

theorem paramWords_pos (str : CString) : 0 < (paramWords str).length := by
  obtain ⟨t, rest, h⟩ := wordsFrom_cons [] (joinBlanks false (lexChars false none str))
  simp [paramWords, h]

/-! ## One run after the other -/

section Runs

variable (grant : Nat → Bool) (str : CString)

theorem splitEnd_count (param len : Nat) :
    splitEnd grant .count ⟨param, len, ⟨none, 0, []⟩⟩ =
      if grant 0 then .ok ⟨param, len, allocMem [] (param + 1) 1 [.last (param + 1)]⟩
      else .error .null := by
  cases hg : grant 0 with
  | false => simp [splitEnd, hg, bind, Except.bind]
  | true =>
      have hset : (List.replicate (param + 2) (none : Option ParamBlock)).set (param + 1) none =
          List.replicate (param + 2) none := by
        rw [List.set_replicate_self]
      simp [splitEnd, storeSlot, hg, bind, Except.bind, hset, allocMem]
      rfl

theorem splitRun_count_ok (hlen : (paramWords str).length ≤ 32) :
    if grant 0 then
      ∃ len, splitRun grant .count str ⟨none, 0, []⟩ = .ok ⟨(paramWords str).length - 1, len,
        allocMem [] (paramWords str).length 1 [.last (paramWords str).length]⟩
    else splitRun grant .count str ⟨none, 0, []⟩ = .error .null := by
  have hcount := splitItems_count grant (by decide : 0 < 32) []
    (joinBlanks false (lexChars false none str)) ⟨none, 0, []⟩
  have hlen' : 0 + (wordsFrom [] (joinBlanks false (lexChars false none str))).length ≤ 32 := by
    rwa [Nat.zero_add]
  rw [if_pos hlen', Nat.zero_add] at hcount
  obtain ⟨len, hcount⟩ := hcount
  have hpred : (paramWords str).length - 1 + 1 = (paramWords str).length :=
    Nat.sub_add_cancel (paramWords_pos str)
  have hrun : splitRun grant .count str ⟨none, 0, []⟩ =
      splitEnd grant .count ⟨(paramWords str).length - 1, len, ⟨none, 0, []⟩⟩ := by
    rw [splitRun_eq, splitRest]
    exact congrArg (· >>= splitEnd grant .count) hcount
  rw [hrun, splitEnd_count, hpred]
  cases grant 0 with
  | false => rfl
  | true => exact ⟨len, rfl⟩

theorem splitRun_count_error (hlen : 32 < (paramWords str).length) :
    splitRun grant .count str ⟨none, 0, []⟩ = .error (.failure ⟨none, 0, []⟩) := by
  have hcount := splitItems_count grant (by decide : 0 < 32) []
    (joinBlanks false (lexChars false none str)) ⟨none, 0, []⟩
  rw [if_neg (by rw [Nat.zero_add]; exact Nat.not_le.mpr hlen)] at hcount
  rw [splitRun_eq, splitRest]
  exact congrArg (· >>= splitEnd grant .count) hcount

theorem splitRun_alloc (hlen : (paramWords str).length ≤ 32) :
    Allocated grant (paramWords str) 1 (paramWords str).length (splitRun grant .alloc str
        (allocMem [] (paramWords str).length 1 [.last (paramWords str).length])) ∨
      Refused grant 1 (paramWords str).length (splitRun grant .alloc str
        (allocMem [] (paramWords str).length 1 [.last (paramWords str).length])) := by
  rw [splitRun_eq]
  refine @splitRest_alloc grant _ [] [] _ rfl hlen 1 _ ?_
  intro e he
  rw [List.mem_singleton.mp he]
  rfl

theorem splitRun_real (hlen : (paramWords str).length ≤ 32) (calls : Nat) {log : List SplitStore}
    (hlog : ∀ e ∈ log, StoreOk (paramWords str) e) :
    ∃ len log', splitRun grant .real str
        ⟨some ((paramWords str).map freshParam ++ [none]), calls, log⟩ =
        .ok ⟨(paramWords str).length - 1, len,
          ⟨some ((paramWords str).map doneParam ++ [none]), calls, log'⟩⟩ ∧
      ∀ e ∈ log', StoreOk (paramWords str) e := by
  obtain ⟨t, rest, hw⟩ := wordsFrom_cons [] (joinBlanks false (lexChars false none str))
  have h := @splitRest_real grant _ [] [] t rest _ hw rfl hlen calls _ hlog
  have hmem : realMem [] [] t rest calls log =
      ⟨some ((paramWords str).map freshParam ++ [none]), calls, log⟩ := by
    rw [paramWords, hw]
    rfl
  rw [hmem] at h
  rw [splitRun_eq]
  exact h

end Runs

/-- The three runs agree on the number of parameters, and each store of theirs
goes to a parameter, within its allocation. -/
theorem split_runs_agree {grant : Nat → Bool} {str : CString} {s₀ : SplitAt}
    (hcount : splitRun grant .count str ⟨none, 0, []⟩ = .ok s₀) (halloc : ∀ k, grant k = true) :
    ∃ s₁ s₂ slots₁ slots₂,
      splitRun grant .alloc str s₀.mem = .ok s₁ ∧ splitRun grant .real str s₁.mem = .ok s₂ ∧
      s₁.param = s₀.param ∧ s₂.param = s₀.param ∧
      s₁.mem.params = some slots₁ ∧ s₂.mem.params = some slots₂ ∧
      (∀ p, .slot p ∈ s₂.mem.log → p ≤ s₀.param) ∧
      (∀ p l, .char p l ∈ s₂.mem.log → p ≤ s₀.param ∧
        ∃ block, slots₁[p]? = some (some block) ∧ l < block.length) ∧
      (∀ p ≤ s₀.param, ∃ w, slots₂[p]? = some (some (wordBlock w))) ∧
      slots₂[s₀.param + 1]? = some none := by
  have hpos := paramWords_pos str
  by_cases hlen : (paramWords str).length ≤ 32
  · have hrun := splitRun_count_ok grant str hlen
    rw [if_pos (halloc 0)] at hrun
    obtain ⟨len, hrun⟩ := hrun
    cases hrun.symm.trans hcount
    rcases splitRun_alloc grant str hlen with ⟨len₁, log₁, hal, hlog, -⟩ |
      ⟨_, _, _, _, _, k, _, _, hk⟩
    · obtain ⟨len₂, log₂, hreal, hlog₂⟩ := splitRun_real grant str hlen _ hlog
      refine ⟨_, _, _, _, hal, hreal, rfl, rfl, rfl, rfl, ?_, ?_, ?_, ?_⟩
      · intro p hp
        have : p < (paramWords str).length := hlog₂ _ hp
        exact Nat.le_sub_one_of_lt this
      · intro p l hp
        obtain ⟨w, hw, hl⟩ : ∃ w, (paramWords str)[p]? = some w ∧ l ≤ w.length := hlog₂ _ hp
        have hp : p < (paramWords str).length := (List.getElem?_eq_some_iff.mp hw).1
        refine ⟨Nat.le_sub_one_of_lt hp, List.replicate (w.length + 1) none, ?_, ?_⟩
        · rw [List.getElem?_append_left (by simpa using hp), List.getElem?_map, hw]
          rfl
        · simpa using Nat.lt_succ_of_le hl
      · intro p hp
        have hp : p < (paramWords str).length := by
          have : p ≤ (paramWords str).length - 1 := hp
          omega
        refine ⟨(paramWords str)[p], ?_⟩
        rw [List.getElem?_append_left (by simpa using hp), List.getElem?_map,
          List.getElem?_eq_getElem hp]
        rfl
      · have hsucc : (paramWords str).length - 1 + 1 = ((paramWords str).map doneParam).length := by
          rw [List.length_map]
          omega
        change ((paramWords str).map doneParam ++ [none])[(paramWords str).length - 1 + 1]? = _
        rw [hsucc]
        simp
    · rw [halloc k] at hk
      cases hk
  · rw [splitRun_count_error grant str (Nat.not_le.mp hlen)] at hcount
    cases hcount

/-- `a 'b c'` -/
theorem split_runs_agree_quotes :
    ∃ s₁ s₂ slots₁ slots₂,
      splitRun (fun _ => true) .alloc (CString.ofBytes [97, 32, 39, 98, 32, 99, 39])
        (allocMem [] 2 1 [.last 2]) = .ok s₁ ∧
      splitRun (fun _ => true) .real (CString.ofBytes [97, 32, 39, 98, 32, 99, 39]) s₁.mem =
        .ok s₂ ∧
      s₁.param = 1 ∧ s₂.param = 1 ∧ s₁.mem.params = some slots₁ ∧ s₂.mem.params = some slots₂ ∧
      (∀ p, .slot p ∈ s₂.mem.log → p ≤ 1) ∧
      (∀ p l, .char p l ∈ s₂.mem.log → p ≤ 1 ∧
        ∃ block, slots₁[p]? = some (some block) ∧ l < block.length) ∧
      (∀ p ≤ 1, ∃ w, slots₂[p]? = some (some (wordBlock w))) ∧
      slots₂[1 + 1]? = some none :=
  @split_runs_agree _ _ ⟨1, 5, allocMem [] 2 1 [.last 2]⟩ (by decide) fun _ => rfl

/-! ## What is returned -/

/-- Too many parameters: the list is walked through before it exists. -/
theorem argsSplit_fault (grant : Nat → Bool) {str : CString}
    (hlen : 32 < (paramWords str).length) : argsSplit grant str = none := by
  rw [argsSplit, splitRun_count_error grant str hlen]
  rfl

/-- `malloc` refuses: `NULL` is returned. -/
theorem argsSplit_refused {grant : Nat → Bool} {str : CString}
    (hlen : (paramWords str).length ≤ 32)
    (h : ∃ k ≤ (paramWords str).length, grant k = false) : argsSplit grant str = some none := by
  have hcount := splitRun_count_ok grant str hlen
  cases hg : grant 0 with
  | false =>
      rw [hg, if_neg (by simp)] at hcount
      rw [argsSplit, hcount]
      rfl
  | true =>
      rw [if_pos hg] at hcount
      obtain ⟨len, hcount⟩ := hcount
      rcases splitRun_alloc grant str hlen with ⟨_, _, _, _, hgrant⟩ |
        ⟨slots, _, _, hal, hfree, _⟩
      · obtain ⟨k, hk, hgk⟩ := h
        match k with
        | 0 => simp [hg] at hgk
        | k + 1 =>
            rw [hgrant (k + 1) (Nat.succ_pos k) (by omega)] at hgk
            cases hgk
      · rw [argsSplit, hcount]
        simp only [bind, Except.bind, hal, Option.bind, hfree]
        rfl

/-- Otherwise the parameters are. -/
theorem argsSplit_granted {grant : Nat → Bool} {str : CString}
    (hlen : (paramWords str).length ≤ 32)
    (h : ∀ k ≤ (paramWords str).length, grant k = true) :
    argsSplit grant str = some (some ((paramWords str).map doneParam ++ [none])) := by
  have hcount := splitRun_count_ok grant str hlen
  rw [if_pos (h 0 (Nat.zero_le _))] at hcount
  obtain ⟨len, hcount⟩ := hcount
  rcases splitRun_alloc grant str hlen with ⟨len₁, log₁, hal, hlog, -⟩ |
    ⟨_, _, _, _, _, k, hk, hk', hgk⟩
  · obtain ⟨len₂, log₂, hreal, -⟩ :=
      splitRun_real grant str hlen (1 + (paramWords str).length) hlog
    rw [argsSplit, hcount]
    simp only [bind, Except.bind, hal, hreal]
    rfl
  · rw [h k (by omega)] at hgk
    cases hgk

/-! ## Parameters and words -/

/-- Joining separators only takes empty words away. -/
theorem wordsFrom_joinBlanks (pre : CString) (items : List (Option CChar)) :
    (wordsFrom pre items).filter (· ≠ []) =
      (wordsFrom pre (joinBlanks false items)).filter (· ≠ []) ∧
    (wordsFrom [] items).filter (· ≠ []) =
      (wordsFrom [] (joinBlanks true items)).filter (· ≠ []) := by
  induction items generalizing pre with
  | nil => exact ⟨rfl, rfl⟩
  | cons x items ih =>
      cases x with
      | some c => exact ⟨(ih (pre ++ [c])).1, (ih ([] ++ [c])).1⟩
      | none =>
          refine ⟨?_, (ih []).2⟩
          rw [wordsFrom, joinBlanks, wordsFrom, List.filter_cons, List.filter_cons, (ih []).2]

/-- A word is empty where a separator ends the string, or nothing but separators
has followed one. -/
theorem nil_mem_wordsFrom (items : List (Option CChar)) :
    (∀ pre ≠ [], [] ∈ wordsFrom pre (joinBlanks false items) ↔ items.getLast? = some none) ∧
    ([] ∈ wordsFrom [] (joinBlanks true items) ↔ items = [] ∨ items.getLast? = some none) := by
  induction items with
  | nil => exact ⟨fun pre hpre => by simpa [joinBlanks, wordsFrom] using Ne.symm hpre, by
      simp [joinBlanks, wordsFrom]⟩
  | cons x items ih =>
      rw [List.getLast?_cons]
      cases x with
      | some c =>
          have hlast : some (items.getLast?.getD (some c)) = some none ↔
              items.getLast? = some none := by
            cases items.getLast? <;> simp
          rw [hlast]
          refine ⟨fun pre _ => ih.1 (pre ++ [c]) (by simp), ?_⟩
          simpa [joinBlanks, wordsFrom] using ih.1 [c] (by simp)
      | none =>
          have hlast : some (items.getLast?.getD none) = some none ↔
              items = [] ∨ items.getLast? = some none := by
            cases h : items.getLast? with
            | none => simpa using List.getLast?_eq_none_iff.mp h
            | some x =>
                have : items ≠ [] := fun hnil => by simp [hnil] at h
                simp [this]
          rw [hlast]
          refine ⟨fun pre hpre => ?_, by simpa [joinBlanks] using ih.2⟩
          rw [joinBlanks, wordsFrom, List.mem_cons, ih.2]
          simp [Ne.symm hpre]

theorem nil_mem_wordsFrom_nil (items : List (Option CChar)) :
    [] ∈ wordsFrom [] (joinBlanks false items) ↔
      items = [] ∨ items.head? = some none ∨ items.getLast? = some none := by
  match items with
  | [] => simp [joinBlanks, wordsFrom]
  | none :: items => simp [joinBlanks, wordsFrom]
  | some c :: items =>
      have h := (nil_mem_wordsFrom (some c :: items)).2
      simpa [joinBlanks, wordsFrom] using h

theorem lexChars_ne_nil (esc : Bool) (quote : Option CChar) {str : CString} (h : str ≠ []) :
    lexChars esc quote str ≠ [] := by
  induction str generalizing esc quote with
  | nil => exact absurd rfl h
  | cons c str ih =>
      cases esc with
      | true => simp [lexChars]
      | false =>
          rw [lexChars]
          split
          · simp
          · split
            · simp
            · split
              · next hesc => exact ih true quote hesc.2
              · split <;> simp

theorem lexChars_head_iff (str : CString) :
    (lexChars false none str).head? = some none ↔ ∃ c ∈ str.head?, userIsspace c = true := by
  constructor
  · intro h
    by_contra hno
    refine lexChars_head (fun c hc => ?_) h
    simpa using fun hs => hno ⟨c, hc, hs⟩
  · rintro ⟨c, hc, hs⟩
    obtain ⟨rest, rfl⟩ := List.head?_eq_some_iff.mp hc
    simp [lexChars, hs]

/-- The string is not empty, does not begin with whitespace, and does not end
with whitespace that separates words. -/
def Trimmed (str : CString) : Prop :=
  str ≠ [] ∧ (∀ c ∈ str.head?, userIsspace c = false) ∧
    (lexChars false none str).getLast? ≠ some none

theorem nil_mem_paramWords (str : CString) : [] ∈ paramWords str ↔ ¬ Trimmed str := by
  have hnil : lexChars false none str = [] ↔ str = [] := by
    constructor
    · intro h
      by_contra hne
      exact lexChars_ne_nil false none hne h
    · rintro rfl
      rfl
  rw [paramWords, nil_mem_wordsFrom_nil, hnil, lexChars_head_iff, Trimmed]
  simp only [not_and_or, not_forall, not_not, Bool.not_eq_false, exists_prop]

/-- The words are the parameters that are not empty. -/
theorem shellWords_eq (str : CString) : shellWords str = (paramWords str).filter (· ≠ []) :=
  (wordsFrom_joinBlanks [] (lexChars false none str)).1

theorem Trimmed.paramWords_eq {str : CString} (h : Trimmed str) :
    paramWords str = shellWords str := by
  rw [shellWords_eq, List.filter_eq_self.mpr]
  intro w hw
  rw [decide_eq_true_eq]
  rintro rfl
  exact (nil_mem_paramWords str).mp hw h

theorem doneParam_injective : Function.Injective doneParam := by
  intro v w h
  have := List.append_cancel_right (Option.some.inj h)
  exact List.map_injective_iff.mpr (fun c d hcd => Subtype.ext (Option.some.inj hcd)) this

/-- Splitting follows the grammar on the strings without whitespace at their
ends that have at most 32 words. -/
theorem args_split_right_iff (str : CString) :
    SplitRight str ↔ Trimmed str ∧ (shellWords str).length ≤ 32 := by
  constructor
  · intro h
    by_cases hlen : (paramWords str).length ≤ 32
    · have hgrant := @argsSplit_granted (fun _ => true) _ hlen fun _ _ => rfl
      rcases h fun _ => true with ⟨hrun, hwords⟩ | ⟨hrun, -⟩
      · rw [hgrant] at hrun
        have hmap := List.append_cancel_right (Option.some.inj (Option.some.inj hrun))
        have heq : paramWords str = shellWords str :=
          List.map_injective_iff.mpr doneParam_injective hmap
        refine ⟨?_, hwords⟩
        by_contra htrim
        have hmem := (nil_mem_paramWords str).mpr htrim
        rw [heq] at hmem
        simp [shellWords] at hmem
      · rw [hgrant] at hrun
        cases hrun
    · have hfault := argsSplit_fault (fun _ => true) (Nat.not_le.mp hlen)
      rcases h fun _ => true with ⟨hrun, -⟩ | ⟨hrun, -⟩ <;> rw [hfault] at hrun <;> cases hrun
  · rintro ⟨htrim, hlen⟩ grant
    have heq := htrim.paramWords_eq
    by_cases hg : ∃ k ≤ (shellWords str).length, grant k = false
    · exact .inr ⟨argsSplit_refused (by rwa [heq]) (by rwa [heq]), .inl hg⟩
    · have hall : ∀ k ≤ (paramWords str).length, grant k = true := by
        intro k hk
        rw [heq] at hk
        simpa using fun hk' => hg ⟨k, hk, hk'⟩
      refine .inl ⟨?_, hlen⟩
      rw [argsSplit_granted (by rwa [heq]) hall, heq]
      rfl

/-- A space in front of a word gives an empty one, and so does one behind it;
33 words are walked through before there is a list of them. -/
theorem args_split_wrong :
    argsSplit (fun _ => true) (CString.ofBytes [32, 97]) =
      some (some [some [some 0], some [some 97, some 0], none]) ∧
    argsSplit (fun _ => true) (CString.ofBytes [97, 32]) =
      some (some [some [some 97, some 0], some [some 0], none]) ∧
    argsSplit (fun _ => true) (List.replicate 33 (CString.ofBytes [97, 32])).flatten = none ∧
    ¬ SplitRight (CString.ofBytes [32, 97]) := by
  have hrun : argsSplit (fun _ => true) (CString.ofBytes [32, 97]) =
      some (some [some [some 0], some [some 97, some 0], none]) := by decide
  refine ⟨hrun, by decide, argsSplit_fault _ (by decide), fun h => ?_⟩
  rcases h fun _ => true with ⟨h, -⟩ | ⟨h, -⟩
  · rw [hrun] at h
    exact absurd h (by decide)
  · rw [hrun] at h
    cases h

end LambdaOs
