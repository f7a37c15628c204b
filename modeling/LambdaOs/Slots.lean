import Mathlib.Data.List.Basic

/-!
# Slots

A table of slots, some of them free, that are taken from the front: whoever puts
something there takes the first free slot (`putFirst`). As nothing is taken away
again, the table is always what has been put, in that order, followed by free slots
(`Packed`).

A round through the table looks at each slot in turn, when it comes to it, and what it
does there may put more into the table. It still sees all of them, as they come to lie
behind (`Packed.round`).
-/

namespace LambdaOs

variable {α σ : Type*}

/-! ## Tables -/

section Put

variable (free : α → Prop) [DecidablePred free]

/-- The first free slot becomes `x`; `none` when there is none. -/
def putFirst (x : α) : List α → Option (List α)
  | [] => none
  | y :: t => if free y then some (x :: t) else (putFirst x t).map (y :: ·)

end Put

/-- The table holds `l`, and its other slots are free. -/
structure Packed (free : α → Prop) (l t : List α) : Prop where
  used : ∀ x ∈ l, ¬ free x
  slots : ∃ rest, t = l ++ rest ∧ ∀ x ∈ rest, free x

section Packed

variable {free : α → Prop} {x : α} {l t : List α}

theorem Packed.nil (h : ∀ x ∈ t, free x) : Packed free [] t :=
  ⟨fun _ hx => absurd hx List.not_mem_nil, t, rfl, h⟩

theorem Packed.length_le (h : Packed free l t) : l.length ≤ t.length := by
  obtain ⟨rest, rfl, -⟩ := h.slots
  rw [List.length_append]
  exact Nat.le_add_right ..

theorem Packed.getElem? (h : Packed free l t) {i : Nat} (hi : i < l.length) :
    t[i]? = some l[i] := by
  obtain ⟨rest, rfl, -⟩ := h.slots
  rw [List.getElem?_append_left hi, List.getElem?_eq_getElem hi]

/-- Behind what is there all is free. -/
theorem Packed.free_of_le (h : Packed free l t) {i : Nat} (hi : l.length ≤ i)
    (hx : t[i]? = some x) : free x := by
  obtain ⟨rest, rfl, hrest⟩ := h.slots
  rw [List.getElem?_append_right hi] at hx
  exact hrest x (List.mem_of_getElem? hx)

variable [DecidablePred free]

theorem putFirst_append (hl : ∀ y ∈ l, ¬ free y) (rest : List α) :
    putFirst free x (l ++ rest) = (putFirst free x rest).map (l ++ ·) := by
  induction l with
  | nil => simp only [List.nil_append, Option.map_id']
  | cons y l ih =>
    rw [List.cons_append, putFirst, if_neg (hl y List.mem_cons_self),
      ih fun z hz => hl z (List.mem_cons_of_mem y hz), Option.map_map]
    rfl

/-- When there is a free slot, the first of them is behind what is there. -/
theorem Packed.put (h : Packed free l t) (hroom : l.length < t.length) :
    ∃ rest, putFirst free x t = some (l ++ x :: rest) ∧ (l ++ x :: rest).length = t.length ∧
      ∀ y ∈ rest, free y := by
  obtain ⟨rest, rfl, hrest⟩ := h.slots
  rw [putFirst_append h.used]
  cases rest with
  | nil => simp at hroom
  | cons y rest =>
    rw [putFirst, if_pos (hrest y List.mem_cons_self)]
    exact ⟨rest, rfl, by simp, fun z hz => hrest z (List.mem_cons_of_mem y hz)⟩

theorem Packed.put_full (h : Packed free l t) (hfull : t.length ≤ l.length) :
    putFirst free x t = none := by
  obtain ⟨rest, rfl, -⟩ := h.slots
  rw [putFirst_append h.used]
  cases rest with
  | nil => rfl
  | cons y rest =>
    rw [List.length_append, List.length_cons] at hfull
    omega

/-- What was there stays, in front of what is put. -/
theorem Packed.put_packed (h : Packed free l t) {t' : List α} (hput : putFirst free x t = some t') :
    t'.length = t.length ∧ Packed free (if free x then l else l ++ [x]) t' := by
  rcases Nat.lt_or_ge l.length t.length with hroom | hfull
  · obtain ⟨rest, heq, hlen, hrest⟩ := h.put (x := x) hroom
    obtain rfl := Option.some.inj (heq.symm.trans hput)
    refine ⟨hlen, ?_⟩
    split
    · rename_i hx
      exact ⟨h.used, x :: rest, rfl, List.forall_mem_cons.mpr ⟨hx, hrest⟩⟩
    · rename_i hx
      refine ⟨fun y hy => ?_, rest, by simp, hrest⟩
      rcases List.mem_append.mp hy with hy | hy
      · exact h.used y hy
      · rwa [List.mem_singleton.mp hy]
  · rw [h.put_full hfull] at hput
    cases hput

variable (free)

/-- What the table may become when others put something into it. -/
inductive Puts (t : List α) : List α → Prop
  | refl : Puts t t
  | put {t' t'' : List α} (x : α) : Puts t t' → putFirst free x t' = some t'' → Puts t t''

variable {free}

theorem Puts.trans {t' t'' : List α} (h : Puts free t t') (h' : Puts free t' t'') :
    Puts free t t'' := by
  induction h' with
  | refl => exact h
  | put x _ hput ih => exact .put x ih hput

/-- What was there keeps its place. -/
theorem Packed.puts (h : Packed free l t) {t' : List α} (hputs : Puts free t t') :
    ∃ l', Packed free (l ++ l') t' ∧ t'.length = t.length := by
  induction hputs with
  | refl => exact ⟨[], by rwa [List.append_nil], rfl⟩
  | put x _ hput ih =>
    obtain ⟨l', hpacked, hlen⟩ := ih
    obtain ⟨hlen', hpacked'⟩ := hpacked.put_packed hput
    refine ⟨if free x then l' else l' ++ [x], ?_, hlen'.trans hlen⟩
    split <;> simpa [*] using hpacked'

variable (free)

/-- What is in the table in front of the first free slot. -/
def taken (t : List α) : List α := t.takeWhile fun x => ¬ free x

/-- A table of `n` slots, the free ones of which are behind the others. -/
structure SlotTable (n : Nat) (t : List α) : Prop where
  packed : Packed free (taken free t) t
  size : t.length = n

variable {free} {n : Nat}

theorem Packed.taken_eq (h : Packed free l t) : taken free t = l := by
  obtain ⟨rest, rfl, hrest⟩ := h.slots
  rw [taken, List.takeWhile_append_of_pos fun x hx => decide_eq_true (h.used x hx)]
  cases rest with
  | nil => exact List.append_nil l
  | cons x rest =>
    rw [List.takeWhile_cons_of_neg (by simpa using hrest x List.mem_cons_self), List.append_nil]

theorem Packed.slotTable (h : Packed free l t) (hn : t.length = n) : SlotTable free n t :=
  ⟨h.taken_eq.symm ▸ h, hn⟩

theorem SlotTable.of_free (h : ∀ x ∈ t, free x) (hn : t.length = n) : SlotTable free n t :=
  (Packed.nil h).slotTable hn

theorem SlotTable.puts (h : SlotTable free n t) {t' : List α} (hputs : Puts free t t') :
    SlotTable free n t' ∧ taken free t <+: taken free t' := by
  obtain ⟨l', hpacked, hlen⟩ := h.packed.puts hputs
  exact ⟨hpacked.slotTable (hlen.trans h.size), l', hpacked.taken_eq.symm⟩

/-- One more is taken, as long as there is room. -/
theorem SlotTable.put (h : SlotTable free n t) (hx : ¬ free x) (hroom : (taken free t).length < n) :
    ∃ t', putFirst free x t = some t' ∧ taken free t' = taken free t ++ [x] := by
  obtain ⟨rest, hput, -, -⟩ := h.packed.put (x := x) (h.size.symm ▸ hroom)
  obtain ⟨-, hpacked⟩ := h.packed.put_packed hput
  rw [if_neg hx] at hpacked
  exact ⟨_, hput, hpacked.taken_eq⟩

theorem SlotTable.put_full (h : SlotTable free n t) (hfull : n ≤ (taken free t).length) :
    putFirst free x t = none :=
  h.packed.put_full (h.size.symm ▸ hfull)

end Packed

/-! ## Rounds -/

section Round

variable (slots : σ → List α) (wanted : α → Prop) [DecidablePred wanted] (serve : α → σ → σ)

/-- A loop over the slots from `i` on, of which it serves some; with what it has
served. -/
def roundFrom : Nat → Nat → σ → σ × List α
  | 0, _, s => (s, [])
  | n + 1, i, s =>
      match (slots s)[i]? with
      | some x =>
          if wanted x then
            let (s', served) := roundFrom n (i + 1) (serve x s)
            (s', x :: served)
          else roundFrom n (i + 1) s
      | none => roundFrom n (i + 1) s

variable {slots wanted serve} {free : α → Prop} {l : List α} {s : σ} {n i : Nat}

/-- No free slot is served. -/
theorem Packed.round_behind (h : Packed free l (slots s)) (hfree : ∀ x, free x → ¬ wanted x)
    (hi : l.length ≤ i) : roundFrom slots wanted serve n i s = (s, []) := by
  induction n generalizing i with
  | zero => rfl
  | succ n ih =>
    rw [roundFrom]
    split
    · rename_i x hx
      rw [if_neg (hfree x (h.free_of_le hi hx)), ih (Nat.le_succ_of_le hi)]
    · exact ih (Nat.le_succ_of_le hi)

variable [DecidablePred free]

/-- Serving may put something into the table; the round comes to it as well. -/
theorem Packed.round (h : Packed free l (slots s)) (hfree : ∀ x, free x → ¬ wanted x)
    (hserve : ∀ x s, Puts free (slots s) (slots (serve x s)))
    (hn : n + i = (slots s).length) :
    ∃ l', Packed free (l ++ l') (slots (roundFrom slots wanted serve n i s).1) ∧
      (slots (roundFrom slots wanted serve n i s).1).length = (slots s).length ∧
      (roundFrom slots wanted serve n i s).2 = ((l ++ l').drop i).filter wanted := by
  induction n generalizing i s l with
  | zero =>
    have hle := h.length_le
    refine ⟨[], by rwa [List.append_nil], rfl, ?_⟩
    rw [List.append_nil, List.drop_eq_nil_of_le (by omega)]
    rfl
  | succ n ih =>
    rcases Nat.lt_or_ge i l.length with hi | hi
    · have hdrop : ∀ l', (l ++ l').drop i = l[i] :: (l ++ l').drop (i + 1) := by
        intro l'
        rw [List.drop_eq_getElem_cons (by rw [List.length_append]; omega),
          List.getElem_append_left hi]
      rw [roundFrom, h.getElem? hi]
      dsimp only
      by_cases hwanted : wanted l[i]
      · obtain ⟨l₁, hput, hlen⟩ := h.puts (hserve l[i] s)
        obtain ⟨l₂, hround, hlen', hserved⟩ := ih (i := i + 1) hput (by omega)
        rw [if_pos hwanted]
        refine ⟨l₁ ++ l₂, by rwa [← List.append_assoc], hlen'.trans hlen, ?_⟩
        rw [hdrop, List.filter_cons_of_pos (by simpa using hwanted), ← List.append_assoc]
        exact congrArg (l[i] :: ·) hserved
      · obtain ⟨l', hround, hlen, hserved⟩ := ih (i := i + 1) h (by omega)
        rw [if_neg hwanted]
        refine ⟨l', hround, hlen, ?_⟩
        rw [hdrop, List.filter_cons_of_neg (by simpa using hwanted)]
        exact hserved
    · rw [h.round_behind hfree hi]
      refine ⟨[], by rwa [List.append_nil], rfl, ?_⟩
      rw [List.append_nil, List.drop_eq_nil_of_le hi]
      rfl

theorem roundFrom_puts (hserve : ∀ x s, Puts free (slots s) (slots (serve x s))) :
    Puts free (slots s) (slots (roundFrom slots wanted serve n i s).1) := by
  induction n generalizing i s with
  | zero => exact .refl
  | succ n ih =>
    rw [roundFrom]
    split
    · split
      · exact (hserve _ s).trans ih
      · exact ih
    · exact ih

end Round

end LambdaOs
