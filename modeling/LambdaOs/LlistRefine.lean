import LambdaOs.Llist
import LambdaOs.Ring

/-!
# The intrusive list refines a sequence

`LlistRep m list xs` says that in memory `m` the list structure is a ring
whose items are, head first, exactly `xs`. Appending an item outside the
list is `xs ++ [item]`, popping is dropping the last item, and each of the
five traversals computes the matching function of `xs`.

Every traversal is proved over a split `xs = pre ++ x :: post`: the loop
stands at `x`, has seen `pre`, and has `post` to go, so one induction on
`post` (or the fuel) covers it.
-/

namespace LambdaOs

/-! ## The representation -/

/-- In `m`, `list` is a well-formed ring with items `xs`, head first. -/
structure LlistRep (m : Items) (list : Llist) (xs : List Nat) : Prop where
  ring : IsRing (fun p => (m p).next) (fun p => (m p).prev) xs
  nonnull : 0 ∉ xs
  head : list.list = xs.headD 0

theorem llistRep_init (m : Items) : LlistRep m llistInit [] :=
  ⟨IsRing.nil _ _, by simp, rfl⟩

/-- The lock word plays no part in the representation. -/
theorem LlistRep.of_list_eq {m : Items} {l : Llist} {xs : List Nat}
    (h : LlistRep m l xs) (l' : Llist) (hl : l'.list = l.list) : LlistRep m l' xs :=
  ⟨h.ring, h.nonnull, hl.trans h.head⟩

/-- Memory outside the list's items plays no part either. -/
theorem LlistRep.frame {m m' : Items} {l : Llist} {xs : List Nat}
    (h : LlistRep m l xs) (hm : ∀ p ∈ xs, m' p = m p) : LlistRep m' l xs :=
  ⟨h.ring.congr (fun p hp => by simp only [hm p hp]) (fun p hp => by simp only [hm p hp]),
    h.nonnull, h.head⟩

theorem LlistRep.list_eq_zero_iff {m : Items} {l : Llist} {xs : List Nat}
    (h : LlistRep m l xs) : l.list = 0 ↔ xs = [] := by
  rw [h.head]
  cases xs with
  | nil => simp
  | cons x xs =>
      have hx : x ≠ 0 := fun h0 => h.nonnull (by simp [h0])
      simp [hx]

/-! ## Appending -/

/-- Appending writes only the new item, the old last item and the head. -/
theorem llistAppendUnlocked_frame {m : Items} {l : Llist} {xs : List Nat} {a q : Nat}
    (h : LlistRep m l xs) (hq : q ∉ xs) (hqa : q ≠ a) :
    (llistAppendUnlocked m l a).1 q = m q := by
  unfold llistAppendUnlocked
  split
  · rfl
  · split
    · rename_i hne
      cases xs with
      | nil => exact absurd h.head hne
      | cons x xs =>
          have hx : l.list = x := h.head
          have hqx : q ≠ x := fun h0 => hq (by simp [h0])
          have hprev : (m x).prev ∈ x :: xs := h.ring.prev_head_mem
          have hqp : q ≠ (m x).prev := fun h0 => hq (h0 ▸ hprev)
          simp [Items.setNext, Items.setPrev, hx, hqx, hqp, hqa]
    · simp [Items.setNext, Items.setPrev, hqa]

theorem llistAppendUnlocked_data (m : Items) (l : Llist) (a q : Nat) :
    ((llistAppendUnlocked m l a).1 q).data = (m q).data := by
  unfold llistAppendUnlocked
  split
  · rfl
  · split <;> simp

@[simp] theorem llistAppendUnlocked_lock (m : Items) (l : Llist) (a : Nat) :
    (llistAppendUnlocked m l a).2.lock = l.lock := by
  unfold llistAppendUnlocked
  split
  · rfl
  · split <;> rfl

theorem llistRep_append {m : Items} {l : Llist} {xs : List Nat} {a : Nat}
    (h : LlistRep m l xs) (ha0 : a ≠ 0) (ha : a ∉ xs) :
    LlistRep (llistAppendUnlocked m l a).1 (llistAppendUnlocked m l a).2 (xs ++ [a]) := by
  have hnn : 0 ∉ xs ++ [a] := by
    simp only [List.mem_append, List.mem_singleton, not_or]
    exact ⟨h.nonnull, fun h0 => ha0 h0.symm⟩
  rcases List.eq_nil_or_concat xs with rfl | ⟨pre, t, rfl⟩
  · have hl : l.list = 0 := h.head
    refine ⟨IsRing.singleton ?_ ?_, hnn, ?_⟩ <;>
      simp [llistAppendUnlocked, ha0, hl]
  · simp only [List.concat_eq_append] at h ha hnn ⊢
    obtain ⟨x, hx⟩ : ∃ x, (pre ++ [t]).head? = some x := by cases pre <;> simp
    have hlx : l.list = x := by
      rw [h.head, List.headD_eq_head?_getD, hx]; rfl
    have hx0 : x ≠ 0 := fun h0 => h.nonnull (h0 ▸ List.mem_of_head? hx)
    have hprev : (m x).prev = t := h.ring.prev_head hx
    have hat : a ≠ t := fun h0 => ha (by simp [h0])
    have hax : a ≠ x := fun h0 => ha (h0 ▸ List.mem_of_head? hx)
    have happ : llistAppendUnlocked m l a =
        ((((m.setNext t a).setPrev a t).setPrev x a).setNext a x, l) := by
      simp [llistAppendUnlocked, ha0, hlx, hx0, hprev]
    rw [happ]
    refine ⟨h.ring.snoc hx ha ?_ ?_ ?_ ?_ ?_ ?_, hnn, ?_⟩
    · simp [hat.symm]
    · simp [hax]
    · simp
    · simp
    · intro y hy
      have hya : y ≠ a := fun h0 => ha (by simp [← h0, hy])
      have hyt : y ≠ t := by
        rintro rfl
        have hnd := h.ring.nodup
        simp [List.nodup_append', hy] at hnd
      simp [hya, hyt]
    · intro y hy hyx
      have hya : y ≠ a := fun h0 => ha (h0 ▸ hy)
      simp [hya, hyx]
    · rw [hlx, List.headD_eq_head?_getD, List.head?_append, hx]; rfl

/-! ## Popping -/

theorem llistPopUnlocked_data (m : Items) (l : Llist) (q : Nat) :
    ((llistPopUnlocked m l).1 q).data = (m q).data := by
  unfold llistPopUnlocked
  split
  · rfl
  · dsimp only
    split <;> simp

@[simp] theorem llistPopUnlocked_lock (m : Items) (l : Llist) :
    (llistPopUnlocked m l).2.1.lock = l.lock := by
  unfold llistPopUnlocked
  split
  · rfl
  · dsimp only
    split <;> rfl

theorem llistPopUnlocked_nil {m : Items} {l : Llist} (h : LlistRep m l []) :
    llistPopUnlocked m l = (m, l, 0) := by
  have hl : l.list = 0 := h.head
  simp [llistPopUnlocked, hl]

/-- Popping writes only the head and the item before the last. -/
theorem llistPopUnlocked_frame {m : Items} {l : Llist} {xs : List Nat} {q : Nat}
    (h : LlistRep m l xs) (hq : q ∉ xs) : (llistPopUnlocked m l).1 q = m q := by
  unfold llistPopUnlocked
  split
  · rfl
  rename_i hne
  dsimp only
  split
  · rfl
  have hhead : l.list ∈ xs := by
    cases xs with
    | nil => exact absurd h.head hne
    | cons x xs => exact h.head ▸ List.mem_cons_self
  have hlast : (m l.list).prev ∈ xs := h.ring.prev_mem hhead
  have hqh : q ≠ l.list := fun he => hq (he ▸ hhead)
  have hqp : q ≠ (m (m l.list).prev).prev := fun he => hq (he ▸ h.ring.prev_mem hlast)
  by_cases hself : (m l.list).prev = l.list
  · simp_all
  · simp [Items.setNext, Items.setPrev, hqh, hqp, hself]

theorem llistRep_pop {m : Items} {l : Llist} {xs : List Nat} {a : Nat}
    (h : LlistRep m l (xs ++ [a])) :
    LlistRep (llistPopUnlocked m l).1 (llistPopUnlocked m l).2.1 xs
      ∧ (llistPopUnlocked m l).2.2 = a := by
  have hne : l.list ≠ 0 := fun h0 => by simpa using h.list_eq_zero_iff.mp h0
  rcases List.eq_nil_or_concat xs with rfl | ⟨pre, t, rfl⟩
  · have hla : l.list = a := h.head
    have hprev : (m a).prev = a := (h.ring.seam a (by simp) a rfl).2
    have ha0 : a ≠ 0 := hla ▸ hne
    have hpop : llistPopUnlocked m l = (m, { l with list := 0 }, a) := by
      simp [llistPopUnlocked, hla, ha0, hprev]
    rw [hpop]
    exact ⟨⟨IsRing.nil _ _, by simp, rfl⟩, rfl⟩
  · simp only [List.concat_eq_append] at h ⊢
    obtain ⟨x, hx⟩ : ∃ x, (pre ++ [t]).head? = some x := by cases pre <;> simp
    have hx' : (pre ++ [t] ++ [a]).head? = some x := by
      rw [List.head?_append, hx]; rfl
    have hlx : l.list = x := by
      rw [h.head, List.headD_eq_head?_getD, hx']; rfl
    have hprev : (m x).prev = a := h.ring.prev_head hx'
    have hprevA : (m a).prev = t := by
      have hr := h.ring
      rw [List.append_assoc] at hr
      exact hr.prev_eq
    have hnd := h.ring.nodup
    have hxa : x ≠ a := by
      rintro rfl
      have hmem := List.mem_of_head? hx
      rw [List.nodup_append'] at hnd
      exact hnd.2.2 hmem (by simp)
    have hx0 : x ≠ 0 := hlx ▸ hne
    have hpop : llistPopUnlocked m l = ((m.setPrev x t).setNext t x, l, a) := by
      have hax : ¬a = x := fun h0 => hxa h0.symm
      simp [llistPopUnlocked, hlx, hx0, hprev, hprevA, hxa, hax]
    rw [hpop]
    refine ⟨⟨h.ring.unsnoc hx ?_ ?_ ?_ ?_, ?_, ?_⟩, rfl⟩
    · simp
    · simp
    · intro y hy
      have hyt : y ≠ t := by
        rintro rfl
        have hnd' : (pre ++ [y]).Nodup := (List.nodup_append'.mp hnd).1
        simp [List.nodup_append', hy] at hnd'
      simp [hyt]
    · intro y _ hyx
      simp [hyx]
    · exact fun h0 => h.nonnull (List.mem_append_left _ h0)
    · rw [hlx, List.headD_eq_head?_getD, hx]; rfl

/-! ## Removing

An item that is not the head is unlinked from its neighbours. The head of a
longer list is not taken out: the list structure goes on pointing at it, or,
in a list of two, is cleared. -/

theorem llistRemoveUnlocked_data (m : Items) (l : Llist) (a q : Nat) :
    ((llistRemoveUnlocked m l a).1 q).data = (m q).data := by
  unfold llistRemoveUnlocked
  split
  · rfl
  · dsimp only
    split <;> simp

@[simp] theorem llistRemoveUnlocked_lock (m : Items) (l : Llist) (a : Nat) :
    (llistRemoveUnlocked m l a).2.lock = l.lock := by
  unfold llistRemoveUnlocked
  split
  · rfl
  · dsimp only
    split <;> rfl

section Remove

variable {m : Items} {l : Llist} {pre post : List Nat} {a : Nat}

/-- The neighbours of an item that is not alone are other items. -/
theorem LlistRep.neighbours_ne (h : LlistRep m l (pre ++ a :: post)) (hpre : pre ≠ []) :
    (m a).prev ≠ a ∧ (m a).next ≠ a := by
  have ha : a ∈ pre ++ a :: post := List.mem_append_right _ List.mem_cons_self
  have hrot := h.ring.from_next
  obtain ⟨y, hy⟩ : ∃ y, (post ++ pre).head? = some y := by
    obtain ⟨x, pre, rfl⟩ := List.exists_cons_of_ne_nil hpre
    cases post <;> simp
  have hna : (m a).next = y := hrot.next_last (by rw [List.head?_append, hy]; rfl)
  have hya : y ≠ a := by
    rintro rfl
    exact (List.nodup_append'.mp hrot.nodup).2.2 (List.mem_of_head? hy) (List.mem_singleton_self _)
  refine ⟨fun hself => hya ?_, hna ▸ hya⟩
  have hnext : (m (m a).prev).next = a := h.ring.next_prev ha
  rw [hself] at hnext
  exact hna.symm.trans hnext

/-- The links after an item that is not the head was removed. -/
theorem llistRemoveUnlocked_eq (h : LlistRep m l (pre ++ a :: post)) (hpre : pre ≠ []) :
    llistRemoveUnlocked m l a =
      (((m.setNext (m a).prev (m a).next).setPrev (m a).next (m a).prev).setNext a 0
        |>.setPrev a 0, l) := by
  obtain ⟨x, pre, rfl⟩ := List.exists_cons_of_ne_nil hpre
  have hlx : l.list = x := h.head
  have ha0 : a ≠ 0 := fun h0 => h.nonnull (h0 ▸ List.mem_append_right _ List.mem_cons_self)
  have hx0 : x ≠ 0 := fun h0 => h.nonnull (h0 ▸ List.mem_append_left _ List.mem_cons_self)
  have hxa : x ≠ a := by
    rintro rfl
    exact (List.nodup_append'.mp h.ring.nodup).2.2 List.mem_cons_self List.mem_cons_self
  have hprev := (h.neighbours_ne (List.cons_ne_nil x pre)).1
  unfold llistRemoveUnlocked
  rw [if_neg (by rw [hlx]; exact fun h0 => h0.elim ha0 hx0)]
  dsimp only
  rw [if_neg (by rw [hlx]; exact fun h0 => hxa h0.1)]
  simp [hprev.symm]

theorem llistRep_remove (h : LlistRep m l (pre ++ a :: post)) (hpre : pre ≠ []) :
    LlistRep (llistRemoveUnlocked m l a).1 (llistRemoveUnlocked m l a).2 (pre ++ post) := by
  have hnd : a ∉ pre ++ post := by
    have := List.nodup_middle.mp h.ring.nodup
    exact (List.nodup_cons.mp this).1
  have hne : ∀ {x}, x ∈ pre ++ post → x ≠ a := fun hx he => hnd (he ▸ hx)
  have hsub : ∀ {x}, x ∈ pre ++ post → x ∈ pre ++ a :: post := fun hx => by
    rw [List.mem_append] at hx ⊢
    exact hx.imp_right (List.mem_cons_of_mem _)
  have hhead : (pre ++ post).headD 0 = (pre ++ a :: post).headD 0 := by
    obtain ⟨x, pre, rfl⟩ := List.exists_cons_of_ne_nil hpre
    rfl
  rw [llistRemoveUnlocked_eq h hpre]
  obtain ⟨hprev, hnext⟩ := h.neighbours_ne hpre
  refine ⟨h.ring.unlink (by simp [hpre]) ?_ ?_ ?_ ?_,
    fun h0 => h.nonnull (hsub h0), h.head.trans hhead.symm⟩
  · simp [hprev]
  · simp [hnext]
  · intro x hx hxp
    simp [hne hx, hxp]
  · intro x hx hxn
    simp [hne hx, hxn]

theorem llistRemoveUnlocked_frame (h : LlistRep m l (pre ++ a :: post)) (hpre : pre ≠ [])
    {q : Nat} (hq : q ∉ pre ++ a :: post) : (llistRemoveUnlocked m l a).1 q = m q := by
  have ha : a ∈ pre ++ a :: post := List.mem_append_right _ List.mem_cons_self
  have hqa : q ≠ a := fun he => hq (he ▸ ha)
  have hqp : q ≠ (m a).prev := fun he => hq (he ▸ h.ring.prev_mem ha)
  have hqn : q ≠ (m a).next := fun he => hq (he ▸ h.ring.next_mem ha)
  rw [llistRemoveUnlocked_eq h hpre]
  simp [hqa, hqp, hqn]

/-! ## Under the lock -/

theorem acquire_list {l l' : Llist} (h : l.acquire = some l') : l'.list = l.list := by
  unfold Llist.acquire at h
  split at h
  · cases h
    rfl
  · cases h

/-- The list `m', l'` is `xs'` where `m, l` was `xs`, and nothing else is written. -/
structure LlistStep (m : Items) (xs : List Nat) (m' : Items) (l' : Llist) (xs' : List Nat) :
    Prop where
  rep : LlistRep m' l' xs'
  data : ∀ q, (m' q).data = (m q).data
  frame : ∀ q, q ∉ xs → q ∉ xs' → m' q = m q

theorem llistAppend_step {xs : List Nat} {r : Items × Llist} (h : LlistRep m l xs) (ha0 : a ≠ 0)
    (ha : a ∉ xs) (hcall : llistAppend m l a = some r) : LlistStep m xs r.1 r.2 (xs ++ [a]) := by
  unfold llistAppend at hcall
  rw [if_neg ha0] at hcall
  obtain ⟨l₁, hl₁, rfl⟩ := Option.map_eq_some_iff.mp hcall
  have h₁ : LlistRep m l₁ xs := h.of_list_eq l₁ (acquire_list hl₁)
  refine ⟨(llistRep_append h₁ ha0 ha).of_list_eq _ rfl, llistAppendUnlocked_data m l₁ a,
    fun q hq hqa => llistAppendUnlocked_frame h₁ hq fun he => hqa ?_⟩
  rw [he]
  exact List.mem_append_right _ (List.mem_singleton_self a)

/-- With the lock free the call returns, and frees it again. -/
theorem llistAppend_returns {xs : List Nat} (h : LlistRep m l xs) (hlock : l.lock = 0) (ha0 : a ≠ 0)
    (ha : a ∉ xs) :
    ∃ r, llistAppend m l a = some r ∧ LlistStep m xs r.1 r.2 (xs ++ [a]) ∧ r.2.lock = 0 := by
  have hcall : llistAppend m l a = some ((llistAppendUnlocked m { l with lock := 1 } a).1,
      (llistAppendUnlocked m { l with lock := 1 } a).2.release) := by
    rw [llistAppend, if_neg ha0, Llist.acquire, if_pos hlock]
    rfl
  exact ⟨_, hcall, llistAppend_step h ha0 ha hcall, rfl⟩

theorem llistRemove_step {r : Items × Llist} (h : LlistRep m l (pre ++ a :: post)) (hpre : pre ≠ [])
    (hcall : llistRemove m l a = some r) :
    LlistStep m (pre ++ a :: post) r.1 r.2 (pre ++ post) := by
  have ha0 : a ≠ 0 := fun h0 => h.nonnull (h0 ▸ List.mem_append_right _ List.mem_cons_self)
  have hl0 : l.list ≠ 0 := fun h0 => by simpa using h.list_eq_zero_iff.mp h0
  unfold llistRemove at hcall
  rw [if_neg (not_or.mpr ⟨ha0, hl0⟩)] at hcall
  obtain ⟨l₁, hl₁, rfl⟩ := Option.map_eq_some_iff.mp hcall
  have h₁ : LlistRep m l₁ (pre ++ a :: post) := h.of_list_eq l₁ (acquire_list hl₁)
  exact ⟨(llistRep_remove h₁ hpre).of_list_eq _ rfl, llistRemoveUnlocked_data m l₁ a,
    fun q hq _ => llistRemoveUnlocked_frame h₁ hpre hq⟩

/-! ## Which items can be removed -/

/-- The list `m', l'` is the sequence `xs`, and `a` no longer refers to any list. -/
structure ItemRemoved (m' : Items) (l' : Llist) (a : Nat) (xs : List Nat) : Prop where
  rep : LlistRep m' l' xs
  next : (m' a).next = 0
  prev : (m' a).prev = 0

/-- The removed item's links are cleared on every path. -/
theorem llistRemoveUnlocked_links (m : Items) {l : Llist} {a : Nat} (ha : a ≠ 0)
    (hl : l.list ≠ 0) :
    ((llistRemoveUnlocked m l a).1 a).next = 0 ∧ ((llistRemoveUnlocked m l a).1 a).prev = 0 := by
  unfold llistRemoveUnlocked
  rw [if_neg (not_or.mpr ⟨ha, hl⟩)]
  dsimp only
  split <;> simp

/-- The head pointer is cleared or stays where it was. -/
theorem llistRemoveUnlocked_list (m : Items) (l : Llist) (a : Nat) :
    (llistRemoveUnlocked m l a).2.list = 0 ∨ (llistRemoveUnlocked m l a).2.list = l.list := by
  unfold llistRemoveUnlocked
  split
  · exact .inr rfl
  · dsimp only
    split
    · exact .inl rfl
    · exact .inr rfl

/-- The only item of a list is its own neighbour, and the list becomes empty. -/
theorem llistRep_remove_single (h : LlistRep m l [a]) :
    LlistRep (llistRemoveUnlocked m l a).1 (llistRemoveUnlocked m l a).2 [] := by
  have hla : l.list = a := h.head
  have ha0 : a ≠ 0 := fun h0 => h.nonnull (by simp [h0])
  obtain ⟨hnext, hprev⟩ := h.ring.seam a (by simp) a rfl
  refine ⟨IsRing.nil _ _, by simp, ?_⟩
  simp [llistRemoveUnlocked, hla, ha0, show (m a).next = a from hnext,
    show (m a).prev = a from hprev]

theorem llistRemoveUnlocked_single_frame {q : Nat} (h : LlistRep m l [a]) (hq : q ≠ a) :
    (llistRemoveUnlocked m l a).1 q = m q := by
  have hla : l.list = a := h.head
  have ha0 : a ≠ 0 := fun h0 => h.nonnull (by simp [h0])
  obtain ⟨hnext, hprev⟩ := h.ring.seam a (by simp) a rfl
  simp [llistRemoveUnlocked, hla, ha0, show (m a).next = a from hnext,
    show (m a).prev = a from hprev, hq]

/-- The head of a longer list stays the head, or takes the other item with it. -/
theorem llistRep_remove_head {y : Nat} (h : LlistRep m l (a :: y :: post)) :
    ¬ LlistRep (llistRemoveUnlocked m l a).1 (llistRemoveUnlocked m l a).2 (y :: post) := by
  intro h'
  have hla : l.list = a := h.head
  have hy : (llistRemoveUnlocked m l a).2.list = y := h'.head
  rcases llistRemoveUnlocked_list m l a with h0 | hsame
  · exact h'.nonnull (by rw [← h0, hy]; exact List.mem_cons_self)
  · have hay : a = y := hla.symm.trans (hsame.symm.trans hy)
    exact (List.nodup_cons.mp h.ring.nodup).1 (hay ▸ List.mem_cons_self)

theorem llistRemoveUnlocked_iff (h : LlistRep m l (pre ++ a :: post)) :
    ItemRemoved (llistRemoveUnlocked m l a).1 (llistRemoveUnlocked m l a).2 a (pre ++ post) ↔
      pre ≠ [] ∨ post = [] := by
  have ha0 : a ≠ 0 := fun h0 => h.nonnull (h0 ▸ List.mem_append_right _ List.mem_cons_self)
  have hl0 : l.list ≠ 0 := fun h0 => by simpa using h.list_eq_zero_iff.mp h0
  obtain ⟨hnext, hprev⟩ := llistRemoveUnlocked_links m ha0 hl0
  constructor
  · intro hrem
    cases pre with
    | cons x pre => exact .inl (List.cons_ne_nil x pre)
    | nil =>
        cases post with
        | nil => exact .inr rfl
        | cons y post => exact absurd hrem.rep (llistRep_remove_head h)
  · rintro (hpre | rfl)
    · exact ⟨llistRep_remove h hpre, hnext, hprev⟩
    · cases pre with
      | nil => exact ⟨llistRep_remove_single h, hnext, hprev⟩
      | cons x pre => exact ⟨llistRep_remove h (List.cons_ne_nil x pre), hnext, hprev⟩

/-- **What `llist_remove` takes out.** From a ring of any length, both forms of
the call leave the ring of the other items in their order, with the item's own
links cleared, exactly when the item is not the head or is the only one. With
the lock free the locking form returns. -/
theorem llist_remove_iff (h : LlistRep m l (pre ++ a :: post)) :
    (ItemRemoved (llistRemoveUnlocked m l a).1 (llistRemoveUnlocked m l a).2 a (pre ++ post) ↔
        pre ≠ [] ∨ post = [])
      ∧ (l.lock = 0 → (llistRemove m l a).isSome)
      ∧ ∀ r, llistRemove m l a = some r →
        (ItemRemoved r.1 r.2 a (pre ++ post) ↔ pre ≠ [] ∨ post = []) := by
  have ha0 : a ≠ 0 := fun h0 => h.nonnull (h0 ▸ List.mem_append_right _ List.mem_cons_self)
  have hl0 : l.list ≠ 0 := fun h0 => by simpa using h.list_eq_zero_iff.mp h0
  refine ⟨llistRemoveUnlocked_iff h, fun hlock => ?_, fun r hcall => ?_⟩
  · simp [llistRemove, ha0, hl0, Llist.acquire, hlock]
  unfold llistRemove at hcall
  rw [if_neg (not_or.mpr ⟨ha0, hl0⟩)] at hcall
  obtain ⟨l₁, hl₁, rfl⟩ := Option.map_eq_some_iff.mp hcall
  have h₁ : LlistRep m l₁ (pre ++ a :: post) := h.of_list_eq l₁ (acquire_list hl₁)
  rw [← llistRemoveUnlocked_iff h₁]
  -- the lock word plays no part in what is represented
  exact ⟨fun hr => ⟨hr.rep.of_list_eq _ rfl, hr.next, hr.prev⟩,
    fun hr => ⟨hr.rep.of_list_eq _ rfl, hr.next, hr.prev⟩⟩

/-- A list of the items 1, 2, .., `n`, appended in this order. -/
def ringOf (n : Nat) : Items × Llist :=
  (List.range n).foldl (fun s i => llistAppendUnlocked s.1 s.2 (i + 1))
    (fun _ => ⟨0, 0, 0⟩, llistInit)

theorem llistRep_ringOf (n : Nat) :
    LlistRep (ringOf n).1 (ringOf n).2 ((List.range n).map (· + 1)) := by
  induction n with
  | zero => exact llistRep_init _
  | succ n ih =>
      have hstep : ringOf (n + 1) = llistAppendUnlocked (ringOf n).1 (ringOf n).2 (n + 1) := by
        simp [ringOf, List.range_succ]
      rw [hstep, List.range_succ, List.map_append]
      exact llistRep_append ih (Nat.succ_ne_zero n) (by simp)

/-- The middle one of three items. -/
theorem llist_remove_iff_three :
    ItemRemoved (llistRemoveUnlocked (ringOf 3).1 (ringOf 3).2 2).1
      (llistRemoveUnlocked (ringOf 3).1 (ringOf 3).2 2).2 2 [1, 3] := by
  have hring : LlistRep (ringOf 3).1 (ringOf 3).2 ([1] ++ 2 :: [3]) := llistRep_ringOf 3
  exact (llist_remove_iff hring).1.mpr (.inl (List.cons_ne_nil 1 []))

/-- Of two items the first is asked for, and the second goes with it. -/
theorem llist_remove_head_two :
    LlistRep (ringOf 2).1 (ringOf 2).2 [1, 2]
      ∧ ¬ ItemRemoved (llistRemoveUnlocked (ringOf 2).1 (ringOf 2).2 1).1
        (llistRemoveUnlocked (ringOf 2).1 (ringOf 2).2 1).2 1 [2]
      ∧ (llistRemoveUnlocked (ringOf 2).1 (ringOf 2).2 1).2.list = 0 :=
  ⟨llistRep_ringOf 2, fun h => llistRep_remove_head (llistRep_ringOf 2) h.rep, rfl⟩

end Remove

/-! ## The traversals

`Standing` is where a loop over the ring is: at `x`, with `pre` behind it and
`post` ahead. One `next` either moves to the first item of `post` or, at the
end, comes back to the head. -/

/-- The loop stands at `x` in the ring `pre ++ x :: post`. -/
structure Standing (m : Items) (first : Nat) (pre : List Nat) (x : Nat)
    (post : List Nat) : Prop where
  ring : IsRing (fun p => (m p).next) (fun p => (m p).prev) (pre ++ x :: post)
  head : (pre ++ x :: post).head? = some first

theorem Standing.next_cons {m : Items} {first x y : Nat} {pre post : List Nat}
    (h : Standing m first pre x (y :: post)) :
    (m x).next = y ∧ y ≠ first ∧ Standing m first (pre ++ [x]) y post := by
  have hassoc : pre ++ [x] ++ y :: post = pre ++ x :: y :: post := by simp
  refine ⟨h.ring.next_eq, ?_, ⟨hassoc ▸ h.ring, hassoc ▸ h.head⟩⟩
  rintro rfl
  have hnd := h.ring.nodup
  have hhd := h.head
  cases pre with
  | nil =>
      simp only [List.nil_append, List.head?_cons, Option.some.injEq] at hhd
      simp [hhd] at hnd
  | cons z zs =>
      simp only [List.cons_append, List.head?_cons, Option.some.injEq] at hhd
      simp [hhd] at hnd

theorem Standing.next_nil {m : Items} {first x : Nat} {pre : List Nat}
    (h : Standing m first pre x []) : (m x).next = first :=
  h.ring.next_last h.head

theorem LlistRep.standing {m : Items} {l : Llist} {x : Nat} {xs : List Nat}
    (h : LlistRep m l (x :: xs)) : Standing m l.list [] x xs := by
  refine ⟨h.ring, ?_⟩
  rw [h.head]
  rfl

theorem countLoop_eq {m : Items} {first : Nat} {post pre : List Nat} {x : Nat} (fuel : Nat)
    (h : Standing m first pre x post) (hf : post.length < fuel) :
    countLoop m first fuel x pre.length = some ((pre ++ x :: post).length : Nat) := by
  induction fuel generalizing pre x post with
  | zero => exact absurd hf (Nat.not_lt_zero _)
  | succ fuel ih =>
      cases post with
      | nil => simp [countLoop, h.next_nil]
      | cons y post =>
          obtain ⟨hn, hne, h'⟩ := h.next_cons
          have hrest := ih h' (Nat.lt_of_succ_lt_succ hf)
          rw [List.length_append, List.length_singleton] at hrest
          rw [countLoop, hn, if_pos hne, hrest]
          simp

theorem llistCount_eq {m : Items} {l : Llist} {xs : List Nat} {fuel : Nat}
    (h : LlistRep m l xs) (hf : xs.length ≤ fuel) :
    llistCount fuel m l = some (xs.length : Int) := by
  unfold llistCount
  cases xs with
  | nil =>
      have hl : l.list = 0 := h.head
      simp [hl]
  | cons x xs =>
      have hl : l.list = x := h.head
      have hne : ¬l.list = 0 := fun h0 => by simpa using h.list_eq_zero_iff.mp h0
      have hloop := countLoop_eq fuel h.standing (Nat.lt_of_succ_le hf)
      rw [if_neg hne]
      simpa [hl] using hloop

theorem getLoop_eq {m : Items} {first : Nat} (idx : Nat) {post pre : List Nat} {x : Nat}
    (fuel : Nat) (h : Standing m first pre x post) (hf : post.length < fuel)
    (hidx : pre.length ≤ idx) :
    getLoop m first idx fuel x pre.length = some ((pre ++ x :: post).getD idx 0) := by
  induction fuel generalizing pre x post with
  | zero => exact absurd hf (Nat.not_lt_zero _)
  | succ fuel ih =>
      unfold getLoop
      split
      · rename_i heq
        simp [← heq]
      · rename_i hneq
        have hlt : pre.length < idx := Nat.lt_of_le_of_ne hidx hneq
        cases post with
        | nil =>
            have hout : (pre ++ [x]).length ≤ idx := by simp; omega
            simp [h.next_nil, List.getElem?_eq_none hout]
        | cons y post =>
            obtain ⟨hn, hne, h'⟩ := h.next_cons
            have hrest := ih h' (Nat.lt_of_succ_lt_succ hf) (by simp; omega)
            rw [List.length_append, List.length_singleton] at hrest
            dsimp only
            rw [hn, if_pos hne, hrest]
            simp

theorem llistGet_eq {m : Items} {l : Llist} {xs : List Nat} {fuel : Nat} (idx : Nat)
    (h : LlistRep m l xs) (hf : xs.length ≤ fuel) :
    llistGet fuel m l idx = some (xs.getD idx 0) := by
  unfold llistGet
  cases xs with
  | nil =>
      have hl : l.list = 0 := h.head
      simp [hl]
  | cons x xs =>
      have hl : l.list = x := h.head
      have hne : ¬l.list = 0 := fun h0 => by simpa using h.list_eq_zero_iff.mp h0
      have hloop := getLoop_eq idx fuel h.standing (Nat.lt_of_succ_le hf) (Nat.zero_le idx)
      rw [if_neg hne]
      simpa [hl] using hloop

/-- A list represents one sequence. -/
theorem LlistRep.unique {m : Items} {l : Llist} {xs ys : List Nat} (h : LlistRep m l xs)
    (h' : LlistRep m l ys) : xs = ys := by
  have hx : xs.length ≤ xs.length + ys.length := Nat.le_add_right _ _
  have hy : ys.length ≤ xs.length + ys.length := Nat.le_add_left _ _
  have hlen : xs.length = ys.length := by
    have hcount := (llistCount_eq h hx).symm.trans (llistCount_eq h' hy)
    exact Int.ofNat.inj (Option.some.inj hcount)
  refine List.ext_getElem hlen ?_
  intro i hi hi'
  have hget := Option.some.inj ((llistGet_eq i h hx).symm.trans (llistGet_eq i h' hy))
  simpa [hi, hi'] using hget

/-- What `llist_get_position` returns for a sequence. -/
def seqPosition (xs : List Nat) (item : Nat) : Int :=
  if item ∈ xs then (xs.idxOf item : Nat) else -EINVAL

theorem getPositionLoop_eq {m : Items} {first : Nat} (item : Nat) {post pre : List Nat}
    {x : Nat} (fuel : Nat) (h : Standing m first pre x post) (hf : post.length < fuel)
    (hpre : item ∉ pre) :
    getPositionLoop m first item fuel x pre.length
      = some (seqPosition (pre ++ x :: post) item) := by
  induction fuel generalizing pre x post with
  | zero => exact absurd hf (Nat.not_lt_zero _)
  | succ fuel ih =>
      unfold getPositionLoop
      split
      · rename_i heq
        subst heq
        simp [seqPosition, List.idxOf_append, hpre]
      · rename_i hneq
        have hpre' : item ∉ pre ++ [x] := by
          simp only [List.mem_append, List.mem_singleton, not_or]
          exact ⟨hpre, fun h0 => hneq h0.symm⟩
        cases post with
        | nil => simp [h.next_nil, seqPosition, hpre']
        | cons y post =>
            obtain ⟨hn, hne, h'⟩ := h.next_cons
            have hrest := ih h' (Nat.lt_of_succ_lt_succ hf) hpre'
            rw [List.length_append, List.length_singleton] at hrest
            dsimp only
            rw [hn, if_pos hne, hrest]
            simp

theorem llistGetPosition_eq {m : Items} {l : Llist} {xs : List Nat} {fuel : Nat}
    (item : Nat) (h : LlistRep m l xs) (hne : xs ≠ []) (hf : xs.length ≤ fuel) :
    llistGetPosition fuel m l item = some (seqPosition xs item) := by
  unfold llistGetPosition
  split
  · rename_i h0
    simp [h0, seqPosition, h.nonnull]
  · cases xs with
    | nil => exact absurd rfl hne
    | cons x xs =>
        have hl : l.list = x := h.head
        have hloop := getPositionLoop_eq item fuel h.standing
          (Nat.lt_of_succ_le hf) (by simp)
        simpa [hl] using hloop

/-- The iterator moves on to the next item, and stops at the end. -/
theorem Standing.iterate_cons {m : Items} {first x y : Nat} {pre post : List Nat}
    (h : Standing m first pre x (y :: post)) (h0 : 0 ∉ pre ++ x :: y :: post) :
    llistIterate m ⟨first, x⟩ = some (⟨first, y⟩, some (m y).data) := by
  obtain ⟨hn, hne, -⟩ := h.next_cons
  have hf0 : first ≠ 0 := fun hf => h0 (hf ▸ List.mem_of_head? h.head)
  have hx0 : x ≠ 0 := fun hx => h0 (by simp [hx])
  have hy0 : y ≠ 0 := fun hy => h0 (by simp [hy])
  simp [llistIterate, hf0, hx0, hn, hne, hy0]

theorem Standing.iterate_nil {m : Items} {first x : Nat} {pre : List Nat}
    (h : Standing m first pre x []) (h0 : 0 ∉ pre ++ [x]) :
    llistIterate m ⟨first, x⟩ = some (⟨first, first⟩, none) := by
  have hf0 : first ≠ 0 := fun hf => h0 (hf ▸ List.mem_of_head? h.head)
  have hx0 : x ≠ 0 := fun hx => h0 (by simp [hx])
  simp [llistIterate, hf0, hx0, h.next_nil]

theorem iterateAll_from {m : Items} {first : Nat} {post pre : List Nat} {x : Nat} (fuel : Nat)
    (h : Standing m first pre x post) (h0 : 0 ∉ pre ++ x :: post) (hf : post.length < fuel) :
    iterateAll m fuel ⟨first, x⟩ = some (post.map fun p => (m p).data) := by
  induction fuel generalizing pre x post with
  | zero => exact absurd hf (Nat.not_lt_zero _)
  | succ fuel ih =>
      cases post with
      | nil =>
          rw [iterateAll, h.iterate_nil h0]
          rfl
      | cons y post =>
          obtain ⟨-, -, h'⟩ := h.next_cons
          have hrest := ih h' (by simpa using h0) (Nat.lt_of_succ_lt_succ hf)
          rw [iterateAll, h.iterate_cons h0]
          simp [hrest]

theorem iterateAll_eq {m : Items} {l : Llist} {xs : List Nat} {fuel : Nat}
    (h : LlistRep m l xs) (hf : xs.length < fuel) :
    iterateAll m fuel (llistIteratorInit l) = some (xs.map fun p => (m p).data) := by
  obtain ⟨fuel, rfl⟩ : ∃ k, fuel = k + 1 := ⟨fuel - 1, by omega⟩
  cases xs with
  | nil =>
      have hl : l.list = 0 := h.head
      simp [iterateAll, llistIteratorInit, llistIterate, hl]
  | cons x xs =>
      have hl : l.list = x := h.head
      have hx0 : x ≠ 0 := fun hx => h.nonnull (by simp [hx])
      have hrest := iterateAll_from fuel h.standing h.nonnull
        (by simp at hf; omega)
      have hstep : llistIterate m (llistIteratorInit l)
          = some (⟨x, x⟩, some (m x).data) := by
        simp [llistIteratorInit, llistIterate, hl, hx0]
      rw [hl] at hrest
      rw [iterateAll, hstep]
      simp [hrest]

/-! ## Whole runs -/

/-- The operations a list is built with. -/
inductive LlistOp where
  | append (item : Nat)
  | appendUnlocked (item : Nat)
  | pop
deriving Repr, DecidableEq

/-- One operation on the code's list, with the pointer it returns (`0` for
the appends, which return nothing). `none` is a caller that spins. -/
def llistStep (m : Items) (l : Llist) : LlistOp → Option (Items × Llist × Nat)
  | .append a => (llistAppend m l a).map fun r => (r.1, r.2, 0)
  | .appendUnlocked a =>
      let r := llistAppendUnlocked m l a
      some (r.1, r.2, 0)
  | .pop => some (llistPopUnlocked m l)

/-- The code's run, with the pointers returned in order. -/
def llistRun : Items → Llist → List LlistOp → Option (Items × Llist × List Nat)
  | m, l, [] => some (m, l, [])
  | m, l, op :: ops =>
      (llistStep m l op).bind fun (m, l, r) =>
        (llistRun m l ops).map fun (m, l, rs) => (m, l, r :: rs)

/-- One operation on a sequence of items. -/
def seqStep (xs : List Nat) : LlistOp → List Nat × Nat
  | .append a => (xs ++ [a], 0)
  | .appendUnlocked a => (xs ++ [a], 0)
  | .pop => (xs.dropLast, xs.getLastD 0)

/-- The sequence's run. -/
def seqRun : List Nat → List LlistOp → List Nat × List Nat
  | xs, [] => (xs, [])
  | xs, op :: ops =>
      let r := seqRun (seqStep xs op).1 ops
      (r.1, (seqStep xs op).2 :: r.2)

/-- The callers' promise: an appended item is an item, and not in the list. -/
def LlistOp.Fresh (xs : List Nat) : LlistOp → Prop
  | .append a => a ≠ 0 ∧ a ∉ xs
  | .appendUnlocked a => a ≠ 0 ∧ a ∉ xs
  | .pop => True

/-- The promise along a whole run. -/
def FreshOps : List Nat → List LlistOp → Prop
  | _, [] => True
  | xs, op :: ops => op.Fresh xs ∧ FreshOps (seqStep xs op).1 ops

/-- One step of the simulation. -/
theorem llistStep_refines {m : Items} {l : Llist} {xs : List Nat} {op : LlistOp}
    (h : LlistRep m l xs) (hlock : l.lock = 0) (hf : op.Fresh xs) :
    ∃ m' l', llistStep m l op = some (m', l', (seqStep xs op).2)
      ∧ LlistRep m' l' (seqStep xs op).1 ∧ l'.lock = 0
      ∧ ∀ p, (m' p).data = (m p).data := by
  cases op with
  | append a =>
      obtain ⟨ha0, ha⟩ := hf
      have hrep := llistRep_append (h.of_list_eq { l with lock := 1 } rfl) ha0 ha
      refine ⟨_, _, ?_, hrep.of_list_eq (llistAppendUnlocked m
        { l with lock := 1 } a).2.release rfl, rfl, llistAppendUnlocked_data _ _ _⟩
      simp [llistStep, llistAppend, Llist.acquire, hlock, ha0, seqStep]
  | appendUnlocked a =>
      obtain ⟨ha0, ha⟩ := hf
      exact ⟨_, _, rfl, llistRep_append h ha0 ha, by simpa using hlock,
        llistAppendUnlocked_data _ _ _⟩
  | pop =>
      rcases List.eq_nil_or_concat xs with rfl | ⟨ys, a, rfl⟩
      · refine ⟨m, l, ?_, h, hlock, fun _ => rfl⟩
        simp [llistStep, llistPopUnlocked_nil h, seqStep]
      · simp only [List.concat_eq_append] at h ⊢
        obtain ⟨hrep, hret⟩ := llistRep_pop h
        refine ⟨_, _, ?_, by simpa [seqStep] using hrep, by simpa using hlock,
          llistPopUnlocked_data m l⟩
        simp [llistStep, seqStep, ← hret]

/-- The whole run refines the run on sequences. -/
theorem llistRun_refines {ops : List LlistOp} {m : Items} {l : Llist} {xs : List Nat}
    (h : LlistRep m l xs) (hlock : l.lock = 0) (hf : FreshOps xs ops) :
    ∃ m' l', llistRun m l ops = some (m', l', (seqRun xs ops).2)
      ∧ LlistRep m' l' (seqRun xs ops).1 ∧ l'.lock = 0
      ∧ ∀ p, (m' p).data = (m p).data := by
  induction ops generalizing m l xs with
  | nil => exact ⟨m, l, rfl, h, hlock, fun _ => rfl⟩
  | cons op ops ih =>
      obtain ⟨m₁, l₁, hstep, h₁, hlock₁, hdata₁⟩ := llistStep_refines h hlock hf.1
      obtain ⟨m₂, l₂, hrun, h₂, hlock₂, hdata₂⟩ := ih h₁ hlock₁ hf.2
      refine ⟨m₂, l₂, ?_, h₂, hlock₂, fun p => (hdata₂ p).trans (hdata₁ p)⟩
      simp [llistRun, hstep, hrun, seqRun]

/-- **The ring list refines a sequence.** Every run of appends of items not in
the list and of pops, from a freshly initialised list, returns what the
sequence returns and ends in a ring that represents the sequence: `next` and
`prev` are inverse all around it, and with enough fuel for its length every
traversal computes the matching function of the sequence. -/
theorem llist_refines_sequence (m : Items) {ops : List LlistOp} (hf : FreshOps [] ops) :
    ∃ m' l, llistRun m llistInit ops = some (m', l, (seqRun [] ops).2)
      ∧ LlistRep m' l (seqRun [] ops).1
      ∧ (∀ x ∈ (seqRun [] ops).1,
          (m' (m' x).next).prev = x ∧ (m' (m' x).prev).next = x)
      ∧ ∀ fuel, (seqRun [] ops).1.length < fuel →
        llistCount fuel m' l = some ((seqRun [] ops).1.length : Int)
        ∧ (∀ idx, llistGet fuel m' l idx = some ((seqRun [] ops).1.getD idx 0))
        ∧ ((seqRun [] ops).1 ≠ [] →
            ∀ item, llistGetPosition fuel m' l item
              = some (seqPosition (seqRun [] ops).1 item))
        ∧ iterateAll m' fuel (llistIteratorInit l)
            = some ((seqRun [] ops).1.map fun p => (m p).data) := by
  obtain ⟨m', l, hrun, h, -, hdata⟩ := llistRun_refines (llistRep_init m) rfl hf
  refine ⟨m', l, hrun, h, fun x hx => ⟨h.ring.prev_next hx, h.ring.next_prev hx⟩, ?_⟩
  intro fuel hfuel
  have hle := Nat.le_of_lt hfuel
  refine ⟨llistCount_eq h hle, fun idx => llistGet_eq idx h hle,
    fun hne item => llistGetPosition_eq item h hne hle, ?_⟩
  rw [iterateAll_eq h hfuel]
  simp only [hdata]

/-- Two items appended, one popped, one appended. -/
theorem llist_refines_sequence_four :
    FreshOps [] [.append 8, .appendUnlocked 16, .pop, .append 24]
      ∧ ∃ m' l, llistRun (fun _ => ⟨0, 0, 0⟩) llistInit
            [.append 8, .appendUnlocked 16, .pop, .append 24]
          = some (m', l, [0, 0, 16, 0]) ∧ LlistRep m' l [8, 24] := by
  have hf : FreshOps [] [.append 8, .appendUnlocked 16, .pop, .append 24] := by
    simp [FreshOps, LlistOp.Fresh, seqStep]
  obtain ⟨m', l, hrun, h, -⟩ := llist_refines_sequence (fun _ => ⟨0, 0, 0⟩) hf
  exact ⟨hf, m', l, hrun, h⟩

end LambdaOs
