import Mathlib.Data.List.Chain
import Mathlib.Data.List.Nodup

/-!
# Rings of links

A circular doubly linked sequence over an arbitrary node type: two maps
`next` and `prev`, and the nodes listed once around starting at the head.
`IsRing` says that consecutive nodes are linked both ways and that the last
node is linked back to the head. Two edits are at the seam - `IsRing.snoc`
links a new node in before the head, `IsRing.unsnoc` unlinks the last node -
and `IsRing.unlink` takes out any node; all only ask what the edit does to the
link words it touches and that every other link word is kept.
-/

namespace LambdaOs

section Ring

variable {α : Type*} {next prev next' prev' : α → α}

/-- `a` and `b` are neighbours, in both directions. -/
def Linked (next prev : α → α) (a b : α) : Prop := next a = b ∧ prev b = a

/-- `xs` lists the nodes of a ring once around, head first. -/
structure IsRing (next prev : α → α) (xs : List α) : Prop where
  nodup : xs.Nodup
  chain : xs.IsChain (Linked next prev)
  seam : ∀ l ∈ xs.getLast?, ∀ h ∈ xs.head?, Linked next prev l h

theorem IsRing.nil (next prev : α → α) : IsRing next prev [] :=
  ⟨List.nodup_nil, List.isChain_nil, by simp⟩

theorem IsRing.singleton {a : α} (hn : next a = a) (hp : prev a = a) :
    IsRing next prev [a] :=
  ⟨List.nodup_singleton a, List.isChain_singleton a, by simp [Linked, hn, hp]⟩

/-- A ring reads only the link words of its own nodes. -/
theorem IsRing.congr {xs : List α} (h : IsRing next prev xs)
    (hn : ∀ x ∈ xs, next' x = next x) (hp : ∀ x ∈ xs, prev' x = prev x) :
    IsRing next' prev' xs := by
  refine ⟨h.nodup, h.chain.imp_of_mem_imp ?_, ?_⟩
  · rintro a b ha hb ⟨hab, hba⟩
    exact ⟨(hn a ha).trans hab, (hp b hb).trans hba⟩
  · intro l hl t ht
    obtain ⟨h1, h2⟩ := h.seam l hl t ht
    exact ⟨(hn l (List.mem_of_getLast? hl)).trans h1,
      (hp t (List.mem_of_head? ht)).trans h2⟩

/-! ## Walking the ring -/

/-- Inside the ring, `next` is the following node. -/
theorem IsRing.next_eq {pre post : List α} {a b : α}
    (h : IsRing next prev (pre ++ a :: b :: post)) : next a = b :=
  (List.isChain_append_cons_cons.mp h.chain).2.1.1

/-- Inside the ring, `prev` is the preceding node. -/
theorem IsRing.prev_eq {pre post : List α} {a b : α}
    (h : IsRing next prev (pre ++ a :: b :: post)) : prev b = a :=
  (List.isChain_append_cons_cons.mp h.chain).2.1.2

/-- At the end of the ring, `next` is the head. -/
theorem IsRing.next_last {pre : List α} {a h : α}
    (hr : IsRing next prev (pre ++ [a])) (hh : (pre ++ [a]).head? = some h) :
    next a = h :=
  (hr.seam a (by simp) h hh).1

theorem IsRing.prev_head {pre : List α} {a h : α}
    (hr : IsRing next prev (pre ++ [a])) (hh : (pre ++ [a]).head? = some h) :
    prev h = a :=
  (hr.seam a (by simp) h hh).2

theorem IsRing.prev_head_mem {x : α} {xs : List α}
    (hr : IsRing next prev (x :: xs)) : prev x ∈ x :: xs := by
  obtain ⟨t, ht⟩ : ∃ t, (x :: xs).getLast? = some t :=
    ⟨_, List.getLast?_eq_some_getLast (by simp)⟩
  rw [(hr.seam t ht x rfl).2]
  exact List.mem_of_getLast? ht

theorem IsRing.prev_next {xs : List α} (h : IsRing next prev xs) {x : α}
    (hx : x ∈ xs) : prev (next x) = x := by
  obtain ⟨pre, post, rfl⟩ := List.append_of_mem hx
  cases post with
  | nil =>
      obtain ⟨t, ht⟩ : ∃ t, (pre ++ [x]).head? = some t := by
        cases pre <;> simp
      rw [h.next_last ht, h.prev_head ht]
  | cons b post =>
      obtain ⟨hab, hba⟩ := (List.isChain_append_cons_cons.mp h.chain).2.1
      rw [hab, hba]

theorem IsRing.next_prev {xs : List α} (h : IsRing next prev xs) {x : α}
    (hx : x ∈ xs) : next (prev x) = x := by
  obtain ⟨pre, post, rfl⟩ := List.append_of_mem hx
  rcases List.eq_nil_or_concat pre with rfl | ⟨pre, a, rfl⟩
  · obtain ⟨l, hl⟩ : ∃ l, (x :: post).getLast? = some l :=
      ⟨_, List.getLast?_eq_some_getLast (by simp)⟩
    obtain ⟨h1, h2⟩ := h.seam l (by simpa using hl) x (by simp)
    rw [h2, h1]
  · have hc : (pre ++ a :: x :: post).IsChain (Linked next prev) := by
      simpa using h.chain
    obtain ⟨h1, h2⟩ := (List.isChain_append_cons_cons.mp hc).2.1
    rw [h2, h1]

/-- A ring may be listed from any of its nodes on. -/
theorem IsRing.rotate {pre post : List α} (h : IsRing next prev (pre ++ post)) :
    IsRing next prev (post ++ pre) := by
  obtain ⟨hpre, hpost, hmid⟩ := List.isChain_append.mp h.chain
  refine ⟨List.nodup_append_comm.mp h.nodup,
    List.isChain_append.mpr ⟨hpost, hpre, ?_⟩, ?_⟩
  · -- the old seam
    intro x hx y hy
    refine h.seam x ?_ y ?_
    · rw [List.getLast?_append, Option.mem_def.mp hx]
      rfl
    · rw [List.head?_append, Option.mem_def.mp hy]
      rfl
  · intro l hl t ht
    cases pre with
    | nil =>
      rw [List.append_nil] at hl ht
      exact h.seam l hl t ht
    | cons a pre =>
      cases post with
      | nil =>
        refine h.seam l ?_ t ?_
        · rwa [List.append_nil]
        · rwa [List.append_nil]
      | cons b post =>
        refine hmid l ?_ t ht
        obtain ⟨z, hz⟩ : ∃ z, (a :: pre).getLast? = some z :=
          ⟨_, List.getLast?_eq_some_getLast (List.cons_ne_nil _ _)⟩
        rw [List.getLast?_append, hz, Option.some_or] at hl
        rw [hz]
        exact hl

/-- Listed from behind one of its nodes on. -/
theorem IsRing.from_next {pre post : List α} {a : α} (h : IsRing next prev (pre ++ a :: post)) :
    IsRing next prev (post ++ pre ++ [a]) := by
  have hfirst : IsRing next prev ((pre ++ [a]) ++ post) := by simpa using h
  simpa using hfirst.rotate

theorem IsRing.next_mem {xs : List α} (h : IsRing next prev xs) {x : α} (hx : x ∈ xs) :
    next x ∈ xs := by
  obtain ⟨pre, post, rfl⟩ := List.append_of_mem hx
  obtain ⟨t, ht⟩ : ∃ t, (post ++ pre ++ [x]).head? = some t := by
    cases hlist : post ++ pre <;> simp
  have hmem := List.mem_of_head? ht
  rw [h.from_next.next_last ht]
  simp only [List.mem_append, List.mem_cons, List.not_mem_nil, or_false] at hmem ⊢
  tauto

theorem IsRing.prev_mem {xs : List α} (h : IsRing next prev xs) {x : α} (hx : x ∈ xs) :
    prev x ∈ xs := by
  obtain ⟨pre, post, rfl⟩ := List.append_of_mem hx
  have hhead : prev x ∈ (x :: post) ++ pre := (IsRing.rotate h).prev_head_mem
  exact List.mem_append.mpr (List.mem_append.mp hhead).symm

/-! ## The edits -/

/-- An edit at the seam keeps the inner links: it changes `next` of no node
but the last and `prev` of no node but the head. -/
theorem isChain_of_seam_edit {pre : List α} {l h : α}
    (hnd : (pre ++ [l]).Nodup) (hc : (pre ++ [l]).IsChain (Linked next prev))
    (hh : (pre ++ [l]).head? = some h)
    (hn : ∀ x ∈ pre, next' x = next x)
    (hp : ∀ x ∈ pre ++ [l], x ≠ h → prev' x = prev x) :
    (pre ++ [l]).IsChain (Linked next' prev') := by
  refine List.isChain_iff_forall_rel_of_append_cons_cons.mpr ?_
  intro x y l₁ l₂ heq
  have hxy : Linked next prev x y :=
    List.isChain_iff_forall_rel_of_append_cons_cons.mp hc heq
  have hxpre : x ∈ pre := by
    have hx : x ∈ (pre ++ [l]).dropLast := by
      rw [heq]; simp [List.dropLast_append_of_ne_nil]
    simpa using hx
  -- `y` has a predecessor in the list, so without duplicates it is not the head
  have hyh : y ≠ h := by
    rintro rfl
    rw [heq] at hnd hh
    cases l₁ with
    | nil =>
        simp only [List.nil_append, List.head?_cons, Option.some.injEq] at hh
        simp [hh] at hnd
    | cons z zs =>
        simp only [List.cons_append, List.head?_cons, Option.some.injEq] at hh
        simp [hh] at hnd
  have hymem : y ∈ pre ++ [l] := by rw [heq]; simp
  exact ⟨(hn x hxpre).trans hxy.1, (hp y hymem hyh).trans hxy.2⟩

/-- Link a new node in at the end of a non-empty ring: the old last node and
the head now have it as a neighbour, and no other link word changes. -/
theorem IsRing.snoc {pre : List α} {l h a : α}
    (hr : IsRing next prev (pre ++ [l])) (hh : (pre ++ [l]).head? = some h)
    (ha : a ∉ pre ++ [l])
    (hnl : next' l = a) (hpa : prev' a = l) (hna : next' a = h) (hph : prev' h = a)
    (hn : ∀ x ∈ pre, next' x = next x)
    (hp : ∀ x ∈ pre ++ [l], x ≠ h → prev' x = prev x) :
    IsRing next' prev' (pre ++ [l] ++ [a]) := by
  have hnd : (pre ++ [l] ++ [a]).Nodup := by
    rw [List.nodup_append']
    exact ⟨hr.nodup, List.nodup_singleton a, by simpa using ha⟩
  have hchain := isChain_of_seam_edit hr.nodup hr.chain hh hn hp
  refine ⟨hnd, List.isChain_append.mpr ⟨hchain, List.isChain_singleton a, ?_⟩, ?_⟩
  · intro x hx y hy
    simp only [List.getLast?_append, List.getLast?_singleton, Option.some_or,
      Option.mem_def, Option.some.injEq, List.head?_cons] at hx hy
    subst hx hy
    exact ⟨hnl, hpa⟩
  · intro x hx y hy
    have hhd : (pre ++ [l] ++ [a]).head? = some h := by
      rw [List.head?_append, hh]; rfl
    rw [hhd] at hy
    simp only [List.getLast?_append, List.getLast?_singleton, Option.some_or,
      Option.mem_def, Option.some.injEq] at hx hy
    subst hx hy
    exact ⟨hna, hph⟩

/-- Unlink the last node of a ring of at least two: its predecessor becomes
the head's neighbour, and no other link word changes. -/
theorem IsRing.unsnoc {pre : List α} {l h a : α}
    (hr : IsRing next prev (pre ++ [l] ++ [a])) (hh : (pre ++ [l]).head? = some h)
    (hnl : next' l = h) (hph : prev' h = l)
    (hn : ∀ x ∈ pre, next' x = next x)
    (hp : ∀ x ∈ pre ++ [l], x ≠ h → prev' x = prev x) :
    IsRing next' prev' (pre ++ [l]) := by
  have hnd : (pre ++ [l]).Nodup := (List.nodup_append'.mp hr.nodup).1
  refine ⟨hnd, isChain_of_seam_edit hnd hr.chain.left_of_append hh hn hp, ?_⟩
  intro x hx y hy
  rw [hh] at hy
  simp only [List.getLast?_append, List.getLast?_singleton, Option.some_or,
    Option.mem_def, Option.some.injEq] at hx hy
  subst hx hy
  exact ⟨hnl, hph⟩

/-- Unlink a node that is not alone: its neighbours are linked to each other,
and no other link word of the rest changes. -/
theorem IsRing.unlink {pre post : List α} {a : α} (hr : IsRing next prev (pre ++ a :: post))
    (hne : pre ++ post ≠ []) (hn : next' (prev a) = next a) (hp : prev' (next a) = prev a)
    (hnext : ∀ x ∈ pre ++ post, x ≠ prev a → next' x = next x)
    (hprev : ∀ x ∈ pre ++ post, x ≠ next a → prev' x = prev x) :
    IsRing next' prev' (pre ++ post) := by
  -- listed from behind the node on, it is the last one
  have hrot := hr.from_next
  have hmem : ∀ {x}, x ∈ post ++ pre → x ∈ pre ++ post := fun hx => by
    rw [List.mem_append] at hx ⊢
    exact hx.symm
  have hne' : post ++ pre ≠ [] := fun hnil => hne (by simp_all)
  obtain ⟨front, l, hfl⟩ := (List.eq_nil_or_concat (post ++ pre)).resolve_left hne'
  rw [List.concat_eq_append] at hfl
  rw [hfl] at hrot hmem
  obtain ⟨h, hh⟩ : ∃ h, (front ++ [l]).head? = some h := by
    cases front <;> simp
  have hpl : prev a = l := by
    have hmid : IsRing next prev (front ++ l :: a :: []) := by simpa using hrot
    exact hmid.prev_eq
  have hna : next a = h := hrot.next_last (by rw [List.head?_append, hh]; rfl)
  have hlout : l ∉ front := by
    have hnd := (List.nodup_append'.mp hrot.nodup).1
    exact fun hl => (List.nodup_append'.mp hnd).2.2 hl (List.mem_singleton_self l)
  have hshort : IsRing next' prev' (front ++ [l]) := by
    refine hrot.unsnoc hh ?_ ?_ ?_ ?_
    · rw [← hpl, hn, hna]
    · rw [← hna, hp, hpl]
    · intro x hx
      refine hnext x (hmem (List.mem_append_left _ hx)) ?_
      rintro rfl
      exact hlout (hpl ▸ hx)
    · intro x hx hxh
      exact hprev x (hmem hx) (hna ▸ hxh)
  rw [← hfl] at hshort
  exact hshort.rotate

end Ring

end LambdaOs
