import Mathlib.Logic.Function.Basic
import LambdaOs.Errno

/-!
# The intrusive list

`data/llist.c`: a circular doubly linked list threaded through items that
live in the caller's own structures. A pointer is a natural number with
`0 = NULL`, and the items are a memory from pointers to `llist_item_t`. List
and iterator structures are passed by value and returned; the callers
modelled here never pass a `NULL` list, so those guards are not repeated.
The `mm_check_addr` assertions of the strict builds hold of every mapped
item and are left out.

The traversals are `do … while` loops around the ring. They carry a fuel
argument and return `none` when it runs out.
-/

namespace LambdaOs

/-! ## Items, lists, iterators -/

/-- `struct llist_item`. -/
structure LlistItem where
  data : Nat
  prev : Nat
  next : Nat
deriving Repr, DecidableEq

/-- `struct llist`: the head pointer and the spin lock's value. -/
structure Llist where
  list : Nat
  lock : Nat
deriving Repr, DecidableEq

/-- `struct llist_iterator`. -/
structure LlistIterator where
  first : Nat
  curr : Nat
deriving Repr, DecidableEq

/-- The memory the items live in. -/
abbrev Items := Nat → LlistItem

/-- `p->next = v`. -/
def Items.setNext (m : Items) (p v : Nat) : Items :=
  Function.update m p { m p with next := v }

/-- `p->prev = v`. -/
def Items.setPrev (m : Items) (p v : Nat) : Items :=
  Function.update m p { m p with prev := v }

@[simp] theorem Items.setNext_next (m : Items) (p v q : Nat) :
    (m.setNext p v q).next = if q = p then v else (m q).next := by
  by_cases h : q = p
  · subst h; simp [setNext]
  · simp [setNext, h]

@[simp] theorem Items.setNext_prev (m : Items) (p v q : Nat) :
    (m.setNext p v q).prev = (m q).prev := by
  by_cases h : q = p
  · subst h; simp [setNext]
  · simp [setNext, h]

@[simp] theorem Items.setNext_data (m : Items) (p v q : Nat) :
    (m.setNext p v q).data = (m q).data := by
  by_cases h : q = p
  · subst h; simp [setNext]
  · simp [setNext, h]

@[simp] theorem Items.setPrev_next (m : Items) (p v q : Nat) :
    (m.setPrev p v q).next = (m q).next := by
  by_cases h : q = p
  · subst h; simp [setPrev]
  · simp [setPrev, h]

@[simp] theorem Items.setPrev_prev (m : Items) (p v q : Nat) :
    (m.setPrev p v q).prev = if q = p then v else (m q).prev := by
  by_cases h : q = p
  · subst h; simp [setPrev]
  · simp [setPrev, h]

@[simp] theorem Items.setPrev_data (m : Items) (p v q : Nat) :
    (m.setPrev p v q).data = (m q).data := by
  by_cases h : q = p
  · subst h; simp [setPrev]
  · simp [setPrev, h]

@[simp] theorem Items.setNext_of_ne (m : Items) {p q : Nat} (v : Nat) (h : q ≠ p) :
    m.setNext p v q = m q := Function.update_of_ne h _ _

@[simp] theorem Items.setPrev_of_ne (m : Items) {p q : Nat} (v : Nat) (h : q ≠ p) :
    m.setPrev p v q = m q := Function.update_of_ne h _ _

/-! ## The operations -/

def llistInit : Llist := ⟨0, 0⟩

def llistAppendUnlocked (m : Items) (list : Llist) (item : Nat) : Items × Llist :=
  if item = 0 then (m, list)
  else if list.list ≠ 0 then
    let m := m.setNext (m list.list).prev item
    let m := m.setPrev item (m list.list).prev
    let m := m.setPrev list.list item
    let m := m.setNext item list.list
    (m, list)
  else
    let m := m.setNext item item
    let m := m.setPrev item item
    (m, { list with list := item })

/-- `lock`: spins until the exchange finds the lock free. `none` is a caller
that spins while nobody else runs. -/
def Llist.acquire (list : Llist) : Option Llist :=
  if list.lock = 0 then some { list with lock := 1 } else none

def Llist.release (list : Llist) : Llist := { list with lock := 0 }

def llistAppend (m : Items) (list : Llist) (item : Nat) : Option (Items × Llist) :=
  if item = 0 then some (m, list)
  else
    list.acquire.map fun list =>
      let r := llistAppendUnlocked m list item
      (r.1, r.2.release)

def llistRemoveUnlocked (m : Items) (list : Llist) (item : Nat) : Items × Llist :=
  if item = 0 ∨ list.list = 0 then (m, list)
  else
    let r : Items × Llist :=
      if list.list = item ∧ (m item).next = (m item).prev then
        (m, { list with list := 0 })
      else
        let m := m.setNext (m item).prev (m item).next
        let m := m.setPrev (m item).next (m item).prev
        (m, list)
    ((r.1.setNext item 0).setPrev item 0, r.2)

def llistRemove (m : Items) (list : Llist) (item : Nat) : Option (Items × Llist) :=
  if item = 0 ∨ list.list = 0 then some (m, list)
  else
    list.acquire.map fun list =>
      let r := llistRemoveUnlocked m list item
      (r.1, r.2.release)

/-- The popped item, or `0` for an empty list. -/
def llistPopUnlocked (m : Items) (list : Llist) : Items × Llist × Nat :=
  if list.list = 0 then (m, list, 0)
  else
    let item := (m list.list).prev
    if list.list = item then (m, { list with list := 0 }, item)
    else
      let m := m.setPrev list.list (m item).prev
      let m := m.setNext (m item).prev list.list
      (m, list, item)

/-! ## The traversals -/

/-- The loop of `llist_get_position`, entered at `citem` with index `i`. -/
def getPositionLoop (m : Items) (first item : Nat) : Nat → Nat → Nat → Option Int
  | 0, _, _ => none
  | fuel + 1, citem, i =>
      if citem = item then some i
      else
        let citem := (m citem).next
        if citem ≠ first then getPositionLoop m first item fuel citem (i + 1)
        else some (-EINVAL)

def llistGetPosition (fuel : Nat) (m : Items) (list : Llist) (item : Nat) : Option Int :=
  if item = 0 then some (-EINVAL)
  else getPositionLoop m list.list item fuel list.list 0

/-- The loop of `llist_count`. -/
def countLoop (m : Items) (first : Nat) : Nat → Nat → Nat → Option Int
  | 0, _, _ => none
  | fuel + 1, item, count =>
      let item := (m item).next
      let count := count + 1
      if item ≠ first then countLoop m first fuel item count else some count

def llistCount (fuel : Nat) (m : Items) (list : Llist) : Option Int :=
  if list.list = 0 then some 0 else countLoop m list.list fuel list.list 0

/-- The loop of `llist_get`. -/
def getLoop (m : Items) (first idx : Nat) : Nat → Nat → Nat → Option Nat
  | 0, _, _ => none
  | fuel + 1, item, count =>
      if count = idx then some item
      else
        let item := (m item).next
        let count := count + 1
        if item ≠ first then getLoop m first idx fuel item count else some 0

def llistGet (fuel : Nat) (m : Items) (list : Llist) (idx : Nat) : Option Nat :=
  if list.list = 0 then some 0 else getLoop m list.list idx fuel list.list 0

def llistIteratorInit (list : Llist) : LlistIterator := ⟨list.list, 0⟩

/-- One call: the new iterator and `*data`, or no data when it returns `0`.
`none` is the panic on a `NULL` current item. -/
def llistIterate (m : Items) (iter : LlistIterator) :
    Option (LlistIterator × Option Nat) :=
  if iter.first = 0 then some (iter, none)
  else
    let curr := if iter.curr = 0 then iter.first else (m iter.curr).next
    if iter.curr ≠ 0 ∧ curr = iter.first then some ({ iter with curr := curr }, none)
    else if curr = 0 then none
    else some ({ iter with curr := curr }, some (m curr).data)

/-- `while(llist_iterate(&iter, &data))`: the data of every round up to the
first `0`. -/
def iterateAll (m : Items) : Nat → LlistIterator → Option (List Nat)
  | 0, _ => none
  | fuel + 1, iter =>
      match llistIterate m iter with
      | none => none
      | some (_, none) => some []
      | some (iter, some d) => (iterateAll m fuel iter).map (d :: ·)

end LambdaOs
