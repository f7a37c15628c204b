import Mathlib.Data.List.Find
import LambdaOs.Fs

/-!
# Input devices

`add_input_dev` and `get_idevice` of `io/input.c`. A device is named by its
pointer, and its list item by the same number; what the structures and items
hold before a device is registered is arbitrary.

The two halves of `union input_id` are the driver in the low and the device in
the high half of `n`. `get_idevice` packs its arguments the other way round.
-/

namespace LambdaOs

/-- `struct input_dev`, less its event buffer and its list item. -/
structure InputDev where
  driver : UInt16
  device : UInt16
  state : Nat
  name : List UInt8
deriving DecidableEq

/-- `id.n` -/
def InputDev.n (d : InputDev) : Nat := d.driver.toNat + 65536 * d.device.toNat

/-- The device structures, their list items, and `idevs`. -/
structure Inputs where
  devs : Nat → InputDev
  items : Items
  idevs : Llist

/-- `while(llist_iterate(&iter, &data))` with a `return` for some of the data. -/
def iterateFind (m : Items) (found : Nat → Bool) : Nat → LlistIterator → Option (Option Nat)
  | 0, _ => none
  | fuel + 1, iter =>
      match llistIterate m iter with
      | none => none
      | some (_, none) => some none
      | some (iter, some d) => if found d then some (some d) else iterateFind m found fuel iter

/-- One round of the loop of `get_next_devid`. -/
def maxDevid (devs : Nat → InputDev) (driver : UInt16) (l : Int) (idev : Nat) : Int :=
  if (devs idev).driver = driver ∧ l < (devs idev).device.toNat then (devs idev).device.toNat
  else l

def getNextDevid (fuel : Nat) (s : Inputs) (driver : UInt16) : Option UInt16 := do
  let idevs ← iterateAll s.items fuel (llistIteratorInit s.idevs)
  return UInt16.ofNat (idevs.foldl (maxDevid s.devs driver) (-1) + 1).toNat

/-- The field after bytes have been copied to a place in it. -/
def putBytes (field : List UInt8) (pos : Nat) (bytes : List UInt8) : List UInt8 :=
  field.take pos ++ bytes ++ field.drop (pos + bytes.length)

/-- What is written to the name; the character appended is the device number,
or the letter of that number. -/
def inputName (field : List UInt8) (name : CString) (nameById idToAlpha : Bool) (device : UInt16) :
    List UInt8 :=
  let field := putBytes field 0 (name.map Subtype.val ++ [0])
  if nameById then
    putBytes field name.length [if idToAlpha then device.toUInt8 + 97 else device.toUInt8, 0]
  else field

/-- The arguments of a call. -/
structure InputCall where
  idev : Nat
  driver : UInt16
  name : CString
  nameById : Bool
  idToAlpha : Bool

/-- `sizeof(idev->name)` -/
def inputNameSize : Nat := 64

/-- The name with what is appended fits the field: the bytes of a longer one are
written over what follows, which is not modelled. -/
def InputCall.NameFits (c : InputCall) : Prop :=
  c.name.length + (if c.nameById then 2 else 1) ≤ inputNameSize

instance (c : InputCall) : Decidable c.NameFits :=
  inferInstanceAs (Decidable (_ + _ ≤ _))

theorem putBytes_length {field bytes : List UInt8} {pos : Nat}
    (h : pos + bytes.length ≤ field.length) : (putBytes field pos bytes).length = field.length := by
  simp only [putBytes, List.length_append, List.length_take, List.length_drop]
  omega

/-- A name that fits leaves the field as long as it was. -/
theorem InputCall.NameFits.length {c : InputCall} (h : c.NameFits) {field : List UInt8}
    (hfield : field.length = inputNameSize) (device : UInt16) :
    (inputName field c.name c.nameById c.idToAlpha device).length = inputNameSize := by
  have hname : 0 + (c.name.map Subtype.val ++ [0]).length ≤ field.length := by
    rw [List.length_append, List.length_map, List.length_singleton, hfield]
    unfold InputCall.NameFits at h
    split at h <;> omega
  simp only [inputName]
  split
  · rename_i hid
    rw [InputCall.NameFits, if_pos hid] at h
    rw [putBytes_length, putBytes_length hname, hfield]
    rw [putBytes_length hname, hfield]
    exact h
  · rw [putBytes_length hname, hfield]

/-- `none` is the panic on `NULL`, or a call that does not return. -/
def addInputDev (fuel : Nat) (s : Inputs) (c : InputCall) : Option Inputs := do
  if c.idev = 0 then none
  let s := { s with
    items := Function.update s.items c.idev { s.items c.idev with data := c.idev }
    devs := Function.update s.devs c.idev { s.devs c.idev with driver := c.driver } }
  let device ← getNextDevid fuel s c.driver
  let dev := s.devs c.idev
  let s := { s with
    devs := Function.update s.devs c.idev { dev with
      device := device
      state := 0
      name := inputName dev.name c.name c.nameById c.idToAlpha device } }
  let (items, idevs) ← llistAppend s.items s.idevs c.idev
  return { s with items := items, idevs := idevs }

/-- `some none` is `NULL`. -/
def getIdevice (fuel : Nat) (s : Inputs) (driver device : UInt16) : Option (Option Nat) :=
  let n := driver.toNat <<< 16 ||| device.toNat
  iterateFind s.items (fun idev => (s.devs idev).n = n) fuel (llistIteratorInit s.idevs)

/-- A device, and the pair it was registered with. -/
structure Registered where
  idev : Nat
  driver : UInt16
  device : UInt16
deriving DecidableEq

/-- A sequence of calls, and what each one registered. -/
def addInputDevs (fuel : Nat) : Inputs → List InputCall → Option (Inputs × List Registered)
  | s, [] => some (s, [])
  | s, c :: calls => do
      let s ← addInputDev fuel s c
      let (s', log) ← addInputDevs fuel s calls
      return (s', ⟨c.idev, c.driver, (s.devs c.idev).device⟩ :: log)

/-- Before the first call. -/
def Inputs.start (devs : Nat → InputDev) (items : Items) : Inputs := ⟨devs, items, llistInit⟩

/-! ## What is asked of them -/

def ofDriver (log : List Registered) (driver : UInt16) : List Registered :=
  log.filter fun r => r.driver = driver

/-- The devices of a driver have the numbers from zero on, in the order in
which they were registered. -/
def Numbered (log : List Registered) : Prop :=
  ∀ driver, (ofDriver log driver).map (·.device.toNat) = List.range (ofDriver log driver).length

def devPair (r : Registered) : UInt16 × UInt16 := (r.driver, r.device)

/-- What was registered with a pair is found by it, and `NULL` by the others. -/
structure FindsRegistered (log : List Registered) (find : UInt16 → UInt16 → Option (Option Nat)) :
    Prop where
  found : ∀ r ∈ log, find r.driver r.device = some (some r.idev)
  null : ∀ driver device, (driver, device) ∉ log.map devPair → find driver device = some none

/-- The calls return, with the numbers, pairs and lookups of the devices. -/
def InputsRight (fuel : Nat) (s : Inputs) (calls : List InputCall) : Prop :=
  ∃ s' log, addInputDevs fuel s calls = some (s', log) ∧ Numbered log ∧
    (log.map devPair).Nodup ∧ FindsRegistered log (getIdevice fuel s')

/-! ## The packed number -/

theorem InputDev.n_eq_iff (d : InputDev) (driver device : UInt16) :
    d.n = driver.toNat <<< 16 ||| device.toNat ↔ d.driver = device ∧ d.device = driver := by
  have h₁ := d.driver.toNat_lt
  have h₂ := device.toNat_lt
  rw [← Nat.shiftLeft_add_eq_or_of_lt h₂, Nat.shiftLeft_eq, InputDev.n, ← UInt16.toNat_inj,
    ← UInt16.toNat_inj]
  omega

theorem iterateFind_some {m : Items} {found : Nat → Bool} {fuel : Nat} {iter : LlistIterator}
    {d : Nat} (h : iterateFind m found fuel iter = some (some d)) : found d := by
  induction fuel generalizing iter with
  | zero => cases h
  | succ fuel ih =>
      rw [iterateFind] at h
      split at h
      · cases h
      · cases h
      · split at h
        · rename_i hd
          cases h
          exact hd
        · exact ih h

/-- The device found has the two halves of its pair exchanged. -/
theorem getIdevice_some {fuel : Nat} {s : Inputs} {driver device : UInt16} {idev : Nat}
    (h : getIdevice fuel s driver device = some (some idev)) :
    (s.devs idev).driver = device ∧ (s.devs idev).device = driver := by
  have hn := iterateFind_some h
  rwa [decide_eq_true_eq, InputDev.n_eq_iff] at hn

/-! ## What the calls leave in the structures -/

theorem addInputDev_devs {fuel : Nat} {s s' : Inputs} {c : InputCall}
    (h : addInputDev fuel s c = some s') :
    c.idev ≠ 0 ∧ (s'.devs c.idev).driver = c.driver ∧ ∀ p, p ≠ c.idev → s'.devs p = s.devs p := by
  unfold addInputDev at h
  split at h
  · cases h
  · rename_i h0
    obtain ⟨device, -, h⟩ := Option.bind_eq_some_iff.mp h
    obtain ⟨r, -, h⟩ := Option.bind_eq_some_iff.mp h
    cases h
    exact ⟨h0, by simp, fun p hp => by simp [hp]⟩

/-- What a structure holds is one of the pairs it was registered with. -/
def Logged (s : Inputs) (log : List Registered) : Prop :=
  ∀ r ∈ log, ∃ r' ∈ log, r'.idev = r.idev ∧ (s.devs r.idev).driver = r'.driver ∧
    (s.devs r.idev).device = r'.device

theorem logged_start (devs : Nat → InputDev) (items : Items) : Logged (.start devs items) [] :=
  nofun

theorem addInputDev_logged {fuel : Nat} {s s' : Inputs} {c : InputCall} {log : List Registered}
    (hlog : Logged s log) (h : addInputDev fuel s c = some s') :
    Logged s' (log ++ [⟨c.idev, c.driver, (s'.devs c.idev).device⟩]) := by
  obtain ⟨-, hdriver, hframe⟩ := addInputDev_devs h
  intro r hr
  by_cases hc : r.idev = c.idev
  · exact ⟨_, List.mem_append_right _ (List.mem_singleton_self _), hc.symm, hc ▸ hdriver, hc ▸ rfl⟩
  · rcases List.mem_append.mp hr with hr | hr
    · obtain ⟨r', hr', hidev, hpair⟩ := hlog r hr
      rw [← hframe r.idev hc] at hpair
      exact ⟨r', List.mem_append_left _ hr', hidev, hpair⟩
    · rw [List.mem_singleton.mp hr] at hc
      exact absurd rfl hc

theorem addInputDevs_logged {fuel : Nat} {s s' : Inputs} {calls : List InputCall}
    {log log' : List Registered} (hlog : Logged s log)
    (h : addInputDevs fuel s calls = some (s', log')) :
    Logged s' (log ++ log') ∧ log'.map (·.driver) = calls.map (·.driver) ∧
      ∀ c ∈ calls, c.idev ≠ 0 := by
  induction calls generalizing s log log' with
  | nil =>
      cases h
      exact ⟨by rwa [List.append_nil], rfl, nofun⟩
  | cons c calls ih =>
      obtain ⟨s₁, h₁, h⟩ := Option.bind_eq_some_iff.mp h
      obtain ⟨⟨s₂, rest⟩, hrest, h⟩ := Option.bind_eq_some_iff.mp h
      cases h
      obtain ⟨hall, hdrivers, hne⟩ := ih (addInputDev_logged hlog h₁) hrest
      refine ⟨?_, congrArg (c.driver :: ·) hdrivers, ?_⟩
      · rwa [List.append_assoc] at hall
      · exact List.forall_mem_cons.mpr ⟨(addInputDev_devs h₁).1, hne⟩

/-- A device that is found by its pair has equal halves. -/
theorem FindsRegistered.eq_halves {fuel : Nat} {s : Inputs} {log : List Registered}
    (h : FindsRegistered log (getIdevice fuel s)) (hlog : Logged s log) {r : Registered}
    (hr : r ∈ log) : r.driver = r.device := by
  obtain ⟨r', hr', hidev, hdriver, hdevice⟩ := hlog r hr
  obtain ⟨h₁, h₂⟩ := getIdevice_some (h.found r hr)
  obtain ⟨h₃, -⟩ := getIdevice_some (h.found r' hr')
  rw [hidev] at h₃
  exact h₂.symm.trans (hdevice.trans (h₃.symm.trans h₁))

theorem Numbered.head_device {r : Registered} {log : List Registered} (h : Numbered (r :: log)) :
    r.device = 0 := by
  have hd := h r.driver
  simp only [ofDriver, List.filter_cons, decide_true, if_true, List.map_cons, List.length_cons,
    List.range_succ_eq_map, List.cons.injEq] at hd
  exact UInt16.toNat_inj.mp hd.1

/-- With the numbers given out, only one pair has equal halves. -/
theorem Numbered.of_eq_halves {log : List Registered} (h : Numbered log)
    (heq : ∀ r ∈ log, r.driver = r.device) : log = [] ∨ ∃ r, log = [r] ∧ r.driver = 0 := by
  rcases log with - | ⟨r, - | ⟨r', log⟩⟩
  · exact .inl rfl
  · exact .inr ⟨r, rfl, (heq r (by simp)).trans h.head_device⟩
  · exfalso
    have h₀ : r.driver = 0 := (heq r (by simp)).trans h.head_device
    have h' := h r'.driver
    have hdev := heq r' (by simp)
    by_cases hd : r.driver = r'.driver
    · -- the second of the driver has the number one
      simp only [ofDriver, List.filter_cons, hd, decide_true, if_true, List.map_cons,
        List.length_cons, List.range_succ_eq_map, List.cons.injEq] at h'
      have h₁ : r'.device.toNat = 0 + 1 := h'.2.1
      rw [← hdev, ← hd, h₀] at h₁
      cases h₁
    · -- the first of its driver has the number zero
      simp only [ofDriver, List.filter_cons, hd, decide_true, decide_false, Bool.false_eq_true,
        if_true, if_false, List.map_cons, List.length_cons, List.range_succ_eq_map,
        List.cons.injEq] at h'
      have h₁ : r'.device = 0 := UInt16.toNat_inj.mp h'.1
      exact hd (h₀.trans (hdev.trans h₁).symm)

/-! ## The ring while devices are registered -/

/-- The ring has the devices of `log`, with their numbers. -/
structure InputsRep (s : Inputs) (log : List Registered) : Prop where
  rep : LlistRep s.items s.idevs (log.map (·.idev))
  lock : s.idevs.lock = 0
  data : ∀ r ∈ log, (s.items r.idev).data = r.idev
  ids : ∀ r ∈ log, (s.devs r.idev).driver = r.driver ∧ (s.devs r.idev).device = r.device
  numbered : Numbered log

theorem inputsRep_start (devs : Nat → InputDev) (items : Items) :
    InputsRep (.start devs items) [] :=
  ⟨llistRep_init items, rfl, nofun, nofun, fun _ => rfl⟩

theorem InputsRep.iterateAll_eq {fuel : Nat} {s : Inputs} {log : List Registered}
    (h : InputsRep s log) (hfuel : log.length < fuel) :
    iterateAll s.items fuel (llistIteratorInit s.idevs) = some (log.map (·.idev)) := by
  rw [LambdaOs.iterateAll_eq h.rep (by simpa using hfuel), List.map_map, Option.some.injEq]
  exact List.map_congr_left fun r hr => h.data r hr

theorem iterateFind_of_iterateAll {m : Items} {found : Nat → Bool} {fuel : Nat}
    {iter : LlistIterator} {ds : List Nat} (h : iterateAll m fuel iter = some ds) :
    iterateFind m found fuel iter = some (ds.find? found) := by
  induction fuel generalizing iter ds with
  | zero => cases h
  | succ fuel ih =>
      rw [iterateAll] at h
      rw [iterateFind]
      rcases hit : llistIterate m iter with - | ⟨iter', - | d⟩
      · simp [hit] at h
      · simp only [hit, Option.some.injEq] at h
        rw [← h]
        rfl
      · simp only [hit] at h
        obtain ⟨ds', hds, rfl⟩ := Option.map_eq_some_iff.mp h
        rw [List.find?_cons]
        cases hd : found d with
        | true => simp [hd]
        | false => simpa [hd] using ih hds

theorem numbered_append {log : List Registered} {r : Registered} :
    Numbered (log ++ [r]) ↔
      Numbered log ∧ r.device.toNat = (ofDriver log r.driver).length := by
  have hof (driver : UInt16) : ofDriver (log ++ [r]) driver =
      ofDriver log driver ++ if r.driver = driver then [r] else [] := by
    by_cases hd : r.driver = driver <;> simp [ofDriver, hd]
  constructor
  · intro h
    have hr := h r.driver
    rw [hof, if_pos rfl, List.map_append, List.length_append, List.length_singleton,
      List.range_succ] at hr
    obtain ⟨hinit, hlast⟩ := List.append_inj' hr (by simp)
    refine ⟨fun driver => ?_, by simpa using hlast⟩
    by_cases hd : r.driver = driver
    · exact hd ▸ hinit
    · have := h driver
      rwa [hof, if_neg hd, List.append_nil] at this
  · rintro ⟨h, hdev⟩ driver
    rw [hof]
    by_cases hd : r.driver = driver
    · subst hd
      simp [List.range_succ, h r.driver, hdev]
    · rw [if_neg hd, List.append_nil, h driver]

/-- The maximum that `get_next_devid` finds. -/
theorem foldl_maxDevid {devs : Nat → InputDev} {log : List Registered} (hnum : Numbered log)
    (hids : ∀ r ∈ log, (devs r.idev).driver = r.driver ∧ (devs r.idev).device = r.device)
    (driver : UInt16) :
    (log.map (·.idev)).foldl (maxDevid devs driver) (-1) = (ofDriver log driver).length - 1 := by
  induction log using List.reverseRecOn with
  | nil => rfl
  | append_singleton log r ih =>
      obtain ⟨hnum', hdev⟩ := numbered_append.mp hnum
      obtain ⟨h₁, h₂⟩ := hids r (by simp)
      rw [List.map_append, List.foldl_append, ih hnum' fun r hr => hids r (by simp [hr])]
      by_cases hd : r.driver = driver
      · subst hd
        have hof : ofDriver (log ++ [r]) r.driver = ofDriver log r.driver ++ [r] := by
          simp [ofDriver]
        rw [hof, List.length_append, List.length_singleton, List.map_singleton, List.foldl_cons,
          List.foldl_nil, maxDevid, h₁, h₂, hdev, if_pos ⟨rfl, by omega⟩]
        omega
      · simp [maxDevid, h₁, hd, ofDriver]

/-- Nothing that is not in the ring counts. -/
theorem InputsRep.frame {s s' : Inputs} {log : List Registered} (h : InputsRep s log)
    (hidevs : s'.idevs = s.idevs) (hitems : ∀ r ∈ log, s'.items r.idev = s.items r.idev)
    (hdevs : ∀ r ∈ log, s'.devs r.idev = s.devs r.idev) : InputsRep s' log where
  rep := by
    rw [hidevs]
    refine h.rep.frame ?_
    simpa using hitems
  lock := hidevs ▸ h.lock
  data := fun r hr => by rw [hitems r hr, h.data r hr]
  ids := fun r hr => by rw [hdevs r hr]; exact h.ids r hr
  numbered := h.numbered

theorem InputsRep.getNextDevid_eq {fuel : Nat} {s : Inputs} {log : List Registered}
    (h : InputsRep s log) (hfuel : log.length < fuel) (driver : UInt16) :
    getNextDevid fuel s driver = some (UInt16.ofNat (ofDriver log driver).length) := by
  simp [getNextDevid, h.iterateAll_eq hfuel, foldl_maxDevid h.numbered h.ids driver]

/-- A new device gets the number of those that its driver has. -/
theorem InputsRep.add {fuel : Nat} {s : Inputs} {log : List Registered} {c : InputCall}
    (h : InputsRep s log) (hfuel : log.length < fuel) (h0 : c.idev ≠ 0)
    (hnew : c.idev ∉ log.map (·.idev)) (hroom : (ofDriver log c.driver).length < 65536) :
    ∃ s', addInputDev fuel s c = some s' ∧
      InputsRep s' (log ++ [⟨c.idev, c.driver, (s'.devs c.idev).device⟩]) := by
  have hne : ∀ r ∈ log, r.idev ≠ c.idev := fun r hr he => hnew (he ▸ List.mem_map_of_mem hr)
  -- the structure and its item are written before the ring is searched
  let s₁ : Inputs := { s with
    items := Function.update s.items c.idev { s.items c.idev with data := c.idev }
    devs := Function.update s.devs c.idev { s.devs c.idev with driver := c.driver } }
  have h₁ : InputsRep s₁ log := h.frame rfl (fun r hr => Function.update_of_ne (hne r hr) ..)
    fun r hr => Function.update_of_ne (hne r hr) ..
  let device := UInt16.ofNat (ofDriver log c.driver).length
  have hdevice : device.toNat = (ofDriver log c.driver).length :=
    UInt16.toNat_ofNat_of_lt' hroom
  obtain ⟨⟨items, idevs⟩, hcall, hstep, hlock⟩ := llistAppend_returns h₁.rep h₁.lock h0 hnew
  let dev : InputDev := { s₁.devs c.idev with
    device := device
    state := 0
    name := inputName (s₁.devs c.idev).name c.name c.nameById c.idToAlpha device }
  let s' : Inputs := ⟨Function.update s₁.devs c.idev dev, items, idevs⟩
  have hadd : addInputDev fuel s c = some s' := by
    rw [addInputDev, if_neg h0]
    refine (congrArg (Option.bind · _) (h₁.getNextDevid_eq hfuel c.driver)).trans ?_
    exact (congrArg (Option.bind · _) hcall).trans rfl
  have hdev : s'.devs c.idev = dev := Function.update_self ..
  refine ⟨s', hadd, ?_, hlock, ?_, ?_, ?_⟩
  · rw [List.map_append]
    exact hstep.rep
  · intro r hr
    rw [hstep.data]
    rcases List.mem_append.mp hr with hr | hr
    · exact h₁.data r hr
    · rw [List.mem_singleton.mp hr]
      simp [s₁]
  · intro r hr
    rcases List.mem_append.mp hr with hr | hr
    · have hsame : s'.devs r.idev = s₁.devs r.idev := Function.update_of_ne (hne r hr) ..
      rw [hsame]
      exact h₁.ids r hr
    · rw [List.mem_singleton.mp hr, hdev]
      exact ⟨by simp [dev, s₁], rfl⟩
  · rw [hdev]
    exact numbered_append.mpr ⟨h.numbered, hdevice⟩

theorem ofDriver_length (log : List Registered) (driver : UInt16) :
    (ofDriver log driver).length = (log.map (·.driver)).count driver := by
  rw [ofDriver, ← List.countP_eq_length_filter, List.count, List.countP_map]
  rfl

/-- Calls for devices of their own: they return, and the ring has them all. -/
theorem InputsRep.addAll {fuel : Nat} {s : Inputs} {log : List Registered} {calls : List InputCall}
    (h : InputsRep s log) (hfuel : log.length + calls.length < fuel)
    (h0 : ∀ c ∈ calls, c.idev ≠ 0) (hnew : (log.map (·.idev) ++ calls.map (·.idev)).Nodup)
    (hroom : ∀ driver, (log.map (·.driver) ++ calls.map (·.driver)).count driver ≤ 65536) :
    ∃ s' log', addInputDevs fuel s calls = some (s', log') ∧ InputsRep s' (log ++ log') ∧
      log'.map (·.idev) = calls.map (·.idev) := by
  induction calls generalizing s log with
  | nil => exact ⟨s, [], rfl, by rwa [List.append_nil], rfl⟩
  | cons c calls ih =>
      have hc : c.idev ∉ log.map (·.idev) := fun hin =>
        (List.nodup_append.mp hnew).2.2 _ hin _ List.mem_cons_self rfl
      have hlt : (ofDriver log c.driver).length < 65536 := by
        have := hroom c.driver
        rw [List.count_append, List.map_cons, List.count_cons_self] at this
        rw [ofDriver_length]
        omega
      rw [List.length_cons] at hfuel
      have hlog : log.length < fuel := by omega
      obtain ⟨s₁, hadd, h₁⟩ := h.add hlog (h0 c List.mem_cons_self) hc hlt
      obtain ⟨s', log', hrest, h', hidevs⟩ := ih h₁ (by simpa using (by omega))
        (fun c' hc' => h0 c' (List.mem_cons_of_mem _ hc')) (by simpa using hnew)
        (by simpa using hroom)
      refine ⟨s', ⟨c.idev, c.driver, (s₁.devs c.idev).device⟩ :: log', ?_,
        by rwa [List.append_assoc] at h', congrArg (c.idev :: ·) hidevs⟩
      rw [addInputDevs, hadd]
      exact (congrArg (Option.bind · _) hrest).trans rfl

/-- What is found in the ring. -/
theorem InputsRep.getIdevice_eq {fuel : Nat} {s : Inputs} {log : List Registered}
    (h : InputsRep s log) (hfuel : log.length < fuel) (driver device : UInt16) :
    getIdevice fuel s driver device =
      some ((log.find? fun r => r.driver = device ∧ r.device = driver).map (·.idev)) := by
  rw [getIdevice, iterateFind_of_iterateAll (h.iterateAll_eq hfuel), List.find?_map,
    Option.some.injEq]
  refine congrArg (Option.map _) (List.find?_congr fun r hr => ?_)
  obtain ⟨h₁, h₂⟩ := h.ids r hr
  simp only [Function.comp_apply, InputDev.n_eq_iff, h₁, h₂]

theorem Numbered.nodup {log : List Registered} (h : Numbered log) : (log.map devPair).Nodup := by
  induction log using List.reverseRecOn with
  | nil => exact List.nodup_nil
  | append_singleton log r ih =>
      obtain ⟨hlog, hdev⟩ := numbered_append.mp h
      rw [List.map_append, List.map_singleton, List.nodup_append]
      refine ⟨ih hlog, List.nodup_singleton _, ?_⟩
      rintro p hp q hq rfl
      obtain ⟨r', hr', heq⟩ := List.mem_map.mp hp
      rw [List.mem_singleton.mp hq, devPair, devPair, Prod.mk.injEq] at heq
      -- a number of the driver that has been given out is below the next one
      have hmem : r'.device.toNat ∈ (ofDriver log r.driver).map (·.device.toNat) :=
        List.mem_map_of_mem (List.mem_filter.mpr ⟨hr', by simp [heq.1]⟩)
      rw [hlog r.driver, List.mem_range, heq.2, hdev] at hmem
      exact lt_irrefl _ hmem

/-! ## The lookup -/

theorem find?_devPair {log : List Registered} (h : (log.map devPair).Nodup) {r : Registered}
    (hr : r ∈ log) :
    log.find? (fun r' => r'.driver = r.driver ∧ r'.device = r.device) = some r := by
  obtain ⟨r', hr'⟩ : ∃ r', log.find? (fun r' => r'.driver = r.driver ∧ r'.device = r.device) =
      some r' := by
    rw [← Option.isSome_iff_exists, List.find?_isSome]
    exact ⟨r, hr, by simp⟩
  have hpair := List.find?_some hr'
  simp only [decide_eq_true_eq] at hpair
  rw [hr', List.inj_on_of_nodup_map h (List.mem_of_find?_eq_some hr') hr
    (Prod.ext hpair.1 hpair.2)]

/-- Devices of their own, fewer than 2 ^ 16 of each driver: they are numbered
from zero on, no pair occurs twice, and `get_idevice` finds the device that was
registered with the pair exchanged. -/
theorem input_devices_found_exchanged (devs : Nat → InputDev) (items : Items) {fuel : Nat}
    {calls : List InputCall} (hfuel : calls.length < fuel) (h0 : ∀ c ∈ calls, c.idev ≠ 0)
    (hnew : (calls.map (·.idev)).Nodup)
    (hroom : ∀ driver, (calls.map (·.driver)).count driver ≤ 65536) :
    ∃ s log, addInputDevs fuel (.start devs items) calls = some (s, log) ∧
      log.map (·.idev) = calls.map (·.idev) ∧ Numbered log ∧ (log.map devPair).Nodup ∧
      FindsRegistered log fun driver device => getIdevice fuel s device driver := by
  have hfuel' : ([] : List Registered).length + calls.length < fuel := by simpa using hfuel
  obtain ⟨s, log, hrun, h, hidevs⟩ := (inputsRep_start devs items).addAll hfuel' h0
    (by simpa using hnew) (by simpa using hroom)
  rw [List.nil_append] at h
  have hlen : log.length < fuel := by
    have := congrArg List.length hidevs
    simp only [List.length_map] at this
    omega
  refine ⟨s, log, hrun, hidevs, h.numbered, h.numbered.nodup, fun r hr => ?_, ?_⟩
  · rw [h.getIdevice_eq hlen, find?_devPair h.numbered.nodup hr]
    rfl
  · intro driver device hn
    rw [h.getIdevice_eq hlen, List.find?_eq_none.mpr]
    · rfl
    · intro r hr hp
      simp only [decide_eq_true_eq] at hp
      exact hn (List.mem_map.mpr ⟨r, hr, Prod.ext hp.1 hp.2⟩)

/-- With equal halves the exchange makes no difference. -/
theorem FindsRegistered.exchange {log : List Registered}
    {find : UInt16 → UInt16 → Option (Option Nat)}
    (h : FindsRegistered log fun driver device => find device driver)
    (heq : ∀ r ∈ log, r.driver = r.device) : FindsRegistered log find where
  found := fun r hr => by
    have := h.found r hr
    rwa [← heq r hr] at this ⊢
  null := fun driver device hn => by
    refine h.null device driver fun hin => hn ?_
    obtain ⟨r, hr, hp⟩ := List.mem_map.mp hin
    obtain ⟨h₁, h₂⟩ := Prod.mk.inj hp
    exact List.mem_map.mpr ⟨r, hr, Prod.ext ((heq r hr).trans h₂) ((heq r hr).symm.trans h₁)⟩

/-- Whatever was registered before, and however often. -/
theorem InputsRight.calls_cases {fuel : Nat} {devs : Nat → InputDev} {items : Items}
    {calls : List InputCall} (h : InputsRight fuel (.start devs items) calls) :
    calls = [] ∨ ∃ c, calls = [c] ∧ c.idev ≠ 0 ∧ c.driver = 0 := by
  obtain ⟨s, log, hrun, hnum, -, hfind⟩ := h
  obtain ⟨hlog, hdrivers, h0⟩ := addInputDevs_logged (logged_start devs items) hrun
  rcases hnum.of_eq_halves fun r hr => hfind.eq_halves hlog hr with rfl | ⟨r, rfl, hr⟩
  · exact .inl (List.map_eq_nil_iff.mp hdrivers.symm)
  · obtain ⟨c, rfl, hc⟩ := List.map_eq_singleton_iff.mp hdrivers.symm
    exact .inr ⟨c, rfl, h0 c (List.mem_singleton_self c), hc.trans hr⟩

theorem input_devices_right_iff (devs : Nat → InputDev) (items : Items) {fuel : Nat}
    {calls : List InputCall} (hfuel : calls.length < fuel) (_hname : ∀ c ∈ calls, c.NameFits) :
    InputsRight fuel (.start devs items) calls ↔
      calls = [] ∨ ∃ c, calls = [c] ∧ c.idev ≠ 0 ∧ c.driver = 0 := by
  constructor
  · exact InputsRight.calls_cases
  · intro hcalls
    have h0 : ∀ c ∈ calls, c.idev ≠ 0 := by
      rcases hcalls with rfl | ⟨c, rfl, hc, -⟩
      · nofun
      · exact fun c' hc' => List.mem_singleton.mp hc' ▸ hc
    have hlen : calls.length ≤ 1 := by
      rcases hcalls with rfl | ⟨c, rfl, -, -⟩ <;> simp
    obtain ⟨s, log, hrun, -, hnum, hnodup, hfind⟩ := input_devices_found_exchanged devs items
      hfuel h0 (by rcases hcalls with rfl | ⟨c, rfl, -, -⟩ <;> simp) fun driver =>
        (List.count_le_length.trans (by simpa using hlen)).trans (by omega)
    refine ⟨s, log, hrun, hnum, hnodup, hfind.exchange ?_⟩
    obtain ⟨-, hdrivers, -⟩ := addInputDevs_logged (logged_start devs items) hrun
    rcases hcalls with rfl | ⟨c, rfl, -, hc⟩
    · rw [List.map_eq_nil_iff.mp hdrivers]
      nofun
    · obtain ⟨r, rfl, hr⟩ := List.map_eq_singleton_iff.mp hdrivers
      intro r' hr'
      rw [List.mem_singleton.mp hr', hnum.head_device]
      exact hr.trans hc

/-- `keyb` -/
def keybName : CString := CString.ofBytes [107, 101, 121, 98]

/-- `ser` -/
def serName : CString := CString.ofBytes [115, 101, 114]

/-- Structures and items that hold nothing. -/
def Inputs.boot : Inputs := .start (fun _ => ⟨0, 0, 0, List.replicate 64 0⟩) fun _ => ⟨0, 0, 0⟩

theorem input_devices_right_keyb :
    InputsRight 2 .boot [⟨16, 0, keybName, false, false⟩] ↔
      [(⟨16, 0, keybName, false, false⟩ : InputCall)] = [] ∨
        ∃ c, [(⟨16, 0, keybName, false, false⟩ : InputCall)] = [c] ∧ c.idev ≠ 0 ∧ c.driver = 0 :=
  input_devices_right_iff _ _ Nat.one_lt_two fun c hc => by
    rw [List.mem_singleton.mp hc]
    decide

/-- The serial device is not found by its pair (2, 0), and of two keyboards
the second is not found by (0, 1). -/
theorem input_devices_wrong_serial :
    ((addInputDevs 2 .boot [⟨16, 2, serName, true, false⟩]).bind fun r => getIdevice 2 r.1 2 0) =
        some none ∧
      ((addInputDevs 3 .boot
        [⟨16, 0, keybName, false, false⟩, ⟨32, 0, keybName, false, false⟩]).bind fun r =>
          getIdevice 3 r.1 0 1) = some none ∧
      ¬ InputsRight 2 .boot [⟨16, 2, serName, true, false⟩] ∧
      ¬ InputsRight 3 .boot
        [⟨16, 0, keybName, false, false⟩, ⟨32, 0, keybName, false, false⟩] := by
  refine ⟨by decide, by decide, fun h => ?_, fun h => ?_⟩
  · obtain h | ⟨c, hc, -, hd⟩ := h.calls_cases
    · cases h
    · cases hc
      exact absurd hd (by decide)
  · obtain h | ⟨c, hc, -, -⟩ := h.calls_cases
    · cases h
    · cases hc

end LambdaOs
