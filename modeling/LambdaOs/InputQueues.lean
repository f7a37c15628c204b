import LambdaOs.InputEvents

/-!
# The input queues

The machine of `InputEvents` simulates the two queues of `TypedQueues`. What the
task has read of an event, and what is in the buffer, are together the events of
the queue (`QueueAt`); between the two stores of `cbuff_get` the byte that has
been read is still counted.
-/

namespace LambdaOs

variable {b : Cbuff} {taken : List UInt8} {es : List InputEvent}

/-! ## The buffer of a device -/

/-- The two stores are `cbuff_get`. -/
theorem cbuffGet_stores (h : CbuffInv b) (hsome : b.count ≠ 0) :
    ∃ b₁ d, cbuffGetBegin b = some (b₁, d) ∧ cbuffGet b = (cbuffGetCount b₁, (d.toNat : Int)) := by
  obtain ⟨cells, hc, -⟩ := h.cells
  have hcount := h.count_le
  have hsmall := h.small
  have hminus : u32 (b.count + 4294967295) = b.count - 1 := by
    unfold u32
    omega
  refine ⟨{ b with begin := wrap (u32 (b.begin + 1)) b.size }, cells.getD b.begin 0, ?_, ?_⟩
  · simp only [cbuffGetBegin, hc, if_neg hsome]
  · simp only [cbuffGet, cbuffGetCount, hc, if_neg hsome, hminus]

/-- A buffer of a device with the events of a queue, the first of which is being
read. -/
structure BuffHolds (b : Cbuff) (taken : List UInt8) (es : List InputEvent) : Prop where
  inv : CbuffInv b
  size : b.size = inputBuffCnt * 12
  holds : eventCodec.Holds taken b.contents es

/-- A byte is read by the two stores. -/
theorem BuffHolds.get (h : BuffHolds b taken es) (hshort : taken.length < 12) (hes : es ≠ []) :
    ∃ b₁ d, cbuffGetBegin b = some (b₁, d) ∧
      BuffHolds (cbuffGetCount b₁) (taken ++ [d]) es := by
  obtain ⟨d, bytes, hbytes⟩ := h.holds.exists_byte hes hshort
  have hcount : b.count ≠ 0 := by
    rw [← contents_length, hbytes]
    exact Nat.succ_ne_zero _
  obtain ⟨b₁, d', hbegin, hget⟩ := cbuffGet_stores h.inv hcount
  obtain ⟨d'', hret, hinv, hsize, hcont⟩ := cbuffGet_some h.inv hcount
  rw [hget] at hret hinv hsize hcont
  obtain rfl : d' = d'' := UInt8.toNat_inj.mp (Int.ofNat_inj.mp hret)
  refine ⟨b₁, d', hbegin, hinv, hsize.trans h.size, ?_⟩
  refine RecordCodec.Holds.read ?_
  rw [← hcont]
  exact h.holds

/-- An event is written, or dropped. -/
theorem BuffHolds.write (h : BuffHolds b taken es) (hshort : taken.length < 12)
    (e : InputEvent) :
    BuffHolds (cbuffWrite (some e.bytes) b).1 taken
      (if es.length < inputBuffCnt then es ++ [e] else es) := by
  have hspec := cbuffWrite_spec h.inv e.bytes
  have hroom := h.holds.room_iff hshort inputBuffCnt
  rw [contents_length] at hroom
  have hsize : b.count + e.bytes.length ≤ b.size ↔ es.length < inputBuffCnt := by
    rw [e.bytes_length, h.size]
    exact hroom
  by_cases hlt : es.length < inputBuffCnt
  · rw [if_pos (hsize.mpr hlt)] at hspec
    obtain ⟨-, hinv, hsize', hcont⟩ := hspec
    rw [if_pos hlt]
    refine ⟨hinv, hsize'.trans h.size, ?_⟩
    rw [hcont]
    exact h.holds.write e
  · rw [if_neg (mt hsize.mp hlt)] at hspec
    rw [if_neg hlt, hspec]
    exact h

/-- There is something to read as long as there is an event. -/
theorem BuffHolds.check (h : BuffHolds b [] es) : (b.buff = none ∨ 12 > b.count) ↔ es = [] := by
  obtain ⟨cells, hc, -⟩ := h.inv.cells
  have hwhole := h.holds.whole_iff
  rw [contents_length] at hwhole
  have hne : ¬ b.buff = none := by rw [hc]; nofun
  rw [or_iff_right hne, gt_iff_lt, ← not_le]
  exact (not_congr hwhole).trans not_not

/-- The buffer of a device while the task is somewhere. -/
def QueueAt (task : KinputTask) (idev : Nat) (b : Cbuff) (es : List InputEvent) : Prop :=
  match task with
  | .get _ i iev =>
      if i = idev then BuffHolds b iev es ∧ iev.length < 12 ∧ es ≠ [] else BuffHolds b [] es
  | .count _ i iev d =>
      if i = idev then BuffHolds (cbuffGetCount b) (iev ++ [d]) es ∧ iev.length < 12 ∧ es ≠ []
      else BuffHolds b [] es
  | _ => BuffHolds b [] es

/-- The device that `cbuff_read` is reading from. -/
def KinputTask.reads : KinputTask → Option Nat
  | .get _ i _ => some i
  | .count _ i _ _ => some i
  | _ => none

/-- The event that has been read. -/
def KinputTask.event : KinputTask → Option InputEvent
  | .send _ _ e => some e
  | _ => none

theorem queueAt_iff_of_not_reads {task : KinputTask} {idev : Nat} (h : task.reads ≠ some idev) :
    QueueAt task idev b es ↔ BuffHolds b [] es := by
  cases task with
  | get iter i iev => exact iff_of_eq (if_neg fun hi => h (congrArg some hi))
  | count iter i iev d => exact iff_of_eq (if_neg fun hi => h (congrArg some hi))
  | _ => exact Iff.rfl

theorem queueAt_get {iter : LlistIterator} {i : Nat} {iev : List UInt8} :
    QueueAt (.get iter i iev) i b es ↔ BuffHolds b iev es ∧ iev.length < 12 ∧ es ≠ [] :=
  iff_of_eq (if_pos rfl)

theorem queueAt_count {iter : LlistIterator} {i : Nat} {iev : List UInt8} {d : UInt8} :
    QueueAt (.count iter i iev d) i b es ↔
      BuffHolds (cbuffGetCount b) (iev ++ [d]) es ∧ iev.length < 12 ∧ es ≠ [] :=
  iff_of_eq (if_pos rfl)

namespace InputMachine

variable {p : Places} {fuel : Nat} {m m' : InputMachine} {t : TypedQueues}
  {events trace : List TypedEvent}

theorem QueueAt.write {idev : Nat} (h : QueueAt m.task idev b es) (hout : ¬ m.Between idev)
    (e : InputEvent) :
    QueueAt m.task idev (cbuffWrite (some e.bytes) b).1
      (if es.length < inputBuffCnt then es ++ [e] else es) := by
  by_cases hreads : m.task.reads = some idev
  · cases htask : m.task with
    | get iter i iev =>
        rw [htask] at h hreads
        cases hreads
        obtain ⟨hbuff, hshort, hes⟩ := queueAt_get.mp h
        refine queueAt_get.mpr ⟨hbuff.write hshort e, hshort, ?_⟩
        split
        · exact List.append_ne_nil_of_left_ne_nil hes _
        · exact hes
    | count iter i iev d =>
        rw [htask] at hreads
        cases hreads
        rw [Between, htask] at hout
        exact absurd rfl hout
    | _ =>
        rw [htask] at hreads
        cases hreads
  · rw [queueAt_iff_of_not_reads hreads] at h ⊢
    exact h.write (by decide) e

/-! ## The simulation -/

/-- The event that a key or a character comes in as. -/
def eventOf (p : Places) (m : InputMachine) (src : InputSource) (x : UInt8) : InputEvent :=
  match src with
  | .keyb => ⟨idriverKeyboard, (m.inputs.devs p.keyb).device, eventKeypress, x.toUInt32⟩
  | .serial => ⟨idriverSerial, (m.inputs.devs p.serial).device, eventChar, charData x⟩

/-- The modifiers in the state of the keyboard. -/
structure ModifiersAt (state : Nat) (t : TypedQueues) : Prop where
  shift : state.testBit 0 = t.shift
  ctrl : state.testBit 1 = t.ctrl
  alt : state.testBit 2 = t.alt

/-- The machine is where the queues are. Only the two devices have a buffer, and
the search for the keyboard finds it. -/
structure Simulates (p : Places) (fuel : Nat) (m : InputMachine) (t : TypedQueues) : Prop where
  ne : p.keyb ≠ p.serial
  found : getIdevice fuel m.inputs idriverKeyboard (m.inputs.devs p.keyb).device =
    some (some p.keyb)
  queue : ∀ src, ∃ b, m.ievBuff (p.at src) = some b ∧
    QueueAt m.task (p.at src) b ((t.queue src).map (m.eventOf p src))
  buffers : ∀ d, m.ievBuff d ≠ none → ∃ src, d = p.at src
  reads : ∀ d, m.task.reads = some d → ∃ src, d = p.at src
  held : m.task.event = t.held.map fun h => m.eventOf p h.1 h.2
  modifiers : ModifiersAt (m.inputs.devs p.keyb).state t

theorem Places.at_inj (hne : p.keyb ≠ p.serial) {src src' : InputSource}
    (h : p.at src = p.at src') : src = src' := by
  cases src <;> cases src' <;> first | rfl | exact absurd h hne | exact absurd h.symm hne

theorem getIdevice_congr {s s' : Inputs} (hitems : s'.items = s.items) (hidevs : s'.idevs = s.idevs)
    (hn : ∀ d, (s'.devs d).n = (s.devs d).n) (driver device : UInt16) :
    getIdevice fuel s' driver device = getIdevice fuel s driver device := by
  rw [getIdevice, getIdevice, hitems, hidevs]
  simp only [hn]

theorem testBit_set (state b i : Nat) :
    (state ||| 2 ^ b).testBit i = (decide (b = i) || state.testBit i) := by
  rw [Nat.testBit_or, Nat.testBit_two_pow, Bool.or_comm]

theorem testBit_clear (state b : Nat) {i : Nat} (hi : i < 32) :
    (state &&& (0xFFFFFFFF ^^^ 2 ^ b)).testBit i = (!decide (b = i) && state.testBit i) := by
  have hones : Nat.testBit 0xFFFFFFFF i = true := by
    rw [show 0xFFFFFFFF = 2 ^ 32 - 1 from rfl, Nat.testBit_two_pow_sub_one, decide_eq_true hi]
  rw [Nat.testBit_and, Nat.testBit_xor, Nat.testBit_two_pow, hones, Bool.true_xor, Bool.and_comm]

theorem ModifiersAt.set {state b : Nat} {t' : TypedQueues} (h : ModifiersAt state t)
    (hshift : t'.shift = (decide (b = 0) || t.shift)) (hctrl : t'.ctrl = (decide (b = 1) || t.ctrl))
    (halt : t'.alt = (decide (b = 2) || t.alt)) : ModifiersAt (state ||| 2 ^ b) t' := by
  constructor
  · rw [testBit_set, h.shift, hshift]
  · rw [testBit_set, h.ctrl, hctrl]
  · rw [testBit_set, h.alt, halt]

theorem ModifiersAt.clear {state b : Nat} {t' : TypedQueues} (h : ModifiersAt state t)
    (hshift : t'.shift = (!decide (b = 0) && t.shift))
    (hctrl : t'.ctrl = (!decide (b = 1) && t.ctrl)) (halt : t'.alt = (!decide (b = 2) && t.alt)) :
    ModifiersAt (state &&& (0xFFFFFFFF ^^^ 2 ^ b)) t' := by
  constructor
  · rw [testBit_clear _ _ (by decide), h.shift, hshift]
  · rw [testBit_clear _ _ (by decide), h.ctrl, hctrl]
  · rw [testBit_clear _ _ (by decide), h.alt, halt]

theorem processKeycode_modifiers {state : Nat} (h : ModifiersAt state t) (key : UInt8) :
    ModifiersAt (processKeycode key state) (t.withKey key) := by
  -- one case for each key of the `switch`, and one for the other keys
  unfold processKeycode
  split_ifs with hpress hrelease hctrl hctrl' halt halt'
  · rcases hpress with rfl | rfl <;> exact h.set (b := 0) rfl rfl rfl
  · rcases hrelease with rfl | rfl <;> exact h.clear (b := 0) rfl rfl rfl
  · subst hctrl
    exact h.set (b := 1) rfl rfl rfl
  · subst hctrl'
    exact h.clear (b := 1) rfl rfl rfl
  · subst halt
    exact h.set (b := 2) rfl rfl rfl
  · subst halt'
    exact h.clear (b := 2) rfl rfl rfl
  · obtain ⟨hshift, hctrl₀, halt₀⟩ := h
    constructor <;> simp [TypedQueues.withKey, TypedQueues.modifier, *]

/-- A key changes the modifiers. -/
theorem Simulates.key (h : Simulates p fuel m t) (key : UInt8) :
    Simulates p fuel (m.modState p.keyb (processKeycode key)) (t.withKey key) := by
  have hdevice : ∀ d, ((m.modState p.keyb (processKeycode key)).inputs.devs d).device =
      (m.inputs.devs d).device := by
    intro d
    by_cases hd : d = p.keyb
    · subst hd
      simp [modState]
    · simp [modState, hd]
  have hn : ∀ d, ((m.modState p.keyb (processKeycode key)).inputs.devs d).n =
      (m.inputs.devs d).n := by
    intro d
    by_cases hd : d = p.keyb
    · subst hd
      simp [modState, InputDev.n]
    · simp [modState, hd]
  have hevent : (m.modState p.keyb (processKeycode key)).eventOf p = m.eventOf p := by
    funext src x
    cases src <;> simp only [eventOf, hdevice]
  refine ⟨h.ne, ?_, ?_, h.buffers, h.reads, ?_, ?_⟩
  · have hsame : ∀ device,
        getIdevice fuel (m.modState p.keyb (processKeycode key)).inputs idriverKeyboard device =
          getIdevice fuel m.inputs idriverKeyboard device := by
      intro device
      refine getIdevice_congr ?_ ?_ hn .. <;> rfl
    rw [hdevice, hsame]
    exact h.found
  · rw [hevent]
    exact h.queue
  · rw [hevent]
    exact h.held
  · have hstate : ((m.modState p.keyb (processKeycode key)).inputs.devs p.keyb).state =
        processKeycode key (m.inputs.devs p.keyb).state := by simp [modState]
    rw [hstate]
    exact processKeycode_modifiers h.modifiers key

/-- An interrupt of a device writes an event. -/
theorem Simulates.put (h : Simulates p fuel m t) {src : InputSource}
    (hout : ¬ m.Between (p.at src)) (x : UInt8) :
    Simulates p fuel (m.putEvent (p.at src) (m.eventOf p src x)) (t.push src x) := by
  obtain ⟨b, hb, hq⟩ := h.queue src
  have hput : m.putEvent (p.at src) (m.eventOf p src x) =
      { m with
        ievBuff := Function.update m.ievBuff (p.at src)
          (some (cbuffWrite (some (m.eventOf p src x).bytes) b).1) } := by
    simp only [putEvent, hb]
  have hpush : (t.push src x).queue = Function.update t.queue src
      (if (t.queue src).length < inputBuffCnt then t.queue src ++ [x] else t.queue src) := by
    unfold TypedQueues.push
    split
    · rfl
    · exact (Function.update_eq_self src t.queue).symm
  have hrest : (t.push src x).held = t.held ∧ (t.push src x).shift = t.shift ∧
      (t.push src x).ctrl = t.ctrl ∧ (t.push src x).alt = t.alt := by
    unfold TypedQueues.push
    split <;> exact ⟨rfl, rfl, rfl, rfl⟩
  rw [hput]
  refine ⟨h.ne, h.found, ?_, ?_, h.reads, ?_, ?_⟩
  · intro src'
    by_cases hsrc : src' = src
    · subst hsrc
      refine ⟨_, Function.update_self .., ?_⟩
      have hwrite := QueueAt.write hq hout (m.eventOf p src' x)
      have hmap := apply_ite (List.map (m.eventOf p src')) ((t.queue src').length < inputBuffCnt)
        (t.queue src' ++ [x]) (t.queue src')
      rw [List.map_append] at hmap
      rw [List.length_map] at hwrite
      rw [hpush, Function.update_self]
      exact hmap ▸ hwrite
    · obtain ⟨b', hb', hq'⟩ := h.queue src'
      have hne : p.at src' ≠ p.at src := fun he => hsrc (Places.at_inj h.ne he)
      refine ⟨b', ?_, ?_⟩
      · exact (Function.update_of_ne hne ..).trans hb'
      · rw [hpush, Function.update_of_ne hsrc]
        exact hq'
  · intro d hd
    by_cases hsrc : d = p.at src
    · exact ⟨src, hsrc⟩
    · exact h.buffers d fun hnone => hd ((Function.update_of_ne hsrc ..).trans hnone)
  · rw [hrest.1]
    exact h.held
  · exact ⟨h.modifiers.shift.trans hrest.2.1.symm, h.modifiers.ctrl.trans hrest.2.2.1.symm,
      h.modifiers.alt.trans hrest.2.2.2.symm⟩

/-! ### The task -/

/-- The task goes on outside `cbuff_read`. -/
theorem Simulates.goto (h : Simulates p fuel m t) {task : KinputTask}
    (hfrom : m.task.reads = none) (hto : task.reads = none) {held : Option (InputSource × UInt8)}
    (hheld : task.event = held.map fun h => m.eventOf p h.1 h.2) :
    Simulates p fuel (m.goto task) { t with held := held } := by
  refine ⟨h.ne, h.found, ?_, h.buffers, ?_, hheld, h.modifiers.shift, h.modifiers.ctrl,
    h.modifiers.alt⟩
  · intro src
    obtain ⟨b, hb, hq⟩ := h.queue src
    refine ⟨b, hb, ?_⟩
    rw [queueAt_iff_of_not_reads (by rw [hfrom]; nofun)] at hq
    exact (queueAt_iff_of_not_reads (by simp [InputMachine.goto, hto])).mpr hq
  · intro d hd
    simp [InputMachine.goto, hto] at hd

theorem Simulates.silent (h : Simulates p fuel m t) {task : KinputTask}
    (hfrom : m.task.reads = none ∧ m.task.event = none)
    (hto : task.reads = none ∧ task.event = none) : Simulates p fuel (m.goto task) t := by
  have hheld := h.held
  rw [hfrom.2] at hheld
  exact h.goto hfrom.1 hto.1 (hto.2.trans hheld)

/-- The buffer of the device that is read changes, with its queue. -/
theorem Simulates.read (h : Simulates p fuel m t) {src : InputSource} {task : KinputTask}
    {b : Cbuff} {xs : List UInt8} {held : Option (InputSource × UInt8)}
    (hfrom : m.task.reads = none ∨ m.task.reads = some (p.at src))
    (hto : ∀ d, task.reads = some d → d = p.at src)
    (hheld : task.event = held.map fun h => m.eventOf p h.1 h.2)
    (hq : QueueAt task (p.at src) b (xs.map (m.eventOf p src))) :
    Simulates p fuel
      { m with ievBuff := Function.update m.ievBuff (p.at src) (some b), task := task }
      { t with queue := Function.update t.queue src xs, held := held } := by
  refine ⟨h.ne, h.found, ?_, ?_, ?_, hheld, h.modifiers.shift, h.modifiers.ctrl,
    h.modifiers.alt⟩
  · intro src'
    by_cases hsrc : src' = src
    · subst hsrc
      refine ⟨b, Function.update_self .., ?_⟩
      dsimp only
      rw [Function.update_self]
      exact hq
    · obtain ⟨b', hb', hq'⟩ := h.queue src'
      have hne : p.at src' ≠ p.at src := fun he => hsrc (Places.at_inj h.ne he)
      have hnot : m.task.reads ≠ some (p.at src') := by
        rcases hfrom with hnone | hsome
        · rw [hnone]
          nofun
        · rw [hsome]
          exact fun he => hne (Option.some.inj he).symm
      have hnot' : task.reads ≠ some (p.at src') := fun he => hne (hto _ he)
      refine ⟨b', (Function.update_of_ne hne ..).trans hb', ?_⟩
      dsimp only
      rw [Function.update_of_ne hsrc]
      exact (queueAt_iff_of_not_reads hnot').mpr ((queueAt_iff_of_not_reads hnot).mp hq')
  · intro d hd
    by_cases hsrc : d = p.at src
    · exact ⟨src, hsrc⟩
    · exact h.buffers d fun hnone => hd ((Function.update_of_ne hsrc ..).trans hnone)
  · exact fun d hd => ⟨src, hto d hd⟩

/-- Nothing is taken from the queue yet. -/
theorem Simulates.read_on (h : Simulates p fuel m t) {src : InputSource} {task : KinputTask}
    {b : Cbuff} (hfrom : m.task.reads = none ∨ m.task.reads = some (p.at src))
    (hto : task.reads = some (p.at src)) (hevents : m.task.event = none ∧ task.event = none)
    (hq : QueueAt task (p.at src) b ((t.queue src).map (m.eventOf p src))) :
    Simulates p fuel
      { m with ievBuff := Function.update m.ievBuff (p.at src) (some b), task := task } t := by
  have hread := h.read hfrom (fun d hd => Option.some.inj (hd.symm.trans hto))
    (hevents.2.trans (hevents.1.symm.trans h.held)) hq
  rwa [Function.update_eq_self] at hread

theorem charData_toUInt8 (x : UInt8) : (charData x).toUInt8 = x := by
  have hlt := x.toNat_lt
  apply UInt8.toNat_inj.mp
  unfold charData
  split
  · simp
  · simp only [UInt32.toNat_toUInt8, UInt32.toNat_add, UInt8.toNat_toUInt32, UInt32.reduceToNat]
    omega

/-- The character of an event is that of the key or the character it came in as. -/
theorem Simulates.charOf_eventOf (h : Simulates p fuel m t) (src : InputSource) (x : UInt8) :
    m.charOf fuel (m.eventOf p src x) = some (t.translate src x) := by
  cases src with
  | keyb =>
      have hmask : ∀ state, state &&& keybStateShift = keybStateShift ↔
          state.testBit 0 = true := by
        intro state
        rw [keybStateShift, Nat.and_one_is_mod, Nat.testBit_zero, decide_eq_true_iff]
      have hshift : decide ((m.inputs.devs p.keyb).state &&& keybStateShift = keybStateShift) =
          t.shift := by
        simp only [hmask, h.modifiers.shift, Bool.decide_eq_true]
      simp only [charOf, eventOf, keycodeToChar, h.found, if_true, Option.bind_eq_bind,
        Option.bind_some, hshift]
      simp [TypedQueues.translate]
  | serial =>
      have htype : ¬ eventChar = eventKeypress := by decide
      simp only [charOf, eventOf, if_neg htype, charData_toUInt8]
      rfl

/-- `cbuff_read` is called. -/
theorem Simulates.check (h : Simulates p fuel m t) {iter : LlistIterator} {idev : Nat}
    (htask : m.task = .check iter idev) (hstep : m.kinputStep p fuel = some (m', events)) :
    events = [] ∧ Simulates p fuel m' t := by
  have hfrom : m.task.reads = none ∧ m.task.event = none := by
    rw [htask]
    exact ⟨rfl, rfl⟩
  simp only [kinputStep, htask] at hstep
  cases hb : m.ievBuff idev with
  | none =>
      simp only [hb] at hstep
      cases hstep
      exact ⟨rfl, h.silent hfrom ⟨rfl, rfl⟩⟩
  | some b =>
      simp only [hb] at hstep
      split at hstep
      · cases hstep
        exact ⟨rfl, h.silent hfrom ⟨rfl, rfl⟩⟩
      · rename_i hsome
        cases hstep
        obtain ⟨src, rfl⟩ := h.buffers idev (by rw [hb]; nofun)
        obtain ⟨b', hb', hq⟩ := h.queue src
        obtain rfl : b = b' := Option.some.inj (hb.symm.trans hb')
        rw [queueAt_iff_of_not_reads (by rw [hfrom.1]; nofun)] at hq
        have hsame : Function.update m.ievBuff (p.at src) (some b) = m.ievBuff := by
          rw [← hb, Function.update_eq_self]
        have hat : QueueAt (.get iter (p.at src) []) (p.at src) b _ :=
          queueAt_get.mpr ⟨hq, by decide, mt hq.check.mpr hsome⟩
        have hget := h.read_on (.inl hfrom.1) rfl ⟨hfrom.2, rfl⟩ hat
        rw [hsame] at hget
        exact ⟨rfl, hget⟩

/-- The first store of `cbuff_get`, which never fails here. -/
theorem Simulates.get (h : Simulates p fuel m t) {iter : LlistIterator} {idev : Nat}
    {iev : List UInt8} (htask : m.task = .get iter idev iev)
    (hstep : m.kinputStep p fuel = some (m', events)) :
    events = [] ∧ Simulates p fuel m' t := by
  have hreads : m.task.reads = some idev := by
    rw [htask]
    rfl
  obtain ⟨src, rfl⟩ := h.reads idev hreads
  obtain ⟨b, hb, hq⟩ := h.queue src
  rw [htask] at hq
  obtain ⟨hbuff, hshort, hes⟩ := queueAt_get.mp hq
  obtain ⟨b₁, d, hbegin, hcount⟩ := hbuff.get hshort hes
  simp only [kinputStep, htask, hb, Option.bind_some, hbegin] at hstep
  cases hstep
  refine ⟨rfl, h.read_on (.inr hreads) rfl ⟨by rw [htask]; rfl, rfl⟩ ?_⟩
  exact queueAt_count.mpr ⟨hcount, hshort, hes⟩

/-- The second store; with the last byte the event is taken. -/
theorem Simulates.count (h : Simulates p fuel m t) {iter : LlistIterator} {idev : Nat}
    {iev : List UInt8} {d : UInt8} (htask : m.task = .count iter idev iev d)
    (hstep : m.kinputStep p fuel = some (m', events)) :
    ∃ t', exec TypedQueues.step t events = some t' ∧ Simulates p fuel m' t' := by
  have hreads : m.task.reads = some idev := by
    rw [htask]
    rfl
  have hevent : m.task.event = none := by
    rw [htask]
    rfl
  obtain ⟨src, rfl⟩ := h.reads idev hreads
  obtain ⟨b, hb, hq⟩ := h.queue src
  rw [htask] at hq
  obtain ⟨hbuff, hshort, hes⟩ := queueAt_count.mp hq
  simp only [kinputStep, htask, hb, Option.map_some] at hstep
  split at hstep
  · rename_i hfull
    cases hstep
    obtain ⟨es', hcons, hrest⟩ := hbuff.holds.last hfull
    obtain ⟨x, xs, hx, hfirst, rfl⟩ := List.map_eq_cons_iff.mp hcons
    have hsrc : (if p.at src = p.keyb then InputSource.keyb else .serial) = src := by
      cases src with
      | keyb => exact if_pos rfl
      | serial => exact if_neg h.ne.symm
    have hnone : t.held = none := by
      have hheld := h.held
      rw [hevent] at hheld
      exact Option.map_eq_none_iff.mp hheld.symm
    have hheld : KinputTask.event (.send iter (p.at src) (.ofBytes (iev ++ [d]))) =
        (some (src, x)).map fun h => m.eventOf p h.1 h.2 := congrArg some hfirst.symm
    refine ⟨_, ?_, h.read (.inr hreads) nofun hheld ⟨hbuff.inv, hbuff.size, hrest⟩⟩
    rw [hsrc]
    simp only [exec, TypedQueues.step, hnone, hx, Option.bind_some]
  · rename_i hmore
    cases hstep
    have hlen : (iev ++ [d]).length < 12 := by
      rw [List.length_append, List.length_singleton] at hmore ⊢
      omega
    refine ⟨t, rfl, h.read_on (.inr hreads) rfl ⟨hevent, rfl⟩ ?_⟩
    exact queueAt_get.mpr ⟨hbuff, hlen, hes⟩

/-- The character is sent. -/
theorem Simulates.send (h : Simulates p fuel m t) {iter : LlistIterator} {idev : Nat}
    {e : InputEvent} (htask : m.task = .send iter idev e)
    (hstep : m.kinputStep p fuel = some (m', events)) :
    ∃ t', exec TypedQueues.step t events = some t' ∧ Simulates p fuel m' t' := by
  have hheld := h.held
  rw [htask] at hheld
  obtain ⟨⟨src, x⟩, hsrc, hx⟩ := Option.map_eq_some_iff.mp hheld.symm
  obtain rfl : m.eventOf p src x = e := hx
  simp only [kinputStep, htask, h.charOf_eventOf src x, Option.bind_eq_bind,
    Option.bind_some] at hstep
  cases hstep
  refine ⟨{ t with held := none }, ?_, h.goto (by rw [htask]; rfl) rfl rfl⟩
  simp only [exec, TypedQueues.step, hsrc, if_true, Option.bind_some]

/-- A step of the task is one of the queues, or none. -/
theorem Simulates.kinput (h : Simulates p fuel m t)
    (hstep : m.kinputStep p fuel = some (m', events)) :
    ∃ t', exec TypedQueues.step t events = some t' ∧ Simulates p fuel m' t' := by
  cases htask : m.task with
  | top =>
      simp only [kinputStep, htask] at hstep
      cases hstep
      exact ⟨t, rfl, h.silent (by rw [htask]; exact ⟨rfl, rfl⟩) ⟨rfl, rfl⟩⟩
  | next iter =>
      have hfrom : m.task.reads = none ∧ m.task.event = none := by
        rw [htask]
        exact ⟨rfl, rfl⟩
      simp only [kinputStep, htask] at hstep
      split at hstep
      · cases hstep
      · cases hstep
        exact ⟨t, rfl, h.silent hfrom ⟨rfl, rfl⟩⟩
      · split at hstep <;> cases hstep <;> exact ⟨t, rfl, h.silent hfrom ⟨rfl, rfl⟩⟩
  | check iter idev =>
      obtain ⟨rfl, hsim⟩ := h.check htask hstep
      exact ⟨t, rfl, hsim⟩
  | get iter idev iev =>
      obtain ⟨rfl, hsim⟩ := h.get htask hstep
      exact ⟨t, rfl, hsim⟩
  | count iter idev iev d => exact h.count htask hstep
  | send iter idev e => exact h.send htask hstep

theorem Simulates.step {a : InputAct} (h : Simulates p fuel m t) (hok : m.Allowed p a)
    (hstep : m.step p fuel a = some (m', events)) :
    ∃ t', exec TypedQueues.step t events = some t' ∧ Simulates p fuel m' t' := by
  cases a with
  | keybInt key =>
      cases hstep
      have hout : ¬ (m.modState p.keyb (processKeycode key)).Between (p.at .keyb) := hok
      exact ⟨_, rfl, (h.key key).put hout key⟩
  | serialInt status ch =>
      simp only [InputMachine.step] at hstep
      split at hstep
      · cases hstep
        have hout : ¬ m.Between (p.at .serial) := hok
        exact ⟨_, rfl, h.put hout (serialChar ch)⟩
      · cases hstep
        exact ⟨t, rfl, h⟩
  | kinput => exact h.kinput hstep

/-! ## Runs -/

/-- The trace is one of the queues, from `t₀` on. -/
def TraceSim (p : Places) (fuel : Nat) (t₀ : TypedQueues)
    (r : InputMachine × List TypedEvent) : Prop :=
  ∃ t, exec TypedQueues.step t₀ r.2 = some t ∧ Simulates p fuel r.1 t

theorem traceStep_sim {t₀ : TypedQueues} {a : InputAct} {r r' : InputMachine × List TypedEvent}
    (hsim : TraceSim p fuel t₀ r) (hok : r.1.Allowed p a)
    (h : traceStep p fuel r a = some r') : TraceSim p fuel t₀ r' := by
  obtain ⟨m, trace⟩ := r
  obtain ⟨⟨m', events⟩, hstep, rfl⟩ := Option.map_eq_some_iff.mp h
  obtain ⟨t, htrace, hsim⟩ := hsim
  obtain ⟨t', hevents, hsim'⟩ := hsim.step hok hstep
  exact ⟨t', exec_append_eq_some.mpr ⟨t, htrace, hevents⟩, hsim'⟩

theorem buffHolds_static : BuffHolds (staticCbuff (12 * inputBuffCnt)) [] [] :=
  ⟨⟨by decide, by decide, by decide, Nat.zero_le _, _, rfl, List.length_replicate⟩, rfl,
    RecordCodec.Holds.nil⟩

/-- Two devices that have been registered and have not got anything yet. -/
structure Ready (p : Places) (fuel : Nat) (m : InputMachine) : Prop where
  found : getIdevice fuel m.inputs idriverKeyboard (m.inputs.devs p.keyb).device =
    some (some p.keyb)
  buff : ∀ src, m.ievBuff (p.at src) = some (staticCbuff (12 * inputBuffCnt))
  buffers : ∀ d, m.ievBuff d ≠ none → ∃ src, d = p.at src
  task : m.task = .top
  state : (m.inputs.devs p.keyb).state = 0

theorem Ready.simulates (h : Ready p fuel m) (hne : p.keyb ≠ p.serial) :
    Simulates p fuel m .start := by
  refine ⟨hne, h.found, ?_, h.buffers, ?_, ?_, ?_⟩
  · intro src
    refine ⟨_, h.buff src, ?_⟩
    rw [h.task]
    exact buffHolds_static
  · rw [h.task]
    nofun
  · rw [h.task]
    rfl
  · rw [h.state]
    exact ⟨rfl, rfl, rfl⟩

/-- `boot` registers the devices: the second registration of the serial port
leaves the list as it is, and the port with the number one. -/
theorem boot_ready (hk : p.keyb ≠ 0) (hs : p.serial ≠ 0) (hne : p.keyb ≠ p.serial)
    (hfuel : 2 < fuel) (devs : Nat → InputDev) (items : Items) :
    ∃ m, boot p fuel (.start devs items) = some m ∧ Ready p fuel m := by
  obtain ⟨fuel, rfl⟩ : ∃ n, fuel = n + 3 := ⟨fuel - 3, by omega⟩
  -- the three calls, on lists that have at most one item
  simp [boot, serialInit, keybInit, addDev, addInputDev, getNextDevid, iterateAll, llistIterate,
    llistIteratorInit, Inputs.start, llistInit, hs, hk, llistAppend, llistAppendUnlocked,
    Llist.acquire, Llist.release, maxDevid, idriverSerial, idriverKeyboard, hne, hne.symm]
  refine ⟨?_, ?_, ?_, rfl, ?_⟩
  · simp [getIdevice, iterateFind, llistIterate, llistIteratorInit, idriverKeyboard, InputDev.n,
      hs, hk, hne, hne.symm]
  · intro src
    cases src with
    | keyb => exact Function.update_self ..
    | serial => exact (Function.update_of_ne hne.symm ..).trans (Function.update_self ..)
  · intro d hd
    by_cases hdk : d = p.keyb
    · exact ⟨.keyb, hdk⟩
    · by_cases hds : d = p.serial
      · exact ⟨.serial, hds⟩
      · simp [Function.update_of_ne hdk, Function.update_of_ne hds] at hd
  · simp

/-- The devices are registered, and in every run from there on, whenever keys
and characters come in while the task reads events, what is seen from outside is
what two queues of sixteen entries would show: what is typed is sent once and in
its order for each device, it is dropped only while sixteen entries wait, and the
shift that counts is the one held when the character is sent. -/
theorem input_refines_queues (devs : Nat → InputDev) (items : Items)
    (hk : p.keyb ≠ 0) (hs : p.serial ≠ 0) (hne : p.keyb ≠ p.serial) (hfuel : 2 < fuel) :
    ∃ m, boot p fuel (.start devs items) = some m ∧
      ∀ (acts : List InputAct) (m' : InputMachine) (trace : List TypedEvent),
        Guarded (traceStep p fuel) (fun r a => r.1.Allowed p a) (m, []) acts →
        exec (traceStep p fuel) (m, []) acts = some (m', trace) →
        ∃ t, exec TypedQueues.step .start trace = some t ∧ Simulates p fuel m' t := by
  obtain ⟨m, hboot, hready⟩ := boot_ready hk hs hne hfuel devs items
  refine ⟨m, hboot, fun acts m' trace hok hrun => ?_⟩
  have hstart : TraceSim p fuel .start (m, []) := ⟨.start, rfl, hready.simulates hne⟩
  exact exec_guarded_inv (fun _ _ _ hsim hallowed h => traceStep_sim hsim hallowed h)
    hstart hok hrun

def twoPlaces : Places := ⟨16, 32⟩

/-- An `a`, and the shift key while the task reads it. -/
def shiftedActs : List InputAct :=
  .keybInt 0x1E :: List.replicate 9 .kinput ++ .keybInt 0x2A :: List.replicate 21 .kinput

/-- The `a` is sent as `A`. -/
def shiftedTrace : List TypedEvent :=
  [.typed .keyb 0x1E, .typed .keyb 0x2A, .taken .keyb, .sent 65]

theorem input_refines_queues_shifted :
    ∃ m m', boot twoPlaces 3 .boot = some m ∧
      exec (traceStep twoPlaces 3) (m, []) shiftedActs = some (m', shiftedTrace) ∧
      ∃ t, exec TypedQueues.step .start shiftedTrace = some t ∧ Simulates twoPlaces 3 m' t := by
  have htrace : ((boot twoPlaces 3 .boot).bind fun m =>
      (exec (traceStep twoPlaces 3) (m, []) shiftedActs).map Prod.snd) = some shiftedTrace := by
    decide +kernel
  have hguarded : ∀ m ∈ boot twoPlaces 3 .boot,
      Guarded (traceStep twoPlaces 3) (fun r a => r.1.Allowed twoPlaces a) (m, [])
        shiftedActs := by
    decide +kernel
  obtain ⟨m, hboot, hmap⟩ := Option.bind_eq_some_iff.mp htrace
  obtain ⟨⟨m', trace⟩, hrun, rfl⟩ := Option.map_eq_some_iff.mp hmap
  obtain ⟨m₁, hboot₁, hqueues⟩ := @input_refines_queues twoPlaces 3
    (fun _ => ⟨0, 0, 0, List.replicate 64 0⟩) (fun _ => ⟨0, 0, 0⟩) (by decide) (by decide)
    (by decide) (by decide)
  rw [← Inputs.boot, hboot] at hboot₁
  obtain rfl : m = m₁ := Option.some.inj hboot₁
  exact ⟨m, m', hboot, hrun, hqueues _ m' _ (hguarded m hboot) hrun⟩

/-- A key between the two stores of the fifth byte: its event lies one byte too
far on, and the `b` is sent as something else. -/
example : ((boot twoPlaces 3 .boot).bind fun m =>
    (exec (traceStep twoPlaces 3) (m, []) (.keybInt 0x1E :: List.replicate 14 .kinput ++
      .keybInt 0x30 :: List.replicate 42 .kinput)).map Prod.snd) =
    some [.typed .keyb 0x1E, .typed .keyb 0x30, .taken .keyb, .sent 97, .taken .keyb, .sent 0] := by
  decide +kernel

end InputMachine

end LambdaOs
