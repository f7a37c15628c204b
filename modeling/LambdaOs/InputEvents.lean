import LambdaOs.Cbuff
import LambdaOs.InputDevs
import LambdaOs.Records
import LambdaOs.Run

/-!
# Keyboard and serial input

The interrupt handlers of `arch/x86/src/dev/keyb/input.c` and
`arch/x86/src/io/serial.c`, and the task of `proc/ktask/kinput.c` that reads the
events they write. An event is a record of twelve bytes in the buffer of its
device. `cbuff_write` runs in an interrupt, to its end; the task is interrupted
anywhere in its loops, so that `cbuff_read` is a step for each store of
`cbuff_get`: events come in while one is being read.

The store to `begin` and the store to `count` of one `cbuff_get` belong
together: an event that is written between them lands a byte too far on. Runs in
which no device interrupts the reading of its own buffer right there are runs of
two queues of at most sixteen keys and characters (`input_refines_queues`).
-/

namespace LambdaOs

/-! ## Events -/

/-- `struct input_event`. -/
structure InputEvent where
  driver : UInt16
  device : UInt16
  type : UInt32
  data : UInt32
deriving Repr, DecidableEq

/-- As it lies in memory. -/
def InputEvent.bytes (e : InputEvent) : List UInt8 :=
  leBytes 2 e.driver.toNat ++ leBytes 2 e.device.toNat ++ leBytes 4 e.type.toNat ++
    leBytes 4 e.data.toNat

def InputEvent.ofBytes (bs : List UInt8) : InputEvent where
  driver := UInt16.ofNat (ofLeBytes (bs.take 2))
  device := UInt16.ofNat (ofLeBytes ((bs.drop 2).take 2))
  type := UInt32.ofNat (ofLeBytes ((bs.drop 4).take 4))
  data := UInt32.ofNat (ofLeBytes ((bs.drop 8).take 4))

theorem InputEvent.bytes_length (e : InputEvent) : e.bytes.length = 12 := by
  simp [InputEvent.bytes]

theorem InputEvent.ofBytes_bytes (e : InputEvent) : InputEvent.ofBytes e.bytes = e := by
  have h₁ : ofLeBytes (leBytes 2 e.driver.toNat) = e.driver.toNat :=
    ofLeBytes_leBytes e.driver.toNat_lt
  have h₂ : ofLeBytes (leBytes 2 e.device.toNat) = e.device.toNat :=
    ofLeBytes_leBytes e.device.toNat_lt
  have h₃ : ofLeBytes (leBytes 4 e.type.toNat) = e.type.toNat :=
    ofLeBytes_leBytes e.type.toNat_lt
  have h₄ : ofLeBytes (leBytes 4 e.data.toNat) = e.data.toNat :=
    ofLeBytes_leBytes e.data.toNat_lt
  have hfields : InputEvent.ofBytes e.bytes =
      ⟨UInt16.ofNat (ofLeBytes (leBytes 2 e.driver.toNat)),
        UInt16.ofNat (ofLeBytes (leBytes 2 e.device.toNat)),
        UInt32.ofNat (ofLeBytes (leBytes 4 e.type.toNat)),
        UInt32.ofNat (ofLeBytes (leBytes 4 e.data.toNat))⟩ := rfl
  rw [hfields, h₁, h₂, h₃, h₄]
  simp

def eventCodec : RecordCodec InputEvent UInt8 where
  size := 12
  size_pos := by decide
  encode := InputEvent.bytes
  decode := InputEvent.ofBytes
  length_encode := InputEvent.bytes_length
  decode_encode := InputEvent.ofBytes_bytes

/-- `KEYB_BUFF_CNT` and `SERIAL_BUFF_CNT`. -/
def inputBuffCnt : Nat := 16

/-- `IDRIVER_KEYBOARD` -/
def idriverKeyboard : UInt16 := 0

/-- `IDRIVER_SERIAL` -/
def idriverSerial : UInt16 := 2

/-- `EVENT_KEYPRESS` -/
def eventKeypress : UInt32 := 0

/-- `EVENT_CHAR` -/
def eventChar : UInt32 := 1

/-! ## Keys -/

/-- `KEYB_STATE_SHIFT` -/
def keybStateShift : Nat := 1

/-- `KEYB_STATE_CTRL` -/
def keybStateCtrl : Nat := 2

/-- `KEYB_STATE_ALT` -/
def keybStateAlt : Nat := 4

/-- `_process_keycode`, of the field `state`. -/
def processKeycode (keycode : UInt8) (state : Nat) : Nat :=
  if keycode = 0x2A ∨ keycode = 0x36 then state ||| keybStateShift
  else if keycode = 0xAA ∨ keycode = 0xB6 then state &&& (0xFFFFFFFF ^^^ keybStateShift)
  else if keycode = 0x1D then state ||| keybStateCtrl
  else if keycode = 0x9D then state &&& (0xFFFFFFFF ^^^ keybStateCtrl)
  else if keycode = 0x38 then state ||| keybStateAlt
  else if keycode = 0xB8 then state &&& (0xFFFFFFFF ^^^ keybStateAlt)
  else state

/-- `keytab_x86_a`; the entries that are not here are zero. -/
def keytabX86A : Bool → List UInt8
  | false =>
      [0, 0, 49, 50, 51, 52, 53, 54, 55, 56, 57, 48, 45, 61, 8, 9,
       113, 119, 101, 114, 116, 121, 117, 105, 111, 112, 91, 93, 10, 0, 97, 115,
       100, 102, 103, 104, 106, 107, 108, 59, 39, 96, 0, 92, 122, 120, 99, 118,
       98, 110, 109, 44, 46, 47, 0, 0, 0, 32]
  | true =>
      [0, 0, 33, 64, 35, 36, 37, 94, 38, 42, 40, 41, 95, 43, 8, 9,
       81, 87, 69, 82, 84, 89, 85, 73, 79, 80, 123, 125, 10, 0, 65, 83,
       68, 70, 71, 72, 74, 75, 76, 58, 34, 126, 0, 124, 90, 88, 67, 86,
       66, 78, 77, 60, 62, 63, 0, 0, 0, 32]

/-! ## The handlers and the task -/

/-- The two stores of `cbuff_get`; `none` is an error. -/
def cbuffGetBegin (b : Cbuff) : Option (Cbuff × UInt8) :=
  match b.buff with
  | none => none
  | some cells =>
      if b.count = 0 then none
      else some ({ b with begin := wrap (u32 (b.begin + 1)) b.size }, cells.getD b.begin 0)

def cbuffGetCount (b : Cbuff) : Cbuff := { b with count := u32 (b.count + 4294967295) }

/-- Where `kinput_task` is: before the list, before `llist_iterate`, before
`cbuff_read`, before and within a `cbuff_get` with the bytes of `iev` read so
far, and before `send_input_char`. -/
inductive KinputTask where
  | top
  | next (iter : LlistIterator)
  | check (iter : LlistIterator) (idev : Nat)
  | get (iter : LlistIterator) (idev : Nat) (iev : List UInt8)
  | count (iter : LlistIterator) (idev : Nat) (iev : List UInt8) (d : UInt8)
  | send (iter : LlistIterator) (idev : Nat) (iev : InputEvent)
deriving Repr, DecidableEq

inductive InputSource where
  | keyb
  | serial
deriving Repr, DecidableEq

/-- What is seen from outside: a key or a character comes in, the task has read
an event, and sends a character. -/
inductive TypedEvent where
  | typed (src : InputSource) (x : UInt8)
  | taken (src : InputSource)
  | sent (c : UInt8)
deriving Repr, DecidableEq

/-- The devices, their `iev_buff`, and the task. -/
structure InputMachine where
  inputs : Inputs
  ievBuff : Nat → Option Cbuff
  task : KinputTask

namespace InputMachine

/-- `cbuff_write` of an event, to the buffer of a device. -/
def putEvent (m : InputMachine) (idev : Nat) (e : InputEvent) : InputMachine :=
  match m.ievBuff idev with
  | none => m
  | some b =>
      { m with ievBuff := Function.update m.ievBuff idev (some (cbuffWrite (some e.bytes) b).1) }

def modState (m : InputMachine) (idev : Nat) (f : Nat → Nat) : InputMachine :=
  { m with
    inputs := { m.inputs with
      devs := Function.update m.inputs.devs idev
        { m.inputs.devs idev with state := f (m.inputs.devs idev).state } } }

/-- `keyb_dev` and `serial_dev`. -/
structure Places where
  keyb : Nat
  serial : Nat
deriving Repr, DecidableEq

def Places.at (p : Places) : InputSource → Nat
  | .keyb => p.keyb
  | .serial => p.serial

def keybHandle (p : Places) (m : InputMachine) (keycode : UInt8) : InputMachine :=
  let m := m.modState p.keyb (processKeycode keycode)
  m.putEvent p.keyb
    ⟨idriverKeyboard, (m.inputs.devs p.keyb).device, eventKeypress, keycode.toUInt32⟩

/-- A `char` that becomes an `uint32_t`. -/
def charData (ch : UInt8) : UInt32 := if ch < 128 then ch.toUInt32 else ch.toUInt32 + 0xFFFFFF00

def handleInput (p : Places) (m : InputMachine) (ch : UInt8) : InputMachine :=
  m.putEvent p.serial ⟨idriverSerial, (m.inputs.devs p.serial).device, eventChar, charData ch⟩

/-- A delete becomes a backspace. -/
def serialChar (ch : UInt8) : UInt8 := if ch = 0x7F then 8 else ch

/-- `none` is a search that does not end; without the device there is `\0`. -/
def keycodeToChar (fuel : Nat) (m : InputMachine) (e : InputEvent) : Option UInt8 :=
  if e.driver = idriverKeyboard then do
    match ← getIdevice fuel m.inputs idriverKeyboard e.device with
    | none => return 0
    | some idev =>
        let shift := (m.inputs.devs idev).state &&& keybStateShift = keybStateShift
        return (keytabX86A shift).getD e.data.toNat 0
  else return 0

/-- The character that is sent for an event. -/
def charOf (fuel : Nat) (m : InputMachine) (e : InputEvent) : Option UInt8 :=
  if e.type = eventKeypress then m.keycodeToChar fuel e else some e.data.toUInt8

def goto (m : InputMachine) (task : KinputTask) : InputMachine := { m with task := task }

/-- A step of `kinput_task`; `none` is a panic of `llist_iterate`. -/
def kinputStep (p : Places) (fuel : Nat) (m : InputMachine) :
    Option (InputMachine × List TypedEvent) :=
  match m.task with
  | .top => some (m.goto (.next (llistIteratorInit m.inputs.idevs)), [])
  | .next iter =>
      match llistIterate m.inputs.items iter with
      | none => none
      | some (_, none) => some (m.goto .top, [])
      | some (iter, some idev) =>
          if m.ievBuff idev = none then some (m.goto (.next iter), [])
          else some (m.goto (.check iter idev), [])
  | .check iter idev =>
      match m.ievBuff idev with
      | none => some (m.goto (.next iter), [])
      | some b =>
          if b.buff = none ∨ 12 > b.count then some (m.goto (.next iter), [])
          else some (m.goto (.get iter idev []), [])
  | .get iter idev iev =>
      match (m.ievBuff idev).bind cbuffGetBegin with
      | none => some (m.goto (.next iter), [])
      | some (b, d) =>
          some ({ m with
            ievBuff := Function.update m.ievBuff idev (some b)
            task := .count iter idev iev d }, [])
  | .count iter idev iev d =>
      let m := { m with
        ievBuff := Function.update m.ievBuff idev ((m.ievBuff idev).map cbuffGetCount) }
      let iev := iev ++ [d]
      if iev.length = 12 then
        some (m.goto (.send iter idev (.ofBytes iev)),
          [.taken (if idev = p.keyb then .keyb else .serial)])
      else some (m.goto (.get iter idev iev), [])
  | .send iter idev e => do
      let c ← m.charOf fuel e
      return (m.goto (.check iter idev), [.sent c])

/-- The interrupts, with what is read from the ports: the keycode, and the status
of the line and the character. -/
inductive InputAct where
  | keybInt (keycode : UInt8)
  | serialInt (status ch : UInt8)
  | kinput
deriving Repr, DecidableEq

def step (p : Places) (fuel : Nat) (m : InputMachine) :
    InputAct → Option (InputMachine × List TypedEvent)
  | .keybInt keycode => some (m.keybHandle p keycode, [.typed .keyb keycode])
  | .serialInt status ch =>
      if status &&& 1 ≠ 0 then
        some (m.handleInput p (serialChar ch), [.typed .serial (serialChar ch)])
      else some (m, [])
  | .kinput => m.kinputStep p fuel

/-- A step with the trace so far. -/
def traceStep (p : Places) (fuel : Nat) (r : InputMachine × List TypedEvent) (a : InputAct) :
    Option (InputMachine × List TypedEvent) :=
  (step p fuel r.1 a).map fun r' => (r'.1, r.2 ++ r'.2)

/-- The task is between the two stores of `cbuff_get`, on the buffer of a device. -/
def Between (m : InputMachine) (idev : Nat) : Prop :=
  match m.task with
  | .count _ i _ _ => i = idev
  | _ => False

instance (m : InputMachine) (idev : Nat) : Decidable (m.Between idev) := by
  unfold Between
  split <;> infer_instance

/-- A device does not interrupt between the two stores to its own buffer. -/
def Allowed (p : Places) (m : InputMachine) : InputAct → Prop
  | .keybInt _ => ¬ m.Between p.keyb
  | .serialInt _ _ => ¬ m.Between p.serial
  | .kinput => True

instance (p : Places) (m : InputMachine) : DecidablePred (m.Allowed p)
  | .keybInt _ => inferInstanceAs (Decidable (¬ _))
  | .serialInt _ _ => inferInstanceAs (Decidable (¬ _))
  | .kinput => isTrue trivial

/-! ### Initialisation -/

def staticCbuff (size : Nat) : Cbuff := ⟨0, 0, size, some (List.replicate size 0)⟩

/-- `add_input_dev`, and the buffer of the device. -/
def addDev (fuel : Nat) (m : InputMachine) (c : InputCall) : Option InputMachine := do
  let inputs ← addInputDev fuel m.inputs c
  let b := (m.ievBuff c.idev).getD (staticCbuff (12 * inputBuffCnt))
  return { m with inputs := inputs, ievBuff := Function.update m.ievBuff c.idev (some b) }

def serialInit (p : Places) (fuel : Nat) (m : InputMachine) : Option InputMachine :=
  m.addDev fuel ⟨p.serial, idriverSerial, serName, true, false⟩

def keybInit (p : Places) (fuel : Nat) (m : InputMachine) : Option InputMachine :=
  m.addDev fuel ⟨p.keyb, idriverKeyboard, keybName, false, false⟩

/-- The devices of `kentry` and `arch_init`, which register the serial port a
second time. -/
def boot (p : Places) (fuel : Nat) (inputs : Inputs) : Option InputMachine := do
  let m ← serialInit p fuel ⟨inputs, fun _ => none, .top⟩
  let m ← m.serialInit p fuel
  m.keybInit p fuel

end InputMachine

/-! ## The two queues -/

/-- The queues of keys and of characters, what the task has taken, and the
modifiers that are held. -/
structure TypedQueues where
  queue : InputSource → List UInt8
  held : Option (InputSource × UInt8)
  shift : Bool
  ctrl : Bool
  alt : Bool

namespace TypedQueues

def start : TypedQueues := ⟨fun _ => [], none, false, false, false⟩

/-- A modifier after a key: pressed, released, or as before. -/
def modifier (press release : List UInt8) (key : UInt8) (held : Bool) : Bool :=
  if key ∈ press then true else if key ∈ release then false else held

/-- The modifiers after a key. -/
def withKey (t : TypedQueues) (key : UInt8) : TypedQueues :=
  { t with
    shift := modifier [0x2A, 0x36] [0xAA, 0xB6] key t.shift
    ctrl := modifier [0x1D] [0x9D] key t.ctrl
    alt := modifier [0x38] [0xB8] key t.alt }

/-- A full queue drops what comes in. -/
def push (t : TypedQueues) (src : InputSource) (x : UInt8) : TypedQueues :=
  if (t.queue src).length < inputBuffCnt then
    { t with queue := Function.update t.queue src (t.queue src ++ [x]) }
  else t

/-- What is sent: a character as it is, and of a key the character that it has
with the shift held now. -/
def translate (t : TypedQueues) : InputSource → UInt8 → UInt8
  | .keyb, key => (keytabX86A t.shift).getD key.toNat 0
  | .serial, ch => ch

/-- One thing is taken at a time, the oldest of its queue, and then sent. -/
def step (t : TypedQueues) : TypedEvent → Option TypedQueues
  | .typed .keyb key => some ((t.withKey key).push .keyb key)
  | .typed .serial ch => some (t.push .serial ch)
  | .taken src =>
      match t.held, t.queue src with
      | none, x :: xs =>
          some { t with queue := Function.update t.queue src xs, held := some (src, x) }
      | _, _ => none
  | .sent c =>
      match t.held with
      | some (src, x) => if c = t.translate src x then some { t with held := none } else none
      | none => none

end TypedQueues

end LambdaOs
