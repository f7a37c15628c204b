import LambdaOs.Run
import LambdaOs.Stream

/-!
# The init task

`_spawn_init` and `_exec_init` of `main/main.c`. The kernel task makes a task for
init and prepares its process; the new task, which starts in the kernel, must not
call `execve` before that, and must have run once before its domain is changed.
The two wait for each other at `_run_ok`, between accesses to which they are
interleaved in any way. Afterwards the kernel task prints what init writes. It
reads a stream byte for byte into its buffer, and then prints the buffer, and
between any two bytes of it others may write.

`execve` is reached with everything in place, and always can be (`init_starts`),
and what is printed of each stream is what was written, as far as it has been
read and printed (`init_output_in_order`).
-/

namespace LambdaOs

/-! ## The two tasks -/

/-- `PROC_DOMAIN_KERNEL` -/
def InitSys.procDomainKernel : Nat := 0

/-- `PROC_DOMAIN_USERSPACE` -/
def InitSys.procDomainUserspace : Nat := 2

/-- `INIT_STREAM_LEN` -/
def initStreamLen : Nat := 512

/-- The streams that init writes. -/
inductive InitStream where
  | stdout
  | stderr
deriving Repr, DecidableEq

/-- What the calls of `_spawn_init` return: whether there is a file, the handles,
the pid, and whether there is a process of that pid. `junk` is the memory of the
streams. -/
structure InitCalls where
  path : Nat
  fileFound : Bool
  stdinKern : Nat
  stdoutKern : Nat
  stderrKern : Nat
  stdinUser : Nat
  stdoutUser : Nat
  stderrUser : Nat
  pid : Int
  procFound : Bool
  junk : Nat → UInt8

/-- Where `_spawn_init` is: before each store to what the tasks share, and in its
two loops. -/
inductive SpawnAt where
  | initFile
  | streams
  | handles
  | addTask
  | procByPid
  | waitRun
  | domain
  | stdin
  | stdout
  | stderr
  | dest
  | allow
  | zombie
  | readOut
  | putOut
  | readErr
  | putErr
deriving Repr, DecidableEq

/-- Where `_exec_init` is. -/
inductive ExecAt where
  | absent
  | entry
  | waitAllowed
  | execve
  | running
deriving Repr, DecidableEq

/-- `_run_ok`, `_init_file`, `kinput_dest`, of the new process what `_spawn_init`
stores in it, the streams, and what of its `buffer` has been read and not been
printed; `printed` and `written` list what went through `kput`, and what the
streams accepted. -/
structure InitSys where
  runOk : Nat
  initFile : Nat
  kinputDest : Nat
  domain : Nat
  openFiles : Nat → Nat
  zombie : Bool
  stream : InitStream → StreamFile
  buffer : List UInt8
  spawn : SpawnAt
  exec : ExecAt
  printed : List (InitStream × UInt8)
  written : List (InitStream × UInt8)

namespace InitSys

def openFile (s : InitSys) (fd hand : Nat) : InitSys :=
  { s with openFiles := Function.update s.openFiles fd hand }

def withStream (s : InitSys) (src : InitStream) (f : StreamFile) : InitSys :=
  { s with stream := Function.update s.stream src f }

/-- A round of the loop of `_read` that `fs_read` from a stream comes to, and behind the
last its length. -/
def readByte (s : InitSys) (src : InitStream) (next : SpawnAt) : InitSys :=
  let f := s.stream src
  let r := cbuffGet f.info
  if s.buffer.length < initStreamLen ∧ r.2 ≥ 0 then
    { s.withStream src ⟨r.1, f.length⟩ with
      buffer := s.buffer ++ [UInt8.ofNat r.2.toNat] }
  else
    { s.withStream src ⟨f.info, u32 (f.length + 4294967296 - s.buffer.length)⟩ with
      spawn := next }

/-- A round of the loop over `kput`. -/
def putByte (s : InitSys) (src : InitStream) (next : SpawnAt) : InitSys :=
  match s.buffer with
  | [] => { s with spawn := next }
  | b :: rest => { s with buffer := rest, printed := s.printed ++ [(src, b)] }

/-- A step of `_spawn_init`; `none` is a panic. -/
def spawnStep (c : InitCalls) (s : InitSys) : Option InitSys :=
  match s.spawn with
  | .initFile =>
      if c.fileFound then some { s with initFile := c.path, spawn := .streams } else none
  | .streams => do
      let stdout ← streamCreate initStreamLen c.junk
      let stderr ← streamCreate initStreamLen c.junk
      return { (s.withStream .stdout stdout).withStream .stderr stderr with spawn := .handles }
  | .handles =>
      if c.stdinKern = 0 ∨ c.stdoutKern = 0 ∨ c.stderrKern = 0 ∨ c.stdinUser = 0 ∨
          c.stdoutUser = 0 ∨ c.stderrUser = 0 then none
      else some { s with spawn := .addTask }
  | .addTask =>
      if c.pid ≤ 0 then none
      else some { s with
        domain := InitSys.procDomainKernel
        openFiles := fun _ => 0
        zombie := false
        exec := .entry
        spawn := .procByPid }
  | .procByPid => if c.procFound then some { s with spawn := .waitRun } else none
  | .waitRun => if s.runOk ≠ 1 then some s else some { s with spawn := .domain }
  | .domain => some { s with domain := InitSys.procDomainUserspace, spawn := .stdin }
  | .stdin => some { s.openFile 0 c.stdinUser with spawn := .stdout }
  | .stdout => some { s.openFile 1 c.stdoutUser with spawn := .stderr }
  | .stderr => some { s.openFile 2 c.stderrUser with spawn := .dest }
  | .dest => some { s with kinputDest := c.stdinKern, spawn := .allow }
  | .allow => some { s with runOk := 2, spawn := .zombie }
  | .zombie => if s.zombie then none else some { s with spawn := .readOut }
  | .readOut => some (s.readByte .stdout .putOut)
  | .putOut => some (s.putByte .stdout .readErr)
  | .readErr => some (s.readByte .stderr .putErr)
  | .putErr => some (s.putByte .stderr .zombie)

/-- A step of `_exec_init`. -/
def execStep (s : InitSys) : Option InitSys :=
  match s.exec with
  | .absent => none
  | .entry => some { s with runOk := 1, exec := .waitAllowed }
  | .waitAllowed => if s.runOk ≠ 2 then some s else some { s with exec := .execve }
  | .execve => some { s with exec := .running }
  | .running => none

/-- A round of the loop of `_write`, in one of the calls for the stream. -/
def write (s : InitSys) (src : InitStream) (data : UInt8) : InitSys :=
  let f := s.stream src
  let r := cbuffPut data f.info
  { s.withStream src ⟨r.1, f.length⟩ with
    written := if r.2 ≥ 0 then s.written ++ [(src, data)] else s.written }

/-- The end of such a call. -/
def wrote (s : InitSys) (src : InitStream) (count : Nat) : InitSys :=
  let f := s.stream src
  s.withStream src ⟨f.info, u32 (f.length + count)⟩

end InitSys

inductive InitAct where
  | spawn
  | exec
  | write (src : InitStream) (data : UInt8)
  | wrote (src : InitStream) (count : Nat)
  | exit
deriving Repr, DecidableEq

/-- Init writes and exits once it runs. -/
def initStep (c : InitCalls) (s : InitSys) : InitAct → Option InitSys
  | .spawn => s.spawnStep c
  | .exec => s.execStep
  | .write src data => if s.exec = .running then some (s.write src data) else none
  | .wrote src count => if s.exec = .running then some (s.wrote src count) else none
  | .exit => if s.exec = .running then some { s with zombie := true } else none

/-- When `_spawn_init` is called. -/
structure InitBoot (s : InitSys) : Prop where
  runOk : s.runOk = 0
  buffer : s.buffer = []
  spawn : s.spawn = .initFile
  exec : s.exec = .absent
  printed : s.printed = []
  written : s.written = []

/-- None of the calls fails. -/
structure InitCalls.Succeed (c : InitCalls) : Prop where
  file : c.fileFound = true
  handles : ¬ (c.stdinKern = 0 ∨ c.stdoutKern = 0 ∨ c.stderrKern = 0 ∨ c.stdinUser = 0 ∨
    c.stdoutUser = 0 ∨ c.stderrUser = 0)
  pid : 0 < c.pid
  proc : c.procFound = true

/-- What `execve` is called with. -/
structure InitReady (c : InitCalls) (s : InitSys) : Prop where
  file : s.initFile = c.path
  domain : s.domain = InitSys.procDomainUserspace
  stdin : s.openFiles 0 = c.stdinUser
  stdout : s.openFiles 1 = c.stdoutUser
  stderr : s.openFiles 2 = c.stderrUser
  dest : s.kinputDest = c.stdinKern

/-! ## The invariant -/

/-- How far `_spawn_init` is; the loop at its end is one place. -/
def SpawnAt.rank : SpawnAt → Nat
  | .initFile => 0
  | .streams => 1
  | .handles => 2
  | .addTask => 3
  | .procByPid => 4
  | .waitRun => 5
  | .domain => 6
  | .stdin => 7
  | .stdout => 8
  | .stderr => 9
  | .dest => 10
  | .allow => 11
  | .zombie => 12
  | .readOut => 12
  | .putOut => 12
  | .readErr => 12
  | .putErr => 12

/-- `_run_ok` says where the two tasks can be. -/
inductive RunOk : Nat → SpawnAt → ExecAt → Prop
  | absent {p : SpawnAt} (hp : p.rank ≤ 3) : RunOk 0 p .absent
  | entry {p : SpawnAt} (hp : p = .procByPid ∨ p = .waitRun) : RunOk 0 p .entry
  | once {p : SpawnAt} (hp : 4 ≤ p.rank ∧ p.rank ≤ 11) : RunOk 1 p .waitAllowed
  | allowed {p : SpawnAt} {e : ExecAt} (hp : p.rank = 12)
      (he : e = .waitAllowed ∨ e = .execve ∨ e = .running) : RunOk 2 p e

/-- The stores that have been made. -/
structure Prepared (c : InitCalls) (s : InitSys) : Prop where
  file : 0 < s.spawn.rank → s.initFile = c.path
  domain : 6 < s.spawn.rank → s.domain = InitSys.procDomainUserspace
  stdin : 7 < s.spawn.rank → s.openFiles 0 = c.stdinUser
  stdout : 8 < s.spawn.rank → s.openFiles 1 = c.stdoutUser
  stderr : 9 < s.spawn.rank → s.openFiles 2 = c.stderrUser
  dest : 10 < s.spawn.rank → s.kinputDest = c.stdinKern

section Handshake

variable {c : InitCalls} {s s' : InitSys}

/-- The loop takes a byte, or ends. -/
theorem InitSys.readByte_cases (s : InitSys) (src : InitStream) (next : SpawnAt) :
    ∃ f buffer spawn, s.readByte src next =
        { s with stream := Function.update s.stream src f, buffer := buffer, spawn := spawn } ∧
      ((spawn = s.spawn ∧ 0 ≤ (cbuffGet (s.stream src).info).2 ∧
          f.info = (cbuffGet (s.stream src).info).1 ∧
          buffer = s.buffer ++ [UInt8.ofNat (cbuffGet (s.stream src).info).2.toNat]) ∨
        (spawn = next ∧ buffer = s.buffer ∧ f.info = (s.stream src).info)) := by
  unfold readByte
  dsimp only
  split
  · rename_i hget
    exact ⟨_, _, _, rfl, .inl ⟨rfl, hget.2, rfl, rfl⟩⟩
  · exact ⟨_, _, _, rfl, .inr ⟨rfl, rfl, rfl⟩⟩

theorem InitSys.putByte_cases (s : InitSys) (src : InitStream) (next : SpawnAt) :
    ∃ buffer spawn printed, s.putByte src next =
        { s with buffer := buffer, spawn := spawn, printed := printed } ∧
      ((spawn = next ∧ s.buffer = [] ∧ buffer = [] ∧ printed = s.printed) ∨
        (spawn = s.spawn ∧ ∃ b, s.buffer = b :: buffer ∧ printed = s.printed ++ [(src, b)])) := by
  unfold putByte
  split
  · rename_i hempty
    exact ⟨_, _, _, rfl, .inl ⟨rfl, hempty, hempty, rfl⟩⟩
  · rename_i b rest hbuffer
    exact ⟨_, _, _, rfl, .inr ⟨rfl, b, hbuffer, rfl⟩⟩

/-- In its last loop `_spawn_init` leaves what the tasks share. -/
theorem spawnStep_loop (hrank : s.spawn.rank = 12) (hstep : s.spawnStep c = some s') :
    ∃ stream buffer spawn printed, spawn.rank = 12 ∧
      s' = { s with stream := stream, buffer := buffer, spawn := spawn, printed := printed } := by
  unfold InitSys.spawnStep at hstep
  cases hspawn : s.spawn <;> rw [hspawn] at hrank hstep <;> try cases hrank
  case zombie =>
    obtain ⟨-, hs⟩ := Option.ite_none_left_eq_some.mp hstep
    cases hs
    exact ⟨s.stream, s.buffer, .readOut, s.printed, rfl, rfl⟩
  case readOut | readErr =>
    cases hstep
    obtain ⟨f, buffer, spawn, heq, hcases⟩ := InitSys.readByte_cases s _ _
    refine ⟨_, buffer, spawn, s.printed, ?_, heq⟩
    rcases hcases with ⟨rfl, -⟩ | ⟨rfl, -⟩ <;> simp [hspawn, SpawnAt.rank]
  case putOut | putErr =>
    cases hstep
    obtain ⟨buffer, spawn, printed, heq, hcases⟩ := InitSys.putByte_cases s _ _
    refine ⟨s.stream, buffer, spawn, printed, ?_, heq⟩
    rcases hcases with ⟨rfl, -⟩ | ⟨rfl, -⟩ <;> simp [hspawn, SpawnAt.rank]

/-- What a step of `_spawn_init` does to what the tasks share. -/
theorem spawnStep_runOk (h : RunOk s.runOk s.spawn s.exec) (hstep : s.spawnStep c = some s') :
    RunOk s'.runOk s'.spawn s'.exec := by
  obtain ⟨runOk, initFile, dest, domain, files, zombie, stream, buffer, spawn, exec, printed,
    written⟩ := s
  dsimp only at h
  unfold InitSys.spawnStep at hstep
  cases h with
  | absent hp =>
      cases spawn <;> simp only [SpawnAt.rank] at hp <;> try omega
      · obtain ⟨-, hs⟩ := Option.ite_none_right_eq_some.mp hstep
        cases hs
        exact .absent (by simp [SpawnAt.rank])
      · obtain ⟨f, -, hstep⟩ := Option.bind_eq_some_iff.mp hstep
        obtain ⟨f', -, hs⟩ := Option.bind_eq_some_iff.mp hstep
        cases hs
        exact .absent (by simp [SpawnAt.rank])
      · obtain ⟨-, hs⟩ := Option.ite_none_left_eq_some.mp hstep
        cases hs
        exact .absent (by simp [SpawnAt.rank])
      · obtain ⟨-, hs⟩ := Option.ite_none_left_eq_some.mp hstep
        cases hs
        exact .entry (.inl rfl)
  | entry hp =>
      rcases hp with rfl | rfl
      · obtain ⟨-, hs⟩ := Option.ite_none_right_eq_some.mp hstep
        cases hs
        exact .entry (.inr rfl)
      · cases hstep
        exact .entry (.inr rfl)
  | once hp =>
      cases spawn <;> simp only [SpawnAt.rank] at hp <;> try omega
      · obtain ⟨-, hs⟩ := Option.ite_none_right_eq_some.mp hstep
        cases hs
        exact .once (by simp [SpawnAt.rank])
      all_goals cases hstep
      all_goals first | exact .once (by simp [SpawnAt.rank]) | exact .allowed rfl (.inl rfl)
  | allowed hp he =>
      obtain ⟨stream', buffer', spawn', printed', hrank, rfl⟩ := spawnStep_loop hp hstep
      exact .allowed hrank he

theorem execStep_runOk (h : RunOk s.runOk s.spawn s.exec) (hstep : s.execStep = some s') :
    RunOk s'.runOk s'.spawn s'.exec := by
  obtain ⟨runOk, initFile, dest, domain, files, zombie, stream, buffer, spawn, exec, printed,
    written⟩ := s
  dsimp only at h
  unfold InitSys.execStep at hstep
  cases h with
  | absent hp => cases hstep
  | entry hp =>
      cases hstep
      refine .once ?_
      rcases hp with rfl | rfl <;> simp [SpawnAt.rank]
  | once hp =>
      cases hstep
      exact .once hp
  | allowed hp he =>
      rcases he with rfl | rfl | rfl
      · cases hstep
        exact .allowed hp (.inr (.inl rfl))
      · cases hstep
        exact .allowed hp (.inr (.inr rfl))
      · cases hstep

theorem spawnStep_prepared (h : Prepared c s) (hstep : s.spawnStep c = some s') :
    Prepared c s' := by
  by_cases hloop : s.spawn.rank = 12
  · obtain ⟨stream', buffer', spawn', printed', hrank, rfl⟩ := spawnStep_loop hloop hstep
    obtain ⟨hfile, hdomain, hin, hout, herr, hdest⟩ := h
    rw [hloop] at hfile hdomain hin hout herr hdest
    exact ⟨fun _ => hfile (by decide), fun _ => hdomain (by decide), fun _ => hin (by decide),
      fun _ => hout (by decide), fun _ => herr (by decide), fun _ => hdest (by decide)⟩
  obtain ⟨runOk, initFile, dest, domain, files, zombie, stream, buffer, spawn, exec, printed,
    written⟩ := s
  obtain ⟨hfile, hdomain, hin, hout, herr, hdest⟩ := h
  unfold InitSys.spawnStep at hstep
  cases spawn
  case initFile | procByPid =>
    obtain ⟨-, hs⟩ := Option.ite_none_right_eq_some.mp hstep
    cases hs
    constructor <;> simp_all [SpawnAt.rank]
  case streams =>
    obtain ⟨f, -, hstep⟩ := Option.bind_eq_some_iff.mp hstep
    obtain ⟨f', -, hs⟩ := Option.bind_eq_some_iff.mp hstep
    cases hs
    constructor <;> simp_all [SpawnAt.rank, InitSys.withStream]
  case handles | addTask =>
    obtain ⟨-, hs⟩ := Option.ite_none_left_eq_some.mp hstep
    cases hs
    constructor <;> simp_all [SpawnAt.rank]
  case waitRun =>
    dsimp only at hstep
    split at hstep <;> cases hstep <;> constructor <;> simp_all [SpawnAt.rank]
  case zombie | readOut | putOut | readErr | putErr => exact absurd rfl hloop
  all_goals
    cases hstep
    constructor <;> simp_all [SpawnAt.rank, InitSys.openFile]

/-! ### The streams -/

/-- What a log has of a stream. -/
def ofStream (src : InitStream) (log : List (InitStream × UInt8)) : List UInt8 :=
  (log.filter fun r => r.1 = src).map Prod.snd

theorem ofStream_append (src : InitStream) (log log' : List (InitStream × UInt8)) :
    ofStream src (log ++ log') = ofStream src log ++ ofStream src log' := by
  simp [ofStream]

theorem ofStream_singleton (src src' : InitStream) (b : UInt8) :
    ofStream src [(src', b)] = if src' = src then [b] else [] := by
  by_cases h : src' = src <;> simp [ofStream, h]

/-- The stream that the buffer is of. -/
def SpawnAt.source : SpawnAt → Option InitStream
  | .readOut | .putOut => some .stdout
  | .readErr | .putErr => some .stderr
  | _ => none

/-- What has been read of a stream and not been printed. -/
def InitSys.held (s : InitSys) (src : InitStream) : List UInt8 :=
  if s.spawn.source = some src then s.buffer else []

/-- A stream, what of it has been printed, and what has been read. -/
structure StreamFlow (f : StreamFile) (printed held written : List UInt8) : Prop where
  inv : CbuffInv f.info
  flow : written = printed ++ held ++ f.info.contents

def StreamsFlow (s : InitSys) : Prop :=
  ∀ src, StreamFlow (s.stream src) (ofStream src s.printed) (s.held src) (ofStream src s.written)

/-- Nothing is printed or written before the streams are there, and the buffer is empty
outside of the two loops. -/
structure OutputInv (s : InitSys) : Prop where
  before : s.spawn.rank ≤ 1 → s.printed = [] ∧ s.written = []
  after : 1 < s.spawn.rank → StreamsFlow s
  buffer : s.spawn.source = none → s.buffer = []

/-- Only one of the streams is touched. -/
theorem StreamsFlow.update (h : StreamsFlow s) {src : InitStream} {f : StreamFile}
    (hstream : s'.stream = Function.update s.stream src f)
    (hother : ∀ src' ≠ src, ofStream src' s'.printed = ofStream src' s.printed ∧
      s'.held src' = s.held src' ∧ ofStream src' s'.written = ofStream src' s.written)
    (hsrc : StreamFlow f (ofStream src s'.printed) (s'.held src) (ofStream src s'.written)) :
    StreamsFlow s' := by
  intro src'
  by_cases hsame : src' = src
  · subst hsame
    rw [hstream, Function.update_self]
    exact hsrc
  · obtain ⟨hprinted, hheld, hwritten⟩ := hother src' hsame
    rw [hstream, Function.update_of_ne hsame, hprinted, hheld, hwritten]
    exact h src'

theorem held_of_source {src : InitStream} (hsrc : s.spawn.source = some src) :
    s.held src = s.buffer ∧ ∀ src' ≠ src, s.held src' = [] := by
  refine ⟨by rw [InitSys.held, if_pos hsrc], fun src' hne => ?_⟩
  rw [InitSys.held, hsrc, if_neg fun he => hne (Option.some.inj he).symm]

theorem readByte_source {src : InitStream} {next : SpawnAt} (hsrc : s.spawn.source = some src)
    (hnext : next.source = some src) : (s.readByte src next).spawn.source = some src := by
  obtain ⟨f, buffer, spawn, heq, hcases⟩ := s.readByte_cases src next
  rw [heq]
  rcases hcases with ⟨rfl, -⟩ | ⟨rfl, -⟩
  · exact hsrc
  · exact hnext

/-- The loop ends with the buffer empty. -/
theorem putByte_buffer {src : InitStream} {next : SpawnAt} (hsrc : s.spawn.source = some src)
    (hnone : (s.putByte src next).spawn.source = none) : (s.putByte src next).buffer = [] := by
  obtain ⟨buffer, spawn, printed, heq, hcases⟩ := s.putByte_cases src next
  rw [heq] at hnone ⊢
  rcases hcases with ⟨-, -, hempty, -⟩ | ⟨rfl, -⟩
  · exact hempty
  · rw [hsrc] at hnone
    cases hnone

theorem StreamsFlow.readByte (h : StreamsFlow s) {src : InitStream} {next : SpawnAt}
    (hsrc : s.spawn.source = some src) (hnext : next.source = some src) :
    StreamsFlow (s.readByte src next) := by
  obtain ⟨f, buffer, spawn, heq, hcases⟩ := s.readByte_cases src next
  have hspawn := readByte_source hsrc hnext
  obtain ⟨hheld, hnone⟩ := held_of_source hsrc
  obtain ⟨hheld', hnone'⟩ := held_of_source hspawn
  obtain ⟨hinv, hflow⟩ := h src
  rw [hheld] at hflow
  rw [heq] at hheld' hnone' ⊢
  refine h.update rfl (fun src' hne => ⟨rfl, (hnone' src' hne).trans (hnone src' hne).symm, rfl⟩) ?_
  rw [hheld']
  rcases hcases with ⟨-, hret, hinfo, rfl⟩ | ⟨-, rfl, hinfo⟩
  · have hsome : (s.stream src).info.count ≠ 0 := by
      intro hempty
      rw [cbuffGet_empty hinv hempty] at hret
      exact absurd hret (by simp [ENOMEM])
    obtain ⟨d, hd, hinv', -, hcont⟩ := cbuffGet_some hinv hsome
    refine ⟨hinfo ▸ hinv', ?_⟩
    rw [hinfo, hd]
    simp [hflow, hcont]
  · exact ⟨hinfo ▸ hinv, by rw [hinfo]; exact hflow⟩

theorem StreamsFlow.putByte (h : StreamsFlow s) {src : InitStream} {next : SpawnAt}
    (hsrc : s.spawn.source = some src) : StreamsFlow (s.putByte src next) := by
  obtain ⟨buffer, spawn, printed, heq, hcases⟩ := s.putByte_cases src next
  obtain ⟨hheld, hnone⟩ := held_of_source hsrc
  obtain ⟨hinv, hflow⟩ := h src
  rw [hheld] at hflow
  rw [heq]
  have hsame : s.stream = Function.update s.stream src (s.stream src) :=
    (Function.update_eq_self ..).symm
  rcases hcases with ⟨-, hempty, rfl, rfl⟩ | ⟨rfl, b, hbuffer, rfl⟩
  · have hheld' : ∀ src', InitSys.held { s with buffer := [], spawn := spawn } src' = [] :=
      fun src' => ite_self []
    refine h.update hsame (fun src' hne => ⟨rfl, (hheld' src').trans (hnone src' hne).symm, rfl⟩) ?_
    rw [hempty] at hflow
    exact ⟨hinv, by rw [hheld']; exact hflow⟩
  · obtain ⟨hheld', hnone'⟩ := held_of_source (s := { s with
      buffer := buffer, printed := s.printed ++ [(src, b)] }) hsrc
    refine h.update hsame (fun src' hne => ⟨?_, (hnone' src' hne).trans (hnone src' hne).symm, rfl⟩)
      ⟨hinv, ?_⟩
    · rw [ofStream_append, ofStream_singleton, if_neg hne.symm, List.append_nil]
    · rw [hheld', ofStream_append, ofStream_singleton, if_pos rfl, hflow, hbuffer]
      simp

theorem StreamsFlow.write (h : StreamsFlow s) (src : InitStream) (data : UInt8) :
    StreamsFlow (s.write src data) := by
  obtain ⟨hinv, hflow⟩ := h src
  refine h.update rfl (fun src' hne => ⟨rfl, rfl, ?_⟩) ?_
  · unfold InitSys.write
    dsimp only
    split
    · rw [ofStream_append, ofStream_singleton, if_neg hne.symm, List.append_nil]
    · rfl
  · by_cases hroom : (s.stream src).info.count < (s.stream src).info.size
    · obtain ⟨hret, hinv', -, hcont⟩ := cbuffPut_room hinv hroom data
      have hwritten : (s.write src data).written = s.written ++ [(src, data)] :=
        if_pos (hret ▸ Int.le_refl 0)
      refine ⟨hinv', ?_⟩
      rw [hwritten, ofStream_append, ofStream_singleton, if_pos rfl, hflow, hcont,
        List.append_assoc _ _ [data]]
      rfl
    · have hfull : (s.stream src).info.count = (s.stream src).info.size :=
        Nat.le_antisymm hinv.count_le (Nat.le_of_not_lt hroom)
      have hput := cbuffPut_full hinv hfull data
      have hwritten : (s.write src data).written = s.written :=
        if_neg (by rw [hput]; simp [ENOMEM])
      rw [hwritten, hput]
      exact ⟨hinv, hflow⟩

theorem StreamsFlow.wrote (h : StreamsFlow s) (src : InitStream) (count : Nat) :
    StreamsFlow (s.wrote src count) := by
  obtain ⟨hinv, hflow⟩ := h src
  exact h.update rfl (fun _ _ => ⟨rfl, rfl, rfl⟩) ⟨hinv, hflow⟩

theorem streamCreate_flow {f : StreamFile} (h : streamCreate initStreamLen c.junk = some f) :
    CbuffInv f.info ∧ f.info.contents = [] := by
  obtain ⟨-, hinv, hcont⟩ := streamCreate_inv (by decide) h
  exact ⟨hinv.buffer, hcont⟩

theorem spawnStep_output (h : OutputInv s) (hstep : s.spawnStep c = some s') : OutputInv s' := by
  obtain ⟨hbefore, hafter, hbuffer⟩ := h
  -- outside of the loops the streams are as they were
  have hsame : ∀ s₁ : InitSys, s.spawn.source = none → s₁.stream = s.stream →
      s₁.printed = s.printed → s₁.written = s.written → s₁.buffer = s.buffer →
      StreamsFlow s → StreamsFlow s₁ := by
    intro s₁ hnone hstream hprinted hwritten hbuff hflow src
    have hheld : s.held src = [] := by rw [InitSys.held, hbuffer hnone, ite_self]
    have hheld₁ : s₁.held src = [] := by rw [InitSys.held, hbuff, hbuffer hnone, ite_self]
    obtain ⟨hinv, hf⟩ := hflow src
    rw [hheld] at hf
    rw [hstream, hprinted, hwritten, hheld₁]
    exact ⟨hinv, hf⟩
  have hloop : s.spawn.rank = 12 → s'.spawn.rank = 12 := by
    intro hrank
    obtain ⟨stream, buffer, spawn, printed, hrank', rfl⟩ := spawnStep_loop hrank hstep
    exact hrank'
  unfold InitSys.spawnStep at hstep
  cases hspawn : s.spawn <;> rw [hspawn] at hbefore hafter hbuffer hstep hsame hloop
  case initFile =>
    obtain ⟨-, hs⟩ := Option.ite_none_right_eq_some.mp hstep
    cases hs
    exact ⟨fun _ => hbefore (by decide), fun hlt => absurd hlt (by simp [SpawnAt.rank]),
      fun _ => hbuffer rfl⟩
  case streams =>
    obtain ⟨f, hf, hstep⟩ := Option.bind_eq_some_iff.mp hstep
    obtain ⟨f', hf', hs⟩ := Option.bind_eq_some_iff.mp hstep
    cases hs
    obtain ⟨hprinted, hwritten⟩ := hbefore (by decide)
    refine ⟨fun hle => absurd hle (by simp [SpawnAt.rank]), fun _ src => ?_, fun _ => hbuffer rfl⟩
    have hheld : ∀ src, ({ (s.withStream .stdout f).withStream .stderr f' with
        spawn := SpawnAt.handles } : InitSys).held src = [] := fun src => rfl
    rw [hheld]
    dsimp only [InitSys.withStream]
    rw [hprinted, hwritten]
    cases src with
    | stdout =>
        rw [Function.update_of_ne (by decide), Function.update_self]
        obtain ⟨hinv, hcont⟩ := streamCreate_flow hf
        exact ⟨hinv, hcont.symm ▸ rfl⟩
    | stderr =>
        rw [Function.update_self]
        obtain ⟨hinv, hcont⟩ := streamCreate_flow hf'
        exact ⟨hinv, hcont.symm ▸ rfl⟩
  case handles | addTask | zombie =>
    obtain ⟨-, hs⟩ := Option.ite_none_left_eq_some.mp hstep
    cases hs
    exact ⟨fun hle => absurd hle (by simp [SpawnAt.rank]), fun _ =>
      hsame _ rfl rfl rfl rfl rfl (hafter (by decide)), fun _ => hbuffer rfl⟩
  case procByPid =>
    obtain ⟨-, hs⟩ := Option.ite_none_right_eq_some.mp hstep
    cases hs
    exact ⟨fun hle => absurd hle (by simp [SpawnAt.rank]), fun _ =>
      hsame _ rfl rfl rfl rfl rfl (hafter (by decide)), fun _ => hbuffer rfl⟩
  case waitRun =>
    dsimp only at hstep
    split at hstep
    · cases hstep
      exact ⟨fun hle => absurd hle (by simp [hspawn, SpawnAt.rank]), fun _ => hafter (by decide),
        fun _ => hbuffer rfl⟩
    · cases hstep
      exact ⟨fun hle => absurd hle (by simp [SpawnAt.rank]), fun _ =>
        hsame _ rfl rfl rfl rfl rfl (hafter (by decide)), fun _ => hbuffer rfl⟩
  case readOut | readErr =>
    cases hstep
    refine ⟨fun hle => absurd ((hloop rfl).symm.trans_le hle) (by decide), fun _ =>
      (hafter (by decide)).readByte (congrArg SpawnAt.source hspawn) rfl, fun hnone => ?_⟩
    rw [readByte_source (congrArg SpawnAt.source hspawn) rfl] at hnone
    cases hnone
  case putOut | putErr =>
    cases hstep
    exact ⟨fun hle => absurd ((hloop rfl).symm.trans_le hle) (by decide), fun _ =>
      (hafter (by decide)).putByte (congrArg SpawnAt.source hspawn),
      putByte_buffer (congrArg SpawnAt.source hspawn)⟩
  case allow | dest | stderr | stdout | stdin | domain =>
    cases hstep
    exact ⟨fun hle => absurd hle (by simp [SpawnAt.rank]), fun _ =>
      hsame _ rfl rfl rfl rfl rfl (hafter (by decide)), fun _ => hbuffer rfl⟩

/-! ### Runs -/

structure InitInv (c : InitCalls) (s : InitSys) : Prop where
  runOk : RunOk s.runOk s.spawn s.exec
  prepared : Prepared c s
  output : OutputInv s

theorem InitBoot.inv (h : InitBoot s) : InitInv c s := by
  refine ⟨?_, ?_, ?_⟩
  · rw [h.runOk, h.spawn, h.exec]
    exact .absent (by decide)
  · constructor <;> simp [h.spawn, SpawnAt.rank]
  · exact ⟨fun _ => ⟨h.printed, h.written⟩,
      fun hlt => absurd hlt (by simp [h.spawn, SpawnAt.rank]), fun _ => h.buffer⟩

/-- Once init runs, the kernel task is in its last loop. -/
theorem RunOk.rank_of_running {n : Nat} {p : SpawnAt} {e : ExecAt} (h : RunOk n p e)
    (he : e = .execve ∨ e = .running) : p.rank = 12 := by
  cases h with
  | allowed hp => exact hp
  | _ => rcases he with he | he <;> cases he

theorem execStep_keeps (hprepared : Prepared c s) (houtput : OutputInv s)
    (hstep : s.execStep = some s') : Prepared c s' ∧ OutputInv s' := by
  unfold InitSys.execStep at hstep
  split at hstep
  · cases hstep
  · cases hstep
    exact ⟨{ hprepared with }, { houtput with }⟩
  · split at hstep
    · cases hstep
      exact ⟨hprepared, houtput⟩
    · cases hstep
      exact ⟨{ hprepared with }, { houtput with }⟩
  · cases hstep
    exact ⟨{ hprepared with }, { houtput with }⟩
  · cases hstep

theorem initStep_inv {a : InitAct} (h : InitInv c s) (hstep : initStep c s a = some s') :
    InitInv c s' := by
  cases a with
  | spawn =>
      exact ⟨spawnStep_runOk h.runOk hstep, spawnStep_prepared h.prepared hstep,
        spawnStep_output h.output hstep⟩
  | exec =>
      obtain ⟨hprepared, houtput⟩ := execStep_keeps h.prepared h.output hstep
      exact ⟨execStep_runOk h.runOk hstep, hprepared, houtput⟩
  | write src data =>
      obtain ⟨hrunning, hs⟩ := Option.ite_none_right_eq_some.mp hstep
      cases hs
      have hrank : s.spawn.rank = 12 := h.runOk.rank_of_running (.inr hrunning)
      refine ⟨h.runOk, { h.prepared with }, ⟨fun hle => ?_, fun _ => ?_, h.output.buffer⟩⟩
      · exact absurd (hrank.symm.trans_le hle) (by decide)
      · exact (h.output.after (by rw [hrank]; decide)).write src data
  | wrote src count =>
      obtain ⟨hrunning, hs⟩ := Option.ite_none_right_eq_some.mp hstep
      cases hs
      exact ⟨h.runOk, { h.prepared with }, ⟨h.output.before,
        fun hlt => (h.output.after hlt).wrote src count, h.output.buffer⟩⟩
  | exit =>
      obtain ⟨-, hs⟩ := Option.ite_none_right_eq_some.mp hstep
      cases hs
      exact ⟨h.runOk, { h.prepared with }, { h.output with }⟩

theorem InitInv.ready (h : InitInv c s) (he : s.exec = .execve ∨ s.exec = .running) :
    InitReady c s := by
  have hrank := h.runOk.rank_of_running he
  obtain ⟨hfile, hdomain, hin, hout, herr, hdest⟩ := h.prepared
  rw [hrank] at hfile hdomain hin hout herr hdest
  exact ⟨hfile (by decide), hdomain (by decide), hin (by decide), hout (by decide),
    herr (by decide), hdest (by decide)⟩

/-! ### Progress -/

/-- The steps that are left until `execve`. -/
def InitSys.left (s : InitSys) : Nat :=
  12 - s.spawn.rank + match s.exec with
    | .absent => 3
    | .entry => 2
    | .waitAllowed => 1
    | .execve => 0
    | .running => 0

/-- One of the two tasks gets on, whichever waits. -/
theorem InitInv.progress (hc : c.Succeed) (h : InitInv c s)
    (he : s.exec ≠ .execve ∧ s.exec ≠ .running) :
    ∃ a s', initStep c s a = some s' ∧ s'.left < s.left ∧ s'.exec ≠ .running := by
  obtain ⟨runOk, initFile, dest, domain, files, zombie, stream, buffer, spawn, exec, printed,
    written⟩ := s
  have hr := h.runOk
  dsimp only at hr he
  cases hr with
  | absent hp =>
      cases spawn <;> simp only [SpawnAt.rank] at hp <;> try omega
      · exact ⟨.spawn, _, if_pos hc.file, by simp [InitSys.left, SpawnAt.rank], by simp⟩
      · exact ⟨.spawn, _, rfl, by simp [InitSys.left, SpawnAt.rank, InitSys.withStream],
          by simp [InitSys.withStream]⟩
      · exact ⟨.spawn, _, if_neg hc.handles, by simp [InitSys.left, SpawnAt.rank], by simp⟩
      · exact ⟨.spawn, _, if_neg (not_le.mpr hc.pid), by simp [InitSys.left, SpawnAt.rank],
          by simp⟩
  | entry hp => exact ⟨.exec, _, rfl, by simp [InitSys.left], by simp⟩
  | once hp =>
      cases spawn <;> simp only [SpawnAt.rank] at hp <;> try omega
      · exact ⟨.spawn, _, if_pos hc.proc, by simp [InitSys.left, SpawnAt.rank], by simp⟩
      all_goals exact ⟨.spawn, _, rfl, by simp [InitSys.left, SpawnAt.rank, InitSys.openFile],
        by simp [InitSys.openFile]⟩
  | allowed hp hall =>
      rcases hall with rfl | rfl | rfl
      · exact ⟨.exec, _, rfl, by simp [InitSys.left], by simp⟩
      · exact absurd rfl he.1
      · exact absurd rfl he.2

theorem InitInv.reaches_execve (hc : c.Succeed) (h : InitInv c s) (he : s.exec ≠ .running) :
    ∃ acts s', exec (initStep c) s acts = some s' ∧ s'.exec = .execve := by
  induction hn : s.left using Nat.strong_induction_on generalizing s with
  | _ n ih =>
      by_cases hexec : s.exec = .execve
      · exact ⟨[], s, rfl, hexec⟩
      · obtain ⟨a, s₁, hstep, hlt, he₁⟩ := h.progress hc ⟨hexec, he⟩
        obtain ⟨acts, s', hrun, hs'⟩ := ih _ (hn ▸ hlt) (initStep_inv h hstep) he₁ rfl
        exact ⟨a :: acts, s', exec_cons_eq_some.mpr ⟨s₁, hstep, hrun⟩, hs'⟩

end Handshake

/-- **The handshake.** Whatever the order of the steps of the two tasks, when the
new task calls `execve`, and from then on, the file, the domain, the three streams
and the way the input goes have been set; and when the calls of `_spawn_init`
succeed it never gets to a state that does not lead there. -/
theorem init_starts {c : InitCalls} {s s' : InitSys} {acts : List InitAct} (hboot : InitBoot s)
    (hrun : exec (initStep c) s acts = some s') :
    (s'.exec = .execve ∨ s'.exec = .running → InitReady c s') ∧
      (c.Succeed → s'.exec ≠ .running →
        ∃ acts' s₁, exec (initStep c) s' acts' = some s₁ ∧ s₁.exec = .execve) := by
  have hinv : InitInv c s' := exec_inv (fun _ _ _ h hs => initStep_inv h hs) hboot.inv hrun
  exact ⟨hinv.ready, fun hc he => hinv.reaches_execve hc he⟩

def bootCalls : InitCalls := ⟨7, true, 1, 2, 3, 4, 5, 6, 2, true, fun _ => 0⟩

def initRest : InitSys where
  runOk := 0
  initFile := 0
  kinputDest := 0
  domain := 0
  openFiles := fun _ => 0
  zombie := false
  stream := fun _ => ⟨⟨0, 0, 0, none⟩, 0⟩
  buffer := []
  spawn := .initFile
  exec := .absent
  printed := []
  written := []

theorem initRest_boot : InitBoot initRest := ⟨rfl, rfl, rfl, rfl, rfl, rfl⟩

/-- The new task runs late, and waits; then init writes, the last byte while the
kernel task prints the first. -/
def bootActs : List InitAct :=
  List.replicate 6 .spawn ++ [.exec, .exec] ++ List.replicate 7 .spawn ++ [.exec, .exec] ++
    [.write .stdout 104, .write .stdout 105, .wrote .stdout 2, .write .stderr 33] ++
    List.replicate 5 .spawn ++ [.write .stdout 10]

theorem init_starts_boot :
    ∃ s, exec (initStep bootCalls) initRest (bootActs.take 16) = some s ∧ s.exec = .execve ∧
      InitReady bootCalls s := by
  have hlast : (exec (initStep bootCalls) initRest (bootActs.take 16)).map InitSys.exec =
      some .execve := by decide
  obtain ⟨s, hrun, hs⟩ := Option.map_eq_some_iff.mp hlast
  exact ⟨s, hrun, hs, (init_starts initRest_boot hrun).1 (.inl hs)⟩

/-- What has been printed of a stream, what has been read for that, and what the stream
still holds, is what was written to it, in its order, in every state of every run. -/
theorem init_output_in_order {c : InitCalls} {s s' : InitSys} {acts : List InitAct}
    (hboot : InitBoot s) (hrun : exec (initStep c) s acts = some s')
    (he : s'.exec = .execve ∨ s'.exec = .running) (src : InitStream) :
    ofStream src s'.written =
      ofStream src s'.printed ++ s'.held src ++ (s'.stream src).info.contents := by
  have hinv : InitInv c s' := exec_inv (fun _ _ _ h hs => initStep_inv h hs) hboot.inv hrun
  have hrank := hinv.runOk.rank_of_running he
  exact (hinv.output.after (by rw [hrank]; decide) src).flow

theorem init_output_in_order_boot :
    ∃ s, exec (initStep bootCalls) initRest bootActs = some s ∧
      ofStream .stdout s.printed = [104] ∧ s.held .stdout = [105] ∧
      ofStream .stdout s.written = [104, 105, 10] ∧ (s.stream .stdout).info.contents = [10] := by
  have hlast : (exec (initStep bootCalls) initRest bootActs).map (fun s =>
      (s.exec, ofStream .stdout s.printed, s.held .stdout, ofStream .stdout s.written)) =
        some (.running, [104], [105], [104, 105, 10]) := by decide +kernel
  obtain ⟨s, hrun, heq⟩ := Option.map_eq_some_iff.mp hlast
  obtain ⟨hs, heq⟩ := Prod.mk.inj heq
  obtain ⟨hprinted, heq⟩ := Prod.mk.inj heq
  obtain ⟨hheld, hwritten⟩ := Prod.mk.inj heq
  have hflow := init_output_in_order initRest_boot hrun (.inr hs) .stdout
  rw [hprinted, hheld, hwritten] at hflow
  exact ⟨s, hrun, hprinted, hheld, hwritten, (List.cons.inj (List.cons.inj hflow).2).2.symm⟩

end LambdaOs
