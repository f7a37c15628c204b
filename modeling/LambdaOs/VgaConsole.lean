import Mathlib.Data.List.Basic
import Mathlib.Logic.Function.Basic
import LambdaOs.Run
import LambdaOs.Word

/-!
# The VGA console

`vga_put` of `dev/vga/print.c`: the cursor, the scrolling, and the parser of
escape sequences with its buffer. Every store to video memory and to the
buffer is listed with its index.

After a complete sequence the parser is in a state of its own (`done`), in
which a character is displayed and stored in the buffer as well. It leaves
this state at the next escape character.
-/

namespace LambdaOs

/-! ## The state -/

/-- `is_esc`: 0, 3, 1 and 2. -/
inductive EscState where
  | plain
  | intro
  | body
  | done
deriving Repr, DecidableEq

structure Vga where
  bkgc : UInt8
  forc : UInt8
  xpos : Nat
  ypos : Nat
  vidmem : Nat → UInt8
  buff : Nat → UInt8
  isEsc : EscState
  buffLoc : Nat

/-- The colours, the cursor and the buffer as they start; video memory holds
anything. -/
def Vga.init (vidmem : Nat → UInt8) : Vga := ⟨0, 7, 0, 0, vidmem, fun _ => 0, .plain, 0⟩

def xres : Nat := 80
def yres : Nat := 25

/-- A store, with its index into video memory or into `buff`. -/
inductive VgaStore where
  | video (i : Nat)
  | buff (i : Nat)
deriving Repr, DecidableEq

/-! ## The cursor -/

def scrollup (vidmem : Nat → UInt8) : Nat → UInt8 :=
  let vidmem := (List.range (xres * (yres - 1) * 2)).foldl
    (fun v i => Function.update v i (v (i + xres * 2))) vidmem
  (List.range' (xres * (yres - 1) * 2) (xres * 2)).foldl (fun v i => Function.update v i 0) vidmem

/-- The stores of `scrollup`. -/
def scrollStores : List VgaStore := (List.range (xres * yres * 2)).map .video

/-- `if(xpos >= xres)` -/
def Vga.wrapLine (s : Vga) : Vga :=
  if s.xpos ≥ xres then { s with xpos := 0, ypos := s.ypos + 1 } else s

/-- What `vga_put` does behind its `switch`. -/
def vgaWrap (s : Vga) (stores : List VgaStore) : Vga × List VgaStore :=
  let s := s.wrapLine
  if s.ypos ≥ yres then
    ({ s with ypos := yres - 1, vidmem := scrollup s.vidmem }, stores ++ scrollStores)
  else (s, stores)

/-- `'\e'` -/
def escChar : UInt8 := 27

/-- Where the cursor is in video memory. -/
def Vga.cell (s : Vga) : Nat := (s.xpos + s.ypos * xres) * 2

/-- The `switch` of `vga_put`. -/
def vgaShow (s : Vga) (c : UInt8) : Vga × List VgaStore :=
  if c = 0 then (s, [])
  else if c = 9 then vgaWrap { s with xpos := (s.xpos + 8) &&& 0xFFFFFFF7 } []
  else if c = 10 then vgaWrap { s with xpos := 0, ypos := s.ypos + 1 } []
  else if c = escChar then ({ s with isEsc := .intro, buffLoc := 0 }, [])
  else
    let vidmem := Function.update s.vidmem s.cell c
    let vidmem := Function.update vidmem (s.cell + 1) (s.bkgc <<< 4 ||| s.forc)
    vgaWrap { s with vidmem := vidmem, xpos := s.xpos + 1 }
      [.video s.cell, .video (s.cell + 1)]

/-! ## Escape sequences -/

/-- `is_ansi` -/
def isAnsi (c : UInt8) : Prop :=
  c = 65 ∨ c = 66 ∨ c = 67 ∨ c = 68 ∨ c = 115 ∨ c = 117 ∨ c = 72 ∨ c = 74 ∨ c = 75 ∨ c = 109

instance (c : UInt8) : Decidable (isAnsi c) := inferInstanceAs (Decidable (_ ∨ _))

/-- The digits at the start of a sequence, which ends with a letter. -/
def vgaGetDec (str : List UInt8) : Nat :=
  (str.takeWhile fun c => 48 ≤ c ∧ c ≤ 57).foldl (fun n c => u32 (n * 10 + (c.toNat - 48))) 0

def ansiToVga : List UInt8 := [0, 4, 2, 6, 1, 5, 3, 7, 8, 12, 10, 14, 9, 13, 11, 15]

/-- The colours after `"\e[XXm"`. -/
def mEscape (n : Nat) (s : Vga) : Vga :=
  if n = 0 ∨ n = 22 then { s with bkgc := 0, forc := 7 }
  else if n = 1 then { s with forc := s.forc ||| 8 }
  else if n = 2 ∨ n = 21 then { s with forc := s.forc &&& 0xF7 }
  else if n = 7 ∨ n = 27 then { s with forc := s.bkgc, bkgc := s.forc }
  else if n = 39 then { s with forc := 7 }
  else if n = 49 then { s with bkgc := 0 }
  else if 30 ≤ n ∧ n ≤ 37 then { s with forc := ansiToVga.getD (n - 30) 0 }
  else if 40 ≤ n ∧ n ≤ 47 then { s with bkgc := ansiToVga.getD (n - 40) 0 }
  else if 90 ≤ n ∧ n ≤ 97 then { s with forc := ansiToVga.getD (n - 90 + 8) 0 }
  else if 100 ≤ n ∧ n ≤ 107 then { s with bkgc := ansiToVga.getD (n - 100 + 8) 0 }
  else s

def ansiEscape (s : Vga) : Vga :=
  let s := { s with isEsc := .done }
  if s.buff (s.buffLoc - 1) = 109 then mEscape (vgaGetDec ((List.range s.buffLoc).map s.buff)) s
  else s

/-- `buff[buff_loc++] = c` -/
def Vga.keep (s : Vga) (c : UInt8) : Vga :=
  { s with buff := Function.update s.buff s.buffLoc c, buffLoc := s.buffLoc + 1 }

@[simp] theorem Vga.keep_buffLoc (s : Vga) (c : UInt8) :
    (s.keep c).buffLoc = s.buffLoc + 1 := rfl

def vgaPut (s : Vga) (c : UInt8) : Vga × List VgaStore :=
  match s.isEsc with
  | .plain => vgaShow s c
  | .intro =>
      if c = 91 then ({ s with isEsc := .body }, []) else vgaShow { s with isEsc := .plain } c
  | .body => (if isAnsi c then ansiEscape (s.keep c) else s.keep c, [.buff s.buffLoc])
  | .done =>
      let (s', stores) := vgaShow (s.keep c) c
      (s', .buff s.buffLoc :: stores)

def vgaStep (s : Vga) (c : UInt8) : Option Vga := some (vgaPut s c).1

/-! ## What is asked of it -/

/-- The cursor is on the screen. -/
def Vga.OnScreen (s : Vga) : Prop := s.xpos < xres ∧ s.ypos < yres

def VgaStore.InBounds : VgaStore → Prop
  | .video i => i < xres * yres * 2
  | .buff i => i < 256

/-- A character that has a place of its own on the screen. -/
def Printable (c : UInt8) : Prop := c ≠ 0 ∧ c ≠ 9 ∧ c ≠ 10 ∧ c ≠ escChar

/-- The cursor stays on the screen and every store is in bounds; behind a
complete sequence, up to the next escape character, what can be displayed is,
and nothing is put into the buffer. -/
structure VgaStepRight (s : Vga) (c : UInt8) : Prop where
  before : s.OnScreen
  after : (vgaPut s c).1.OnScreen
  stores : ∀ st ∈ (vgaPut s c).2, st.InBounds
  displayed : s.isEsc = .done → Printable c → .video s.cell ∈ (vgaPut s c).2
  unbuffered : s.isEsc = .done → c ≠ escChar → ∀ i, .buff i ∉ (vgaPut s c).2

/-- The step does not put a character into the buffer that is behind its end,
or one that is behind a complete sequence and does not start the next one. -/
def Vga.Room (s : Vga) (c : UInt8) : Prop :=
  (s.isEsc = .body ∨ s.isEsc = .done → s.buffLoc < 256) ∧ (s.isEsc = .done → c = escChar)

/-! ## The cursor and the stores -/

section Step

variable {s : Vga} {c : UInt8} {stores : List VgaStore}

theorem Vga.wrapLine_xpos (s : Vga) : s.wrapLine.xpos < xres := by
  rw [wrapLine]
  split
  · exact Nat.zero_lt_succ _
  · omega

theorem vgaWrap_onScreen (s : Vga) (stores : List VgaStore) : (vgaWrap s stores).1.OnScreen := by
  have hx := s.wrapLine_xpos
  dsimp only [vgaWrap]
  split
  · exact ⟨hx, Nat.lt_succ_self _⟩
  · rename_i hy
    exact ⟨hx, Nat.lt_of_not_ge hy⟩

theorem vgaWrap_stores {st : VgaStore} (h : st ∈ (vgaWrap s stores).2) :
    st ∈ stores ∨ st ∈ scrollStores := by
  dsimp only [vgaWrap] at h
  split at h
  · exact List.mem_append.mp h
  · exact .inl h

theorem mem_vgaWrap {st : VgaStore} (h : st ∈ stores) : st ∈ (vgaWrap s stores).2 := by
  dsimp only [vgaWrap]
  split
  · exact List.mem_append_left _ h
  · exact h

theorem mem_scrollStores {st : VgaStore} (h : st ∈ scrollStores) :
    ∃ i, st = .video i ∧ i < xres * yres * 2 := by
  obtain ⟨i, hi, rfl⟩ := List.mem_map.mp h
  exact ⟨i, rfl, List.mem_range.mp hi⟩

theorem Vga.OnScreen.cell_lt (h : s.OnScreen) : s.cell + 1 < xres * yres * 2 := by
  obtain ⟨hx, hy⟩ := h
  rw [xres] at hx
  rw [yres] at hy
  rw [cell, xres, yres]
  omega

theorem vgaShow_onScreen (h : s.OnScreen) : (vgaShow s c).1.OnScreen := by
  unfold vgaShow
  split
  · exact h
  · split
    · exact vgaWrap_onScreen _ _
    · split
      · exact vgaWrap_onScreen _ _
      · split
        · exact h
        · exact vgaWrap_onScreen _ _

/-- The `switch` stores to video memory only, and there within the screen. -/
theorem vgaShow_stores (h : s.OnScreen) {st : VgaStore} (hst : st ∈ (vgaShow s c).2) :
    ∃ i, st = .video i ∧ i < xres * yres * 2 := by
  have hcell := h.cell_lt
  unfold vgaShow at hst
  split at hst
  · cases hst
  · split at hst
    · exact (vgaWrap_stores hst).elim nofun mem_scrollStores
    · split at hst
      · exact (vgaWrap_stores hst).elim nofun mem_scrollStores
      · split at hst
        · cases hst
        · rcases vgaWrap_stores hst with hst | hst
          · simp only [List.mem_cons, List.not_mem_nil, or_false] at hst
            rcases hst with rfl | rfl
            · exact ⟨_, rfl, by omega⟩
            · exact ⟨_, rfl, hcell⟩
          · exact mem_scrollStores hst

theorem vgaShow_displays (hc : Printable c) : .video s.cell ∈ (vgaShow s c).2 := by
  obtain ⟨h₀, h₁, h₂, h₃⟩ := hc
  rw [vgaShow, if_neg h₀, if_neg h₁, if_neg h₂, if_neg h₃]
  exact mem_vgaWrap List.mem_cons_self

/-- The two states differ in their colours at most. -/
def Vga.SameText (s s' : Vga) : Prop := ∃ bkgc forc, s' = { s with bkgc := bkgc, forc := forc }

theorem Vga.SameText.ite {p : Prop} [Decidable p] {a b : Vga} (ha : s.SameText a)
    (hb : s.SameText b) : s.SameText (if p then a else b) := by
  split
  · exact ha
  · exact hb

theorem mEscape_sameText (n : Nat) (s : Vga) : s.SameText (mEscape n s) := by
  unfold mEscape
  repeat' apply Vga.SameText.ite
  all_goals exact ⟨_, _, rfl⟩

theorem ansiEscape_sameText (s : Vga) : { s with isEsc := .done }.SameText (ansiEscape s) :=
  (mEscape_sameText _ _).ite ⟨_, _, rfl⟩

theorem ansiEscape_onScreen (h : s.OnScreen) : (ansiEscape s).OnScreen := by
  obtain ⟨bkgc, forc, heq⟩ := ansiEscape_sameText s
  rw [heq]
  exact h

theorem vgaPut_onScreen (h : s.OnScreen) (c : UInt8) : (vgaPut s c).1.OnScreen := by
  have hkeep : (s.keep c).OnScreen := h
  unfold vgaPut
  cases s.isEsc with
  | plain => exact vgaShow_onScreen h
  | intro =>
      dsimp only
      split
      · exact h
      · exact vgaShow_onScreen (s := { s with isEsc := .plain }) h
  | body =>
      dsimp only
      split
      · exact ansiEscape_onScreen hkeep
      · exact hkeep
  | done => exact vgaShow_onScreen hkeep

theorem vgaPut_of_done (hs : s.isEsc = .done) :
    vgaPut s c = ((vgaShow (s.keep c) c).1, .buff s.buffLoc :: (vgaShow (s.keep c) c).2) := by
  simp only [vgaPut, hs]

theorem vgaPut_keeps (hs : s.isEsc = .body ∨ s.isEsc = .done) :
    .buff s.buffLoc ∈ (vgaPut s c).2 := by
  rcases hs with hs | hs
  · simp only [vgaPut, hs, List.mem_singleton]
  · rw [vgaPut_of_done hs]
    exact List.mem_cons_self

theorem vgaPut_stores (h : s.OnScreen) {st : VgaStore} (hst : st ∈ (vgaPut s c).2) :
    (∃ i, st = .video i ∧ i < xres * yres * 2) ∨
      st = .buff s.buffLoc ∧ (s.isEsc = .body ∨ s.isEsc = .done) := by
  cases hs : s.isEsc with
  | plain =>
      simp only [vgaPut, hs] at hst
      exact .inl (vgaShow_stores h hst)
  | intro =>
      simp only [vgaPut, hs] at hst
      split at hst
      · cases hst
      · exact .inl (vgaShow_stores (s := { s with isEsc := .plain }) h hst)
  | body =>
      simp only [vgaPut, hs, List.mem_singleton] at hst
      exact .inr ⟨hst, .inl rfl⟩
  | done =>
      rw [vgaPut_of_done hs] at hst
      rcases List.mem_cons.mp hst with rfl | hst
      · exact .inr ⟨rfl, .inr rfl⟩
      · exact .inl (vgaShow_stores (s := s.keep c) h hst)

/-- One step is right exactly when it has room. -/
theorem vgaStepRight_iff (h : s.OnScreen) (c : UInt8) : VgaStepRight s c ↔ s.Room c := by
  constructor
  · intro hright
    refine ⟨fun hs => hright.stores _ (vgaPut_keeps hs), fun hs => ?_⟩
    by_contra hc
    exact hright.unbuffered hs hc _ (vgaPut_keeps (.inr hs))
  · rintro ⟨hroom, hdone⟩
    refine ⟨h, vgaPut_onScreen h c, fun st hst => ?_, fun hs hc => ?_, fun hs hc => ?_⟩
    · rcases vgaPut_stores h hst with ⟨i, rfl, hi⟩ | ⟨rfl, hs⟩
      · exact hi
      · exact hroom hs
    · rw [vgaPut_of_done hs]
      exact List.mem_cons_of_mem _ (vgaShow_displays (s := s.keep c) hc)
    · exact absurd (hdone hs) hc

end Step

/-! ## Whole outputs -/

section Outputs

variable {vidmem : Nat → UInt8} {cs : List UInt8}

theorem vgaInit_onScreen (vidmem : Nat → UInt8) : (Vga.init vidmem).OnScreen :=
  ⟨Nat.zero_lt_succ _, Nat.zero_lt_succ _⟩

/-- A sequence that goes on is kept in the buffer. -/
theorem exec_body {s : Vga} (hs : s.isEsc = .body) (hbody : ∀ c ∈ cs, ¬ isAnsi c) :
    ∃ s', exec vgaStep s cs = some s' ∧ s'.isEsc = .body ∧ s'.buffLoc = s.buffLoc + cs.length := by
  induction cs generalizing s with
  | nil => exact ⟨s, rfl, hs, rfl⟩
  | cons c cs ih =>
      obtain ⟨hc, hrest⟩ := List.forall_mem_cons.mp hbody
      have hput : (vgaPut s c).1 = s.keep c := by
        simp only [vgaPut, hs, if_neg hc]
      obtain ⟨s', hexec, hesc, hloc⟩ := ih (s := s.keep c) hs hrest
      refine ⟨s', ?_, hesc, ?_⟩
      · rw [exec, vgaStep, hput]
        exact hexec
      · rw [hloc, Vga.keep_buffLoc, List.length_cons]
        omega

/-- The start of a sequence. -/
theorem exec_intro {s : Vga} (hs : s.isEsc = .plain) :
    exec vgaStep s [escChar, 91] = some { s with isEsc := .body, buffLoc := 0 } := by
  have hput : (vgaPut s escChar).1 = { s with isEsc := .intro, buffLoc := 0 } := by
    simp [vgaPut, hs, vgaShow, escChar]
  rw [exec, vgaStep, hput]
  rfl

theorem ansiEscape_done (s : Vga) :
    (ansiEscape s).isEsc = .done ∧ (ansiEscape s).buffLoc = s.buffLoc := by
  obtain ⟨bkgc, forc, heq⟩ := ansiEscape_sameText s
  rw [heq]
  exact ⟨rfl, rfl⟩

/-- Behind a complete sequence. -/
theorem exec_sequence {s : Vga} {t : UInt8} (hs : s.isEsc = .plain) (hbody : ∀ c ∈ cs, ¬ isAnsi c)
    (ht : isAnsi t) :
    ∃ s', exec vgaStep s ([escChar, 91] ++ cs ++ [t]) = some s' ∧ s'.isEsc = .done ∧
      s'.buffLoc = cs.length + 1 := by
  obtain ⟨s₁, hexec, hesc, hloc⟩ :=
    exec_body (s := { s with isEsc := .body, buffLoc := 0 }) rfl hbody
  have hput : (vgaPut s₁ t).1 = ansiEscape (s₁.keep t) := by
    simp only [vgaPut, hesc, if_pos ht]
  obtain ⟨hdone, hkept⟩ := ansiEscape_done (s₁.keep t)
  refine ⟨ansiEscape (s₁.keep t), ?_, hdone, ?_⟩
  · exact exec_append_eq_some.mpr ⟨s₁, exec_append_eq_some.mpr ⟨_, exec_intro hs, hexec⟩,
      congrArg some hput⟩
  · have hlen : s₁.buffLoc = cs.length := hloc.trans (Nat.zero_add _)
    rw [hkept, Vga.keep_buffLoc, hlen]

theorem vgaWrap_isEsc (s : Vga) (stores : List VgaStore) :
    (vgaWrap s stores).1.isEsc = s.isEsc := by
  have hline : s.wrapLine.isEsc = s.isEsc := by
    rw [Vga.wrapLine]
    split <;> rfl
  dsimp only [vgaWrap]
  split <;> exact hline

theorem vgaShow_isEsc {s : Vga} {c : UInt8} (hc : c ≠ escChar) :
    (vgaShow s c).1.isEsc = s.isEsc := by
  simp only [vgaShow, if_neg hc]
  split
  · rfl
  · split
    · exact vgaWrap_isEsc _ _
    · split
      · exact vgaWrap_isEsc _ _
      · exact vgaWrap_isEsc _ _

/-- Outputs without escape characters have room. -/
theorem guarded_text {s : Vga} (hs : s.isEsc = .plain) (hcs : ∀ c ∈ cs, c ≠ escChar) :
    Guarded vgaStep Vga.Room s cs := by
  induction cs generalizing s with
  | nil => trivial
  | cons c cs ih =>
      obtain ⟨hc, hrest⟩ := List.forall_mem_cons.mp hcs
      refine ⟨by simp [Vga.Room, hs], ?_⟩
      intro s' hstep
      cases hstep
      refine ih ?_ hrest
      simp only [vgaPut, hs, vgaShow_isEsc hc]

/-- Every output of characters: its steps are right exactly when each of them
has room. -/
theorem vga_right_iff (vidmem : Nat → UInt8) (cs : List UInt8) :
    Guarded vgaStep VgaStepRight (.init vidmem) cs ↔
      Guarded vgaStep Vga.Room (.init vidmem) cs := by
  have hinv : ∀ s c s', Vga.OnScreen s → s.Room c → vgaStep s c = some s' → s'.OnScreen := by
    rintro s c s' h - hstep
    cases hstep
    exact vgaPut_onScreen h c
  exact guarded_iff (fun s c h => vgaStepRight_iff h c) hinv (vgaInit_onScreen vidmem)

/-- A step that is not right spoils every output that takes it. -/
theorem not_guarded_last {t : Vga} {c : UInt8} (hrun : exec vgaStep (.init vidmem) cs = some t)
    (h : ¬ t.Room c) : ¬ Guarded vgaStep VgaStepRight (.init vidmem) (cs ++ [c]) := by
  intro hg
  have hlast := hg.last hrun
  exact h ((vgaStepRight_iff hlast.before c).mp hlast)

/-- `"\e[0m"` and an `a`, which is kept in the buffer; and a sequence of 257
digits, the last of which is stored behind the buffer. -/
theorem vga_wrong_escape :
    ¬ Guarded vgaStep VgaStepRight (.init fun _ => 0) ([27, 91, 48, 109] ++ [97]) ∧
      ¬ Guarded vgaStep VgaStepRight (.init fun _ => 0)
        ([27, 91] ++ List.replicate 256 48 ++ [48]) := by
  constructor
  · obtain ⟨s, hexec, hdone, -⟩ :=
      @exec_sequence [48] (.init fun _ => 0) 109 rfl (List.forall_mem_singleton.mpr (by decide))
        (by decide)
    refine not_guarded_last hexec fun hroom => ?_
    exact absurd (hroom.2 hdone) (by decide)
  · have hdigits : ∀ c ∈ List.replicate 256 (48 : UInt8), ¬ isAnsi c := by
      intro c hc
      rw [List.eq_of_mem_replicate hc]
      decide
    obtain ⟨s, hexec, hbody, hloc⟩ :=
      exec_body (s := { Vga.init (fun _ => 0) with isEsc := .body, buffLoc := 0 }) rfl hdigits
    refine not_guarded_last (exec_append_eq_some.mpr ⟨_, exec_intro rfl, hexec⟩) fun hroom => ?_
    have hlt := hroom.1 (.inl hbody)
    rw [hloc, List.length_replicate] at hlt
    exact absurd hlt (Nat.not_lt.mpr (Nat.le_add_left 256 _))

end Outputs

end LambdaOs
