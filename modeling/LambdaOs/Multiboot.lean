import Mathlib.Data.List.Basic
import LambdaOs.Word

/-!
# The Multiboot2 information

`boot/multiboot.c` for version 2 of the specification: the walk over the tags
and what is looked up through it. The information is a piece of memory: its
total size, a reserved word, and the tags, each with a type, its size without
padding, and its data. The last one has type 0.

`TagsAt` lays out a list of tags as the format says. The end that the walk
stops at is computed from the address of the first tag, not from that of the
information, so it lies eight bytes behind the information.
-/

namespace LambdaOs

/-! ## The walk -/

/-- `if(sz & 0x7) sz = (sz | 0x07) + 1` -/
def roundTagSize (sz : Nat) : Nat := if sz &&& 7 ≠ 0 then u32 ((sz ||| 7) + 1) else sz

/-- The loop of `multiboot_find_tag`; the answer is an address, `0` for `NULL`. -/
def findTagLoop (m : Nat → UInt8) (stop type idx : Nat) : Nat → Nat → Nat → Option Nat
  | 0, _, _ => none
  | fuel + 1, tag, i =>
      let next := u32 (tag + roundTagSize (wordIn m (tag + 4)))
      if tag < stop then
        if wordIn m tag = type then
          if i = idx then some tag else findTagLoop m stop type idx fuel next (u32 (i + 1))
        else if wordIn m tag = 0 then some 0
        else findTagLoop m stop type idx fuel next i
      else some 0

def multibootFindTag (fuel : Nat) (m : Nat → UInt8) (head type idx : Nat) : Option Nat :=
  findTagLoop m (u32 (head + 8 + wordIn m head)) type idx fuel (head + 8) 0

/-- `MBOOT_TAGTYPE_MODULE` -/
def tagtypeModule : Nat := 3

/-- `MBOOT_TAGTYPE_BASIC_MEMINFO` -/
def tagtypeBasicMeminfo : Nat := 4

/-- `while(mod)`, with the next index and the bounds so far. -/
def locateModulesLoop (fuel : Nat) (m : Nat → UInt8) (head : Nat) :
    Nat → Nat → Nat → Nat → Option (Nat × Nat)
  | 0, _, _, _ => none
  | rounds + 1, idx, start, stop => do
      let mod ← multibootFindTag fuel m head tagtypeModule idx
      if mod = 0 then return (start, stop)
      else
        let start := if wordIn m (mod + 8) < start then wordIn m (mod + 8) else start
        let stop := if wordIn m (mod + 12) > stop then wordIn m (mod + 12) else stop
        locateModulesLoop fuel m head rounds (u32 (idx + 1)) start stop

def multibootLocateModules (fuel : Nat) (m : Nat → UInt8) (head : Nat) : Option (Nat × Nat) :=
  locateModulesLoop fuel m head fuel 0 4294967295 0

/-- In bytes. -/
def multibootGetUpperMemory (fuel : Nat) (m : Nat → UInt8) (head : Nat) : Option Nat := do
  let mem ← multibootFindTag fuel m head tagtypeBasicMeminfo 0
  if mem = 0 then return 0 else return u32 (wordIn m (mem + 12) * 1024)

/-! ## The format -/

/-- A tag other than the last one. A module has its bounds at the start of its
data, the sizes of memory are both there. -/
structure MbootTag where
  type : Nat
  data : List UInt8
  type_ne : type ≠ 0
  bounds : type = tagtypeModule ∨ type = tagtypeBasicMeminfo → 8 ≤ data.length

namespace MbootTag

def size (t : MbootTag) : Nat := 8 + t.data.length

/-- The size with the padding that aligns the next tag. -/
def padded (t : MbootTag) : Nat := (t.size + 7) / 8 * 8

end MbootTag

/-- The word that the data have at an offset. -/
def dataWord (data : List UInt8) (off : Nat) : Nat := wordIn (fun i => data.getD i 0) off

/-- The tags lie at `a`, one behind the other, and the last tag behind them. -/
def TagsAt (m : Nat → UInt8) : Nat → List MbootTag → Prop
  | a, [] => wordIn m a = 0 ∧ wordIn m (a + 4) = 8
  | a, t :: tags =>
      wordIn m a = t.type ∧ wordIn m (a + 4) = t.size ∧
        (∀ i, (h : i < t.data.length) → m (a + 8 + i) = t.data[i]) ∧ TagsAt m (a + t.padded) tags

/-- What the tags take, the last one included. -/
def tagsSize (tags : List MbootTag) : Nat := (tags.map MbootTag.padded).sum + 8

/-- The Multiboot information at `head`, within the 32-bit address space. -/
structure MbootInfo (m : Nat → UInt8) (head total : Nat) (tags : List MbootTag) : Prop where
  size : wordIn m head = total
  laid : TagsAt m (head + 8) tags
  covers : 8 + tagsSize tags ≤ total
  fits : head + total ≤ 4294967296

/-- The tags with their addresses. -/
def placed : Nat → List MbootTag → List (Nat × MbootTag)
  | _, [] => []
  | a, t :: tags => (a, t) :: placed (a + t.padded) tags

def placedOf (type a : Nat) (tags : List MbootTag) : List (Nat × MbootTag) :=
  (placed a tags).filter fun p => p.2.type = type

/-- The address of the `idx`-th tag of a type, `0` when there are fewer. -/
def nthTag (type idx a : Nat) (tags : List MbootTag) : Nat :=
  (((placedOf type a tags)[idx]?).map Prod.fst).getD 0

def modulesOf (tags : List MbootTag) : List MbootTag := tags.filter fun t => t.type = tagtypeModule

def minStart (mods : List MbootTag) : Nat :=
  (mods.map fun t => dataWord t.data 0).foldr min 4294967295

def maxEnd (mods : List MbootTag) : Nat := (mods.map fun t => dataWord t.data 4).foldr max 0

/-- The walks return, with the tag asked for and with the bounds of all
modules. -/
def MultibootRight (m : Nat → UInt8) (head : Nat) (tags : List MbootTag) : Prop :=
  ∀ fuel, tags.length < fuel →
    (∀ type idx, type ≠ 0 → idx < 4294967296 →
      multibootFindTag fuel m head type idx = some (nthTag type idx (head + 8) tags)) ∧
    multibootLocateModules fuel m head =
      some (minStart (modulesOf tags), maxEnd (modulesOf tags))

/-! ## Sizes -/

theorem or_seven (n : Nat) : n ||| 7 = n / 8 * 8 + 7 := by
  have hlow : ∀ r < 2 ^ 3, r ||| 7 = 7 := by decide
  calc n ||| 7 = (2 ^ 3 * (n / 2 ^ 3) + n % 2 ^ 3) ||| 7 := by rw [Nat.div_add_mod]
    _ = (2 ^ 3 * (n / 2 ^ 3) ||| n % 2 ^ 3) ||| 7 := by
        rw [Nat.two_pow_add_eq_or_of_lt (Nat.mod_lt n (by decide))]
    _ = 2 ^ 3 * (n / 2 ^ 3) ||| 7 := by rw [Nat.or_assoc, hlow _ (Nat.mod_lt n (by decide))]
    _ = n / 8 * 8 + 7 := by
        rw [← Nat.two_pow_add_eq_or_of_lt (by decide), Nat.mul_comm]
        rfl

theorem roundTagSize_eq {t : MbootTag} (h : t.padded < 4294967296) :
    roundTagSize t.size = t.padded := by
  rw [MbootTag.padded] at h ⊢
  rw [roundTagSize, show (7 : Nat) = 2 ^ 3 - 1 from rfl, Nat.and_two_pow_sub_one_eq_mod]
  split
  · rw [show (2 ^ 3 - 1 : Nat) = 7 from rfl, or_seven, u32_of_lt (by omega)]
    omega
  · omega

theorem MbootTag.padded_pos (t : MbootTag) : 8 ≤ t.padded := by
  rw [padded, size]
  omega

theorem tagsSize_cons (t : MbootTag) (tags : List MbootTag) :
    tagsSize (t :: tags) = t.padded + tagsSize tags := by
  rw [tagsSize, tagsSize, List.map_cons, List.sum_cons, Nat.add_assoc]

theorem tagsSize_ge (tags : List MbootTag) : 8 ≤ tagsSize tags := Nat.le_add_left _ _

/-! ## One lookup -/

section Walk

variable {m : Nat → UInt8} {stop type idx fuel a i : Nat} {tags : List MbootTag}

theorem placedOf_cons (type a : Nat) (t : MbootTag) (tags : List MbootTag) :
    placedOf type a (t :: tags) =
      if t.type = type then (a, t) :: placedOf type (a + t.padded) tags
      else placedOf type (a + t.padded) tags := by
  by_cases h : t.type = type <;> simp [placedOf, placed, h]

/-- From a tag on, with `i` of the type behind it. -/
theorem findTagLoop_eq (h : TagsAt m a tags) (hstop : a + tagsSize tags ≤ stop)
    (hlt : stop < 4294967296) (htype : type ≠ 0) (hidx : idx < 4294967296) (hi : i ≤ idx)
    (hfuel : tags.length < fuel) :
    findTagLoop m stop type idx fuel a i = some (nthTag type (idx - i) a tags) := by
  induction tags generalizing a i fuel with
  | nil =>
      obtain ⟨fuel, rfl⟩ := Nat.exists_eq_succ_of_ne_zero (Nat.ne_of_gt hfuel)
      have := tagsSize_ge []
      rw [findTagLoop, if_pos (by omega), if_neg (h.1.symm ▸ htype.symm), if_pos h.1]
      rfl
  | cons t tags ih =>
      obtain ⟨fuel, rfl⟩ := Nat.exists_eq_succ_of_ne_zero (Nat.ne_of_gt (Nat.zero_lt_of_lt hfuel))
      obtain ⟨hty, hsize, -, hrest⟩ := h
      rw [tagsSize_cons] at hstop
      have hpad := t.padded_pos
      have hge := tagsSize_ge tags
      have hnext : u32 (a + roundTagSize (wordIn m (a + 4))) = a + t.padded := by
        rw [hsize, roundTagSize_eq (by omega), u32_of_lt (by omega)]
      have hfuel' : tags.length < fuel := by simpa using hfuel
      rw [findTagLoop, if_pos (by omega), hnext, hty, nthTag, placedOf_cons]
      by_cases htt : t.type = type
      · rw [if_pos htt, if_pos htt]
        by_cases hii : i = idx
        · simp [hii]
        · rw [if_neg hii, u32_of_lt (by omega), ih hrest (by omega) (by omega) hfuel', nthTag,
            show idx - i = idx - (i + 1) + 1 by omega, List.getElem?_cons_succ]
      · rw [if_neg htt, if_neg t.type_ne, if_neg htt, ih hrest (by omega) hi hfuel', nthTag]

/-! ## All modules -/

theorem placedOf_snd (type a : Nat) (tags : List MbootTag) :
    (placedOf type a tags).map Prod.snd = tags.filter fun t => t.type = type := by
  induction tags generalizing a with
  | nil => rfl
  | cons t tags ih =>
      rw [placedOf_cons, List.filter_cons]
      by_cases h : t.type = type <;> simp [h, ih]

theorem length_le_tagsSize (tags : List MbootTag) : 8 * tags.length ≤ tagsSize tags := by
  induction tags with
  | nil => exact Nat.zero_le _
  | cons t tags ih =>
      have := t.padded_pos
      rw [tagsSize_cons, List.length_cons]
      omega

/-- The data of a tag are where it is placed. -/
theorem TagsAt.word_eq (h : TagsAt m a tags) {p : Nat × MbootTag} (hp : p ∈ placed a tags)
    {off : Nat} (hoff : off + 4 ≤ p.2.data.length) :
    a ≤ p.1 ∧ wordIn m (p.1 + 8 + off) = dataWord p.2.data off := by
  induction tags generalizing a with
  | nil => cases hp
  | cons t tags ih =>
      obtain ⟨-, -, hdata, hrest⟩ := h
      rcases List.mem_cons.mp hp with rfl | hp
      · refine ⟨Nat.le_refl _, ?_⟩
        have hbyte (j : Nat) (hj : j < 4) : m (a + 8 + off + j) = t.data.getD (off + j) 0 := by
          have hlt : off + j < t.data.length := by
            dsimp only at hoff
            omega
          rw [Nat.add_assoc (a + 8), hdata _ hlt, List.getD_eq_getElem _ _ hlt]
        have h₀ : m (a + 8 + off) = t.data.getD off 0 := hbyte 0 (by decide)
        simp only [dataWord, wordIn, h₀, hbyte 1 (by decide), hbyte 2 (by decide),
          hbyte 3 (by decide)]
      · obtain ⟨hle, hword⟩ := ih hrest hp
        exact ⟨by omega, hword⟩

theorem minStart_le (mods : List MbootTag) : minStart mods ≤ 4294967295 := by
  induction mods with
  | nil => exact Nat.le_refl _
  | cons t mods ih => exact (Nat.min_le_right _ _).trans ih

/-- From an index on, with the bounds of the modules before it. -/
theorem locateModulesLoop_eq {head rounds idx start stop : Nat} {mods : List (Nat × MbootTag)}
    (hfind : ∀ idx < 4294967296, multibootFindTag fuel m head tagtypeModule idx =
      some (((mods[idx]?).map Prod.fst).getD 0))
    (hmod : ∀ p ∈ mods, p.1 ≠ 0 ∧ wordIn m (p.1 + 8) = dataWord p.2.data 0 ∧
      wordIn m (p.1 + 12) = dataWord p.2.data 4)
    (hlen : mods.length < 4294967296) (hidx : idx ≤ mods.length)
    (hrounds : mods.length < idx + rounds) (hstart : start ≤ 4294967295) :
    locateModulesLoop fuel m head rounds idx start stop =
      some (min start (minStart ((mods.drop idx).map Prod.snd)),
        max stop (maxEnd ((mods.drop idx).map Prod.snd))) := by
  induction rounds generalizing idx start stop with
  | zero => omega
  | succ rounds ih =>
      rw [locateModulesLoop, hfind idx (by omega)]
      rcases Nat.lt_or_eq_of_le hidx with hlt | rfl
      · obtain ⟨hne, h₁, h₂⟩ := hmod mods[idx] (List.getElem_mem hlt)
        have hmin : (if wordIn m (mods[idx].1 + 8) < start then wordIn m (mods[idx].1 + 8)
            else start) = min start (dataWord mods[idx].2.data 0) := by
          rw [h₁]
          split <;> omega
        have hmax : (if wordIn m (mods[idx].1 + 12) > stop then wordIn m (mods[idx].1 + 12)
            else stop) = max stop (dataWord mods[idx].2.data 4) := by
          rw [h₂]
          split <;> omega
        rw [List.getElem?_eq_getElem hlt, List.drop_eq_getElem_cons hlt]
        simp only [Option.map_some, Option.getD_some, Option.bind_eq_bind, Option.bind_some,
          if_neg hne, hmin, hmax, u32_of_lt (show idx + 1 < 4294967296 by omega)]
        rw [ih (by omega) (by omega) (by omega), Nat.min_assoc, Nat.max_assoc]
        rfl
      · simp [minStart, maxEnd, hstart]

end Walk

/-! ## The information as a whole -/

section Info

variable {m : Nat → UInt8} {head total fuel : Nat} {tags : List MbootTag}

theorem MbootInfo.find_eq (h : MbootInfo m head total tags) (hend : head + 8 + total < 4294967296)
    (hfuel : tags.length < fuel) {type idx : Nat} (htype : type ≠ 0) (hidx : idx < 4294967296) :
    multibootFindTag fuel m head type idx = some (nthTag type idx (head + 8) tags) := by
  have hcovers := h.covers
  rw [multibootFindTag, h.size, u32_of_lt hend, findTagLoop_eq h.laid (by omega) hend htype hidx
    (Nat.zero_le _) hfuel, Nat.sub_zero]

theorem MbootInfo.locate_eq (h : MbootInfo m head total tags)
    (hend : head + 8 + total < 4294967296) (hfuel : tags.length < fuel) :
    multibootLocateModules fuel m head =
      some (minStart (modulesOf tags), maxEnd (modulesOf tags)) := by
  have hcovers := h.covers
  have hlen := length_le_tagsSize tags
  have hmods : (placedOf tagtypeModule (head + 8) tags).length ≤ tags.length := by
    have := congrArg List.length (placedOf_snd tagtypeModule (head + 8) tags)
    rw [List.length_map] at this
    exact this.trans_le (List.length_filter_le _ _)
  have hmod : ∀ p ∈ placedOf tagtypeModule (head + 8) tags, p.1 ≠ 0 ∧
      wordIn m (p.1 + 8) = dataWord p.2.data 0 ∧ wordIn m (p.1 + 12) = dataWord p.2.data 4 := by
    intro p hp
    obtain ⟨hp, htype⟩ := List.mem_filter.mp hp
    have hbounds := p.2.bounds (.inl (of_decide_eq_true htype))
    obtain ⟨hle, h₀⟩ := h.laid.word_eq hp (show 0 + 4 ≤ p.2.data.length by omega)
    exact ⟨by omega, h₀, (h.laid.word_eq hp hbounds).2⟩
  have hloop := @locateModulesLoop_eq m fuel head fuel 0 4294967295 0 _
    (fun idx hidx => h.find_eq hend hfuel (by decide) hidx) hmod (by omega) (Nat.zero_le _)
    (by omega) (Nat.le_refl _)
  rw [List.drop_zero, placedOf_snd] at hloop
  rw [multibootLocateModules, hloop, Nat.min_eq_right (minStart_le _), Nat.zero_max]
  rfl

/-- The end that is computed has wrapped: nothing is found. -/
theorem MbootInfo.find_wrapped (h : MbootInfo m head total tags)
    (hend : 4294967296 ≤ head + 8 + total) (type idx : Nat) :
    multibootFindTag (fuel + 1) m head type idx = some 0 := by
  have hcovers := h.covers
  have hfits := h.fits
  have hge := tagsSize_ge tags
  rw [multibootFindTag, h.size, findTagLoop, if_neg]
  rw [u32]
  omega

/-- **The lookups are right** for every list of tags, where the end of the walk,
eight bytes behind the information, is an address. -/
theorem multiboot_right (h : MbootInfo m head total tags)
    (hend : head + 8 + total < 4294967296) : MultibootRight m head tags := by
  intro fuel hfuel
  refine ⟨fun type idx htype hidx => ?_, ?_⟩
  · exact h.find_eq hend hfuel htype hidx
  · exact h.locate_eq hend hfuel

/-- Behind that nothing is found: the end has wrapped. -/
theorem MbootInfo.room_of_right {t : MbootTag} (h : MbootInfo m head total (t :: tags))
    (hright : MultibootRight m head (t :: tags)) : head + 8 + total < 4294967296 := by
  by_contra hend
  have hfind := (hright _ (Nat.lt_succ_self _)).1 t.type 0 t.type_ne (by decide)
  rw [h.find_wrapped (Nat.not_lt.mp hend), nthTag, placedOf_cons, if_pos rfl] at hfind
  cases hfind

end Info

/-- A module from 2 MiB on, of one page and with an empty name. -/
def moduleData : List UInt8 := [0, 0, 32, 0, 0, 16, 32, 0, 0]

theorem tagtypeModule_ne : tagtypeModule ≠ 0 := by decide

theorem moduleData_bounds : tagtypeModule = tagtypeModule ∨ tagtypeModule = tagtypeBasicMeminfo →
    8 ≤ moduleData.length := fun _ => by decide

def moduleTag : MbootTag := ⟨tagtypeModule, moduleData, tagtypeModule_ne, moduleData_bounds⟩

/-- The information with this one tag, at an address. -/
def moduleInfo (head a : Nat) : UInt8 :=
  ([40, 0, 0, 0, 0, 0, 0, 0, 3, 0, 0, 0, 17, 0, 0, 0] ++ moduleData ++ [0, 0, 0, 0, 0, 0, 0] ++
    [0, 0, 0, 0, 8, 0, 0, 0]).getD (a - head) 0

theorem moduleInfo_low : MbootInfo (moduleInfo 4096) 4096 40 [moduleTag] :=
  ⟨by decide, ⟨by decide, by decide, by decide, by decide, by decide⟩, by decide, by decide⟩

/-- The module is found. -/
theorem multiboot_right_module : MultibootRight (moduleInfo 4096) 4096 [moduleTag] :=
  multiboot_right moduleInfo_low (by decide)

end LambdaOs
