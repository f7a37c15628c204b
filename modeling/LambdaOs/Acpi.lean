import Mathlib.Algebra.BigOperators.Group.List.Basic
import Mathlib.Data.UInt
import LambdaOs.Lz77
import LambdaOs.Multiboot
import LambdaOs.Records
import LambdaOs.StrCompare

/-!
# The description tables of the firmware

`acpi/acpi.c`: the root pointer is a tag of the Multiboot information, points at
the root table, and that one at the system description tables. Each table has
its signature, its length and a checksum that makes the sum of its bytes zero.

`Sdt` is a table as the firmware lays it out. A lookup finds the first table
with a signature whose bytes are all as they were laid out, since a sum that is
zero is not zero once a byte is another (`acpi_find_sdt_first`). The checksum of
the root pointer is looked at before anything is printed, and no lookup asks
for it.

What is printed and which pages are mapped is left out.
-/

namespace LambdaOs

/-! ## `acpi.c` -/

/-- The loops over `chksum`. -/
def byteSum (bytes : List UInt8) : UInt8 := bytes.foldl (· + ·) 0

/-- `MBOOT_TAGTYPE_ACPI_OLD` -/
def tagtypeAcpiOld : Nat := 14

/-- `MBOOT_TAGTYPE_ACPI_NEW` -/
def tagtypeAcpiNew : Nat := 15

/-- The address of the root pointer, `0` for `NULL`. -/
def locateRsdp (fuel : Nat) (m : Nat → UInt8) (head : Nat) : Option Nat := do
  let tag ← multibootFindTag fuel m head tagtypeAcpiNew 0
  if tag ≠ 0 then return tag + 8
  else
    let tag ← multibootFindTag fuel m head tagtypeAcpiOld 0
    if tag ≠ 0 then return tag + 8 else return 0

/-- The first 20 bytes, and from revision 1 on the 16 after them. -/
def rsdpChecksum (m : Nat → UInt8) (rsdp : Nat) : Bool :=
  if byteSum (readAt m rsdp 20) ≠ 0 then false
  else if m (rsdp + 15) = 0 then true
  else byteSum (readAt m (rsdp + 20) 16) = 0

def sdtChecksum (m : Nat → UInt8) (sdt : Nat) : Bool :=
  byteSum (readAt m sdt (wordIn m (sdt + 4))) = 0

/-- `_rsdp`, and whether the tables are listed. -/
structure AcpiState where
  rsdp : Nat
  listed : Bool
deriving DecidableEq

def acpiInit (fuel : Nat) (m : Nat → UInt8) (head : Nat) : Option AcpiState := do
  let rsdp ← locateRsdp fuel m head
  if rsdp = 0 then return ⟨0, false⟩
  else if rsdpChecksum m rsdp = false then return ⟨rsdp, false⟩
  else return ⟨rsdp, wordIn m (rsdp + 16) ≠ 0⟩

/-- `(rsdt->head.length - sizeof(acpi_sdt_head_t)) / 4` -/
def rsdtCount (m : Nat → UInt8) (rsdt : Nat) : Nat :=
  u32 (wordIn m (rsdt + 4) + 4294967296 - 36) / 4

/-- `rsdt->entries[i]` -/
def rsdtEntry (m : Nat → UInt8) (rsdt i : Nat) : Nat := wordIn m (rsdt + 36 + 4 * i)

/-- `strncmp` looks at the signature asked for with its terminator. -/
def hasSignature (m : Nat → UInt8) (sdt : Nat) (signature : CString) : Bool :=
  KernelString.strncmp (readAt m sdt (signature.length + 1)) (signature.mem [])
    signature.length = some 0

/-- The loop of `acpi_find_sdt`, with the number of entries to go. -/
def findSdtLoop (m : Nat → UInt8) (rsdt : Nat) (signature : CString) : Nat → Nat → Nat
  | 0, _ => 0
  | n + 1, i =>
      let sdt := rsdtEntry m rsdt i
      if sdtChecksum m sdt = false then findSdtLoop m rsdt signature n (i + 1)
      else if hasSignature m sdt signature then sdt
      else findSdtLoop m rsdt signature n (i + 1)

/-- The address of the table, `0` for `NULL`. -/
def acpiFindSdt (m : Nat → UInt8) (rsdp : Nat) (signature : CString) : Nat :=
  if rsdp = 0 then 0
  else
    let rsdt := wordIn m (rsdp + 16)
    findSdtLoop m rsdt signature (rsdtCount m rsdt) 0

/-- `"APIC"`, the multiple APIC description table. -/
def apicSignature : CString := CString.ofBytes [65, 80, 73, 67]

/-! ## The format -/

/-- A table without its checksum. -/
structure Sdt where
  signature : List UInt8
  revision : UInt8
  /-- The OEM and creator fields. -/
  ids : List UInt8
  body : List UInt8
  signature_length : signature.length = 4
  ids_length : ids.length = 26
  length_lt : 36 + body.length < 4294967296

namespace Sdt

def length (t : Sdt) : Nat := 36 + t.body.length

/-- The bytes in front of the checksum and behind it. -/
def front (t : Sdt) : List UInt8 := t.signature ++ (leBytes 4 t.length ++ [t.revision])

def back (t : Sdt) : List UInt8 := t.ids ++ t.body

def checksum (t : Sdt) : UInt8 := -(byteSum t.front + byteSum t.back)

def encode (t : Sdt) : List UInt8 := t.front ++ t.checksum :: t.back

end Sdt

/-- A table in memory, with a byte that is not what the firmware laid out. -/
structure SdtSlot where
  addr : Nat
  table : Sdt
  damage : Option (Nat × UInt8)

namespace SdtSlot

def bytes (s : SdtSlot) : List UInt8 :=
  match s.damage with
  | none => s.table.encode
  | some (i, b) => s.table.encode.set i b

/-- The byte is one of the table, is not of its length, and is another. -/
def Plain (s : SdtSlot) : Prop :=
  ∀ i b, s.damage = some (i, b) →
    i < s.table.length ∧ (i < 4 ∨ 8 ≤ i) ∧ s.table.encode[i]? ≠ some b

/-- An address is a word. -/
structure At (m : Nat → UInt8) (s : SdtSlot) : Prop where
  plain : s.Plain
  holds : HoldsAt m s.addr s.bytes
  addr_lt : s.addr < 4294967296

end SdtSlot

/-- The root table at `rsdt` lists the slots. -/
structure RootTable (m : Nat → UInt8) (rsdt : Nat) (slots : List SdtSlot) : Prop where
  length : wordIn m (rsdt + 4) = 36 + 4 * slots.length
  entries : HoldsAt m (rsdt + 36) (slots.flatMap fun s => leBytes 4 s.addr)
  at_addr : ∀ s ∈ slots, s.At m

/-- The tag of the root pointer that is taken. -/
def rsdpTag (tags : List MbootTag) : Option MbootTag :=
  (tags.find? fun t => t.type = tagtypeAcpiNew) <|> tags.find? fun t => t.type = tagtypeAcpiOld

/-! ## Sums -/

theorem byteSum_eq_sum (bytes : List UInt8) : byteSum bytes = bytes.sum := by
  rw [byteSum, List.sum_eq_foldl]

theorem byteSum_append (xs ys : List UInt8) : byteSum (xs ++ ys) = byteSum xs + byteSum ys := by
  rw [byteSum_eq_sum, byteSum_eq_sum, byteSum_eq_sum, List.sum_append]

theorem Sdt.byteSum_encode (t : Sdt) : byteSum t.encode = 0 := by
  rw [encode, byteSum_append, byteSum_eq_sum (t.checksum :: t.back), List.sum_cons,
    ← byteSum_eq_sum, checksum, add_left_comm, neg_add_cancel]

/-- The sum is another when one byte is. -/
theorem byteSum_set_ne {bytes : List UInt8} {i : Nat} {b : UInt8} (hi : i < bytes.length)
    (hb : bytes[i]? ≠ some b) : byteSum (bytes.set i b) ≠ byteSum bytes := by
  rw [byteSum_eq_sum, byteSum_eq_sum, List.sum_set', dif_pos hi]
  intro h
  have hzero : -bytes[i] + b = 0 := by
    exact add_left_cancel (h.trans (add_zero _).symm)
  refine hb ?_
  rw [List.getElem?_eq_getElem hi, eq_of_neg_add_eq_zero hzero]

/-! ## One table -/

section Table

variable {m : Nat → UInt8} {a : Nat} {t : Sdt} {s : SdtSlot}

theorem readAt_eq {bs : List UInt8} (h : HoldsAt m a bs) : readAt m a bs.length = bs := by
  refine List.ext_getElem? fun i => ?_
  rcases Nat.lt_or_ge i bs.length with hi | hi
  · rw [readAt, List.getElem?_map, List.getElem?_range hi, h.getElem? hi]
    rfl
  · rw [List.getElem?_eq_none hi, List.getElem?_eq_none (by simpa using hi)]

theorem wordIn_lt (m : Nat → UInt8) (a : Nat) : wordIn m a < 4294967296 := by
  have h₀ := (m a).toNat_lt
  have h₁ := (m (a + 1)).toNat_lt
  have h₂ := (m (a + 2)).toNat_lt
  have h₃ := (m (a + 3)).toNat_lt
  rw [wordIn]
  omega

theorem wordIn_of_holdsAt {n : Nat} (hn : n < 4294967296) (h : HoldsAt m a (leBytes 4 n)) :
    wordIn m a = n := by
  have hval : ofLeBytes (leBytes 4 n) = n := ofLeBytes_leBytes hn
  obtain ⟨h₀, h₁, h₂, h₃, -⟩ := h
  rw [Nat.add_assoc] at h₂
  rw [Nat.add_assoc, Nat.add_assoc] at h₃
  rw [wordIn, h₀, h₁, h₂, h₃]
  simp only [leBytes, ofLeBytes] at hval
  omega

theorem Sdt.encode_length (t : Sdt) : t.encode.length = t.length := by
  simp only [encode, front, back, List.length_append, List.length_cons, List.length_nil,
    leBytes_length, t.signature_length, t.ids_length, length]
  omega

theorem Sdt.encode_eq (t : Sdt) : ∃ tail, t.encode = t.signature ++ (leBytes 4 t.length ++ tail) :=
  ⟨[t.revision] ++ t.checksum :: t.back, by simp [encode, front]⟩

/-- A byte outside of the four of the length leaves it as it is. -/
theorem SdtSlot.Plain.bytes_eq (h : s.Plain) {k : Nat} (hk : 4 ≤ k) (hk' : k < 8) :
    s.bytes[k]? = s.table.encode[k]? := by
  rw [bytes]
  split
  · rfl
  · rename_i i b hd
    obtain ⟨-, hi, -⟩ := h i b hd
    exact List.getElem?_set_ne (by omega)

theorem SdtSlot.bytes_length (s : SdtSlot) : s.bytes.length = s.table.length := by
  rw [bytes]
  split
  · exact s.table.encode_length
  · rw [List.length_set, s.table.encode_length]

theorem SdtSlot.At.length_eq (h : s.At m) : wordIn m (s.addr + 4) = s.table.length := by
  refine wordIn_of_holdsAt s.table.length_lt (holdsAt_of_getElem? fun i hi => ?_)
  obtain ⟨tail, htail⟩ := s.table.encode_eq
  have hlen : (leBytes 4 s.table.length).length = 4 := leBytes_length 4 _
  rw [hlen] at hi
  have hfield : s.table.encode[4 + i]? = (leBytes 4 s.table.length)[i]? := by
    rw [htail, List.getElem?_append_right (by rw [s.table.signature_length]; omega),
      s.table.signature_length, Nat.add_sub_cancel_left, List.getElem?_append_left (by omega)]
  have hlong : 4 + i < s.bytes.length := by
    rw [s.bytes_length, Sdt.length]
    omega
  rw [← hfield, ← h.plain.bytes_eq (by omega) (by omega), h.holds.getElem? hlong, Nat.add_assoc]

/-- The sum tells whether a byte is another. -/
theorem SdtSlot.At.checksum_iff (h : s.At m) : sdtChecksum m s.addr = true ↔ s.damage = none := by
  have hread : readAt m s.addr (wordIn m (s.addr + 4)) = s.bytes := by
    rw [h.length_eq, ← s.bytes_length, readAt_eq h.holds]
  rw [sdtChecksum, hread, decide_eq_true_iff, bytes]
  cases hd : s.damage with
  | none => exact iff_of_true s.table.byteSum_encode rfl
  | some d =>
      obtain ⟨hlt, -, hne⟩ := h.plain d.1 d.2 hd
      rw [← s.table.encode_length] at hlt
      refine iff_of_false (fun hsum => byteSum_set_ne hlt hne ?_) (Option.some_ne_none d)
      exact hsum.trans s.table.byteSum_encode.symm

theorem SdtSlot.At.body (h : s.At m) (hs : s.damage = none) :
    HoldsAt m (s.addr + 36) s.table.body := by
  have hfront : (s.table.front ++ s.table.checksum :: s.table.ids).length = 36 := by
    simp [Sdt.front, s.table.signature_length, s.table.ids_length]
  have hsplit : s.table.encode =
      s.table.front ++ s.table.checksum :: s.table.ids ++ s.table.body := by
    simp [Sdt.encode, Sdt.back]
  have hholds := h.holds
  rw [bytes, hs, hsplit, holdsAt_append, hfront] at hholds
  exact hholds.2

theorem KernelString.strncmp_prefix {xs past : List UInt8} {c : CChar} {sig : CString}
    (hlen : xs.length = sig.length + 1) :
    strncmp (xs ++ past) (CString.mem (c :: sig) []) (sig.length + 1) = some 0 ↔
      xs = (c :: sig).map Subtype.val := by
  induction sig generalizing c xs with
  | nil =>
      obtain ⟨x, rfl⟩ := List.length_eq_one_iff.mp hlen
      simp [strncmp, preDec, uint8Diff_eq_zero]
  | cons d sig ih =>
      obtain ⟨x, xs, rfl⟩ := List.exists_cons_of_length_eq_add_one hlen
      have hlen' : xs.length = sig.length + 1 := by simpa using hlen
      have hrest := ih (c := d) hlen'
      by_cases hx : x = c.val
      · simpa [strncmp, preDec, hx, c.property] using hrest
      · simp [strncmp, hx, uint8Diff_eq_zero]

/-- Up to four characters are looked for in the signature. -/
theorem SdtSlot.At.hasSignature_iff (h : s.At m) (hs : s.damage = none) {sig : CString}
    (hne : sig ≠ []) (hsig : sig.length ≤ 4) :
    hasSignature m s.addr sig = true ↔ s.table.signature.take sig.length = sig.map Subtype.val := by
  obtain ⟨c, sig, rfl⟩ := List.exists_cons_of_ne_nil hne
  obtain ⟨tail, htail⟩ := s.table.encode_eq
  have hlen : (s.table.signature.take (c :: sig).length).length = (c :: sig).length := by
    rw [List.length_take, s.table.signature_length, Nat.min_eq_left hsig]
  have hholds := h.holds
  rw [bytes, hs, htail, ← List.take_append_drop (c :: sig).length s.table.signature,
    List.append_assoc, holdsAt_append] at hholds
  have hread : readAt m s.addr ((c :: sig).length + 1) =
      s.table.signature.take (c :: sig).length ++ [m (s.addr + (c :: sig).length)] := by
    have hfirst := readAt_eq hholds.1
    rw [hlen] at hfirst
    rw [readAt, List.range_succ, List.map_append, ← readAt, hfirst]
    rfl
  rw [hasSignature, hread, decide_eq_true_iff]
  exact KernelString.strncmp_prefix hlen

end Table

/-! ## All tables -/

section Find

variable {m : Nat → UInt8} {rsdt rsdp : Nat} {slots : List SdtSlot} {sig : CString}

/-- The table is intact and has the signature. -/
def SdtSlot.Has (s : SdtSlot) (sig : CString) : Prop :=
  s.damage = none ∧ s.table.signature.take sig.length = sig.map Subtype.val

instance (s : SdtSlot) (sig : CString) : Decidable (s.Has sig) :=
  inferInstanceAs (Decidable (_ ∧ _))

/-- It is what the loop takes. -/
theorem SdtSlot.At.has_iff {s : SdtSlot} (h : s.At m) (hne : sig ≠ []) (hsig : sig.length ≤ 4) :
    s.Has sig ↔ sdtChecksum m s.addr = true ∧ hasSignature m s.addr sig = true := by
  rw [h.checksum_iff, SdtSlot.Has]
  exact and_congr_right fun hs => (h.hasSignature_iff hs hne hsig).symm

/-- From an entry on. -/
theorem findSdtLoop_eq {i : Nat} (hne : sig ≠ []) (hsig : sig.length ≤ 4)
    (hentries : HoldsAt m (rsdt + 36 + 4 * i) (slots.flatMap fun s => leBytes 4 s.addr))
    (hat : ∀ s ∈ slots, s.At m) :
    findSdtLoop m rsdt sig slots.length i =
      ((slots.find? fun s => s.Has sig).map SdtSlot.addr).getD 0 := by
  induction slots generalizing i with
  | nil => rfl
  | cons s slots ih =>
      have hs := hat s List.mem_cons_self
      rw [List.flatMap_cons, holdsAt_append, leBytes_length] at hentries
      have hentry : rsdtEntry m rsdt i = s.addr := wordIn_of_holdsAt hs.addr_lt hentries.1
      have hrest := ih (i := i + 1) hentries.2 fun s' hs' => hat s' (List.mem_cons_of_mem _ hs')
      rw [List.length_cons, findSdtLoop, hentry, hrest]
      have hiff := hs.has_iff hne hsig
      by_cases hhas : s.Has sig
      · obtain ⟨hsum, hname⟩ := hiff.mp hhas
        simp [hhas, hsum, hname]
      · have hnot : (sdtChecksum m s.addr && hasSignature m s.addr sig) = false := by
          rw [hiff] at hhas
          simpa using hhas
        rcases Bool.and_eq_false_iff.mp hnot with hsum | hname
        · simp [hhas, hsum]
        · simp [hhas, hname]

/-- A lookup finds the first table with the signature whose bytes are all as
they were laid out; it does not ask for the checksum of the root pointer. -/
theorem acpiFindSdt_eq (hrsdp : rsdp ≠ 0)
    (h : RootTable m (wordIn m (rsdp + 16)) slots) (hne : sig ≠ []) (hsig : sig.length ≤ 4) :
    acpiFindSdt m rsdp sig = ((slots.find? fun s => s.Has sig).map SdtSlot.addr).getD 0 := by
  have hlt := wordIn_lt m (wordIn m (rsdp + 16) + 4)
  have hcount : rsdtCount m (wordIn m (rsdp + 16)) = slots.length := by
    rw [h.length] at hlt
    rw [rsdtCount, h.length, u32]
    omega
  rw [acpiFindSdt, if_neg hrsdp]
  dsimp only
  rw [hcount]
  exact findSdtLoop_eq hne hsig h.entries h.at_addr

end Find

/-! ## From the boot loader on -/

section Boot

variable {m : Nat → UInt8} {head total fuel type a : Nat} {tags : List MbootTag} {t : MbootTag}

theorem nthTag_zero_of_none (h : tags.find? (fun t => t.type = type) = none) :
    nthTag type 0 a tags = 0 := by
  have hfilter : (tags.filter fun t => t.type = type) = [] := by
    rw [List.filter_eq_nil_iff]
    exact List.find?_eq_none.mp h
  have hsnd := placedOf_snd type a tags
  rw [hfilter, List.map_eq_nil_iff] at hsnd
  rw [nthTag, hsnd]
  rfl

/-- The first tag of a type, where it is placed. -/
theorem TagsAt.nthTag_zero (h : TagsAt m a tags) (ht : tags.find? (fun t => t.type = type) = some t)
    (off : Nat) (hoff : off + 4 ≤ t.data.length) :
    a ≤ nthTag type 0 a tags ∧
      wordIn m (nthTag type 0 a tags + 8 + off) = dataWord t.data off := by
  have hhead : (tags.filter fun t => t.type = type).head? = some t := by
    rw [List.head?_filter, ht]
  rw [← placedOf_snd type a tags, List.head?_map] at hhead
  obtain ⟨p, hp, rfl⟩ := Option.map_eq_some_iff.mp hhead
  have hmem : p ∈ placed a tags := (List.mem_filter.mp (List.mem_of_head? hp)).1
  rw [nthTag, ← List.head?_eq_getElem?, hp]
  exact h.word_eq hmem hoff

/-- The root pointer is the data of its tag. -/
theorem locateRsdp_eq (h : MbootInfo m head total tags) (hend : head + 8 + total < 4294967296)
    (hfuel : tags.length < fuel) (ht : rsdpTag tags = some t) (hlen : 20 ≤ t.data.length) :
    locateRsdp fuel m head = some (nthTag t.type 0 (head + 8) tags + 8) ∧
      wordIn m (nthTag t.type 0 (head + 8) tags + 8 + 16) = dataWord t.data 16 := by
  have hfind (type : Nat) (htype : type ≠ 0) :
      multibootFindTag fuel m head type 0 = some (nthTag type 0 (head + 8) tags) :=
    h.find_eq hend hfuel htype (by decide)
  rw [rsdpTag, Option.orElse_eq_some] at ht
  rcases ht with hnew | ⟨hnone, hold⟩
  · obtain ⟨hle, hword⟩ := h.laid.nthTag_zero hnew 16 hlen
    have htype : t.type = tagtypeAcpiNew := by simpa using List.find?_some hnew
    have hne : nthTag tagtypeAcpiNew 0 (head + 8) tags ≠ 0 := by omega
    rw [htype]
    refine ⟨?_, hword⟩
    simp [locateRsdp, hfind tagtypeAcpiNew (by decide), hne]
  · obtain ⟨hle, hword⟩ := h.laid.nthTag_zero hold 16 hlen
    have htype : t.type = tagtypeAcpiOld := by simpa using List.find?_some hold
    have hne : nthTag tagtypeAcpiOld 0 (head + 8) tags ≠ 0 := by omega
    rw [htype]
    refine ⟨?_, hword⟩
    simp [locateRsdp, hfind tagtypeAcpiNew (by decide), hfind tagtypeAcpiOld (by decide),
      nthTag_zero_of_none hnone, hne]

theorem acpiInit_rsdp {rsdp : Nat} (h : locateRsdp fuel m head = some rsdp) :
    ∃ listed, acpiInit fuel m head = some ⟨rsdp, listed⟩ := by
  rw [acpiInit, h]
  by_cases h₀ : rsdp = 0
  · exact ⟨false, by simp [h₀]⟩
  · by_cases hsum : rsdpChecksum m rsdp = false
    · exact ⟨false, by simp [h₀, hsum]⟩
    · exact ⟨decide (wordIn m (rsdp + 16) ≠ 0), by simp [h₀, hsum]⟩

/-- From the tags of the boot loader on: the root pointer that is kept is in the
first new tag, or in the first old one when there is no new one, and every
lookup finds the first table with the signature whose bytes are all as they
were laid out, whatever the checksum of the root pointer is. -/
theorem acpi_find_sdt_first {slots : List SdtSlot} (h : MbootInfo m head total tags)
    (hend : head + 8 + total < 4294967296) (ht : rsdpTag tags = some t)
    (hlen : 20 ≤ t.data.length) (hroot : RootTable m (dataWord t.data 16) slots)
    (hfuel : tags.length < fuel) :
    ∃ acpi, acpiInit fuel m head = some acpi ∧
      acpi.rsdp = nthTag t.type 0 (head + 8) tags + 8 ∧
      ∀ sig, sig ≠ [] → sig.length ≤ 4 →
        acpiFindSdt m acpi.rsdp sig =
          ((slots.find? fun s => s.Has sig).map SdtSlot.addr).getD 0 := by
  obtain ⟨hrsdp, hword⟩ := locateRsdp_eq h hend hfuel ht hlen
  obtain ⟨listed, hacpi⟩ := acpiInit_rsdp hrsdp
  rw [← hword] at hroot
  exact ⟨_, hacpi, rfl, fun sig hne hsig =>
    acpiFindSdt_eq (Nat.succ_ne_zero _) hroot hne hsig⟩

end Boot

/-! ## Two tables, the first of them damaged -/

/-- One processor and one I/O APIC. -/
def sampleBody : List UInt8 :=
  List.replicate 8 0 ++ [0, 8, 0, 0, 1, 0, 0, 0] ++ [1, 12, 0, 0, 0, 0, 192, 254, 0, 0, 0, 0]

def sampleSdt (body : List UInt8) (h : 36 + body.length < 4294967296) : Sdt :=
  ⟨[65, 80, 73, 67], 1, List.replicate 26 0, body, rfl, rfl, h⟩

/-- At the end of the first one there is a seven instead of a zero. -/
def sampleSlots : List SdtSlot :=
  [⟨4188, sampleSdt [] (by decide), some (35, 7)⟩, ⟨4224, sampleSdt sampleBody (by decide), none⟩]

def sampleRsdpTag : MbootTag :=
  ⟨tagtypeAcpiOld, List.replicate 16 0 ++ leBytes 4 4144, by decide, by decide⟩

/-- The information of the boot loader, the root table and the two tables. The
checksum of the root pointer is wrong. -/
def sampleFirmware (a : Nat) : UInt8 :=
  let bytes : List UInt8 :=
    leBytes 4 48 ++ leBytes 4 0 ++ leBytes 4 14 ++ leBytes 4 28 ++ sampleRsdpTag.data ++
      leBytes 4 0 ++ leBytes 4 0 ++ leBytes 4 8 ++ List.replicate 4 0 ++ leBytes 4 44 ++
      List.replicate 28 0 ++ sampleSlots.flatMap (fun s : SdtSlot => leBytes 4 s.addr) ++
      sampleSlots.flatMap SdtSlot.bytes
  bytes.getD (a - 4096) 0

theorem sampleFirmware_info : MbootInfo sampleFirmware 4096 48 [sampleRsdpTag] :=
  ⟨by decide, ⟨by decide, by decide, by decide, by decide, by decide⟩, by decide, by decide⟩

set_option maxRecDepth 2000 in
theorem sampleSlots_root : RootTable sampleFirmware 4144 sampleSlots := by
  refine ⟨by decide, by decide, ?_⟩
  rw [sampleSlots, List.forall_mem_cons, List.forall_mem_singleton]
  refine ⟨⟨?_, by decide, by decide⟩, ⟨?_, by decide, by decide⟩⟩
  · rintro i b h
    cases h
    decide
  · rintro i b h
    cases h

theorem acpi_find_sdt_second :
    ∃ acpi, acpiInit 2 sampleFirmware 4096 = some acpi ∧
      acpi.rsdp = nthTag sampleRsdpTag.type 0 4104 [sampleRsdpTag] + 8 ∧
      ∀ sig, sig ≠ [] → sig.length ≤ 4 →
        acpiFindSdt sampleFirmware acpi.rsdp sig =
          ((sampleSlots.find? fun s => s.Has sig).map SdtSlot.addr).getD 0 :=
  acpi_find_sdt_first sampleFirmware_info (by decide) rfl (by decide) sampleSlots_root (by decide)

example : ((sampleSlots.find? fun s => s.Has apicSignature).map SdtSlot.addr).getD 0 = 4224 := by
  decide

end LambdaOs
