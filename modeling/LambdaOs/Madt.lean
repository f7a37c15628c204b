import LambdaOs.Acpi
import LambdaOs.RecordWalk

/-!
# The processors that the firmware describes

`apic_init` of `intr/apic/apic.c` looks up the multiple APIC description table
and walks its entries, each of which has its length in its second byte. It
counts the processors that are enabled or can be, and keeps an address: that of
an I/O APIC, or the one that an override has for the local APICs, whichever
comes last.

From the tags of the boot loader on, what it keeps is what the entries say
(`apic_init_counts`). The walk is not bounded by the table, so an entry of
length zero keeps it where it is (`apic_init_returns_iff`).
-/

namespace LambdaOs

/-! ## `apic.c` -/

/-- `_apic_data`, without the handles, which are never set. -/
structure ApicData where
  lapicCount : Nat
  ioapic : Nat
  lapic64 : Nat
deriving DecidableEq

/-- `(uintptr_t)ent + ent->length` -/
def madtNext (m : Nat → UInt8) (ent : Nat) : Nat := u32 (ent + (m (ent + 1)).toNat)

/-- What is done for an entry. The low word of the override is an address, and
goes into the same field as that of an I/O APIC. -/
def madtVisit (m : Nat → UInt8) (d : ApicData) (ent : Nat) : ApicData :=
  if m ent = 0 then
    if wordIn m (ent + 4) &&& 3 ≠ 0 then { d with lapicCount := u32 (d.lapicCount + 1) } else d
  else if m ent = 1 then { d with ioapic := wordIn m (ent + 4) }
  else if m ent = 5 then { d with ioapic := wordIn m (ent + 4) }
  else d

def madtEnd (m : Nat → UInt8) (madt : Nat) : Nat := u32 (madt + wordIn m (madt + 4))

/-- `cpuid` says whether the processor has an APIC. -/
def apicInit (fuel : Nat) (m : Nat → UInt8) (cpuid : Bool) (rsdp : Nat) : Option ApicData :=
  if cpuid = false then some ⟨0, 0, 0⟩
  else
    let madt := acpiFindSdt m rsdp apicSignature
    if madt = 0 then some ⟨0, 0, 0⟩
    else
      walkRecords (madtEnd m madt ≤ ·) (madtNext m) (madtVisit m) fuel (madt + 44) ⟨0, 0, 0⟩

/-- The two calls of `arch_init`. -/
def archInitApic (fuel : Nat) (m : Nat → UInt8) (head : Nat) (cpuid : Bool) :
    Option ApicData := do
  let acpi ← acpiInit fuel m head
  apicInit fuel m cpuid acpi.rsdp

/-! ## The format -/

/-- An entry; those that are looked into have the fields looked at. -/
structure MadtEntry where
  type : UInt8
  data : List UInt8
  length_le : data.length ≤ 253
  fields : type = 0 ∨ type = 1 ∨ type = 5 → 6 ≤ data.length

namespace MadtEntry

def size (e : MadtEntry) : Nat := e.data.length + 2

def encode (e : MadtEntry) : List UInt8 := e.type :: UInt8.ofNat e.size :: e.data

/-- The flags of a local APIC, and the address of the other two. -/
def word (e : MadtEntry) : Nat := dataWord e.data 2

/-- Enabled, or can be. -/
def IsProcessor (e : MadtEntry) : Prop := e.type = 0 ∧ e.word &&& 3 ≠ 0

def HasAddress (e : MadtEntry) : Prop := e.type = 1 ∨ e.type = 5

instance (e : MadtEntry) : Decidable e.IsProcessor := inferInstanceAs (Decidable (_ ∧ _))

instance (e : MadtEntry) : Decidable e.HasAddress := inferInstanceAs (Decidable (_ ∨ _))

end MadtEntry

/-- What a list of entries says. -/
def apicDataOf (es : List MadtEntry) : ApicData where
  lapicCount := (es.filter fun e => e.IsProcessor).length
  ioapic := (((es.filter fun e => e.HasAddress).getLast?).map MadtEntry.word).getD 0
  lapic64 := 0

/-! ## One entry -/

section Entry

variable {m : Nat → UInt8} {a : Nat} {e : MadtEntry} {d : ApicData}

theorem MadtEntry.encode_length (e : MadtEntry) : e.encode.length = e.size := by
  rw [encode, List.length_cons, List.length_cons, size]

/-- What an entry changes. -/
def MadtEntry.visit (d : ApicData) (e : MadtEntry) : ApicData where
  lapicCount := if e.IsProcessor then u32 (d.lapicCount + 1) else d.lapicCount
  ioapic := if e.HasAddress then e.word else d.ioapic
  lapic64 := d.lapic64

theorem madtNext_eq (h : HoldsAt m a e.encode) : madtNext m a = u32 (a + e.size) := by
  have hsize : (UInt8.ofNat e.size).toNat = e.size := by
    have hle := e.length_le
    rw [UInt8.toNat_ofNat', Nat.mod_eq_of_lt]
    rw [MadtEntry.size]
    omega
  rw [madtNext, h.2.1, hsize]

theorem dataWord_eq {data : List UInt8} {off : Nat} (h : HoldsAt m a data)
    (hoff : off + 4 ≤ data.length) : wordIn m (a + off) = dataWord data off := by
  have hbyte (j : Nat) (hj : j < 4) : m (a + off + j) = data.getD (off + j) 0 := by
    rw [List.getD_eq_getElem?_getD, h.getElem? (by omega), Nat.add_assoc]
    rfl
  have h₀ : m (a + off) = data.getD off 0 := hbyte 0 (by decide)
  simp only [dataWord, wordIn, h₀, hbyte 1 (by decide), hbyte 2 (by decide),
    hbyte 3 (by decide)]

theorem madtVisit_eq (h : HoldsAt m a e.encode) : madtVisit m d a = e.visit d := by
  have htype : m a = e.type := h.1
  have hword (ht : e.type = 0 ∨ e.type = 1 ∨ e.type = 5) : wordIn m (a + 4) = e.word :=
    dataWord_eq h.2.2 (e.fields ht)
  rw [madtVisit, htype]
  by_cases h₀ : e.type = 0
  · rw [if_pos h₀, hword (.inl h₀)]
    by_cases hflags : e.word &&& 3 = 0
    · simp [MadtEntry.visit, MadtEntry.IsProcessor, MadtEntry.HasAddress, h₀, hflags]
    · simp [MadtEntry.visit, MadtEntry.IsProcessor, MadtEntry.HasAddress, h₀, hflags]
  · rw [if_neg h₀]
    by_cases h₁ : e.type = 1
    · rw [if_pos h₁, hword (.inr (.inl h₁))]
      simp [MadtEntry.visit, MadtEntry.IsProcessor, MadtEntry.HasAddress, h₁]
    · rw [if_neg h₁]
      by_cases h₅ : e.type = 5
      · rw [if_pos h₅, hword (.inr (.inr h₅))]
        simp [MadtEntry.visit, MadtEntry.IsProcessor, MadtEntry.HasAddress, h₅]
      · simp [MadtEntry.visit, MadtEntry.IsProcessor, MadtEntry.HasAddress, h₀, h₁, h₅]

end Entry

/-! ## All entries -/

section Entries

variable {m : Nat → UInt8} {a : Nat} {es : List MadtEntry} {d : ApicData}

/-- The addresses of the entries, one behind the other. -/
def entryAddrs : Nat → List MadtEntry → List Nat
  | _, [] => []
  | a, e :: es => a :: entryAddrs (a + e.size) es

theorem entryAddrs_length : (entryAddrs a es).length = es.length := by
  induction es generalizing a with
  | nil => rfl
  | cons e es ih => rw [entryAddrs, List.length_cons, ih, List.length_cons]

theorem length_le_flatMap_encode (es : List MadtEntry) :
    es.length ≤ (es.flatMap MadtEntry.encode).length := by
  induction es with
  | nil => exact Nat.le_refl _
  | cons e es ih =>
      rw [List.flatMap_cons, List.length_append, List.length_cons, e.encode_length, MadtEntry.size]
      omega

/-- The walk comes to the entries in order. -/
theorem recordsFrom_entries {stop : Nat} (h : HoldsAt m a (es.flatMap MadtEntry.encode))
    (hstop : a + (es.flatMap MadtEntry.encode).length = stop) (hlt : stop < 4294967296) :
    RecordsFrom (stop ≤ ·) (madtNext m) a (entryAddrs a es) := by
  induction es generalizing a with
  | nil => exact .stop (Nat.le_of_eq hstop.symm)
  | cons e es ih =>
      rw [List.flatMap_cons, holdsAt_append, e.encode_length] at h
      rw [List.flatMap_cons, List.length_append, e.encode_length] at hstop
      have hpos : 2 ≤ e.size := Nat.le_add_left 2 _
      have hnext : madtNext m a = a + e.size := by
        rw [madtNext_eq h.1, u32_of_lt (by omega)]
      refine .record (by omega) ?_
      rw [hnext]
      exact ih h.2 (by omega)

theorem foldl_madtVisit (h : HoldsAt m a (es.flatMap MadtEntry.encode)) :
    (entryAddrs a es).foldl (madtVisit m) d = es.foldl MadtEntry.visit d := by
  induction es generalizing a d with
  | nil => rfl
  | cons e es ih =>
      rw [List.flatMap_cons, holdsAt_append, e.encode_length] at h
      rw [entryAddrs, List.foldl_cons, List.foldl_cons, madtVisit_eq h.1, ih h.2]

/-- The last entry with an address is the one that is kept. -/
theorem foldl_visit_eq (hlen : es.length < 4294967296) :
    es.foldl MadtEntry.visit ⟨0, 0, 0⟩ = apicDataOf es := by
  induction es using List.reverseRecOn with
  | nil => rfl
  | append_singleton es e ih =>
      rw [List.length_append, List.length_singleton] at hlen
      have hcount : (es.filter fun e => e.IsProcessor).length ≤ es.length :=
        List.length_filter_le _ _
      have hone : u32 ((es.filter fun e => e.IsProcessor).length + 1) =
          (es.filter fun e => e.IsProcessor).length + 1 := u32_of_lt (by omega)
      rw [List.foldl_append, List.foldl_cons, List.foldl_nil, ih (by omega)]
      simp only [MadtEntry.visit, apicDataOf, List.filter_append, List.filter_singleton, hone]
      congr 1
      · by_cases hp : e.IsProcessor <;> simp [hp]
      · by_cases ha : e.HasAddress <;> simp [ha]

end Entries

/-! ## From the boot loader on -/

section Boot

variable {m : Nat → UInt8} {head total fuel : Nat} {tags : List MbootTag} {t : MbootTag}

/-- From the tags of the boot loader on: the first intact table that lists the
processors is found, and what `apic_init` keeps is what its entries say. -/
theorem apic_init_counts {slots : List SdtSlot} {s : SdtSlot} {front : List UInt8}
    {es : List MadtEntry} (h : MbootInfo m head total tags)
    (hend : head + 8 + total < 4294967296) (ht : rsdpTag tags = some t)
    (hlen : 20 ≤ t.data.length) (hroot : RootTable m (dataWord t.data 16) slots)
    (hs : slots.find? (fun s => s.Has apicSignature) = some s) (hne : s.addr ≠ 0)
    (hbody : s.table.body = front ++ es.flatMap MadtEntry.encode) (hfront : front.length = 8)
    (hfits : s.addr + s.table.length < 4294967296) (htags : tags.length < fuel)
    (hes : es.length < fuel) :
    archInitApic fuel m head true = some (apicDataOf es) := by
  obtain ⟨hrsdp, hword⟩ := locateRsdp_eq h hend htags ht hlen
  obtain ⟨listed, hacpi⟩ := acpiInit_rsdp hrsdp
  rw [← hword] at hroot
  have hmadt : acpiFindSdt m (nthTag t.type 0 (head + 8) tags + 8) apicSignature = s.addr := by
    rw [acpiFindSdt_eq (Nat.succ_ne_zero _) hroot (by decide) (by decide), hs]
    rfl
  have hat := hroot.at_addr s (List.mem_of_find?_eq_some hs)
  have hhas : s.Has apicSignature := by simpa using List.find?_some hs
  have hlength : s.table.length = 44 + (es.flatMap MadtEntry.encode).length := by
    rw [Sdt.length, hbody, List.length_append, hfront, ← Nat.add_assoc]
  have hholds : HoldsAt m (s.addr + 44) (es.flatMap MadtEntry.encode) := by
    have hbytes := hat.body hhas.1
    rw [hbody, holdsAt_append, hfront] at hbytes
    exact hbytes.2
  have hstop : s.addr + 44 + (es.flatMap MadtEntry.encode).length = madtEnd m s.addr := by
    rw [madtEnd, hat.length_eq, u32_of_lt hfits, hlength, Nat.add_assoc]
  have hcount : es.length < 4294967296 := by
    have hle := length_le_flatMap_encode es
    omega
  have hwalk := recordsFrom_entries hholds hstop (u32_lt _)
  rw [archInitApic, hacpi, Option.bind_eq_bind, Option.bind_some, apicInit, hmadt]
  simp only [Bool.true_eq_false, if_false, if_neg hne]
  rw [hwalk.walk_eq (by rwa [entryAddrs_length]), foldl_madtVisit hholds, foldl_visit_eq hcount]

/-- The walk returns unless it comes to an entry of length zero. -/
theorem apic_init_returns_iff {rsdp madt : Nat} (hmadt : acpiFindSdt m rsdp apicSignature = madt)
    (hne : madt ≠ 0) (hend : madt + wordIn m (madt + 4) + 254 < 4294967296) :
    (∃ fuel d, apicInit fuel m true rsdp = some d) ↔
      ∀ ent, Reached (madtEnd m madt ≤ ·) (madtNext m) (madt + 44) ent → ent < madtEnd m madt →
        m (ent + 1) ≠ 0 := by
  have hnext (ent : Nat) (hlt : ent < madtEnd m madt) :
      madtNext m ent = ent + (m (ent + 1)).toNat := by
    have hbyte := (m (ent + 1)).toNat_lt
    rw [madtEnd, u32_of_lt (by omega)] at hlt
    rw [madtNext, u32_of_lt (by omega)]
  have hself (ent : Nat) (hlt : ent < madtEnd m madt) :
      madtNext m ent = ent ↔ m (ent + 1) = 0 := by
    rw [hnext ent hlt, Nat.add_eq_left, ← UInt8.toNat_inj]
    rfl
  have hinit (fuel : Nat) : apicInit fuel m true rsdp =
      walkRecords (madtEnd m madt ≤ ·) (madtNext m) (madtVisit m) fuel (madt + 44) ⟨0, 0, 0⟩ := by
    simp [apicInit, hmadt, hne]
  simp only [hinit]
  rw [walkRecords_returns_iff, exists_recordsFrom_iff fun ent => madtEnd m madt - ent]
  · refine forall₂_congr fun ent _ => ?_
    rw [Nat.not_le]
    exact forall_congr' fun hlt => not_congr (hself ent hlt)
  · intro ent _ hstop
    rw [Nat.not_le] at hstop
    rw [hnext ent hstop]
    omega

end Boot

/-! ## One processor and one I/O APIC -/

def sampleEntries : List MadtEntry :=
  [⟨0, [0, 0, 1, 0, 0, 0], by decide, by decide⟩,
    ⟨1, [0, 0, 0, 0, 192, 254, 0, 0, 0, 0], by decide, by decide⟩]

theorem apic_init_counts_one : archInitApic 3 sampleFirmware 4096 true = some ⟨1, 4273995776, 0⟩ :=
  @apic_init_counts sampleFirmware 4096 48 3 [sampleRsdpTag] sampleRsdpTag sampleSlots
    ⟨4224, sampleSdt sampleBody (by decide), none⟩ (List.replicate 8 0) sampleEntries
    sampleFirmware_info (by decide) rfl (by decide) sampleSlots_root rfl (by decide) rfl rfl
    (by decide) (by decide) (by decide)

set_option maxRecDepth 2000 in
theorem apic_init_returns_one :
    (∃ fuel d, apicInit fuel sampleFirmware true 4112 = some d) ↔
      ∀ ent, Reached (madtEnd sampleFirmware 4224 ≤ ·) (madtNext sampleFirmware) 4268 ent →
        ent < madtEnd sampleFirmware 4224 → sampleFirmware (ent + 1) ≠ 0 :=
  apic_init_returns_iff (by decide) (by decide) (by decide)

end LambdaOs
