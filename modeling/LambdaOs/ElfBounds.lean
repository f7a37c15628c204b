import LambdaOs.ModuleLink

/-!
# The bounds of the ELF lookups

`elf_get_section` and `elf_shndx_from_symidx` of `proc/elf/elf.c`, and
`_find_symbol` of `mod/module.c` once more with the records that it goes on to
use. Each compares its index with the end of the table, and takes the one that
is there; the two lookups of symbols compare a product of 32 bits.
-/

namespace LambdaOs

/-- What a lookup returns, and the number of the record it uses. -/
structure ElfLookup (α : Type) where
  record : Option Nat
  result : Except Int α

/-! ## The lookups -/

def elfGetSection (elf : List UInt8) (index : Nat) : ElfLookup Elf32Shdr :=
  if index > ehdrShnum elf then ⟨none, .error (-EINVAL)⟩
  else ⟨some index, .ok (elfSection elf index)⟩

/-- `.symtab` -/
def symtabName : List UInt8 := cString ['.', 's', 'y', 'm', 't', 'a', 'b']

def elfShndxFromSymidx (elf : List UInt8) (symidx : Nat) : ElfLookup Nat :=
  match elfFindSection elf symtabName with
  | .error _ => ⟨none, .error (-EUNSPEC)⟩
  | .ok symtab =>
      if u32 (symidx * symtab.entsize) > symtab.size then ⟨none, .error (-EUNSPEC)⟩
      else
        let shndx := (elfSym elf symtab symidx).shndx
        ⟨some symidx, if shndx = shnUndef then .error (-ENOENT) else .ok shndx⟩

section

variable (exports : List (List UInt8 × Nat)) (loaded : List ModuleEnt)

/-- What `_find_symbol` does with a symbol. -/
def symbolValue (elf : List UInt8) (symbols : List Symbol) (symtab : Elf32Shdr) (sym : Elf32Sym) :
    Except Int Nat :=
  if sym.shndx = shnAbs then .ok sym.value
  else if sym.shndx = shnUndef then
    match findUndefinedSymbol exports loaded (elfSymName elf symtab sym) with
    | some addr => .ok addr
    | none => .error (-ENOENT)
  else
    match findInternalSymbol sym.shndx symbols with
    | some addr => .ok (u32 (addr + sym.value))
    | none => .error (-ENOENT)

def findSymbolLookup (elf : List UInt8) (symbols : List Symbol) (table index : Nat) :
    ElfLookup Nat :=
  let symtab := elfSection elf table
  if u32 (index * symtab.entsize) > symtab.size then ⟨none, .error (-EUNSPEC)⟩
  else ⟨some index, symbolValue exports loaded elf symbols symtab (elfSym elf symtab index)⟩

theorem findSymbolLookup_result (elf : List UInt8) (symbols : List Symbol) (table index : Nat) :
    (findSymbolLookup exports loaded elf symbols table index).result =
      findSymbol exports loaded elf symbols table index := by
  rw [findSymbolLookup, findSymbol]
  split <;> rfl

end

/-! ## What is asked of them -/

/-- A record is used only if `inside` holds, and without one there is an error. -/
def ElfLookup.Bounded {α : Type} (inside : Prop) (l : ElfLookup α) : Prop :=
  (l.record.isSome → inside) ∧ (l.record = none → ∃ e, l.result = .error e)

/-- The whole record is in the table. -/
def Elf32Shdr.Holds (sect : Elf32Shdr) (index : Nat) : Prop :=
  (index + 1) * sect.entsize ≤ sect.size

/-- The index is that of the record behind the last whole one, or its product
with the size of a record wraps to an offset in the table. -/
def Elf32Shdr.Slips (sect : Elf32Shdr) (index : Nat) : Prop :=
  sect.entsize ≠ 0 ∧
    (index = sect.size / sect.entsize ∨
      4294967296 ≤ index * sect.entsize ∧ u32 (index * sect.entsize) ≤ sect.size)

/-! ## The comparison of the products -/

/-- An index that is let through, and whose record is not in the table. -/
theorem Elf32Shdr.slips_iff {sect : Elf32Shdr} (hsize : sect.size < 4294967296) (index : Nat) :
    sect.Slips index ↔ u32 (index * sect.entsize) ≤ sect.size ∧ ¬ sect.Holds index := by
  rw [Slips, Holds, Nat.not_le]
  rcases Nat.eq_zero_or_pos sect.entsize with he | he
  · simp [he]
  have hdiv : index * sect.entsize ≤ sect.size ∧ sect.size < (index + 1) * sect.entsize ↔
      index = sect.size / sect.entsize := by
    rw [← Nat.le_div_iff_mul_le he, ← Nat.div_lt_iff_lt_mul he]
    omega
  rw [← hdiv]
  have hsucc : (index + 1) * sect.entsize = index * sect.entsize + sect.entsize := Nat.succ_mul _ _
  rw [u32]
  omega

/-- The two lookups of symbols, in terms of the table. -/
theorem bounded_symbol_iff {α : Type} {sect : Elf32Shdr} (hsize : sect.size < 4294967296)
    {index : Nat} {used : Except Int α} :
    ElfLookup.Bounded (sect.Holds index)
        (if u32 (index * sect.entsize) > sect.size then ⟨none, .error (-EUNSPEC)⟩
          else ⟨some index, used⟩) ↔ ¬ sect.Slips index := by
  rw [sect.slips_iff hsize]
  split
  · rename_i hgt
    refine iff_of_true ⟨nofun, fun _ => ⟨_, rfl⟩⟩ fun h => ?_
    omega
  · rename_i hle
    rw [not_and_not_right]
    exact ⟨fun h _ => h.1 rfl, fun h => ⟨fun _ => h (Nat.not_lt.mp hle), nofun⟩⟩

theorem elfFindSection_ok {elf name : List UInt8} {sect : Elf32Shdr}
    (h : elfFindSection elf name = .ok sect) : ∃ i, sect = elfSection elf i := by
  rw [elfFindSection] at h
  split at h
  · rename_i idx _
    exact ⟨idx, (Except.ok.inj h).symm⟩
  · cases h

theorem elfSection_size_lt (elf : List UInt8) (i : Nat) : (elfSection elf i).size < 4294967296 :=
  wordAt_lt (elfBytes_lt elf) _

/-! ## The lookups -/

/-- Which indices each of the three lookups bounds: all but the number of
sections, and all that do not slip past the comparison with the table. -/
theorem elf_lookups_bounded_iff (exports : List (List UInt8 × Nat)) (loaded : List ModuleEnt)
    (elf : List UInt8) (symbols : List Symbol) (table index : Nat) :
    (ElfLookup.Bounded (index < ehdrShnum elf) (elfGetSection elf index) ↔ index ≠ ehdrShnum elf) ∧
      (ElfLookup.Bounded (∀ symtab, elfFindSection elf symtabName = .ok symtab → symtab.Holds index)
          (elfShndxFromSymidx elf index) ↔
        ∀ symtab, elfFindSection elf symtabName = .ok symtab → ¬ symtab.Slips index) ∧
      (ElfLookup.Bounded ((elfSection elf table).Holds index)
          (findSymbolLookup exports loaded elf symbols table index) ↔
        ¬ (elfSection elf table).Slips index) := by
  refine ⟨?_, ?_, bounded_symbol_iff (elfSection_size_lt elf table)⟩
  · rw [elfGetSection]
    split
    · exact iff_of_true ⟨nofun, fun _ => ⟨_, rfl⟩⟩ (by omega)
    · exact ⟨fun h => (h.1 rfl).ne, fun h => ⟨fun _ => by omega, nofun⟩⟩
  · rw [elfShndxFromSymidx]
    cases hfind : elfFindSection elf symtabName with
    | error e => exact iff_of_true ⟨nofun, fun _ => ⟨_, rfl⟩⟩ nofun
    | ok symtab =>
        have hsize : symtab.size < 4294967296 := by
          obtain ⟨i, rfl⟩ := elfFindSection_ok hfind
          exact elfSection_size_lt elf i
        simpa using bounded_symbol_iff hsize

theorem linkUser_symtab : elfFindSection linkUser symtabName = .ok (elfSection linkUser 1) := by
  decide +kernel

theorem linkUser_counts :
    ehdrShoff linkUser + shdrSize * ehdrShnum linkUser ≤ linkUser.length ∧
      ehdrShnum linkUser = 4 ∧ (elfSection linkUser 1).size = 16 ∧
      (elfSection linkUser 1).entsize = 16 := by
  decide +kernel

/-- A file of four sections and one symbol: section 4 is given out, and symbols 1
and 2 ^ 28 are read. -/
theorem elf_lookups_unbounded :
    ehdrShoff linkUser + shdrSize * ehdrShnum linkUser ≤ linkUser.length ∧
      ¬ ElfLookup.Bounded (4 < ehdrShnum linkUser) (elfGetSection linkUser 4) ∧
      ¬ ElfLookup.Bounded (∀ symtab, elfFindSection linkUser symtabName = .ok symtab →
        symtab.Holds 1) (elfShndxFromSymidx linkUser 1) ∧
      ¬ ElfLookup.Bounded ((elfSection linkUser 1).Holds 268435456)
        (findSymbolLookup [] [] linkUser [] 1 268435456) := by
  obtain ⟨hin, hnum, hsize, hent⟩ := linkUser_counts
  refine ⟨hin, fun h => ?_, fun h => ?_, fun h => ?_⟩
  · have hused : (elfGetSection linkUser 4).record.isSome := by
      rw [elfGetSection, hnum]
      rfl
    have := h.1 hused
    omega
  · have hused : (elfShndxFromSymidx linkUser 1).record.isSome := by
      simp [elfShndxFromSymidx, linkUser_symtab, hsize, hent, u32]
    have := h.1 hused _ linkUser_symtab
    simp only [Elf32Shdr.Holds, hsize, hent] at this
    omega
  · have hused : (findSymbolLookup [] [] linkUser [] 1 268435456).record.isSome := by
      simp [findSymbolLookup, hsize, hent, u32]
    have := h.1 hused
    simp only [Elf32Shdr.Holds, hsize, hent] at this
    omega

end LambdaOs
