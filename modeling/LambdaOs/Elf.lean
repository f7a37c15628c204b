import LambdaOs.Errno
import LambdaOs.Word

/-!
# ELF images

The header, the sections and the symbols of an ELF image, and the functions of
`proc/elf/elf.c` that look them up. An image is the list of its bytes, read at
offsets from its start; behind its end there are zeros.

`elf_load_symbols` keeps the symbols that have a section, in the order of the
file, with `st_value` as their address.
-/

namespace LambdaOs

/-! ## Reading -/

/-- A little-endian word of 16 bits. -/
def halfAt (bytes : Nat → Nat) (a : Nat) : Nat := bytes a + 256 * bytes (a + 1)

/-- A little-endian word of 32 bits. -/
def wordAt (bytes : Nat → Nat) (a : Nat) : Nat := halfAt bytes a + 65536 * halfAt bytes (a + 2)

theorem halfAt_lt {bytes : Nat → Nat} (h : ∀ a, bytes a < 256) (a : Nat) :
    halfAt bytes a < 65536 := by
  have hlow := h a
  have hhigh := h (a + 1)
  unfold halfAt
  omega

theorem wordAt_lt {bytes : Nat → Nat} (h : ∀ a, bytes a < 256) (a : Nat) :
    wordAt bytes a < 4294967296 := by
  have hlow := halfAt_lt h a
  have hhigh := halfAt_lt h (a + 2)
  unfold wordAt
  omega

/-- The bytes of an image, at offsets that wrap as pointers do. -/
def elfBytes (elf : List UInt8) (a : Nat) : Nat := (elf.getD (u32 a) 0).toNat

theorem elfBytes_lt (elf : List UInt8) (a : Nat) : elfBytes elf a < 256 :=
  UInt8.toNat_lt _

/-- The string at an offset. -/
def stringAt (elf : List UInt8) (a : Nat) : List UInt8 := (elf.drop (u32 a)).takeWhile (· ≠ 0)

/-- A string of the source. -/
def cString (s : List Char) : List UInt8 := s.map fun c => UInt8.ofNat c.toNat

/-! ## Headers -/

/-- What is read of an `Elf32_Ehdr`. -/
structure ExecHead where
  ident : List Nat
  machine : Nat
  entry : Nat
deriving Repr, DecidableEq

def hostClass : Nat := 1
def hostMachine : Nat := 3

def elfCheckHeader (head : ExecHead) : Int :=
  if head.ident.getD 0 0 ≠ 0x7F ∨ head.ident.getD 1 0 ≠ 'E'.toNat ∨
      head.ident.getD 2 0 ≠ 'L'.toNat ∨ head.ident.getD 3 0 ≠ 'F'.toNat then -ENOEXEC
  else if head.ident.getD 4 0 ≠ hostClass then -ENOEXEC
  else if head.machine ≠ hostMachine then -ENOEXEC
  else 0

/-- The header of an image. -/
def elfHead (elf : List UInt8) : ExecHead where
  ident := (List.range 5).map (elfBytes elf)
  machine := halfAt (elfBytes elf) 18
  entry := wordAt (elfBytes elf) 24

/-- `e_shoff`, `e_shnum` and `e_shstrndx`, where the sections are. -/
def ehdrShoff (elf : List UInt8) : Nat := wordAt (elfBytes elf) 32
def ehdrShnum (elf : List UInt8) : Nat := halfAt (elfBytes elf) 48
def ehdrShstrndx (elf : List UInt8) : Nat := halfAt (elfBytes elf) 50

/-- What is read of an `Elf32_Shdr`. -/
structure Elf32Shdr where
  name : Nat
  type : Nat
  addr : Nat
  offset : Nat
  size : Nat
  link : Nat
  info : Nat
  addralign : Nat
  entsize : Nat
deriving Repr, DecidableEq

def shtProgbits : Nat := 1
def shtNobits : Nat := 8
def shtRel : Nat := 9

/-- `sizeof(Elf32_Shdr)`. -/
def shdrSize : Nat := 40

/-- `elf_get_sections(elf)[i]`. -/
def elfSection (elf : List UInt8) (i : Nat) : Elf32Shdr :=
  let a := ehdrShoff elf + shdrSize * i
  { name := wordAt (elfBytes elf) a
    type := wordAt (elfBytes elf) (a + 4)
    addr := wordAt (elfBytes elf) (a + 12)
    offset := wordAt (elfBytes elf) (a + 16)
    size := wordAt (elfBytes elf) (a + 20)
    link := wordAt (elfBytes elf) (a + 24)
    info := wordAt (elfBytes elf) (a + 28)
    addralign := wordAt (elfBytes elf) (a + 32)
    entsize := wordAt (elfBytes elf) (a + 36) }

/-- The first `e_shnum` sections. -/
def elfSections (elf : List UInt8) : List Elf32Shdr :=
  (List.range (ehdrShnum elf)).map (elfSection elf)

/-! ## Finding a section -/

def elfSectionName (elf : List UInt8) (sect : Elf32Shdr) : List UInt8 :=
  stringAt elf ((elfSection elf (ehdrShstrndx elf)).offset + sect.name)

def elfFindSectionIdx (elf : List UInt8) (name : List UInt8) : Except Int Nat :=
  match (elfSections elf).findIdx? fun sect => elfSectionName elf sect = name with
  | some idx => .ok idx
  | none => .error (-ENOEXEC)

def elfFindSection (elf : List UInt8) (name : List UInt8) : Except Int Elf32Shdr :=
  match elfFindSectionIdx elf name with
  | .ok idx => .ok (elfSection elf idx)
  | .error _ => .error (-ENOEXEC)

/-! ## Symbols -/

/-- What is read of an `Elf32_Sym`. -/
structure Elf32Sym where
  name : Nat
  value : Nat
  size : Nat
  shndx : Nat
deriving Repr, DecidableEq

def shnUndef : Nat := 0
def shnAbs : Nat := 0xFFF1

/-- `sizeof(Elf32_Sym)`. -/
def symSize : Nat := 16

/-- The symbol number `i` of a table. -/
def elfSym (elf : List UInt8) (symtab : Elf32Shdr) (i : Nat) : Elf32Sym :=
  let a := symtab.offset + symSize * i
  { name := wordAt (elfBytes elf) a
    value := wordAt (elfBytes elf) (a + 4)
    size := wordAt (elfBytes elf) (a + 8)
    shndx := halfAt (elfBytes elf) (a + 14) }

/-- `symbol_t` -/
structure Symbol where
  name : List UInt8
  addr : Nat
  size : Nat
  sect : Nat
deriving Repr, DecidableEq

/-- `_SYM_CRITERIA` -/
def Elf32Sym.Criteria (sym : Elf32Sym) : Prop := sym.shndx ≠ shnUndef

instance (sym : Elf32Sym) : Decidable sym.Criteria := inferInstanceAs (Decidable (_ ≠ _))

/-- An entry of the table that is built: its name is in a copy of `.strtab`. -/
def Elf32Sym.symbol (symStrtab : List UInt8) (sym : Elf32Sym) : Symbol where
  name := stringAt symStrtab sym.name
  addr := sym.value
  size := sym.size
  sect := sym.shndx

/-- `none` when it divides by zero. The end of the list is the entry with the
address 0xFFFFFFFF. -/
def elfLoadSymbols (elf : List UInt8) : Option (Except Int (List Symbol)) :=
  match elfFindSection elf (cString ['.', 's', 't', 'r', 't', 'a', 'b']),
      elfFindSection elf (cString ['.', 's', 'y', 'm', 't', 'a', 'b']) with
  | .ok strtab, .ok symtab =>
      if symtab.entsize = 0 then none
      else
        let symStrtab := (elf.drop strtab.offset).take strtab.size
        let syms := (List.range (symtab.size / symtab.entsize)).map (elfSym elf symtab)
        some (.ok ((syms.filter fun sym => sym.Criteria).map (Elf32Sym.symbol symStrtab)))
  | _, _ => some (.error (-1))

theorem elfLoadSymbols_addr_lt {elf : List UInt8} {symbols : List Symbol}
    (h : elfLoadSymbols elf = some (.ok symbols)) {sym : Symbol} (hsym : sym ∈ symbols) :
    sym.addr < 4294967296 := by
  unfold elfLoadSymbols at h
  split at h
  · split at h
    · cases h
    · obtain rfl := Except.ok.inj (Option.some.inj h)
      obtain ⟨sym, hsyms, rfl⟩ := List.mem_map.mp hsym
      obtain ⟨i, -, rfl⟩ := List.mem_map.mp (List.mem_filter.mp hsyms).1
      exact wordAt_lt (elfBytes_lt elf) _
  · cases h

end LambdaOs
