import LambdaOs.Elf
import LambdaOs.Module

/-!
# Linking modules

The second half of `_module_place` of `mod/module.c`, and `mod/symbols.c`: where
the sections of a module come to be, what becomes of its symbol table, and the
relocations, which take an undefined symbol from the kernel or from the first
loaded module that has it.

`_translate_symbol` overwrites the address of a symbol with that of its section.
The symbols of the module itself are looked up by section and get their offset
again; those of another module are taken as they are, without it.
-/

namespace LambdaOs

/-! ## Where the sections are -/

/-- The fields that the first loop goes by. -/
def Elf32Shdr.shdr (sect : Elf32Shdr) : Shdr where
  type := if sect.type = shtProgbits then .progbits
    else if sect.type = shtNobits then .nobits else .other
  addr := sect.addr
  size := sect.size
  addralign := sect.addralign

/-- `elf_reloc_t`, without the physical address. -/
structure ElfReloc where
  sect : Nat
  addrVirt : Nat
  size : Nat
deriving Repr, DecidableEq

/-- The locals of the second loop. -/
structure Offsets where
  prog : Nat
  nobits : Nat
  relocs : List ElfReloc
deriving Repr, DecidableEq

/-- One section, with its index. -/
def placeReloc (a : Areas) (o : Offsets) (sect : Shdr × Nat) : Offsets :=
  match sect.1.type with
  | .progbits =>
      let off := forceAlign o.prog sect.1.alignMask
      { o with prog := u32 (off + sect.1.size)
               relocs := o.relocs ++ [⟨sect.2, u32 (a.progBase + off), sect.1.size⟩] }
  | .nobits =>
      let off := forceAlign o.nobits sect.1.alignMask
      { o with nobits := u32 (off + sect.1.size)
               relocs := o.relocs ++ [⟨sect.2, u32 (a.nobitsBase + off), sect.1.size⟩] }
  | .other => o

/-- The second loop. The end of the list is the entry of section 0xFFFFFFFF. -/
def placeRelocs (a : Areas) (sects : List Shdr) : List ElfReloc :=
  (sects.zipIdx.foldl (placeReloc a) ⟨0, 0, []⟩).relocs

def getReloc (relocs : List ElfReloc) (sect : Nat) : Option ElfReloc :=
  relocs.find? fun r => r.sect = sect

def translateAddr (relocs : List ElfReloc) (sect addr : Nat) : Nat :=
  match getReloc relocs sect with
  | none => 0
  | some r => u32 (r.addrVirt + addr)

/-! ## Symbol tables -/

/-- The address of the last entry of a table. -/
def symbolsEnd : Nat := 0xFFFFFFFF

def translateSymbol (relocs : List ElfReloc) (sym : Symbol) : Symbol :=
  match getReloc relocs sym.sect with
  | none => sym
  | some r => { sym with addr := r.addrVirt }

/-- The loop of `_module_place` over the table. -/
def translateSymbols (relocs : List ElfReloc) : List Symbol → List Symbol
  | [] => []
  | sym :: symbols =>
      if sym.addr = symbolsEnd then sym :: symbols
      else translateSymbol relocs sym :: translateSymbols relocs symbols

/-- The symbols that the kernel exports are a parameter. -/
def moduleSymbolFindKernel (exports : List (List UInt8 × Nat)) (ident : List UInt8) : Option Nat :=
  (exports.find? fun e => e.1 = ident).map (·.2)

def moduleSymbolFindModule (ident : List UInt8) : List Symbol → Option Nat
  | [] => none
  | sym :: symbols =>
      if sym.addr = symbolsEnd then none
      else if sym.name = ident then some sym.addr
      else moduleSymbolFindModule ident symbols

/-- The loop of `_find_symbol` over the module's own table. -/
def findInternalSymbol (shndx : Nat) : List Symbol → Option Nat
  | [] => none
  | sym :: symbols =>
      if sym.addr = symbolsEnd then none
      else if sym.sect = shndx then some sym.addr
      else findInternalSymbol shndx symbols

/-- What is kept of a module in `loaded_modules`, and the file and the base it
was placed from. -/
structure ModuleEnt where
  symbols : List Symbol
  file : List UInt8
  base : Nat
deriving Repr, DecidableEq

/-! ## Relocations -/

/-- A word that is written, given what it was. -/
structure RelocWrite where
  addr : Nat
  word : Nat → Nat

structure Elf32Rel where
  offset : Nat
  info : Nat
deriving Repr, DecidableEq

/-- `ELF32_R_SYM` and `ELF32_R_TYPE`. -/
def Elf32Rel.sym (rel : Elf32Rel) : Nat := rel.info / 256
def Elf32Rel.type (rel : Elf32Rel) : Nat := rel.info % 256

/-- `sizeof(Elf32_Rel)`. -/
def relSize : Nat := 8

/-- The relocation number `i` of a section. -/
def elfRel (elf : List UInt8) (sect : Elf32Shdr) (i : Nat) : Elf32Rel where
  offset := wordAt (elfBytes elf) (sect.offset + relSize * i)
  info := wordAt (elfBytes elf) (sect.offset + relSize * i + 4)

def r386None : Nat := 0
def r386Abs32 : Nat := 1
def r386Pc32 : Nat := 2
def r386GlobDat : Nat := 6
def r386JmpSlot : Nat := 7
def r386Relative : Nat := 8

/-- `symaddr - dataaddr` wraps. -/
def doReloc (relocs : List ElfReloc) (symaddr : Nat) (rel : Elf32Rel) (sect : Nat) :
    Except Int (Option RelocWrite) :=
  let dataaddr := translateAddr relocs sect rel.offset
  if dataaddr < 0x1000 then .error (-EUNSPEC)
  else if rel.type = r386None then .ok none
  else if rel.type = r386Abs32 then .ok (some ⟨dataaddr, fun old => u32 (old + symaddr)⟩)
  else if rel.type = r386Pc32 then
    .ok (some ⟨dataaddr, fun old => u32 (old + u32 (symaddr + (4294967296 - dataaddr)))⟩)
  else if rel.type = r386Relative then .ok (some ⟨dataaddr, translateAddr relocs sect⟩)
  else if rel.type = r386GlobDat ∨ rel.type = r386JmpSlot then
    .ok (some ⟨dataaddr, fun _ => symaddr⟩)
  else .error (-EUNSPEC)

/-- `_RELOC_NEED_SYM` -/
def Elf32Rel.NeedSym (rel : Elf32Rel) : Prop := rel.type ≠ r386None ∧ rel.type ≠ r386Relative

instance (rel : Elf32Rel) : Decidable rel.NeedSym := inferInstanceAs (Decidable (_ ∧ _))

section Link

variable (exports : List (List UInt8 × Nat)) (loaded : List ModuleEnt)

/-- `none` is `-ENOENT`. -/
def findUndefinedSymbol (ident : List UInt8) : Option Nat :=
  match moduleSymbolFindKernel exports ident with
  | some addr => some addr
  | none => loaded.findSome? fun ent => moduleSymbolFindModule ident ent.symbols

/-- The name of a symbol of the table of section `symtab`. -/
def elfSymName (elf : List UInt8) (symtab : Elf32Shdr) (sym : Elf32Sym) : List UInt8 :=
  stringAt elf ((elfSection elf symtab.link).offset + sym.name)

def findSymbol (elf : List UInt8) (symbols : List Symbol) (table index : Nat) : Except Int Nat :=
  let symtab := elfSection elf table
  if u32 (index * symtab.entsize) > symtab.size then .error (-EUNSPEC)
  else
    let sym := elfSym elf symtab index
    if sym.shndx = shnAbs then .ok sym.value
    else if sym.shndx = shnUndef then
      match findUndefinedSymbol exports loaded (elfSymName elf symtab sym) with
      | some addr => .ok addr
      | none => .error (-ENOENT)
    else
      match findInternalSymbol sym.shndx symbols with
      | some addr => .ok (u32 (addr + sym.value))
      | none => .error (-ENOENT)

/-- `symaddr` of `_handle_reloc`. -/
def relocSymaddr (elf : List UInt8) (symbols : List Symbol) (rel : Elf32Rel) (symtab : Nat) :
    Except Int Nat :=
  if rel.NeedSym then
    match findSymbol exports loaded elf symbols symtab rel.sym with
    | .ok symaddr => .ok symaddr
    | .error _ => .error (-ENOENT)
  else .ok 0

def handleReloc (elf : List UInt8) (relocs : List ElfReloc) (symbols : List Symbol)
    (rel : Elf32Rel) (symtab shndx : Nat) : Except Int (Option RelocWrite) := do
  let symaddr ← relocSymaddr exports loaded elf symbols rel symtab
  match doReloc relocs symaddr rel shndx with
  | .ok write => return write
  | .error _ => throw (-EUNSPEC)

/-- The relocations of one section; `none` when it divides by zero. -/
def applySection (elf : List UInt8) (relocs : List ElfReloc) (symbols : List Symbol)
    (sect : Elf32Shdr) : Option (Except Int (List RelocWrite)) :=
  if sect.type ≠ shtRel then some (.ok [])
  else if sect.entsize = 0 then none
  else
    let rels := (List.range (sect.size / sect.entsize)).map (elfRel elf sect)
    match rels.mapM fun rel =>
      handleReloc exports loaded elf relocs symbols rel sect.link sect.info with
    | .ok writes => some (.ok (writes.filterMap id))
    | .error _ => some (.error (-EUNSPEC))

/-- The words that are written, in order. -/
def moduleApplyRelocs (elf : List UInt8) (relocs : List ElfReloc) (symbols : List Symbol) :
    List Elf32Shdr → Option (Except Int (List RelocWrite))
  | [] => some (.ok [])
  | sect :: sects => do
      match ← applySection exports loaded elf relocs symbols sect with
      | .error e => return .error e
      | .ok writes => return (← moduleApplyRelocs elf relocs symbols sects).map (writes ++ ·)

/-! ## Installing -/

def lambdaModuleSectionName : List UInt8 :=
  cString ['.', 'l', 'a', 'm', 'b', 'd', 'a', '_', 'm', 'o', 'd', 'u', 'l', 'e', '_', 'd', 'a',
    't', 'a']

def lambdaModuleHeadMagic : Nat := 0xBAC0BEEF

/-- `module_read`, once the file is in memory. -/
def moduleRead (elf : List UInt8) : Except Int Unit :=
  if elfCheckHeader (elfHead elf) ≠ 0 then .error (-EUNSPEC)
  else
    match elfFindSection elf lambdaModuleSectionName with
    | .error _ => .error (-EUNSPEC)
    | .ok sect =>
        if wordAt (elfBytes elf) sect.offset ≠ lambdaModuleHeadMagic then .error (-EUNSPEC)
        else .ok ()

/-- What `_module_place` leaves: the table, and the words it has written. The
outer `none` is a division by zero, the inner one a null pointer. -/
def modulePlace (elf : List UInt8) (baseaddr : Nat) (symbols : List Symbol) :
    Option (Option (List Symbol × List RelocWrite)) :=
  match placeAreas ((elfSections elf).map Elf32Shdr.shdr) baseaddr with
  | none => some none
  | some a => do
      let relocs := placeRelocs a ((elfSections elf).map Elf32Shdr.shdr)
      let symbols := translateSymbols relocs symbols
      match ← moduleApplyRelocs exports loaded elf relocs symbols (elfSections elf),
          elfFindSectionIdx elf lambdaModuleSectionName with
      | .ok writes, .ok idx =>
          -- the header is read through its address all the same
          if translateAddr relocs idx 0 = 0 then return none
          else return some (symbols, writes)
      | _, _ => return none

end Link

/-- The space of the modules and `loaded_modules`. -/
structure Modules where
  space : ModuleState
  loaded : List ModuleEnt
deriving Repr, DecidableEq

def noModules : Modules := ⟨modulesInit, []⟩

/-- A file that was read, and whether the modules it asks for by name are there. -/
structure ModuleCall where
  file : List UInt8
  requirements : Bool
deriving Repr, DecidableEq

/-- `module_install`. A module that is refused for its requirements stays where it
was placed, and the base goes on. -/
def moduleInstallFile (exports : List (List UInt8 × Nat)) (s : Modules) (call : ModuleCall) :
    Option Modules :=
  match moduleRead call.file with
  | .error _ => some s
  | .ok _ => do
      match ← elfLoadSymbols call.file with
      | .error _ => return s
      | .ok symbols =>
          let placed ← modulePlace exports s.loaded call.file s.space.currentBase symbols
          let space ← moduleInstall s.space
            ⟨(elfSections call.file).map Elf32Shdr.shdr, placed.isSome⟩
          match placed, call.requirements with
          | some (symbols, _), true =>
              return ⟨space, s.loaded ++ [⟨symbols, call.file, s.space.currentBase⟩]⟩
          | _, _ => return { s with space := space }

/-! ## Definitions -/

/-- The symbols of the file, with `st_value` as their address. -/
def ModuleEnt.definitions (ent : ModuleEnt) : List Symbol :=
  match elfLoadSymbols ent.file with
  | some (.ok symbols) => symbols
  | _ => []

def ModuleEnt.relocs (ent : ModuleEnt) : List ElfReloc :=
  match placeAreas ((elfSections ent.file).map Elf32Shdr.shdr) ent.base with
  | some a => placeRelocs a ((elfSections ent.file).map Elf32Shdr.shdr)
  | none => []

def ModuleEnt.definition (ent : ModuleEnt) (ident : List UInt8) : Option Symbol :=
  ent.definitions.find? fun sym => sym.name = ident

/-- The first module that defines a symbol, and its definition. -/
def firstDefinition (loaded : List ModuleEnt) (ident : List UInt8) : Option (ModuleEnt × Symbol) :=
  loaded.findSome? fun ent => (ent.definition ident).map (ent, ·)

/-- A section that is not placed, and an absolute symbol's, is at zero. -/
def sectionBase (relocs : List ElfReloc) (sect : Nat) : Nat :=
  match getReloc relocs sect with
  | some r => r.addrVirt
  | none => 0

/-- Where a definition is. -/
def ModuleEnt.addrOf (ent : ModuleEnt) (sym : Symbol) : Nat :=
  u32 (sectionBase ent.relocs sym.sect + sym.addr)

/-- The relocations of section `symtab` of the file refer to a symbol number
`index` that is undefined and has this name. -/
def UndefinedSymbol (elf : List UInt8) (symtab index : Nat) (ident : List UInt8) : Prop :=
  u32 (index * (elfSection elf symtab).entsize) ≤ (elfSection elf symtab).size ∧
    (elfSym elf (elfSection elf symtab) index).shndx = shnUndef ∧
    elfSymName elf (elfSection elf symtab) (elfSym elf (elfSection elf symtab) index) = ident

instance (elf : List UInt8) (symtab index : Nat) (ident : List UInt8) :
    Decidable (UndefinedSymbol elf symtab index ident) := inferInstanceAs (Decidable (_ ∧ _))

/-- The symbol does not end the table, before or after it is translated. -/
def Symbol.Listed (relocs : List ElfReloc) (sym : Symbol) : Prop :=
  sym.addr ≠ symbolsEnd ∧ (translateSymbol relocs sym).addr ≠ symbolsEnd

/-- The address of a symbol is not its offset any more, but there was none. -/
def Symbol.AtBase (relocs : List ElfReloc) (sym : Symbol) : Prop :=
  getReloc relocs sym.sect = none ∨ sym.addr = 0

instance (relocs : List ElfReloc) (sym : Symbol) : Decidable (sym.Listed relocs) :=
  inferInstanceAs (Decidable (_ ∧ _))

instance (relocs : List ElfReloc) (sym : Symbol) : Decidable (sym.AtBase relocs) :=
  inferInstanceAs (Decidable (_ ∨ _))

/-! ## Searching a translated table -/

section Search

variable {relocs : List ElfReloc} {ident : List UInt8}

theorem translateSymbol_name (relocs : List ElfReloc) (sym : Symbol) :
    (translateSymbol relocs sym).name = sym.name := by
  unfold translateSymbol
  split <;> rfl

/-- Names are as they were, so a table without the name has it nowhere. -/
theorem find_translated_none {symbols : List Symbol} (hne : ∀ sym ∈ symbols, sym.name ≠ ident) :
    moduleSymbolFindModule ident (translateSymbols relocs symbols) = none := by
  induction symbols with
  | nil => rfl
  | cons sym symbols ih =>
      obtain ⟨hname, hrest⟩ := List.forall_mem_cons.mp hne
      unfold translateSymbols
      split
      · rename_i hend
        exact if_pos hend
      · unfold moduleSymbolFindModule
        split
        · rfl
        · rw [translateSymbol_name, if_neg hname]
          exact ih hrest

/-- The first symbol of the name is found unless the table ends before. -/
theorem find_translated {sym : Symbol} (hsym : sym.name = ident) {rest : List Symbol} {addr : Nat}
    {before : List Symbol} (hne : ∀ z ∈ before, z.name ≠ ident) :
    moduleSymbolFindModule ident (translateSymbols relocs (before ++ sym :: rest)) = some addr ↔
      (∀ z ∈ before ++ [sym], z.Listed relocs) ∧ (translateSymbol relocs sym).addr = addr := by
  induction before with
  | nil =>
      simp only [List.nil_append, List.forall_mem_singleton, translateSymbols]
      split
      · rename_i hend
        simp [moduleSymbolFindModule, hend, Symbol.Listed]
      · rename_i hend
        unfold moduleSymbolFindModule
        split
        · rename_i hend'
          simp [Symbol.Listed, hend']
        · rename_i hend'
          rw [translateSymbol_name, if_pos hsym, Option.some_inj]
          exact (and_iff_right ⟨hend, hend'⟩).symm
  | cons z before ih =>
      obtain ⟨hname, hrest⟩ := List.forall_mem_cons.mp hne
      simp only [List.cons_append, List.forall_mem_cons, translateSymbols]
      split
      · rename_i hend
        simp [moduleSymbolFindModule, hend, Symbol.Listed]
      · rename_i hend
        unfold moduleSymbolFindModule
        split
        · rename_i hend'
          simp [Symbol.Listed, hend']
        · rename_i hend'
          rw [translateSymbol_name, if_neg hname, ih hrest, and_assoc]
          exact (and_iff_right ⟨hend, hend'⟩).symm

end Search

/-! ## Addresses of definitions -/

theorem placeReloc_addrVirt_lt {a : Areas} {sects : List (Shdr × Nat)} {o : Offsets}
    (h : ∀ r ∈ o.relocs, r.addrVirt < 4294967296) :
    ∀ r ∈ (sects.foldl (placeReloc a) o).relocs, r.addrVirt < 4294967296 := by
  induction sects generalizing o with
  | nil => exact h
  | cons sect sects ih =>
      rw [List.foldl_cons]
      refine ih ?_
      intro r hr
      cases htype : sect.1.type with
      | progbits =>
          rw [placeReloc, htype] at hr
          rcases List.mem_append.mp hr with hr | hr
          · exact h r hr
          · rw [List.mem_singleton.mp hr]
            exact u32_lt _
      | nobits =>
          rw [placeReloc, htype] at hr
          rcases List.mem_append.mp hr with hr | hr
          · exact h r hr
          · rw [List.mem_singleton.mp hr]
            exact u32_lt _
      | other =>
          rw [placeReloc, htype] at hr
          exact h r hr

section Address

variable {ent : ModuleEnt} {sym : Symbol}

theorem ModuleEnt.relocs_addrVirt_lt : ∀ r ∈ ent.relocs, r.addrVirt < 4294967296 := by
  unfold ModuleEnt.relocs
  split
  · exact placeReloc_addrVirt_lt nofun
  · nofun

theorem ModuleEnt.definitions_addr_lt (h : sym ∈ ent.definitions) : sym.addr < 4294967296 := by
  unfold ModuleEnt.definitions at h
  split at h
  · rename_i hload
    exact elfLoadSymbols_addr_lt hload h
  · cases h

/-- A translated symbol is where it was defined only if it is at its section. -/
theorem translateSymbol_eq_addrOf (h : sym ∈ ent.definitions) :
    (translateSymbol ent.relocs sym).addr = ent.addrOf sym ↔ sym.AtBase ent.relocs := by
  have hlt := ModuleEnt.definitions_addr_lt h
  unfold translateSymbol ModuleEnt.addrOf sectionBase Symbol.AtBase
  cases hreloc : getReloc ent.relocs sym.sect with
  | none =>
      simp only [true_or, iff_true]
      rw [Nat.zero_add, u32_of_lt hlt]
  | some r =>
      have hbase := ModuleEnt.relocs_addrVirt_lt r (List.mem_of_find?_eq_some hreloc)
      simp only [reduceCtorEq, false_or, u32]
      omega

end Address

/-! ## Runs -/

/-- The table of every loaded module is that of its file, translated. -/
def TablesInv (s : Modules) : Prop :=
  ∀ ent ∈ s.loaded, ent.symbols = translateSymbols ent.relocs ent.definitions

section Run

variable {exports : List (List UInt8 × Nat)} {s s' : Modules} {call : ModuleCall}

theorem modulePlace_symbols {loaded : List ModuleEnt} {elf : List UInt8} {base : Nat}
    {symbols symbols' : List Symbol} {writes : List RelocWrite}
    (h : modulePlace exports loaded elf base symbols = some (some (symbols', writes))) :
    ∃ a, placeAreas ((elfSections elf).map Elf32Shdr.shdr) base = some a ∧
      symbols' =
        translateSymbols (placeRelocs a ((elfSections elf).map Elf32Shdr.shdr)) symbols := by
  unfold modulePlace at h
  split at h
  · cases Option.some.inj h
  · rename_i a hplace
    obtain ⟨applied, -, h⟩ := Option.bind_eq_some_iff.mp h
    split at h
    · split at h
      · cases Option.some.inj h
      · obtain ⟨rfl, -⟩ := Prod.mk.inj (Option.some.inj (Option.some.inj h))
        exact ⟨a, hplace, rfl⟩
    · cases Option.some.inj h

/-- What a call does to the list: nothing, or the module is appended. -/
theorem moduleInstallFile_loaded (h : moduleInstallFile exports s call = some s') :
    s'.loaded = s.loaded ∨ ∃ symbols symbols' writes,
      elfLoadSymbols call.file = some (.ok symbols) ∧
      modulePlace exports s.loaded call.file s.space.currentBase symbols =
        some (some (symbols', writes)) ∧
      s'.loaded = s.loaded ++ [⟨symbols', call.file, s.space.currentBase⟩] := by
  unfold moduleInstallFile at h
  split at h
  · exact Or.inl (congrArg Modules.loaded (Option.some.inj h)).symm
  · obtain ⟨syms, hload, h⟩ := Option.bind_eq_some_iff.mp h
    split at h
    · exact Or.inl (congrArg Modules.loaded (Option.some.inj h)).symm
    · rename_i symbols
      obtain ⟨placed, hplaced, h⟩ := Option.bind_eq_some_iff.mp h
      obtain ⟨space, -, h⟩ := Option.bind_eq_some_iff.mp h
      split at h
      · rename_i symbols' writes _ _
        obtain rfl := Option.some.inj h
        exact Or.inr ⟨symbols, symbols', writes, hload, hplaced, rfl⟩
      · obtain rfl := Option.some.inj h
        exact Or.inl rfl

theorem TablesInv.step (h : TablesInv s) (hstep : moduleInstallFile exports s call = some s') :
    TablesInv s' := by
  intro ent hent
  rcases moduleInstallFile_loaded hstep with hsame | ⟨symbols, _, writes, hload, hplace, hloaded⟩
  · exact h ent (hsame ▸ hent)
  · rw [hloaded] at hent
    rcases List.mem_append.mp hent with hent | hent
    · exact h ent hent
    · obtain rfl := List.mem_singleton.mp hent
      obtain ⟨a, harea, rfl⟩ := modulePlace_symbols hplace
      simp only [ModuleEnt.relocs, ModuleEnt.definitions, hload, harea]

theorem tablesInv_of_exec {calls : List ModuleCall}
    (h : exec (moduleInstallFile exports) noModules calls = some s) : TablesInv s :=
  exec_inv (fun _ _ _ hinv hstep => TablesInv.step hinv hstep)
    (fun _ hent => absurd hent List.not_mem_nil) h

end Run

/-! ## Undefined symbols -/

section Resolve

variable {exports : List (List UInt8 × Nat)} {ident : List UInt8}

/-- The modules before the first one that defines the symbol do not have it. -/
theorem findUndefined_firstDefinition {ent : ModuleEnt} {sym : Symbol} {addr : Nat}
    (hfound : moduleSymbolFindModule ident ent.symbols = some addr) {loaded : List ModuleEnt}
    (hinv : ∀ ent ∈ loaded, ent.symbols = translateSymbols ent.relocs ent.definitions)
    (h : firstDefinition loaded ident = some (ent, sym)) :
    (loaded.findSome? fun ent => moduleSymbolFindModule ident ent.symbols) = some addr := by
  induction loaded with
  | nil => cases h
  | cons M loaded ih =>
      obtain ⟨htable, hrest⟩ := List.forall_mem_cons.mp hinv
      unfold firstDefinition at h
      rw [List.findSome?_cons] at h
      split at h
      · rename_i hdef
        obtain ⟨_, -, hpair⟩ := Option.map_eq_some_iff.mp hdef
        obtain rfl := Option.some.inj h
        obtain ⟨rfl, -⟩ := Prod.mk.inj hpair
        rw [List.findSome?_cons, hfound]
      · rename_i hdef
        have hnone := List.find?_eq_none.mp (Option.map_eq_none_iff.mp hdef)
        rw [List.findSome?_cons, htable,
          find_translated_none fun z hz => by simpa using hnone z hz]
        exact ih hrest h

theorem firstDefinition_mem {loaded : List ModuleEnt} {ent : ModuleEnt} {sym : Symbol}
    (h : firstDefinition loaded ident = some (ent, sym)) :
    ent ∈ loaded ∧ ent.definition ident = some sym := by
  obtain ⟨M, hmem, hdef⟩ := List.exists_of_findSome?_eq_some h
  obtain ⟨y, hy, hpair⟩ := Option.map_eq_some_iff.mp hdef
  obtain ⟨rfl, rfl⟩ := Prod.mk.inj hpair
  exact ⟨hmem, hy⟩

/-- What `_handle_reloc` takes for an undefined symbol. -/
theorem relocSymaddr_undefined {loaded : List ModuleEnt} {elf : List UInt8}
    {symbols : List Symbol} {rel : Elf32Rel} {symtab addr : Nat} (hneed : rel.NeedSym)
    (hund : UndefinedSymbol elf symtab rel.sym ident)
    (hfound : findUndefinedSymbol exports loaded ident = some addr) :
    relocSymaddr exports loaded elf symbols rel symtab = .ok addr := by
  obtain ⟨hbound, hundef, rfl⟩ := hund
  unfold relocSymaddr
  rw [if_pos hneed]
  unfold findSymbol
  simp only [Nat.not_lt.mpr hbound, if_false, hundef, hfound,
    show shnUndef ≠ shnAbs by decide, if_true]

end Resolve

/-- **The address of another module's symbol**: in every run of installs, an
undefined symbol that the kernel does not export is taken from the first loaded
module that defines it, at the address of the definition, exactly if the
definition is at the start of its section (or in none that is placed) and no
symbol up to it ends the table. -/
theorem undefined_symbol_addr_iff {exports : List (List UInt8 × Nat)} {calls : List ModuleCall}
    {s : Modules} (hrun : exec (moduleInstallFile exports) noModules calls = some s)
    {ident : List UInt8} (hkernel : moduleSymbolFindKernel exports ident = none)
    {ent : ModuleEnt} {sym : Symbol} (hfirst : firstDefinition s.loaded ident = some (ent, sym))
    {elf : List UInt8} {symbols : List Symbol} {rel : Elf32Rel} {symtab : Nat}
    (hneed : rel.NeedSym) (hund : UndefinedSymbol elf symtab rel.sym ident) :
    (relocSymaddr exports s.loaded elf symbols rel symtab = .ok (ent.addrOf sym) ∧
        moduleSymbolFindModule ident ent.symbols = some (ent.addrOf sym)) ↔
      (∀ z ∈ ent.definitions.takeWhile (·.name ≠ ident) ++ [sym], z.Listed ent.relocs) ∧
        sym.AtBase ent.relocs := by
  have hinv := tablesInv_of_exec hrun
  obtain ⟨hmem, hdef⟩ := firstDefinition_mem hfirst
  obtain ⟨hname, before, rest, hsplit, hbefore⟩ := List.find?_eq_some_iff_append.mp hdef
  have hsym : sym.name = ident := of_decide_eq_true hname
  have hne : ∀ z ∈ before, z.name ≠ ident := fun z hz => by simpa using hbefore z hz
  have htake : ent.definitions.takeWhile (·.name ≠ ident) = before := by
    rw [hsplit, List.takeWhile_append_of_pos fun z hz => decide_eq_true (hne z hz),
      List.takeWhile_cons_of_neg (by simpa using hsym), List.append_nil]
  have hin : sym ∈ ent.definitions := List.mem_of_find?_eq_some hdef
  have hsearch : moduleSymbolFindModule ident ent.symbols = some (ent.addrOf sym) ↔
      (∀ z ∈ before ++ [sym], z.Listed ent.relocs) ∧ sym.AtBase ent.relocs := by
    rw [hinv ent hmem, hsplit, find_translated hsym hne, translateSymbol_eq_addrOf hin]
  rw [htake, ← hsearch]
  refine and_iff_right_of_imp fun hfound => relocSymaddr_undefined hneed hund ?_
  unfold findUndefinedSymbol
  rw [hkernel]
  exact findUndefined_firstDefinition hfound hinv hfirst

/-! ## Two modules -/

def leHalf (n : Nat) : List UInt8 := [UInt8.ofNat n, UInt8.ofNat (n / 256)]

def leWords (ns : List Nat) : List UInt8 := ns.flatMap fun n => leHalf n ++ leHalf (n / 65536)

/-- A module of two words with one symbol, `f`, and one relocation, of the second
word. The sections are `.strtab`, `.symtab`, the module's own and the relocation's. -/
def linkImage (value shndx info : Nat) : List UInt8 :=
  [0x7F, 0x45, 0x4C, 0x46, 1] ++ List.replicate 11 0 ++ leHalf 1 ++ leHalf 3 ++
    leWords [1, 0, 0, 52, 0] ++ [52, 0, 0, 40, 4, 0].flatMap leHalf ++
    leWords [1, 3, 0, 0, 212, 40, 0, 0, 1, 0] ++ leWords [9, 2, 0, 0, 252, 16, 0, 0, 4, 16] ++
    leWords [17, 1, 3, 0, 268, 8, 0, 0, 4, 0] ++ leWords [0, 9, 0, 0, 276, 8, 1, 2, 4, 8] ++
    ([0] ++ cString ['.', 's', 't', 'r', 't', 'a', 'b'] ++ [0] ++
      cString ['.', 's', 'y', 'm', 't', 'a', 'b'] ++ [0] ++ lambdaModuleSectionName ++
      [0, 102, 0, 0]) ++
    (leWords [37, value, 4] ++ leHalf 0 ++ leHalf shndx) ++ leWords [lambdaModuleHeadMagic, 0] ++
    leWords [4, info]

/-- The modules once the one that defines `f` is in, at an offset in its section. -/
def linkState (value : Nat) : Modules :=
  ⟨⟨0xD0010000, [⟨[0xD0000000], []⟩]⟩,
    [⟨[⟨[102], 0xD0000000, 4, 2⟩], linkImage value 2 r386None, 0xD0000000⟩]⟩

/-- The module that refers to it. -/
def linkUser : List UInt8 := linkImage 0 shnUndef r386Abs32

/-- A definition at the start of its section. -/
theorem undefined_symbol_addr_start :
    relocSymaddr [] (linkState 0).loaded linkUser [] ⟨4, r386Abs32⟩ 1 = .ok 0xD0000000 := by
  have hrun : exec (moduleInstallFile []) noModules [⟨linkImage 0 2 r386None, true⟩] =
      some (linkState 0) := by decide +kernel
  have hfirst : firstDefinition (linkState 0).loaded [102] =
      some (⟨[⟨[102], 0xD0000000, 4, 2⟩], linkImage 0 2 r386None, 0xD0000000⟩,
        ⟨[102], 0, 4, 2⟩) := by decide +kernel
  exact ((undefined_symbol_addr_iff hrun rfl hfirst (by decide) (by decide +kernel)).mpr
    (by decide +kernel)).1

/-- And one a word behind it: both modules are installed, and the address that is
written is that of the section. -/
theorem undefined_symbol_off_start :
    exec (moduleInstallFile []) noModules [⟨linkImage 4 2 r386None, true⟩] = some (linkState 4) ∧
      ((moduleInstallFile [] (linkState 4) ⟨linkUser, true⟩).map (·.loaded.length)) = some 2 ∧
      moduleSymbolFindKernel [] [102] = none ∧ UndefinedSymbol linkUser 1 0 [102] ∧
      ∃ ent, firstDefinition (linkState 4).loaded [102] = some (ent, ⟨[102], 4, 4, 2⟩) ∧
        ent.addrOf ⟨[102], 4, 4, 2⟩ = 0xD0000004 ∧
        relocSymaddr [] (linkState 4).loaded linkUser [] ⟨4, r386Abs32⟩ 1 = .ok 0xD0000000 := by
  refine ⟨by decide +kernel, by decide +kernel, rfl, by decide +kernel,
    ⟨[⟨[102], 0xD0000000, 4, 2⟩], linkImage 4 2 r386None, 0xD0000000⟩, by decide +kernel,
    by decide +kernel, ?_⟩
  rfl

end LambdaOs
