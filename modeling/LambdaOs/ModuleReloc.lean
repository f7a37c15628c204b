import LambdaOs.ModuleFill

/-!
# Relocations are right

What the words of a module hold once `_module_place` of `mod/module.c` has
succeeded. A symbol's address is found by way of another symbol of the same
section, in the table that `_translate_symbol` has overwritten with the bases
of the sections; whichever symbol is found, the base is that of the section
(`findInternalSymbol_base`), so what is added is `S`.

The words are stored through the current table. To a reader of virtual memory
each store is a word put into a row of bytes (`relocStore_view`), and words
that do not overlap are put independently of each other (`putRelocs_spec`).
-/

namespace LambdaOs

/-! ## Words in a row of bytes -/

def putWord (b : Nat → Nat) (a w : Nat) : Nat → Nat := fun x =>
  if a ≤ x ∧ x < a + 4 then w / 256 ^ (x - a) % 256 else b x

theorem wordAt_congr {b b' : Nat → Nat} {a a' : Nat} (h : ∀ i < 4, b (a + i) = b' (a' + i)) :
    wordAt b a = wordAt b' a' := by
  have h0 := h 0 (by decide)
  have h1 := h 1 (by decide)
  have h2 := h 2 (by decide)
  have h3 := h 3 (by decide)
  simp only [Nat.add_zero] at h0
  simp only [wordAt, halfAt, Nat.add_assoc, Nat.reduceAdd, h0, h1, h2, h3]

theorem wordAt_bytes {b : Nat → Nat} {a w : Nat} (hw : w < 4294967296)
    (h : ∀ i < 4, b (a + i) = w / 256 ^ i % 256) : wordAt b a = w := by
  have h0 := h 0 (by decide)
  have h1 := h 1 (by decide)
  have h2 := h 2 (by decide)
  have h3 := h 3 (by decide)
  simp only [Nat.add_zero, Nat.reducePow] at h0 h1 h2 h3
  simp only [wordAt, halfAt, Nat.add_assoc, Nat.reduceAdd, h0, h1, h2, h3]
  omega

/-- One relocation. -/
def putReloc (b : Nat → Nat) (write : RelocWrite) : Nat → Nat :=
  putWord b write.addr (write.word (wordAt b write.addr))

/-- Two words that have no byte in common. -/
def WordsApart (a a' : Nat) : Prop := a + 4 ≤ a' ∨ a' + 4 ≤ a

instance (a a' : Nat) : Decidable (WordsApart a a') := inferInstanceAs (Decidable (_ ∨ _))

/-- Words that do not overlap are relocated as if each were alone. -/
theorem putRelocs_spec {writes : List RelocWrite}
    (hapart : writes.Pairwise fun w w' => WordsApart w.addr w'.addr) (b : Nat → Nat) :
    (∀ w ∈ writes, ∀ i < 4, writes.foldl putReloc b (w.addr + i) =
        w.word (wordAt b w.addr) / 256 ^ i % 256) ∧
      ∀ x, (∀ w ∈ writes, ¬ (w.addr ≤ x ∧ x < w.addr + 4)) → writes.foldl putReloc b x = b x := by
  induction writes generalizing b with
  | nil => exact ⟨nofun, fun _ _ => rfl⟩
  | cons write writes ih =>
    obtain ⟨hhead, hapart⟩ := List.pairwise_cons.mp hapart
    obtain ⟨hwords, hrest⟩ := ih hapart (putReloc b write)
    have hother : ∀ x, ¬ (write.addr ≤ x ∧ x < write.addr + 4) → putReloc b write x = b x :=
      fun x hx => if_neg hx
    rw [List.foldl_cons]
    refine ⟨fun w hw i hi => ?_, fun x hx => ?_⟩
    · rcases List.mem_cons.mp hw with rfl | hw
      · rw [hrest _ fun w' hw' => ?_]
        · rw [putReloc, putWord, if_pos (by omega), Nat.add_sub_cancel_left]
        · have := hhead w' hw'
          unfold WordsApart at this
          omega
      · rw [hwords w hw i hi]
        have hold : wordAt (putReloc b write) w.addr = wordAt b w.addr :=
          wordAt_congr fun j hj => hother _ (by
            have := hhead w hw
            unfold WordsApart at this
            omega)
        rw [hold]
    · obtain ⟨hne, hx⟩ := List.forall_mem_cons.mp hx
      rw [hrest x hx, hother x hne]

/-! ## Through the mapping -/

section View

variable {m : PageMem} {current : Nat} {V : Nat → Prop} {bytes bytes' b : Nat → Nat}

/-- The bytes at the addresses of `V`. -/
def Views (m : PageMem) (current : Nat) (V : Nat → Prop) (bytes b : Nat → Nat) : Prop :=
  ∀ v, V v → virtByte m current bytes v = some (b v)

/-- No two addresses of `V` are at one place. -/
def PlacesApart (m : PageMem) (current : Nat) (V : Nat → Prop) : Prop :=
  ∀ v w, V v → V w → translate m current v = translate m current w → v = w

theorem virtStore_view (hapart : PlacesApart m current V) (hview : Views m current V bytes b)
    {a c : Nat} (ha : V a) (h : virtStore m current bytes a c = some bytes') :
    Views m current V bytes' (Function.update b a c) := by
  have htrans : ∃ p, translate m current a = some p ∧ bytes' = Function.update bytes p c := by
    unfold virtStore at h
    split at h
    · rename_i flags frame hget
      split at h
      · cases h
      · exact ⟨frame + a % 4096, by rw [translate, hget], (Option.some.inj h).symm⟩
    · cases h
  obtain ⟨p, hp, rfl⟩ := htrans
  intro v hv
  obtain ⟨q, hq, hbyte⟩ := Option.map_eq_some_iff.mp (hview v hv)
  refine Option.map_eq_some_iff.mpr ⟨q, hq, ?_⟩
  by_cases hva : v = a
  · subst hva
    obtain rfl : q = p := Option.some.inj (hq.symm.trans hp)
    rw [Function.update_self, Function.update_self]
  · have hqp : q ≠ p := fun heq => hva (hapart v a hv ha (by rw [hq, hp, heq]))
    rw [Function.update_of_ne hqp, Function.update_of_ne hva, hbyte]

theorem putWord_eq_update (b : Nat → Nat) (a w : Nat) :
    putWord b a w = Function.update (Function.update (Function.update (Function.update b a
      (w % 256)) (a + 1) (w / 256 % 256)) (a + 2) (w / 65536 % 256)) (a + 3)
      (w / 16777216 % 256) := by
  funext x
  simp only [putWord, Function.update_apply]
  by_cases h0 : x = a
  · subst h0
    simp
  by_cases h1 : x = a + 1
  · subst h1
    simp
  by_cases h2 : x = a + 2
  · subst h2
    simp
  by_cases h3 : x = a + 3
  · subst h3
    simp
  · rw [if_neg (by omega), if_neg h3, if_neg h2, if_neg h1, if_neg h0]

theorem virtWord_view (hview : Views m current V bytes b) {a : Nat} (hV : ∀ i < 4, V (a + i))
    (hlt : a + 4 ≤ 4294967296) : virtWord m current bytes a = some (wordAt b a) := by
  have h0 : virtByte m current bytes a = some (b a) := hview _ (hV 0 (by omega))
  have h1 := hview _ (hV 1 (by omega))
  have h2 := hview _ (hV 2 (by omega))
  have h3 := hview _ (hV 3 (by omega))
  rw [virtWord, u32_of_lt (by omega), u32_of_lt (by omega), u32_of_lt (by omega),
    u32_of_lt (by omega), h0, h1, h2, h3]
  rfl

theorem relocStore_view (hapart : PlacesApart m current V) (hview : Views m current V bytes b)
    {write : RelocWrite} (hV : ∀ i < 4, V (write.addr + i)) (hlt : write.addr + 4 ≤ 4294967296)
    (h : relocStore m current bytes write = some bytes') :
    Views m current V bytes' (putReloc b write) := by
  obtain ⟨old, hold, h⟩ := Option.bind_eq_some_iff.mp h
  obtain rfl := Option.some.inj ((virtWord_view hview hV hlt).symm.trans hold)
  obtain ⟨bytes₁, h₁, h⟩ := Option.bind_eq_some_iff.mp h
  obtain ⟨bytes₂, h₂, h⟩ := Option.bind_eq_some_iff.mp h
  obtain ⟨bytes₃, h₃, h⟩ := Option.bind_eq_some_iff.mp h
  rw [u32_of_lt (by omega)] at h₁ h₂ h₃ h
  rw [putReloc, putWord_eq_update]
  exact virtStore_view hapart (virtStore_view hapart (virtStore_view hapart
    (virtStore_view hapart hview (hV 0 (by decide)) h₁) (hV 1 (by decide)) h₂)
    (hV 2 (by decide)) h₃) (hV 3 (by decide)) h

/-- All the relocations. -/
theorem relocStores_view (hapart : PlacesApart m current V) {writes : List RelocWrite}
    (hV : ∀ w ∈ writes, (∀ i < 4, V (w.addr + i)) ∧ w.addr + 4 ≤ 4294967296)
    (hview : Views m current V bytes b)
    (h : writes.foldlM (relocStore m current) bytes = some bytes') :
    Views m current V bytes' (writes.foldl putReloc b) := by
  induction writes generalizing bytes b with
  | nil =>
    obtain rfl := Option.some.inj h
    exact hview
  | cons write writes ih =>
    obtain ⟨⟨hwrite, hlt⟩, hV⟩ := List.forall_mem_cons.mp hV
    rw [List.foldlM_cons] at h
    obtain ⟨bytes₁, hone, h⟩ := Option.bind_eq_some_iff.mp h
    exact ih hV (relocStore_view hapart hview hwrite hlt hone) h

end View

/-! ## The relocations of a file -/

/-- The relocations of the SHT_REL sections, each with its section. -/
def relsOf (elf : List UInt8) (sects : List Elf32Shdr) : List (Elf32Shdr × Elf32Rel) :=
  (sects.filter fun sect => sect.type = shtRel).flatMap fun sect =>
    (List.range (sect.size / sect.entsize)).map fun i => (sect, elfRel elf sect i)

def allRels (elf : List UInt8) : List (Elf32Shdr × Elf32Rel) := relsOf elf (elfSections elf)

/-- Where a relocation's word is, the address `P`. -/
def relPlace (relocs : List ElfReloc) (x : Elf32Shdr × Elf32Rel) : Nat :=
  translateAddr relocs x.1.info x.2.offset

/-- What a relocation writes. -/
def relWrite (relocs : List ElfReloc) (symaddr : Nat) (x : Elf32Shdr × Elf32Rel) : RelocWrite where
  addr := relPlace relocs x
  word := fun old =>
    if x.2.type = r386Abs32 then u32 (old + symaddr)
    else u32 (old + u32 (symaddr + (4294967296 - relPlace relocs x)))

/-- The section of a symbol, or what else says where it is: the address `S`. -/
def SymbolAt (exports : List (List UInt8 × Nat)) (loaded : List ModuleEnt) (elf : List UInt8)
    (relocs : List ElfReloc) (x : Elf32Shdr × Elf32Rel) (addr : Nat) : Prop :=
  let symtab := elfSection elf x.1.link
  let sym := elfSym elf symtab x.2.sym
  if sym.shndx = shnAbs then addr = sym.value
  else if sym.shndx = shnUndef then
    findUndefinedSymbol exports loaded (elfSymName elf symtab sym) = some addr
  else ∃ r, getReloc relocs sym.shndx = some r ∧ addr = u32 (r.addrVirt + sym.value)

section Rels

variable {exports : List (List UInt8 × Nat)} {loaded : List ModuleEnt} {elf : List UInt8}
  {relocs : List ElfReloc} {symbols : List Symbol}

theorem mapM_eq_ok {ε α β : Type} {f : α → Except ε β} {l : List α} {ys : List β}
    (h : l.mapM f = .ok ys) : List.Forall₂ (fun x y => f x = .ok y) l ys := by
  induction l generalizing ys with
  | nil =>
    obtain rfl := Except.ok.inj h
    exact .nil
  | cons x l ih =>
    rw [List.mapM_cons] at h
    obtain ⟨y, hy, h⟩ := Except.bind_eq_ok_iff.mp h
    obtain ⟨ys', hys, h⟩ := Except.bind_eq_ok_iff.mp h
    obtain rfl := Except.ok.inj h
    exact .cons hy (ih hys)

/-- When it succeeds, every relocation of the file is handled, in order. -/
theorem applyRelocs_ok {sects : List Elf32Shdr} {writes : List RelocWrite}
    (h : moduleApplyRelocs exports loaded elf relocs symbols sects = some (.ok writes)) :
    ∃ ows, List.Forall₂ (fun x ow =>
        handleReloc exports loaded elf relocs symbols x.2 x.1.link x.1.info = .ok ow)
      (relsOf elf sects) ows ∧ writes = ows.filterMap id := by
  induction sects generalizing writes with
  | nil =>
    obtain rfl := Except.ok.inj (Option.some.inj h)
    exact ⟨[], .nil, rfl⟩
  | cons sect sects ih =>
    unfold moduleApplyRelocs at h
    obtain ⟨applied, hsect, h⟩ := Option.bind_eq_some_iff.mp h
    cases applied with
    | error err => cases Option.some.inj h
    | ok first =>
      obtain ⟨rest, hrest, h⟩ := Option.bind_eq_some_iff.mp h
      cases rest with
      | error err => cases Option.some.inj h
      | ok rest =>
        obtain rfl := Except.ok.inj (Option.some.inj h)
        obtain ⟨ows, hall, rfl⟩ := ih hrest
        unfold applySection at hsect
        by_cases htype : sect.type = shtRel
        · rw [if_neg (not_not.mpr htype)] at hsect
          split at hsect
          · cases hsect
          · dsimp only at hsect
            split at hsect
            · rename_i ows' hmap
              obtain rfl := Except.ok.inj (Option.some.inj hsect)
              have hthis := mapM_eq_ok hmap
              refine ⟨ows' ++ ows, ?_, List.filterMap_append.symm⟩
              rw [relsOf, List.filter_cons_of_pos (by simpa using htype), List.flatMap_cons]
              rw [List.forall₂_map_left_iff] at hthis
              exact List.rel_append (List.forall₂_map_left_iff.mpr hthis) hall
            · cases Option.some.inj hsect
        · rw [if_pos htype] at hsect
          obtain rfl := Except.ok.inj (Option.some.inj hsect)
          refine ⟨ows, ?_, rfl⟩
          rw [relsOf, List.filter_cons_of_neg (by simpa using htype)]
          exact hall

/-- Whichever symbol of the section is found, its address is the base. -/
theorem findInternalSymbol_base {shndx addr : Nat} {r : ElfReloc}
    (hsect : getReloc relocs shndx = some r)
    (hvalues : ∀ sym ∈ symbols, sym.addr ≠ symbolsEnd)
    (h : findInternalSymbol shndx (translateSymbols relocs symbols) = some addr) :
    addr = r.addrVirt := by
  induction symbols with
  | nil => cases h
  | cons sym symbols ih =>
    obtain ⟨hvalue, hvalues⟩ := List.forall_mem_cons.mp hvalues
    rw [translateSymbols, if_neg hvalue, findInternalSymbol] at h
    split at h
    · cases h
    · split at h
      · rename_i hsame
        unfold translateSymbol at h hsame
        split at h
        · rename_i hnone
          rw [hnone] at hsame
          rw [hsame, hsect] at hnone
          cases hnone
        · rename_i r' hsome
          rw [hsome] at hsame
          rw [show sym.sect = shndx from hsame, hsect] at hsome
          obtain rfl := Option.some.inj hsome
          exact (Option.some.inj h).symm
      · exact ih hvalues h

theorem findSymbol_at {x : Elf32Shdr × Elf32Rel} {symaddr addr : Nat}
    (hvalues : ∀ sym ∈ symbols, sym.addr ≠ symbolsEnd)
    (hat : SymbolAt exports loaded elf relocs x addr)
    (h : findSymbol exports loaded elf (translateSymbols relocs symbols) x.1.link x.2.sym =
      .ok symaddr) : symaddr = addr := by
  unfold findSymbol at h
  unfold SymbolAt at hat
  dsimp only at h hat
  split at h
  · cases h
  split at h
  · rename_i habs
    rw [if_pos habs] at hat
    exact (hat.trans (Except.ok.inj h)).symm
  rename_i habs
  rw [if_neg habs] at hat
  split at h
  · rename_i hundef
    rw [if_pos hundef] at hat
    rw [hat] at h
    exact (Except.ok.inj h).symm
  · rename_i hundef
    rw [if_neg hundef] at hat
    obtain ⟨r, hr, rfl⟩ := hat
    split at h
    · rename_i base hfound
      rw [findInternalSymbol_base hr hvalues hfound] at h
      exact (Except.ok.inj h).symm
    · cases h

/-- What is written for a relocation that is handled. -/
theorem handleReloc_ok {x : Elf32Shdr × Elf32Rel} {ow : Option RelocWrite}
    (htype : x.2.type = r386None ∨ x.2.type = r386Abs32 ∨ x.2.type = r386Pc32)
    (h : handleReloc exports loaded elf relocs symbols x.2 x.1.link x.1.info = .ok ow) :
    if x.2.NeedSym then ∃ symaddr,
      findSymbol exports loaded elf symbols x.1.link x.2.sym = .ok symaddr ∧
        ow = some (relWrite relocs symaddr x)
    else ow = none := by
  obtain ⟨symaddr, hsym, h⟩ := Except.bind_eq_ok_iff.mp h
  unfold relocSymaddr at hsym
  have hwrite : ∃ write, doReloc relocs symaddr x.2 x.1.info = .ok write ∧ ow = write := by
    split at h
    · rename_i write hwrite
      exact ⟨write, hwrite, (Except.ok.inj h).symm⟩
    · cases h
  obtain ⟨write, hwrite, rfl⟩ := hwrite
  unfold doReloc at hwrite
  dsimp only at hwrite
  split at hwrite
  case isTrue => cases hwrite
  rcases htype with htype | htype | htype
  · have hneed : ¬ x.2.NeedSym := fun hneed => hneed.1 htype
    rw [if_neg hneed]
    rw [if_pos htype] at hwrite
    exact (Except.ok.inj hwrite).symm
  all_goals
    have hneed : x.2.NeedSym := ⟨by rw [htype]; decide, by rw [htype]; decide⟩
    rw [if_pos hneed] at hsym ⊢
    split at hsym
    case h_2 => cases hsym
    rename_i found hfound
    obtain rfl := Except.ok.inj hsym
    refine ⟨found, hfound, ?_⟩
    rw [if_neg (show x.2.type ≠ r386None by rw [htype]; decide)] at hwrite
  · rw [if_pos htype] at hwrite
    simp only [← Except.ok.inj hwrite, relWrite, relPlace, htype, if_true]
  · rw [if_neg (show x.2.type ≠ r386Abs32 by rw [htype]; decide), if_pos htype] at hwrite
    simp only [← Except.ok.inj hwrite, relWrite, relPlace, htype,
      show r386Pc32 ≠ r386Abs32 by decide, if_false]

/-- The address that `_find_symbol` gives. -/
def symaddrOf (exports : List (List UInt8 × Nat)) (loaded : List ModuleEnt) (elf : List UInt8)
    (symbols : List Symbol) (x : Elf32Shdr × Elf32Rel) : Nat :=
  match findSymbol exports loaded elf symbols x.1.link x.2.sym with
  | .ok symaddr => symaddr
  | .error _ => 0

/-- The words that are written, one for each relocation that needs a symbol. -/
theorem applied_writes {writes : List RelocWrite}
    (htypes : ∀ x ∈ allRels elf,
      x.2.type = r386None ∨ x.2.type = r386Abs32 ∨ x.2.type = r386Pc32)
    (h : moduleApplyRelocs exports loaded elf relocs symbols (elfSections elf) =
      some (.ok writes)) :
    writes = ((allRels elf).filter fun x => x.2.NeedSym).map (fun x =>
        relWrite relocs (symaddrOf exports loaded elf symbols x) x) ∧
      ∀ x ∈ allRels elf, x.2.NeedSym → ∃ symaddr,
        findSymbol exports loaded elf symbols x.1.link x.2.sym = .ok symaddr := by
  obtain ⟨ows, hall, rfl⟩ := applyRelocs_ok h
  rw [← allRels] at hall
  clear h
  generalize allRels elf = xs at *
  induction hall with
  | nil => exact ⟨rfl, nofun⟩
  | @cons x ow xs ows hhead _ ih =>
    obtain ⟨htype, htypes⟩ := List.forall_mem_cons.mp htypes
    obtain ⟨hwrites, hfound⟩ := ih htypes
    have hok := handleReloc_ok htype hhead
    by_cases hneed : x.2.NeedSym
    · rw [if_pos hneed] at hok
      obtain ⟨symaddr, hsym, rfl⟩ := hok
      have hof : symaddrOf exports loaded elf symbols x = symaddr := by rw [symaddrOf, hsym]
      rw [List.filter_cons_of_pos (by simpa using hneed), List.map_cons, hof, ← hwrites]
      exact ⟨rfl, List.forall_mem_cons.mpr ⟨fun _ => ⟨symaddr, hsym⟩, hfound⟩⟩
    · rw [if_neg hneed] at hok
      subst hok
      rw [List.filter_cons_of_neg (by simpa using hneed), ← hwrites]
      exact ⟨rfl, List.forall_mem_cons.mpr ⟨fun h => absurd h hneed, hfound⟩⟩

end Rels

/-! ## A module -/

/-- Where the sections of a file are, placed at `base`. -/
def moduleRelocs (elf : List UInt8) (base : Nat) : List ElfReloc :=
  ModuleEnt.relocs ⟨[], elf, base⟩

/-- The relocations of a module are in order. The alignments are those of the
format. -/
structure ModuleElf (elf : List UInt8) (base : Nat) : Prop where
  aligned : ∀ sect ∈ elfSections elf, sect.addralign = 0 ∨ ∃ k, sect.addralign = 2 ^ k
  inMemory : ∀ r ∈ moduleRelocs elf base, r.InMemory
  apart : (moduleRelocs elf base).Pairwise ElfReloc.Apart
  values : ∀ sym ∈ ModuleEnt.definitions ⟨[], elf, base⟩, sym.addr ≠ symbolsEnd
  types : ∀ x ∈ allRels elf, x.2.type = r386None ∨ x.2.type = r386Abs32 ∨ x.2.type = r386Pc32
  inside : ∀ x ∈ allRels elf, x.2.NeedSym →
    ∃ r, getReloc (moduleRelocs elf base) x.1.info = some r ∧ x.2.offset + 4 ≤ r.size
  words : ((allRels elf).filter fun x => x.2.NeedSym).Pairwise fun x y =>
    WordsApart (relPlace (moduleRelocs elf base) x) (relPlace (moduleRelocs elf base) y)

/-- What the module's memory holds, `A` being the word the file has. -/
structure Relocated (exports : List (List UInt8 × Nat)) (loaded : List ModuleEnt)
    (elf : List UInt8) (base : Nat) (m : PageMem) (current : Nat) (bytes : Nat → Nat) :
    Prop where
  abs32 : ∀ x ∈ allRels elf, x.2.type = r386Abs32 → ∀ addr,
    SymbolAt exports loaded elf (moduleRelocs elf base) x addr →
      virtWord m current bytes (relPlace (moduleRelocs elf base) x) =
        some (u32 (wordAt (sectByte elf x.1.info) x.2.offset + addr))
  pc32 : ∀ x ∈ allRels elf, x.2.type = r386Pc32 → ∀ addr,
    SymbolAt exports loaded elf (moduleRelocs elf base) x addr →
      virtWord m current bytes (relPlace (moduleRelocs elf base) x) =
        some (u32 (wordAt (sectByte elf x.1.info) x.2.offset + addr +
          (4294967296 - relPlace (moduleRelocs elf base) x)))
  rest : ∀ r ∈ moduleRelocs elf base, ∀ o < r.size,
    (∀ x ∈ allRels elf, x.2.NeedSym → ¬ (relPlace (moduleRelocs elf base) x ≤ r.addrVirt + o ∧
      r.addrVirt + o < relPlace (moduleRelocs elf base) x + 4)) →
    virtByte m current bytes (r.addrVirt + o) = some (sectByte elf r.sect o)

section Module

variable {H : Type} {A : PageHeap H} {kernel current base : Nat} {tabs : List Nat}
  {exports : List (List UInt8 × Nat)} {loaded : List ModuleEnt} {elf : List UInt8}
  {s s' : Machine H} {symbols symbols' : List Symbol}

/-- What a call has done when it succeeds. -/
theorem modulePlaceMem_ok
    (h : modulePlaceMem A kernel exports loaded elf base symbols current s =
      some (some (symbols', s'))) :
    ∃ z progPhys nobitsPhys s₁ relocs s₂ writes,
      sizeSections (elfSections elf) base = some z ∧
      allocAreas A kernel current z s = some (progPhys, nobitsPhys, s₁) ∧
      fillAreas elf z.areas progPhys nobitsPhys s₁ = some (relocs, s₂) ∧
      moduleApplyRelocs exports loaded elf relocs (translateSymbols relocs symbols)
        (elfSections elf) = some (.ok writes) ∧
      writes.foldlM (relocStore s₂.mmu.mem current) s₂.bytes = some s'.bytes ∧
      s'.mmu = s₂.mmu := by
  unfold modulePlaceMem at h
  split at h
  · cases Option.some.inj h
  rename_i z hz
  obtain ⟨⟨progPhys, nobitsPhys, s₁⟩, halloc, h⟩ := Option.bind_eq_some_iff.mp h
  obtain ⟨⟨relocs, s₂⟩, hfill, h⟩ := Option.bind_eq_some_iff.mp h
  obtain ⟨applied, happly, h⟩ := Option.bind_eq_some_iff.mp h
  split at h
  · cases Option.some.inj h
  rename_i writes
  obtain ⟨bytes, hstores, h⟩ := Option.bind_eq_some_iff.mp h
  split at h
  · cases Option.some.inj h
  split at h
  · cases Option.some.inj h
  · obtain ⟨-, rfl⟩ := Prod.mk.inj (Option.some.inj (Option.some.inj h))
    exact ⟨z, progPhys, nobitsPhys, s₁, relocs, s₂, writes, hz, halloc, hfill, happly, hstores, rfl⟩

/-- The addresses of the placed sections. -/
def InSection (relocs : List ElfReloc) (v : Nat) : Prop :=
  ∃ r ∈ relocs, ∃ o < r.size, v = r.addrVirt + o

/-- A word of a relocation: its bytes are those of its section. -/
theorem ModuleElf.place (helf : ModuleElf elf base) {x : Elf32Shdr × Elf32Rel}
    (hx : x ∈ allRels elf) (hneed : x.2.NeedSym) :
    ∃ r ∈ moduleRelocs elf base, r.sect = x.1.info ∧
      relPlace (moduleRelocs elf base) x = r.addrVirt + x.2.offset ∧ x.2.offset + 4 ≤ r.size ∧
      r.addrVirt + r.size ≤ 4294967296 := by
  obtain ⟨r, hr, hin⟩ := helf.inside x hx hneed
  have hmem := List.mem_of_find?_eq_some hr
  have hsect : decide (r.sect = x.1.info) = true :=
    List.find?_some (p := fun r : ElfReloc => decide (r.sect = x.1.info)) hr
  have hrange := (helf.inMemory r hmem (by omega)).2
  refine ⟨r, hmem, of_decide_eq_true hsect, ?_, hin, hrange⟩
  rw [relPlace, translateAddr, hr]
  exact u32_of_lt (by omega)

/-- The writes of relocations in order, into a row of bytes that has every
section as it is in the file. -/
theorem relocated_of_view (helf : ModuleElf elf base) (hload : elfLoadSymbols elf =
      some (.ok symbols)) {m : PageMem} {bytes b : Nat → Nat} {writes : List RelocWrite}
    (happly : moduleApplyRelocs exports loaded elf (moduleRelocs elf base)
      (translateSymbols (moduleRelocs elf base) symbols) (elfSections elf) = some (.ok writes))
    (hbytes : ∀ r ∈ moduleRelocs elf base, ∀ o < r.size,
      b (r.addrVirt + o) = sectByte elf r.sect o)
    (hview : Views m current (InSection (moduleRelocs elf base)) bytes
      (writes.foldl putReloc b)) :
    Relocated exports loaded elf base m current bytes := by
  have hvalues : ∀ sym ∈ symbols, sym.addr ≠ symbolsEnd := by
    have hdefs : ModuleEnt.definitions ⟨[], elf, base⟩ = symbols := by
      rw [ModuleEnt.definitions, hload]
    exact hdefs ▸ helf.values
  obtain ⟨rfl, hfound⟩ := applied_writes helf.types happly
  have hapart : (((allRels elf).filter fun x => x.2.NeedSym).map fun x =>
      relWrite (moduleRelocs elf base) (symaddrOf exports loaded elf
        (translateSymbols (moduleRelocs elf base) symbols) x) x).Pairwise
      fun w w' => WordsApart w.addr w'.addr := List.pairwise_map.mpr helf.words
  obtain ⟨hwords, hrest⟩ := putRelocs_spec hapart b
  generalize List.foldl putReloc b _ = b' at hview hwords hrest
  -- a relocated word, whatever its type
  have hword : ∀ x ∈ allRels elf, x.2.NeedSym → ∀ addr,
      SymbolAt exports loaded elf (moduleRelocs elf base) x addr →
        virtWord m current bytes (relPlace (moduleRelocs elf base) x) =
          some ((relWrite (moduleRelocs elf base) addr x).word
            (wordAt (sectByte elf x.1.info) x.2.offset)) := by
    intro x hx hneed addr hat
    obtain ⟨symaddr, hsym⟩ := hfound x hx hneed
    have hof : symaddrOf exports loaded elf (translateSymbols (moduleRelocs elf base) symbols) x =
        addr := by
      rw [symaddrOf, hsym]
      exact findSymbol_at hvalues hat hsym
    have hbyte := hwords _ (List.mem_map_of_mem (List.mem_filter.mpr ⟨hx, by simpa using hneed⟩))
    rw [hof] at hbyte
    obtain ⟨r, hr, hsect, hplace, hin, hrange⟩ := helf.place hx hneed
    have hold : wordAt b (relPlace (moduleRelocs elf base) x) =
        wordAt (sectByte elf x.1.info) x.2.offset := wordAt_congr fun i hi => by
      rw [hplace, Nat.add_assoc, hbytes r hr _ (by omega), hsect]
    rw [virtWord_view hview ?_ (by omega)]
    · refine congrArg some (wordAt_bytes ?_ fun i hi => ?_)
      · dsimp only [relWrite]
        split <;> exact u32_lt _
      · rw [← hold]
        exact hbyte i hi
    · intro i hi
      exact ⟨r, hr, x.2.offset + i, by omega, by rw [hplace, Nat.add_assoc]⟩
  refine ⟨fun x hx htype addr hat => ?_, fun x hx htype addr hat => ?_, fun r hr o ho hout => ?_⟩
  · rw [hword x hx ⟨by rw [htype]; decide, by rw [htype]; decide⟩ addr hat]
    simp only [relWrite, htype, if_true]
  · rw [hword x hx ⟨by rw [htype]; decide, by rw [htype]; decide⟩ addr hat]
    simp only [relWrite, htype, show r386Pc32 ≠ r386Abs32 by decide, if_false, u32, Option.some_inj]
    omega
  · rw [hview _ ⟨r, hr, o, ho, rfl⟩, hrest _ ?_, hbytes r hr o ho]
    intro w hw
    obtain ⟨x, hx, rfl⟩ := List.mem_map.mp hw
    obtain ⟨hx, hneed⟩ := List.mem_filter.mp hx
    exact hout x hx (by simpa using hneed)

/-- **Relocation is right for every module**: whatever is loaded before it and
whatever memory holds, where the blocks can be written at their own addresses, as
the code does. -/
theorem module_relocated (ht : Tables A kernel tabs s.mmu) (hcur : current ∈ tabs)
    (hk : kernel ∈ tabs) (hbase : base % 0x1000 = 0) (hlt : base < 4294967296)
    (helf : ModuleElf elf base) (hload : elfLoadSymbols elf = some (.ok symbols))
    (h : modulePlaceMem A kernel exports loaded elf base symbols current s =
      some (some (symbols', s')))
    (_hdirect : GrantsDirect A current s.mmu s'.mmu) :
    Relocated exports loaded elf base s'.mmu.mem current s'.bytes := by
  obtain ⟨z, progPhys, nobitsPhys, s₁, relocs, s₂, writes, hz, halloc, hfill, happly, hstores,
    hmmu⟩ := modulePlaceMem_ok h
  have hareas : placeAreas ((elfSections elf).map Elf32Shdr.shdr) base = some z.areas := by
    rw [← sizeSections_areas, hz, Option.map_some]
  have hrelocs : moduleRelocs elf base =
      placeRelocs z.areas ((elfSections elf).map Elf32Shdr.shdr) := by
    rw [moduleRelocs, ModuleEnt.relocs, hareas]
  have hlaid := fileLaid_of_ranges hbase hlt helf.aligned hz (hrelocs ▸ helf.inMemory)
  rw [hlaid.relocs] at hrelocs
  have hmapped := allocAreas_spec ht hcur hk hlaid hbase hlt halloc
  obtain ⟨rfl, -, hfilled⟩ := areas_filled hmapped hlaid hbase hlt (hrelocs ▸ helf.apart) hfill
  rw [← hrelocs] at hfilled happly
  rw [hmmu]
  -- what the sections read as before any word is relocated
  let b : Nat → Nat := fun v => (virtByte s₂.mmu.mem current s₂.bytes v).getD 0
  have hbyte : ∀ r ∈ moduleRelocs elf base, ∀ o < r.size,
      virtByte s₂.mmu.mem current s₂.bytes (r.addrVirt + o) = some (sectByte elf r.sect o) := by
    intro r hr o ho
    obtain ⟨p, hp, hval⟩ := hfilled.placed r hr o ho
    rw [virtByte, hp, Option.map_some, hval]
  have hbytes : ∀ r ∈ moduleRelocs elf base, ∀ o < r.size,
      b (r.addrVirt + o) = sectByte elf r.sect o := fun r hr o ho => by
    dsimp only [b]
    rw [hbyte r hr o ho, Option.getD_some]
  refine relocated_of_view helf hload happly hbytes (relocStores_view ?_ ?_ ?_ hstores)
  · rintro v w ⟨r, hr, o, ho, rfl⟩ ⟨r', hr', o', ho', rfl⟩ heq
    exact hfilled.inj r hr o ho r' hr' o' ho' heq
  · intro w hw
    obtain ⟨rfl, -⟩ := applied_writes helf.types happly
    obtain ⟨x, hx, rfl⟩ := List.mem_map.mp hw
    obtain ⟨hx, hneed⟩ := List.mem_filter.mp hx
    obtain ⟨r, hr, -, hplace, hin, hrange⟩ := helf.place hx (by simpa using hneed)
    dsimp only [relWrite]
    rw [hplace]
    exact ⟨fun i hi => ⟨r, hr, x.2.offset + i, by omega, Nat.add_assoc ..⟩, by omega⟩
  · rintro v ⟨r, hr, o, ho, rfl⟩
    rw [hbyte r hr o ho, hbytes r hr o ho]

end Module

/-- A module whose second word is the address of that word. -/
def selfImage : List UInt8 := linkImage 4 2 r386Abs32

theorem selfImage_aligned : ∀ sect ∈ elfSections selfImage,
    sect.addralign = 0 ∨ ∃ k, sect.addralign = 2 ^ k := by
  have hall : ∀ sect ∈ elfSections selfImage,
      sect.addralign = 0 ∨ sect.addralign = 2 ^ 0 ∨ sect.addralign = 2 ^ 2 := by decide +kernel
  intro sect hsect
  rcases hall sect hsect with h | h | h
  · exact .inl h
  · exact .inr ⟨0, h⟩
  · exact .inr ⟨2, h⟩

theorem selfImage_relocs : moduleRelocs selfImage 0xD0000000 = [⟨2, 0xD0000000, 8⟩] := by
  decide +kernel

theorem selfImage_rels : (allRels selfImage).map (fun x => (x.1.info, x.2)) =
    [(2, ⟨4, r386Abs32⟩)] := by decide +kernel

theorem selfImage_moduleElf : ModuleElf selfImage 0xD0000000 := by
  have hrels : ∀ x ∈ allRels selfImage, x.1.info = 2 ∧ x.2 = ⟨4, r386Abs32⟩ := by
    intro x hx
    have hmem := List.mem_map_of_mem (f := fun x => (x.1.info, x.2)) hx
    rw [selfImage_rels] at hmem
    exact Prod.mk.inj (List.mem_singleton.mp hmem)
  have hlen : (allRels selfImage).length = 1 := by
    rw [← List.length_map, selfImage_rels, List.length_singleton]
  obtain ⟨x, hx⟩ := List.length_eq_one_iff.mp hlen
  refine ⟨selfImage_aligned, ?_, ?_, by decide +kernel, fun x hx => ?_, fun x hx _ => ?_, ?_⟩
  · rw [selfImage_relocs]
    decide
  · rw [selfImage_relocs]
    exact List.pairwise_singleton ..
  · rw [(hrels x hx).2]
    decide
  · rw [(hrels x hx).1, (hrels x hx).2, selfImage_relocs]
    exact ⟨_, rfl, by decide⟩
  · rw [hx]
    exact (List.pairwise_singleton ..).sublist List.filter_sublist

theorem module_relocated_self :
    ∃ symbols s, modulePlaceMem bootKernelHeap 0x2000 [] [] selfImage 0xD0000000
        [⟨[102], 4, 4, 2⟩] 0x1000 ⟨directMmu, fun _ => 7⟩ = some (some (symbols, s)) ∧
      Relocated [] [] selfImage 0xD0000000 s.mmu.mem 0x1000 s.bytes ∧
      virtWord s.mmu.mem 0x1000 s.bytes 0xD0000004 = some 0xD0000004 := by
  have hrun : ((modulePlaceMem bootKernelHeap 0x2000 [] [] selfImage 0xD0000000
      [⟨[102], 4, 4, 2⟩] 0x1000 ⟨directMmu, fun _ => 7⟩).any fun placed => placed.any fun p =>
        virtWord p.2.mmu.mem 0x1000 p.2.bytes 0xD0000004 = some 0xD0000004 &&
          (List.range 16).all fun k => access p.2.mmu.mem 0x1000 (0x400000 + 4096 * k)
            mmuFlagWrite = some (0x400000 + 4096 * k)) = true := by
    decide +kernel
  obtain ⟨placed, hplaced, hany⟩ := (Option.any_eq_true _ _).mp hrun
  obtain ⟨⟨symbols, s⟩, rfl, hany⟩ := (Option.any_eq_true _ _).mp hany
  obtain ⟨hword, hpages⟩ := Bool.and_eq_true_iff.mp hany
  have hload : elfLoadSymbols selfImage = some (.ok [⟨[102], 4, 4, 2⟩]) := by decide +kernel
  have hdirect : GrantsDirect bootKernelHeap 0x1000 directMmu s.mmu := by
    intro x hfree _
    have hin : 0x400000 ≤ x ∧ x < 0x410000 := by
      by_contra hout
      exact hfree (ByteHeld.outside directMmu.heap.2 (by omega))
    have hpage := of_decide_eq_true (List.all_eq_true.mp hpages ((x - 0x400000) / 4096)
      (List.mem_range.mpr (by omega)))
    have hpage := access_page hpage (show _ + x % 4096 < 4096 by omega)
    have hx : 0x400000 + 4096 * ((x - 0x400000) / 4096) + x % 4096 = x := by omega
    rwa [hx] at hpage
  have htables : Tables bootKernelHeap 0x2000 [0x1000, 0x2000] directMmu :=
    directMmu_spec.1.of_served
  exact ⟨symbols, s, hplaced, module_relocated htables (by simp) (by simp) rfl (by decide)
    selfImage_moduleElf hload hplaced hdirect, of_decide_eq_true hword⟩

end LambdaOs
