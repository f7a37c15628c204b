import LambdaOs.AllocRun
import LambdaOs.Paging

/-!
# The kernel heap hands out pages

The heap of `Alloc`, with its invariant, is a `PageHeap`: a byte is held when
it is in no hole. Bookkeeping blocks are assumed to read as invalid
entries, and requests not to wrap around; a request outside this, or one that
panics, does not return.
-/

namespace LambdaOs

section KernelHeap

variable {lo hi : Nat}

/-- The byte at `x` is in no hole of the table. -/
def ByteHeld (t : Table) (x : Nat) : Prop :=
  ∀ p e, t.ent p = some e → e.valid = true → e.used = false →
    e.addr + e.size ≤ x ∨ x < e.addr

theorem ByteHeld.takes {t t' : Table} (h : Takes t t') {x : Nat} (hx : ByteHeld t x) :
    ByteHeld t' x := by
  intro q g hg hv hu
  obtain ⟨p, e, he, hev, heu, hw⟩ := h.holes q g hg hv hu
  have hap := hx p e he hev heu
  simp only [Within] at hw
  omega

/-- Bytes outside the region of the heap are held. -/
theorem ByteHeld.outside {t : Table} (h : TableOk lo hi t) {x : Nat} (hx : x < lo ∨ hi ≤ x) :
    ByteHeld t x := by
  intro p e he hv _
  have hin := h.inside p e he hv
  omega

/-- A request that cannot wrap meets the side conditions. -/
theorem kamalloc_fits {t t' : Table} (h : TableOk lo hi t) (hhi : hi < 4294967296)
    {mem : BlockMem} (hmem : ∀ a, ReadsInvalid mem a) {sz align r : Nat}
    (hfit : sz + align ≤ 4294967296) (hk : kamalloc mem t sz align = .ok (r, t')) :
    TableOk lo hi t' ∧ Takes t t' ∧ (r = 0 ∨ Granted t t' sz align r) := by
  refine kamalloc_spec h hhi
    (fun _ hal _ => ⟨fun _ => hmem _, fun p e _ _ _ => ⟨?_, fun _ => ?_⟩⟩) hk
  · have := @holeOff_lt e.addr align (Nat.pos_of_ne_zero hal)
    omega
  · have := @holeOff_lt (u32 (e.addr + allocBlockSize)) align (Nat.pos_of_ne_zero hal)
    omega

/-- The bytes of a granted block were not held, and are now. -/
theorem Granted.bytes {t t' : Table} (h : TableOk lo hi t) (h' : TableOk lo hi t')
    {sz align r : Nat} (hg : Granted t t' sz align r) :
    r % align = 0 ∧ r + sz ≤ hi ∧ ∀ x, r ≤ x → x < r + sz → ¬ ByteHeld t x ∧ ByteHeld t' x := by
  obtain ⟨hal, ⟨q, hq⟩, p, e, he, hev, heu, hw⟩ := hg
  have hin := h.inside p e he hev
  simp only [Within] at hw
  refine ⟨hal, by omega, fun x hrx hxr => ⟨?_, ?_⟩⟩
  · intro hheld
    have hap := hheld p e he hev heu
    omega
  · intro q' g hg hgv hgu
    have hne := Table.used_ne_free hq rfl hg hgu
    have hap := h'.apart q q' _ g hne hq hg rfl hgv
    simp only [Apart] at hap
    omega

/-- The kernel heap over `[lo, hi)`. -/
def kernelHeap (mem : BlockMem) (hmem : ∀ a, ReadsInvalid mem a) (hhi : hi < 4294967296) :
    PageHeap { t : Table // TableOk lo hi t } where
  kamalloc h sz align :=
    if hfit : sz + align ≤ 4294967296 then
      match hk : kamalloc mem h.1 sz align with
      | .ok (r, t) => some (r, ⟨t, (kamalloc_fits h.2 hhi hmem hfit hk).1⟩)
      | .error _ => none
    else none
  held h x := ByteHeld h.1 x
  fresh := by
    intro h h' sz align r hk hr
    split at hk
    · rename_i hfit
      split at hk
      · rename_i r' t hk'
        obtain ⟨rfl, rfl⟩ := Prod.mk.inj (Option.some.inj hk)
        obtain ⟨hok, -, hg⟩ := kamalloc_fits h.2 hhi hmem hfit hk'
        obtain ⟨hal, hle, hbytes⟩ := Granted.bytes h.2 hok (hg.resolve_left hr)
        exact ⟨hal, by omega, hbytes⟩
      · cases hk
    · cases hk
  keeps := by
    intro h h' sz align r x hk hx
    split at hk
    · rename_i hfit
      split at hk
      · rename_i r' t hk'
        obtain ⟨rfl, rfl⟩ := Prod.mk.inj (Option.some.inj hk)
        exact hx.takes (kamalloc_fits h.2 hhi hmem hfit hk').2.1
      · cases hk
    · cases hk

end KernelHeap

/-- The 64 KiB boot heap of `bootHeap`, on memory of zero bytes. -/
def bootKernelHeap : PageHeap { t : Table // TableOk 0x400000 0x410000 t } :=
  kernelHeap zeroMem (fun _ _ _ => rfl) (by decide)

def bootPages : PageHeap { t : Table // TableOk 0x400000 0x410000 t } := bootKernelHeap.served

set_option maxRecDepth 100000 in
theorem initAlloc_bootHeap : initAlloc 0x400000 0x10000 = .ok bootHeap := by decide +kernel

/-- The state of the boot heap after `init_alloc`. -/
def bootTable : { t : Table // TableOk 0x400000 0x410000 t } :=
  ⟨bootHeap, (initAlloc_inv initAlloc_bootHeap).table⟩

end LambdaOs
