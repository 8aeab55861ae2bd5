import AphroditeOs.Mm.Paging
import AphroditeOs.Realmode.MemSize

/-!
# The end of memory (`boot/setup.asm`, `boot/head.s` and `mm/memory.cpp`)

The size that `calc_phy_mem_size` returns goes to 0x90004, from there to `empty_zero_page`, and the
constructor of the class `memory` takes it for the end of memory.  `calc_phy_mem_size` counts
megabytes, and `paging_init` bytes.
-/

namespace AphroditeOs

open PageTables

/-- `mov dword [4], eax`, with `BOOT_ADDR` in `ds`. -/
def storeTotalMem (eax : Word) (mem : BitMemory) : BitMemory := mem.store32 0x90004 eax

/-- `rep movsd`, for `ecx` double words. -/
def repMovsd : Nat → Nat → Nat → BitMemory → BitMemory
  | 0, _, _, mem => mem
  | ecx + 1, esi, edi, mem =>
    repMovsd ecx (esi + 4) (edi + 4) (mem.store32 edi (mem.word32 esi))

def emptyZeroPage : Nat := 0x5000

/-- The parameter copy of `startup32`. -/
def copyBootParameters (mem : BitMemory) : BitMemory := repMovsd 512 0x90000 emptyZeroPage mem

namespace MemoryCpp

def totalMem (mem : BitMemory) : Word := mem.word32 (emptyZeroPage + 4)

/-- The constructor of `memory`.  `kernelEnd` is the address of `end`. -/
def Memory.construct (kernelEnd : Word) (pde : Nat) (mem : BitMemory) :
    Option (Memory × BitMemory) :=
  let endMem := totalMem mem &&& pageMask
  let startMem := if 1024#32 * 1024#32 ≤ kernelEnd then kernelEnd else 1024#32 * 1024#32
  Memory.pagingInit { startMem, endMem } pde mem

end MemoryCpp

open MemoryCpp (Memory totalMem)

/-- The address behind an entry. -/
def MemMapEntry.endAddr (e : MemMapEntry) : Nat := e.baseAddr.toNat + e.limit.toNat

/-- `end_mem` is `size`, and the directory at `pde` maps every page frame below it. -/
structure ReachesPager (size pde : Nat) (m : Memory) (mem : BitMemory) : Prop where
  endMem : m.endMem.toNat = size
  maps : ∀ p, 4096 * p < size →
    MapsPage mem pde (BitVec.ofNat 32 (4096 * p)) (4096 * p) MemoryCpp.pageTable.toNat

section

variable {memMapBuffer ip : BitVec 16} {data : ByteSegment} {k : Nat}

/-! ## The parameter block -/

theorem word32_repMovsd_below {ecx esi edi a : Nat} (mem : BitMemory) (ha : a + 4 ≤ edi) :
    (repMovsd ecx esi edi mem).word32 a = mem.word32 a := by
  induction ecx generalizing esi edi mem with
  | zero => rfl
  | succ ecx ih =>
    rw [repMovsd, ih _ (by omega), BitMemory.word32_store32_disjoint _ _ (Or.inl ha)]

/-- The copy, where it does not run into what it still has to read. -/
theorem word32_repMovsd {ecx esi edi : Nat} (mem : BitMemory) (hclear : edi + 4 * ecx ≤ esi)
    {i : Nat} (hi : i < ecx) :
    (repMovsd ecx esi edi mem).word32 (edi + 4 * i) = mem.word32 (esi + 4 * i) := by
  induction ecx generalizing esi edi i mem with
  | zero => exact absurd hi (Nat.not_lt_zero i)
  | succ ecx ih =>
    rw [repMovsd]
    cases i with
    | zero =>
      simp only [Nat.mul_zero, Nat.add_zero]
      rw [word32_repMovsd_below _ le_rfl, BitMemory.word32_store32_self]
    | succ i =>
      have hstep (a : Nat) : a + 4 * (i + 1) = a + 4 + 4 * i := by omega
      rw [hstep, hstep, ih _ (by omega) (by omega),
        BitMemory.word32_store32_disjoint _ _ (Or.inr (by omega))]

theorem totalMem_copyBootParameters (eax : Word) (mem : BitMemory) :
    totalMem (copyBootParameters (storeTotalMem eax mem)) = eax := by
  have hcopy := word32_repMovsd (storeTotalMem eax mem)
    (show emptyZeroPage + 4 * 512 ≤ 0x90000 by decide) (show 1 < 512 by decide)
  exact hcopy.trans (BitMemory.word32_store32_self mem 0x90004 eax)

/-! ## The pager -/

theorem and_pageMask_eq_zero {x : Word} (h : x.toNat < 4096) : x &&& pageMask = 0#32 := by
  rw [and_pageMask, frame, Nat.div_eq_of_lt h, Nat.zero_mul]

/-- A size below a page is no memory at all, and the pager has nothing to do. -/
theorem construct_eq (kernelEnd : Word) (pde : Nat) {mem : BitMemory}
    (h : (totalMem mem).toNat < 4096) :
    ∃ m, Memory.construct kernelEnd pde mem = some (m, mem) ∧ m.endMem = 0#32 := by
  have hidle (fuel : Nat) (t : PagingState) :
      pagingLoop MemoryCpp.pageTable MemoryCpp.pageTable 0#32 pde (fuel + 1) t = some t := by
    simp [pagingLoop]
  simp [Memory.construct, MemoryCpp.Memory.pagingInit, pagingRun, and_pageMask_eq_zero h, hidle]

theorem toNat_div_megabyte_lt (x : Word) : (x / 0x100000#32).toNat < 4096 := by
  have hx := x.isLt
  rw [BitVec.toNat_udiv, show (0x100000#32).toNat = 2 ^ 20 from rfl]
  omega

end

/-- Where the value goes from `calc_phy_mem_size` on. -/
def MemorySized (memMapBuffer : BitVec 16) (data : ByteSegment) (memMapCount ip : BitVec 16)
    (s : RealMode) (kernelEnd : Word) (pde : Nat) (mem : BitMemory) (size : Nat) : Prop :=
  ∃ t, calcPhyMemSize memMapBuffer data memMapCount ip s = some (ip, t) ∧
    ∃ m mem', Memory.construct kernelEnd pde (copyBootParameters (storeTotalMem t.eax mem)) =
      some (m, mem') ∧ ReachesPager size pde m mem'

section

variable {memMapBuffer memMapCount : BitVec 16} {data : ByteSegment} {k : Nat}

/-- Whatever the map says, the class ends up without memory. -/
theorem construct_calcPhyMemSize (hlast : LastRam memMapBuffer data memMapCount.toNat k)
    (ip : BitVec 16) (s : RealMode) (kernelEnd : Word) (pde : Nat) (mem : BitMemory) :
    ∃ t, calcPhyMemSize memMapBuffer data memMapCount ip s = some (ip, t) ∧
      ∃ m mem', Memory.construct kernelEnd pde (copyBootParameters (storeTotalMem t.eax mem)) =
        some (m, mem') ∧ m.endMem = 0#32 := by
  obtain ⟨t, hrun, heax, -⟩ := calcPhyMemSize_eq hlast ip s
  have hsmall : (totalMem (copyBootParameters (storeTotalMem t.eax mem))).toNat < 4096 := by
    rw [totalMem_copyBootParameters, heax]
    exact toNat_div_megabyte_lt _
  obtain ⟨m, hm, hend⟩ := construct_eq kernelEnd pde hsmall
  exact ⟨t, hrun, m, _, hm, hend⟩

/-- **The size that reaches the pager.** It is the end of the last entry of type 1, rounded down to a
megabyte, if and only if that is zero. -/
theorem memorySized_iff (hlast : LastRam memMapBuffer data memMapCount.toNat k) (ip : BitVec 16)
    (s : RealMode) (kernelEnd : Word) (pde : Nat) (mem : BitMemory) :
    MemorySized memMapBuffer data memMapCount ip s kernelEnd pde mem
        ((entryAt memMapBuffer data k).endAddr / 2 ^ 20 * 2 ^ 20) ↔
      (entryAt memMapBuffer data k).endAddr < 2 ^ 20 := by
  obtain ⟨t, hrun, m, mem', hm, hend⟩ := construct_calcPhyMemSize hlast ip s kernelEnd pde mem
  constructor
  · rintro ⟨t', hrun', m', mem'', hm', hreaches⟩
    obtain rfl : t = t' := congrArg Prod.snd (Option.some.inj (hrun.symm.trans hrun'))
    obtain rfl : m = m' := congrArg Prod.fst (Option.some.inj (hm.symm.trans hm'))
    have hzero := hreaches.endMem
    rw [hend, show (0#32).toNat = 0 from rfl] at hzero
    omega
  · intro hsmall
    rw [Nat.div_eq_of_lt hsmall, Nat.zero_mul]
    exact ⟨t, hrun, m, mem', hm, by rw [hend]; rfl, fun p hp ↦ absurd hp (Nat.not_lt_zero _)⟩

/-- The 640 KB of a machine that reports nothing else. -/
theorem memorySized_lowMemory :
    MemorySized 0x400#16 (ramEntry 0#32 0xA0000#32) 1#16 0x100#16 (onlyEdi 0#32) 0x200000#32 0x1000
      (fun _ ↦ false)
      ((entryAt 0x400#16 (ramEntry 0#32 0xA0000#32) 0).endAddr / 2 ^ 20 * 2 ^ 20) :=
  (memorySized_iff (lastRam_ramEntry 0#32 0xA0000#32) 0x100#16 (onlyEdi 0#32) 0x200000#32 0x1000
    (fun _ ↦ false)).mpr (by decide)

/-- With 128 MB the value is 128, and `end_mem` zero. -/
theorem not_memorySized_128 :
    (entryAt 0x400#16 (ramEntry 0x100000#32 0x7F00000#32) 0).endAddr = 0x8000000 ∧
      ¬ MemorySized 0x400#16 (ramEntry 0x100000#32 0x7F00000#32) 1#16 0x100#16 (onlyEdi 0#32)
        0x200000#32 0x1000 (fun _ ↦ false)
        ((entryAt 0x400#16 (ramEntry 0x100000#32 0x7F00000#32) 0).endAddr / 2 ^ 20 * 2 ^ 20) := by
  have hsize : (entryAt 0x400#16 (ramEntry 0x100000#32 0x7F00000#32) 0).endAddr = 0x8000000 := by
    decide
  refine ⟨hsize, ?_⟩
  rintro ⟨t, hrun, m, mem', hm, hreaches⟩
  obtain ⟨u, hrun', v, mem'', hm', hend⟩ := construct_calcPhyMemSize
    (lastRam_ramEntry 0x100000#32 0x7F00000#32) 0x100#16 (onlyEdi 0#32) 0x200000#32 0x1000
    (fun _ ↦ false)
  obtain rfl : t = u := congrArg Prod.snd (Option.some.inj (hrun.symm.trans hrun'))
  obtain rfl : m = v := congrArg Prod.fst (Option.some.inj (hm.symm.trans hm'))
  have hzero := hreaches.endMem
  rw [hend, hsize] at hzero
  exact absurd hzero (by decide)

end

end AphroditeOs
