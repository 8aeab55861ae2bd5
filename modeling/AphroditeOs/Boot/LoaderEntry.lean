import AphroditeOs.Boot.MainEntry

/-!
# The way to `kmain` (`boot/loader.s`)

`loader` turns paging on, reloads the segments from a table of its own and loads a descriptor table
of 256 zeros.  The stack is not part of it: the memory is the one in which the words that are pushed
for `setup_paging` stand already.
-/

namespace AphroditeOs

open PageTables

namespace LoaderS

/-- `gdt` up to `data_r0`. -/
def gdtBytes : List Byte :=
  List.replicate 16 0#8 ++
  [0xFF#8, 0xFF#8, 0#8, 0#8, 0#8, 0x9A#8, 0xC3#8, 0xC0#8] ++
  [0xFF#8, 0xFF#8, 0#8, 0#8, 0#8, 0x92#8, 0xC3#8, 0xC0#8]

section

variable (swapperPgDir : Word)

/-- Behind `swapper_pg_dir` and `pg0`. -/
def gdt : Word := swapperPgDir + 0x2000#32

/-- Behind the six and `NR_TASKS * 2` descriptors, and eight bytes of which `gdt_pesudo` has six. -/
def idt : Word := gdt swapperPgDir + BitVec.ofNat 32 (8 * (6 + 128 * 2) + 8)

end

section

variable {swapperPgDir : Word} {mem mem' : BitMemory}

/-- A segment of 1 GB at 3 GB sees the mapped 4 MB. -/
theorem physical_eq {dir : Nat} {d : SegmentDescriptor}
    (htranslate : ∀ va, translate mem dir va = bootTranslate va) (hbase : d.base = 0xC0000000#32)
    (hlast : d.lastOffset = 2 ^ 30 - 1) (off : Word) :
    d.physical mem dir off = if off.toNat < 2 ^ 22 then some off.toNat else none := by
  rw [SegmentDescriptor.physical, SegmentDescriptor.linear, hbase, hlast]
  by_cases hoff : off.toNat ≤ 2 ^ 30 - 1
  · rw [if_pos hoff, Option.bind_some, htranslate, HeadS.bootTranslate_kernel,
      HeadS.kernelPhysical]
    split_ifs
    · rfl
    · omega
    · rfl
  · rw [if_neg hoff, if_neg (by omega)]
    rfl

end

/-! ## A loader at 1 MB -/

/-- Memory with `gdt` at 0x103000 and nothing else. -/
def gdtMemory : BitMemory := fun n ↦ (gdtBytes.getD (n / 8 - 0x103000) 0#8).getLsbD (n % 8)

end LoaderS

end AphroditeOs
