import AphroditeOs.Bootmem.AnyNode
import AphroditeOs.Bootmem.Tried

/-!
# The bits a call looks at

The indices in the bitmap that `__alloc_bootmem_core` reads or sets, in the order of the code: the
words of the zero search, the page tried, the pages of the inner loop, and those that are reserved
after `found`.
-/

namespace AphroditeOs

open StrideScan (mapBits)

/-- The words that `findFirstZeroBit` reads: the one at its address, also where the words that it
counts are none. -/
def findFirstZeroReads (w : Nat) (size : Word) : List Nat :=
  if size = 0#32 then [] else [w]

/-- The words that `findNextZeroBit` reads. -/
def findNextZeroReads (mem : BitMemory) (addr : Nat) (size offset : Word) : List Nat :=
  let p := (offset >>> 5).toNat
  let bit := (offset &&& 31#32).toNat
  if bit = 0 then findFirstZeroReads p (size - 32#32 * BitVec.ofNat 32 p)
  else
    let set := (bsf (~~~(mem.word32 (addr + 4 * p) >>> bit))).getD 32
    p :: if set < 32 - bit then []
      else findFirstZeroReads (p + 1) (size - 32#32 * BitVec.ofNat 32 (p + 1))

section

variable {ALIGN : Word → Word → Word} {s : BootState} {size align goal start eidx i : Word}
  {mem : BitMemory} {addr : Nat}

-- What `bsfl` answers says whether the rest of the first word is set.
theorem wordRest_full_iff (mem : BitMemory) (addr offset : Nat) :
    (bsf (~~~(mem.word32 (addr + 4 * (offset / 32)) >>> (offset % 32)))).getD 32 <
        32 - offset % 32 ↔
      ¬ ∀ i, offset ≤ i → i < 32 * (offset / 32 + 1) → testBit mem addr i = true := by
  constructor
  · intro hlt hset
    have hclear := getLsbD_bsf _ 32 (hlt.trans_le (Nat.sub_le _ _))
    rw [getLsbD_wordRest mem addr offset (by omega), hset _ (by omega) (by omega)] at hclear
    contradiction
  · intro hclear
    by_contra hge
    exact hclear fun i hlo hhi ↦ testBit_of_lt_wordRest mem addr offset hlo hhi (by omega)

/-- The word that the search begins in, unless it begins with its first bit, and the next one where
the rest of that word is set. -/
theorem findNextZeroReads_eq (mem : BitMemory) (addr : Nat) (size offset : Word) :
    findNextZeroReads mem addr size offset =
      if offset.toNat % 32 = 0 then
        findFirstZeroReads (offset.toNat / 32) (size - 32#32 * BitVec.ofNat 32 (offset.toNat / 32))
      else offset.toNat / 32 ::
        if (bsf (~~~(mem.word32 (addr + 4 * (offset.toNat / 32)) >>>
            (offset.toNat % 32)))).getD 32 < 32 - offset.toNat % 32 then []
        else findFirstZeroReads (offset.toNat / 32 + 1)
          (size - 32#32 * BitVec.ofNat 32 (offset.toNat / 32 + 1)) := by
  have hp : (offset >>> 5).toNat = offset.toNat / 32 := by
    rw [BitVec.toNat_ushiftRight, Nat.shiftRight_eq_div_pow]
  have hbit : (offset &&& 31#32).toNat = offset.toNat % 32 := by
    rw [BitVec.toNat_and, show (31#32).toNat = 2 ^ 5 - 1 from rfl, Nat.and_two_pow_sub_one_eq_mod]
  unfold findNextZeroReads
  rw [hp, hbit]

end

end AphroditeOs
