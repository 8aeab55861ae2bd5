import AphroditeOs.Page

/-!
# Bit operations (`lib/bitops.c`, `include/linux/bitops.h`, `include/asm/bitops.h`)

A bitmap is named by the physical byte address `addr` of its first word; bit `nr` of it is
memory bit `8 * addr + nr`.
-/

namespace AphroditeOs

def testBit (mem : BitMemory) (addr nr : Nat) : Bool := mem (8 * addr + nr)

/-- The old bit and the memory after `btrl`. -/
def testAndClearBit (mem : BitMemory) (addr nr : Nat) : Bool × BitMemory :=
  (testBit mem addr nr, Function.update mem (8 * addr + nr) false)

/-- The old bit and the memory after `btsl`. -/
def testAndSetBit (mem : BitMemory) (addr nr : Nat) : Bool × BitMemory :=
  (testBit mem addr nr, Function.update mem (8 * addr + nr) true)

/-- `bsfl`: the lowest set bit, `none` when the operand is zero and ZF is set. -/
def bsf (x : Word) : Option Nat := (List.range 32).find? fun i ↦ x.getLsbD i

/-- `scasl` of the word at `addr` against `eax = -1`, and the `bsfl` after it.  The `repe:` before it
is a label and no prefix, so that one word is compared, whatever count is in `ecx`. -/
def scasWord (mem : BitMemory) (addr : Nat) : Word :=
  if mem.word32 addr = -1#32 then 0#32
  -- the final `addl %edx, %edi` puts the sum in edi, so edx is the bit inside the word
  else BitVec.ofNat 32 ((bsf (mem.word32 addr ^^^ -1#32)).getD 0)

def findFirstZeroBit (mem : BitMemory) (addr : Nat) (size : Word) : Word :=
  if size = 0#32 then 0#32 else scasWord mem addr

/-- `offset` is a page index and never negative, so its `>> 5` is a logical shift. -/
def findNextZeroBit (mem : BitMemory) (addr : Nat) (size offset : Word) : Word :=
  let p := (offset >>> 5).toNat
  let bit := (offset &&& 31#32).toNat
  if bit = 0 then
    -- `offset` begins a word
    offset + findFirstZeroBit mem (addr + 4 * p) (size - 32#32 * BitVec.ofNat 32 p)
  else
    -- the rest of its word, which `bsfl` leaves at 32 when nothing is clear there
    let set := (bsf (~~~(mem.word32 (addr + 4 * p) >>> bit))).getD 32
    if set < 32 - bit then BitVec.ofNat 32 set + offset
    else
      -- the words after it
      offset + BitVec.ofNat 32 (32 - bit) +
        findFirstZeroBit mem (addr + 4 * (p + 1)) (size - 32#32 * BitVec.ofNat 32 (p + 1))

/-! ## Single bits -/

theorem testBit_testAndClearBit (mem : BitMemory) (addr nr i : Nat) :
    testBit (testAndClearBit mem addr nr).2 addr i =
      if i = nr then false else testBit mem addr i := by
  simp only [testBit, testAndClearBit, Function.update_apply, Nat.add_left_cancel_iff]

theorem testBit_testAndSetBit (mem : BitMemory) (addr nr i : Nat) :
    testBit (testAndSetBit mem addr nr).2 addr i =
      if i = nr then true else testBit mem addr i := by
  simp only [testBit, testAndSetBit, Function.update_apply, Nat.add_left_cancel_iff]

/-! ## Zero-bit search -/

-- Every bit below the result of `bsf` is clear.
theorem getLsbD_of_lt_bsf (x : Word) (d : Nat) {j : Nat} (hj : j < 32)
    (hlt : j < (bsf x).getD d) : x.getLsbD j = false := by
  cases h : bsf x with
  | none =>
    have hnone := List.find?_range_eq_none.mp h j hj
    simpa using hnone
  | some i =>
    rw [h] at hlt
    simpa using (List.find?_range_eq_some.mp h).2.2 j hlt

-- The result of `bsf` is a set bit.
theorem getLsbD_bsf (x : Word) (d : Nat) (hlt : (bsf x).getD d < d) :
    x.getLsbD ((bsf x).getD d) = true := by
  cases h : bsf x with
  | none =>
    rw [h, Option.getD_none] at hlt
    exact absurd hlt (lt_irrefl d)
  | some i => exact (List.find?_range_eq_some.mp h).1

-- A word that is not full has a clear bit for `bsfl` to find in its complement.
theorem exists_bsf_of_not_full {mem : BitMemory} {addr : Nat} (h : mem.word32 addr ≠ -1#32) :
    ∃ i, bsf (mem.word32 addr ^^^ -1#32) = some i ∧ i < 32 ∧ mem (8 * addr + i) = false := by
  have hbit : ∀ j < 32, (mem.word32 addr ^^^ -1#32).getLsbD j = !mem (8 * addr + j) := by
    intro j hj
    rw [BitVec.getLsbD_xor, BitMemory.getLsbD_word32 mem addr hj,
      show -1#32 = BitVec.allOnes 32 from rfl, BitVec.getLsbD_allOnes, decide_eq_true hj,
      Bool.xor_true]
  cases hi : bsf (mem.word32 addr ^^^ -1#32) with
  | none =>
    have hfull : mem.word32 addr = BitVec.allOnes 32 := by
      rw [mem.word32_eq_allOnes_iff]
      intro j hj
      have hnone := List.find?_range_eq_none.mp hi j hj
      rw [hbit j hj] at hnone
      simpa using hnone
    exact absurd hfull h
  | some i =>
    have hsome := List.find?_range_eq_some.mp hi
    have hlt := List.mem_range.mp hsome.2.1
    refine ⟨i, rfl, hlt, ?_⟩
    have hset := hsome.1
    rw [hbit i hlt] at hset
    simpa using hset

-- The bits below the answer are set.
theorem scasWord_spec (mem : BitMemory) (addr : Nat) :
    (scasWord mem addr).toNat < 32 ∧
      ∀ j < (scasWord mem addr).toNat, mem (8 * addr + j) = true := by
  unfold scasWord
  split
  next hfull => exact ⟨by decide, fun j hj ↦ absurd hj (Nat.not_lt_zero j)⟩
  next hfree =>
    have ⟨i, hi, hrange, _⟩ := exists_bsf_of_not_full hfree
    have hval : (BitVec.ofNat 32 ((bsf (mem.word32 addr ^^^ -1#32)).getD 0)).toNat = i := by
      rw [hi, Option.getD_some, BitVec.toNat_ofNat, Nat.mod_eq_of_lt (by omega)]
    rw [hval]
    refine ⟨hrange, fun j hj ↦ ?_⟩
    have hlow := getLsbD_of_lt_bsf (mem.word32 addr ^^^ -1#32) 0 (j := j) (by omega)
      (by rw [hi]; exact hj)
    rw [BitVec.getLsbD_xor, BitMemory.getLsbD_word32 mem addr (by omega),
      show -1#32 = BitVec.allOnes 32 from rfl, BitVec.getLsbD_allOnes,
      decide_eq_true (by omega)] at hlow
    simpa using hlow

theorem findFirstZeroBit_spec (mem : BitMemory) (addr : Nat) (size : Word) :
    (findFirstZeroBit mem addr size).toNat < 32 ∧
      ∀ j < (findFirstZeroBit mem addr size).toNat, mem (8 * addr + j) = true := by
  unfold findFirstZeroBit
  split
  · exact ⟨by decide, fun j hj ↦ absurd hj (Nat.not_lt_zero j)⟩
  · exact scasWord_spec mem addr

@[simp] theorem findFirstZeroBit_zero (mem : BitMemory) (addr : Nat) :
    findFirstZeroBit mem addr 0#32 = 0#32 := rfl

/-- The answer is a clear bit of the word at `addr`, or 0 when there is none. -/
theorem findFirstZeroBit_cases (mem : BitMemory) (addr : Nat) {size : Word} (hne : size ≠ 0#32) :
    (findFirstZeroBit mem addr size = 0#32 ∧ ∀ j < 32, mem (8 * addr + j) = true) ∨
      mem (8 * addr + (findFirstZeroBit mem addr size).toNat) = false := by
  unfold findFirstZeroBit scasWord
  rw [if_neg hne]
  split
  next hfull => exact Or.inl ⟨rfl, (mem.word32_eq_allOnes_iff addr).mp hfull⟩
  next hfree =>
    right
    have ⟨i, hi, hrange, hbit⟩ := exists_bsf_of_not_full hfree
    rw [hi, Option.getD_some, BitVec.toNat_ofNat, Nat.mod_eq_of_lt (by omega)]
    exact hbit

-- A set bit of the complement of the first word's rest is a clear bit of the word.
theorem getLsbD_wordRest (mem : BitMemory) (addr offset : Nat) {j : Nat}
    (hj : offset % 32 + j < 32) :
    (~~~(mem.word32 (addr + 4 * (offset / 32)) >>> (offset % 32))).getLsbD j =
      !testBit mem addr (offset + j) := by
  rw [BitVec.getLsbD_not, BitVec.getLsbD_ushiftRight, BitMemory.getLsbD_word32 mem _ hj,
    show 8 * (addr + 4 * (offset / 32)) + (offset % 32 + j) = 8 * addr + (offset + j) by omega]
  simp [testBit, show j < 32 by omega]

-- The bits that `bsfl` passes there are set.
theorem testBit_of_lt_wordRest (mem : BitMemory) (addr offset : Nat) {i : Nat} (hlo : offset ≤ i)
    (hword : i < 32 * (offset / 32 + 1))
    (hlt : i - offset <
      (bsf (~~~(mem.word32 (addr + 4 * (offset / 32)) >>> (offset % 32)))).getD 32) :
    testBit mem addr i = true := by
  have hlow := getLsbD_of_lt_bsf _ 32 (by omega) hlt
  rw [getLsbD_wordRest mem addr offset (by omega), Nat.add_sub_cancel' hlo] at hlow
  simpa using hlow

/-- The search from `offset` ends at a clear bit of the first word, or goes on behind it with what
the search of the next whole word answers. -/
theorem findNextZeroBit_cases (mem : BitMemory) (addr : Nat) (size offset : Word)
    (hoff : offset.toNat + 64 ≤ 2 ^ 32) :
    (offset.toNat % 32 = 0 ∧ (findNextZeroBit mem addr size offset).toNat = offset.toNat +
        (findFirstZeroBit mem (addr + 4 * (offset.toNat / 32))
          (size - 32#32 * BitVec.ofNat 32 (offset.toNat / 32))).toNat) ∨
      (offset.toNat % 32 ≠ 0 ∧ offset.toNat ≤ (findNextZeroBit mem addr size offset).toNat ∧
        (findNextZeroBit mem addr size offset).toNat < 32 * (offset.toNat / 32 + 1) ∧
        testBit mem addr (findNextZeroBit mem addr size offset).toNat = false ∧
        ∀ i, offset.toNat ≤ i → i < (findNextZeroBit mem addr size offset).toNat →
          testBit mem addr i = true) ∨
      (offset.toNat % 32 ≠ 0 ∧ (findNextZeroBit mem addr size offset).toNat =
        32 * (offset.toNat / 32 + 1) + (findFirstZeroBit mem (addr + 4 * (offset.toNat / 32 + 1))
          (size - 32#32 * BitVec.ofNat 32 (offset.toNat / 32 + 1))).toNat ∧
        ∀ i, offset.toNat ≤ i → i < 32 * (offset.toNat / 32 + 1) → testBit mem addr i = true) := by
  have hp : (offset >>> 5).toNat = offset.toNat / 32 := by
    rw [BitVec.toNat_ushiftRight, Nat.shiftRight_eq_div_pow]
  have hbit : (offset &&& 31#32).toNat = offset.toNat % 32 := by
    rw [BitVec.toNat_and, show (31#32).toNat = 2 ^ 5 - 1 from rfl, Nat.and_two_pow_sub_one_eq_mod]
  unfold findNextZeroBit
  rw [hp, hbit]
  dsimp only
  split
  next hz =>
    left
    have hlt := (findFirstZeroBit_spec mem (addr + 4 * (offset.toNat / 32))
      (size - 32#32 * BitVec.ofNat 32 (offset.toNat / 32))).1
    exact ⟨hz, BitVec.toNat_add_of_lt (by omega)⟩
  next hnz =>
    right
    have hset := @testBit_of_lt_wordRest mem addr offset.toNat
    split
    next hin =>
      left
      have hclear := getLsbD_bsf _ 32 (Nat.lt_of_lt_of_le hin (Nat.sub_le _ _))
      rw [getLsbD_wordRest mem addr offset.toNat (by omega)] at hclear
      generalize (bsf _).getD 32 = set at hin hset hclear ⊢
      have hval : (BitVec.ofNat 32 set + offset).toNat = offset.toNat + set := by
        rw [BitVec.toNat_add_of_lt, toNat_ofNat_of_lt (by omega), Nat.add_comm]
        rw [toNat_ofNat_of_lt (by omega)]
        omega
      rw [hval]
      exact ⟨hnz, by omega, by omega, by simpa using hclear, fun i hlo hhi ↦
        hset hlo (by omega) (by omega)⟩
    next hout =>
      right
      have hlt := (findFirstZeroBit_spec mem (addr + 4 * (offset.toNat / 32 + 1))
        (size - 32#32 * BitVec.ofNat 32 (offset.toNat / 32 + 1))).1
      have hrest : (BitVec.ofNat 32 (32 - offset.toNat % 32)).toNat = 32 - offset.toNat % 32 :=
        toNat_ofNat_of_lt (by omega)
      have hnext : (offset + BitVec.ofNat 32 (32 - offset.toNat % 32)).toNat =
          32 * (offset.toNat / 32 + 1) := by
        rw [BitVec.toNat_add_of_lt (by omega), hrest]
        omega
      rw [BitVec.toNat_add_of_lt (by omega), hnext]
      exact ⟨hnz, rfl, fun i hlo hhi ↦ hset hlo hhi (by omega)⟩

/-- The search never moves back, moves less than two words, and passes only set bits.  It need
not stop at a clear bit. -/
theorem findNextZeroBit_spec (mem : BitMemory) (addr : Nat) (size offset : Word)
    (hoff : offset.toNat + 64 ≤ 2 ^ 32) :
    offset.toNat ≤ (findNextZeroBit mem addr size offset).toNat ∧
      (findNextZeroBit mem addr size offset).toNat < offset.toNat + 64 ∧
      ∀ i, offset.toNat ≤ i → i < (findNextZeroBit mem addr size offset).toNat →
        testBit mem addr i = true := by
  rcases findNextZeroBit_cases mem addr size offset hoff with
    ⟨hz, heq⟩ | ⟨-, hle, hlt, -, hset⟩ | ⟨hnz, heq, hset⟩
  · have ⟨hlt, hwords⟩ := findFirstZeroBit_spec mem (addr + 4 * (offset.toNat / 32))
      (size - 32#32 * BitVec.ofNat 32 (offset.toNat / 32))
    rw [heq]
    refine ⟨by omega, by omega, fun i hlo hhi ↦ ?_⟩
    have := hwords (i - offset.toNat) (by omega)
    rwa [show 8 * (addr + 4 * (offset.toNat / 32)) + (i - offset.toNat) = 8 * addr + i by omega]
      at this
  · exact ⟨hle, by omega, hset⟩
  · -- the bits passed lie in the first word, or below the answer of the search after it
    have ⟨hlt, hwords⟩ := findFirstZeroBit_spec mem (addr + 4 * (offset.toNat / 32 + 1))
      (size - 32#32 * BitVec.ofNat 32 (offset.toNat / 32 + 1))
    rw [heq]
    refine ⟨by omega, by omega, fun i hlo hhi ↦ ?_⟩
    rcases Nat.lt_or_ge i (32 * (offset.toNat / 32 + 1)) with hi | hi
    · exact hset i hlo hi
    · have := hwords (i - 32 * (offset.toNat / 32 + 1)) (by omega)
      rwa [show 8 * (addr + 4 * (offset.toNat / 32 + 1)) + (i - 32 * (offset.toNat / 32 + 1)) =
        8 * addr + i by omega] at this

end AphroditeOs
