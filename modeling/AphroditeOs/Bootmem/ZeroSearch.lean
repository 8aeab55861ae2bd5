import AphroditeOs.Bootmem.Touched

/-!
# What the zero search answers (`lib/bitops.c`)

`find_first_zero_bit` compares one word, whatever count it is given, and hands out the bit inside
that word.
-/

namespace AphroditeOs

open StrideScan (mapBits)

/-- What `find_next_zero_bit` is for; its arguments and its answer are signed. -/
structure FindsNextZero (mem : BitMemory) (addr : Nat) (size offset : Word) : Prop where
  le_next : offset.toInt ≤ (findNextZeroBit mem addr size offset).toInt
  passed : ∀ i : Nat, offset.toInt ≤ i →
    i < min (findNextZeroBit mem addr size offset).toInt size.toInt → testBit mem addr i = true
  clear : (findNextZeroBit mem addr size offset).toInt < size.toInt →
    testBit mem addr (findNextZeroBit mem addr size offset).toNat = false
  inside : ∀ w ∈ findNextZeroReads mem addr size offset, w < (size.toNat + 31) / 32

/-- The search finds a clear bit in the rest of the word that `offset` lies inside, or in the word of
the array after that; or the array ends with the word that `offset` lies inside. -/
def MeetsNoFullWord (mem : BitMemory) (addr size offset : Nat) : Prop :=
  (∃ i, offset ≤ i ∧ i < 32 * ((offset + 31) / 32) ∧ testBit mem addr i = false) ∨
    32 * ((offset + 31) / 32) = size ∨
    (32 * ((offset + 31) / 32) < size ∧
      ∃ j < 32, testBit mem addr (32 * ((offset + 31) / 32) + j) = false)

section

variable {mem : BitMemory} {addr q : Nat} {size offset : Word}

theorem toNat_lt_of_toInt {x : Word} (h : 0 ≤ x.toInt) : x.toNat < 2 ^ 31 := by
  rw [BitVec.toInt_eq_toNat_cond] at h
  split at h <;> omega

theorem toInt_of_lt {x : Word} (h : x.toNat < 2 ^ 31) : x.toInt = x.toNat :=
  BitVec.toInt_eq_toNat_of_lt (by omega)

-- In signed terms only an answer that is no `int` changes anything.
theorem findsNextZero_iff_toNat (hsize : size.toNat < 2 ^ 31) (hlt : offset.toNat < size.toNat) :
    FindsNextZero mem addr size offset ↔
      ((findNextZeroBit mem addr size offset).toNat < 2 ^ 31 ∧
        ((findNextZeroBit mem addr size offset).toNat < size.toNat →
          testBit mem addr (findNextZeroBit mem addr size offset).toNat = false)) ∧
      ∀ w ∈ findNextZeroReads mem addr size offset, w < (size.toNat + 31) / 32 := by
  have ⟨hle, _, hset⟩ := findNextZeroBit_spec mem addr size offset (by omega)
  have hs := toInt_of_lt hsize
  have ho := @toInt_of_lt offset (by omega)
  constructor
  · intro h
    have hge := h.le_next
    have hr : (findNextZeroBit mem addr size offset).toNat < 2 ^ 31 := by
      rw [ho, BitVec.toInt_eq_toNat_cond] at hge
      split at hge <;> omega
    refine ⟨⟨hr, fun hin ↦ h.clear ?_⟩, h.inside⟩
    rw [hs, toInt_of_lt hr]
    omega
  · intro ⟨⟨hr, hclear⟩, hinside⟩
    have hi := toInt_of_lt hr
    constructor
    · rw [hi, ho]
      omega
    · intro i hlo hhi
      rw [hi, hs] at hhi
      rw [ho] at hlo
      exact hset i (by omega) (by omega)
    · intro hin
      rw [hi, hs] at hin
      exact hclear (by omega)
    · exact hinside

/-! ## The word searched as a whole -/

-- A word of the array that has pages left is read at its own index.
theorem forall_mem_findFirstZeroReads (hsize : size.toNat < 2 ^ 31)
    (hq : 32 * q ≤ mapBits size.toNat) {P : Nat → Prop} :
    (∀ w ∈ findFirstZeroReads q (size - 32#32 * BitVec.ofNat 32 q), P w) ↔
      (32 * q ≠ size.toNat → P q) := by
  rw [Ne, ← sub_words_eq_zero_iff hsize hq, findFirstZeroReads]
  split
  next hz => simp [hz]
  next hne => simp [hne]

/-- The answer from word `q` of the array on is right exactly when that word has a clear bit. -/
theorem wordAnswer_iff (hsize : size.toNat < 2 ^ 31) (hq : 32 * q < size.toNat) {r : Nat}
    (hr : r = 32 * q + (findFirstZeroBit mem (addr + 4 * q)
      (size - 32#32 * BitVec.ofNat 32 q)).toNat) :
    (r < 2 ^ 31 ∧ (r < size.toNat → testBit mem addr r = false)) ↔
      ∃ j < 32, testBit mem addr (32 * q + j) = false := by
  have hlt := (findFirstZeroBit_spec mem (addr + 4 * q) (size - 32#32 * BitVec.ofNat 32 q)).1
  have hmap : 32 * q ≤ mapBits size.toNat := hq.le.trans (StrideScan.le_mapBits _)
  have hleft : size - 32#32 * BitVec.ofNat 32 q ≠ 0#32 :=
    fun hz ↦ hq.ne ((sub_words_eq_zero_iff hsize hmap).mp hz)
  have hbit : ∀ j, mem (8 * (addr + 4 * q) + j) = testBit mem addr (32 * q + j) := by
    intro j
    rw [testBit, show 8 * addr + (32 * q + j) = 8 * (addr + 4 * q) + j by omega]
  rcases findFirstZeroBit_cases mem (addr + 4 * q) hleft with ⟨hzero, hfull⟩ | hclear
  · -- past a full word the answer is its first bit all the same
    rw [hzero, BitVec.toNat_zero, Nat.add_zero] at hr
    apply iff_of_false
    · rintro ⟨-, hclear⟩
      have hset := hfull 0 (by decide)
      rw [hbit, Nat.add_zero, ← hr, hclear (by omega)] at hset
      contradiction
    · rintro ⟨j, hj, hclear⟩
      rw [← hbit, hfull j hj] at hclear
      contradiction
  · rw [hbit, ← hr] at hclear
    rw [hr] at hclear
    exact iff_of_true ⟨by omega, fun _ ↦ by rwa [hr]⟩ ⟨_, hlt, hclear⟩

end

/-- **The zero search is right exactly when it comes to no full word**, and to no word behind the
array. -/
theorem findsNextZero_iff (mem : BitMemory) (addr : Nat) (size offset : Word)
    (hpos : 0 ≤ offset.toInt) (hlt : offset.toInt < size.toInt) :
    FindsNextZero mem addr size offset ↔
      MeetsNoFullWord mem addr size.toNat offset.toNat := by
  have hs := toNat_lt_of_toInt (hpos.trans hlt.le)
  have ho : offset.toNat < size.toNat := by
    rw [toInt_of_lt hs, toInt_of_lt (toNat_lt_of_toInt hpos)] at hlt
    exact Int.ofNat_lt.mp hlt
  have hmap : 32 * (offset.toNat / 32 + 1) ≤ mapBits size.toNat := by
    unfold mapBits
    omega
  rw [findsNextZero_iff_toNat hs ho, MeetsNoFullWord, findNextZeroReads_eq]
  rcases findNextZeroBit_cases mem addr size offset (by omega) with
    ⟨hz, heq⟩ | ⟨hnz, hle, hin, hclear, -⟩ | ⟨hnz, heq, hset⟩
  · -- the first word is searched as a whole
    have hword : (offset.toNat + 31) / 32 = offset.toNat / 32 := by omega
    have hanswer := @wordAnswer_iff mem addr (offset.toNat / 32) size hs (by omega) _
      (heq.trans (by rw [show 32 * (offset.toNat / 32) = offset.toNat by omega]))
    rw [if_pos hz, forall_mem_findFirstZeroReads hs (by omega), hanswer, hword,
      and_iff_left (fun _ ↦ by omega)]
    constructor
    · exact fun h ↦ Or.inr (Or.inr ⟨by omega, h⟩)
    · rintro (⟨i, hlo, hhi, _⟩ | hend | ⟨_, h⟩)
      · omega
      · omega
      · exact h
  · -- the search ends in the first word
    rw [if_neg hnz, if_pos]
    · refine iff_of_true ⟨⟨by omega, fun _ ↦ hclear⟩, fun w hw ↦ ?_⟩
        (Or.inl ⟨_, hle, by omega, hclear⟩)
      rw [List.mem_singleton.mp hw]
      omega
    · rw [wordRest_full_iff]
      intro hset
      rw [hset _ hle hin] at hclear
      contradiction
  · have hword : (offset.toNat + 31) / 32 = offset.toNat / 32 + 1 := by omega
    have hrest : ¬ ∃ i, offset.toNat ≤ i ∧ i < 32 * (offset.toNat / 32 + 1) ∧
        testBit mem addr i = false := by
      rintro ⟨i, hlo, hhi, hclear⟩
      rw [hset i hlo hhi] at hclear
      contradiction
    rw [if_neg hnz, if_neg ((wordRest_full_iff mem addr _).not_left.mpr hset), List.forall_mem_cons,
      forall_mem_findFirstZeroReads hs hmap, hword, or_iff_right hrest]
    rcases Nat.lt_trichotomy (32 * (offset.toNat / 32 + 1)) size.toNat with hin | hend | hout
    · rw [wordAnswer_iff hs hin heq, or_iff_right hin.ne, and_iff_right hin,
        and_iff_left ⟨by omega, fun _ ↦ by omega⟩]
    · -- no word is left
      rw [(sub_words_eq_zero_iff hs hmap).mpr hend, findFirstZeroBit_zero, BitVec.toNat_zero,
        Nat.add_zero] at heq
      exact iff_of_true ⟨⟨by omega, fun h ↦ by omega⟩, by omega, fun h ↦ absurd hend h⟩
        (Or.inl hend)
    · -- the word behind the array is read
      apply iff_of_false
      · rintro ⟨-, -, hinside⟩
        have hread := hinside (by omega)
        omega
      · omega

/-- From bit 7 on, with the first word full from there and bit 5 of the second one clear, the answer
is bit 37 of a map of 40 bits. -/
theorem findsNextZero_word : FindsNextZero (fun i ↦ decide (i ≠ 37)) 0 40#32 7#32 := by
  apply (findsNextZero_iff _ 0 40#32 7#32 (by decide) (by decide)).mpr
  exact Or.inr (Or.inr ⟨by decide, 5, by decide, by decide⟩)

/-- Of two words, the first one full and the second one clear, bit 0 is the answer. -/
theorem not_forall_findsNextZero :
    ¬ ∀ mem addr, ∀ size offset : Word, 0 ≤ offset.toInt → offset.toInt < size.toInt →
      FindsNextZero mem addr size offset := by
  intro h
  have hclear := (h (fun i ↦ decide (i < 32)) 0 64#32 0#32 (by decide) (by decide)).clear
  exact absurd (hclear (by decide +kernel)) (by decide +kernel)

end AphroditeOs
