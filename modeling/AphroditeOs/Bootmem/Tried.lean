import AphroditeOs.Bootmem.Scan
import AphroditeOs.Lib.WordScan

/-!
# The pages a scan tries

A pass of the scan looks for a zero bit, aligns what it has found, and tries that page as a start.
The search looks at whole words, so that it may answer with a bit behind the bitmap.
-/

namespace AphroditeOs

open StrideScan (mapBits bitsBehind WordSearch)

/-- The pages that the scan from page index `i` tries, for an area of `len` pages. -/
def triedPages (s : BootState) (align : Word) (len : Nat) (i : Word) : List Nat :=
  StrideScan.tried s.busy (nodePages s.bdata).toNat (max (align.toNat / 4096) 1) len
    (nextZero s (nodePages s.bdata)) ((nodePages s.bdata).toNat + 1) i.toNat

/-- `m` is a bit of word `q` of the bitmap, and a set one only as the first bit of a full word. -/
structure WordAnswer (s : BootState) (q m : Nat) : Prop where
  le : 32 * q ≤ m
  lt : m < 32 * (q + 1)
  full : s.busy m = true → m = 32 * q ∧ ∀ p, 32 * q ≤ p → p < 32 * (q + 1) → s.busy p = true

section

variable {s : BootState} {eidx : Word}

theorem toNat_words {q : Nat} (hq : 32 * q < 2 ^ 32) : (32#32 * BitVec.ofNat 32 q).toNat = 32 * q := by
  rw [BitVec.toNat_mul, toNat_ofNat_of_lt (show q < 2 ^ 32 by omega)]
  exact Nat.mod_eq_of_lt hq

-- The count that is left at word `q` is 0 only where the pages end with the word before it.
theorem sub_words_eq_zero_iff (hn : eidx.toNat < 2 ^ 31) {q : Nat}
    (hq : 32 * q ≤ mapBits eidx.toNat) :
    eidx - 32#32 * BitVec.ofNat 32 q = 0#32 ↔ 32 * q = eidx.toNat := by
  unfold mapBits at hq
  have hmul := @toNat_words q (by omega)
  rw [BitVec.sub_eq_iff_eq_add, BitVec.zero_add, ← BitVec.toNat_inj, hmul]
  exact eq_comm

theorem wordAnswer_findFirstZeroBit (hn : eidx.toNat < 2 ^ 31) {q : Nat}
    (hq : 32 * q ≤ mapBits eidx.toNat) (hne : 32 * q ≠ eidx.toNat) :
    WordAnswer s q (32 * q + (findFirstZeroBit s.mem (s.bdata.map + 4 * q)
      (eidx - 32#32 * BitVec.ofNat 32 q)).toNat) := by
  have hlt := (findFirstZeroBit_spec s.mem (s.bdata.map + 4 * q)
    (eidx - 32#32 * BitVec.ofNat 32 q)).1
  have hbit : ∀ j, s.mem (8 * (s.bdata.map + 4 * q) + j) = s.busy (32 * q + j) := by
    intro j
    rw [BootState.busy, testBit,
      show 8 * s.bdata.map + (32 * q + j) = 8 * (s.bdata.map + 4 * q) + j by omega]
  have hleft := fun hz ↦ hne ((sub_words_eq_zero_iff hn hq).mp hz)
  refine ⟨Nat.le_add_right _ _, by omega, fun hbusy ↦ ?_⟩
  rcases findFirstZeroBit_cases s.mem (s.bdata.map + 4 * q) hleft with ⟨hzero, hall⟩ | hclear
  · refine ⟨by rw [hzero, BitVec.toNat_zero, Nat.add_zero], fun p hlo hhi ↦ ?_⟩
    have hset := hall (p - 32 * q) (by omega)
    rwa [hbit, Nat.add_sub_cancel' hlo] at hset
  · rw [hbit, hbusy] at hclear
    contradiction

/-- From inside the node the search answers with a clear bit of the word it begins in, or with a bit
of a word of the map or, from inside the last one, with a bit behind the map. -/
theorem nextZero_cases (s : BootState) (hn : eidx.toNat < 2 ^ 31) {i : Nat} (hi : i < eidx.toNat) :
    (s.busy (nextZero s eidx i) = false ∧ nextZero s eidx i < mapBits eidx.toNat) ∨
      (eidx.toNat % 32 = 0 ∧ nextZero s eidx i = eidx.toNat) ∨
      ∃ q, (32 * q < eidx.toNat ∨
          32 * q = mapBits eidx.toNat ∧ eidx.toNat % 32 ≠ 0 ∧ eidx.toNat % 32 ≠ 1) ∧
        WordAnswer s q (nextZero s eidx i) := by
  have hval : (BitVec.ofNat 32 i).toNat = i := toNat_ofNat_of_lt (by omega)
  have hsearch := findNextZeroBit_cases s.mem s.bdata.map eidx (BitVec.ofNat 32 i) (by omega)
  have hmap : 32 * (i / 32 + 1) ≤ mapBits eidx.toNat := by
    unfold mapBits
    omega
  rw [hval] at hsearch
  change (_ ∧ nextZero s eidx i = _) ∨ (_ ∧ _ ∧ nextZero s eidx i < _ ∧
    s.busy (nextZero s eidx i) = false ∧ _) ∨ (_ ∧ nextZero s eidx i = _ ∧ _) at hsearch
  rcases hsearch with ⟨hz, heq⟩ | ⟨-, -, hlt, hclear, -⟩ | ⟨hnz, heq, -⟩
  · -- from the first bit of a word
    have hword := wordAnswer_findFirstZeroBit (s := s) hn (q := i / 32) (by omega) (by omega)
    rw [show 32 * (i / 32) = i by omega, ← heq] at hword
    exact Or.inr (Or.inr ⟨i / 32, Or.inl (by omega), hword⟩)
  · exact Or.inl ⟨hclear, hlt.trans_le hmap⟩
  · right
    by_cases hend : 32 * (i / 32 + 1) = eidx.toNat
    · -- no page is left behind the word
      rw [(sub_words_eq_zero_iff hn hmap).mpr hend, findFirstZeroBit_zero, BitVec.toNat_zero,
        Nat.add_zero, hend] at heq
      exact Or.inl ⟨by omega, heq⟩
    · have hword := wordAnswer_findFirstZeroBit (s := s) hn hmap hend
      rw [← heq] at hword
      refine Or.inr ⟨i / 32 + 1, ?_, hword⟩
      unfold mapBits at hmap ⊢
      omega

theorem wordSearch_nextZero (s : BootState) (hn : eidx.toNat < 2 ^ 31) :
    WordSearch s.busy eidx.toNat (nextZero s eidx) := by
  constructor
  · exact fun i hi ↦ (nextZero_spec s hn i hi).1
  · exact fun i hi ↦ (nextZero_spec s hn i hi).2
  · intro i hi hge
    rcases nextZero_cases s hn hi with ⟨-, hlt⟩ | ⟨hrest, heq⟩ | ⟨q, hq, hword⟩
    · omega
    · -- the first bit behind the map
      have hmap : mapBits eidx.toNat = eidx.toNat := by
        unfold mapBits
        omega
      refine ⟨by omega, ?_⟩
      rw [heq, hmap, bitsBehind, if_pos hrest]
      constructor
      · intro hbusy p hlo hhi
        rwa [show p = eidx.toNat by omega]
      · exact fun hall ↦ hall _ le_rfl (Nat.lt_succ_self _)
    · have hlt := hword.lt
      rcases hq with hin | ⟨hlast, hrest, hone⟩
      · unfold mapBits at hge
        omega
      · -- the word behind the map
        refine ⟨hone, ?_⟩
        rw [bitsBehind, if_neg hrest, ← hlast]
        exact ⟨fun hbusy ↦ (hword.full hbusy).2, fun hall ↦ hall _ hword.le hlt⟩
  · intro i hi hlt hbusy hend
    rcases nextZero_cases s hn hi with ⟨hclear, -⟩ | ⟨hrest, heq⟩ | ⟨q, hq, hword⟩
    · rw [hclear] at hbusy
      contradiction
    · unfold mapBits at hlt
      omega
    · have hle := hword.le
      have ⟨hfirst, hall⟩ := hword.full hbusy
      have hone : 32 * q + 1 = eidx.toNat := by omega
      refine ⟨by omega, fun p hlo hhi ↦ hall p (by omega) ?_⟩
      unfold mapBits at hhi
      omega

end

end AphroditeOs
