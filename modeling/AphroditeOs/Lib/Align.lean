import Mathlib.Data.Nat.Bitwise
import Mathlib.Tactic

/-!
# Power-of-two alignment of machine words

C code aligns an address with `(x + a - 1) & ~(a - 1)` and tests an alignment with
`a & (a - 1)`.  The lemmas here read both on natural numbers, at any word width.
-/

namespace Align

def roundUp (x a : Nat) : Nat := (x + a - 1) / a * a

theorem dvd_roundUp (x a : Nat) : a ∣ roundUp x a := Dvd.intro_left _ rfl

theorem le_roundUp (x : Nat) {a : Nat} (ha : 0 < a) : x ≤ roundUp x a := by
  have hdiv := Nat.div_add_mod (x + a - 1) a
  have hmod := Nat.mod_lt (x + a - 1) ha
  rw [Nat.mul_comm] at hdiv
  unfold roundUp
  omega

theorem roundUp_lt (x : Nat) {a : Nat} (ha : 0 < a) : roundUp x a < x + a := by
  have hdiv := Nat.div_add_mod (x + a - 1) a
  rw [Nat.mul_comm] at hdiv
  unfold roundUp
  omega

-- `roundUp x a` is below every multiple of `a` that is not below `x`.
theorem roundUp_le {x a b : Nat} (ha : 0 < a) (hb : a ∣ b) (hx : x ≤ b) : roundUp x a ≤ b := by
  obtain ⟨c, rfl⟩ := hb
  have hdiv : (x + a - 1) / a < c + 1 := by
    rw [Nat.div_lt_iff_lt_mul ha, Nat.add_mul, Nat.mul_comm c a]
    omega
  unfold roundUp
  rw [Nat.mul_comm]
  exact Nat.mul_le_mul_left a (by omega)

theorem roundUp_mono {x y a : Nat} (ha : 0 < a) (h : x ≤ y) : roundUp x a ≤ roundUp y a :=
  roundUp_le ha (dvd_roundUp y a) (h.trans (le_roundUp y ha))

theorem roundUp_of_dvd {x a : Nat} (ha : 0 < a) (hx : a ∣ x) : roundUp x a = x :=
  le_antisymm (roundUp_le ha hx le_rfl) (le_roundUp x ha)

section Words

variable {w : Nat} {a : BitVec w}

theorem toNat_sub_one (ha : 0 < a.toNat) : (a - 1#w).toNat = a.toNat - 1 := by
  have h := a.isLt
  rw [BitVec.toNat_sub_of_le, BitVec.toNat_ofNat, Nat.mod_eq_of_lt (by omega)]
  rw [BitVec.le_def, BitVec.toNat_ofNat, Nat.mod_eq_of_lt (by omega)]
  omega

-- The code's test for a power of two.
theorem and_sub_one_eq_zero_iff (ha : a ≠ 0) :
    a &&& (a - 1#w) = 0 ↔ a.toNat.isPowerOfTwo := by
  have hpos : 0 < a.toNat := Nat.pos_of_ne_zero fun h ↦ ha (BitVec.eq_of_toNat_eq (by simpa using h))
  rw [← Nat.and_sub_one_eq_zero_iff_isPowerOfTwo (by omega), ← toNat_sub_one hpos,
    ← BitVec.toNat_and]
  exact ⟨fun h ↦ by rw [h]; rfl, fun h ↦ BitVec.eq_of_toNat_eq (by simpa using h)⟩

-- Clearing the low bits below a power of two rounds down to it.
theorem toNat_and_not_sub_one (y : BitVec w) (ha : a.toNat.isPowerOfTwo) :
    (y &&& ~~~(a - 1#w)).toNat = y.toNat / a.toNat * a.toNat := by
  have hsub := toNat_sub_one (Nat.pos_of_isPowerOfTwo ha)
  obtain ⟨k, hk⟩ := ha
  rw [hk] at hsub ⊢
  -- bit by bit: division and multiplication by `2 ^ k` are shifts
  apply Nat.eq_of_testBit_eq
  intro i
  rw [← Nat.shiftLeft_eq, ← Nat.shiftRight_eq_div_pow, Nat.testBit_shiftLeft,
    Nat.testBit_shiftRight, ← BitVec.getLsbD, ← BitVec.getLsbD, BitVec.getLsbD_and,
    BitVec.getLsbD_not]
  rw [BitVec.getLsbD.eq_def (a - 1#w), hsub, Nat.testBit_two_pow_sub_one]
  by_cases hik : k ≤ i
  · rw [Nat.add_sub_cancel' hik]
    by_cases hiw : i < w
    · simp [hik, hiw, Nat.not_lt.mpr hik]
    · simp [BitVec.getLsbD_of_ge y i (by omega)]
  · simp [hik, Nat.lt_of_not_le hik]

theorem toNat_add_sub_one (x : BitVec w) (ha : 0 < a.toNat) (hfit : x.toNat + a.toNat ≤ 2 ^ w) :
    (x + a - 1#w).toNat = x.toNat + a.toNat - 1 := by
  have h := a.isLt
  have hone : (1#w).toNat = 1 := by rw [BitVec.toNat_ofNat, Nat.mod_eq_of_lt (by omega)]
  rw [BitVec.toNat_sub, BitVec.toNat_add, hone]
  -- the sum may be `2 ^ w` itself, which wraps to 0 and back
  rcases Nat.lt_or_ge (x.toNat + a.toNat) (2 ^ w) with hlt | hge
  · rw [Nat.mod_eq_of_lt hlt, show 2 ^ w - 1 + (x.toNat + a.toNat) =
      x.toNat + a.toNat - 1 + 2 ^ w by omega, Nat.add_mod_right, Nat.mod_eq_of_lt (by omega)]
  · rw [show x.toNat + a.toNat = 2 ^ w by omega, Nat.mod_self, Nat.add_zero,
      Nat.mod_eq_of_lt (by omega)]

/-- `(x + a - 1) & ~(a - 1)` rounds `x` up to `a` when the sum does not wrap. -/
theorem toNat_align (x : BitVec w) (ha : a.toNat.isPowerOfTwo)
    (hfit : x.toNat + a.toNat ≤ 2 ^ w) :
    ((x + a - 1#w) &&& ~~~(a - 1#w)).toNat = roundUp x.toNat a.toNat := by
  rw [toNat_and_not_sub_one _ ha, toNat_add_sub_one x (Nat.pos_of_isPowerOfTwo ha) hfit]
  rfl

end Words

end Align
