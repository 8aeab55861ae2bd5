import Mathlib

/-!
# Stacks of words in a segment

A stack that grows down in a segment of 64 KB, one function on offsets, and its view as a list with
the top first.  Offsets are 16 bits wide and wrap; cells lie two bytes apart, so no two of fewer than
`2 ^ 15` cells meet.  A double word is two cells, the low one on top.
-/

/-! ## Halves of a double word -/

namespace Dword

def lo (v : BitVec 32) : BitVec 16 := v.extractLsb' 0 16

def hi (v : BitVec 32) : BitVec 16 := v.extractLsb' 16 16

def join (h l : BitVec 16) : BitVec 32 := h ++ l

@[simp] theorem lo_join (h l : BitVec 16) : lo (join h l) = l := BitVec.extractLsb'_append_eq_right

@[simp] theorem hi_join (h l : BitVec 16) : hi (join h l) = h := BitVec.extractLsb'_append_eq_left

theorem join_hi_lo (v : BitVec 32) : join (hi v) (lo v) = v :=
  (BitVec.extractLsb'_append_extractLsb'_eq_extractLsb' rfl).trans BitVec.extractLsb'_eq_self

theorem join_eq_iff {h l : BitVec 16} {v : BitVec 32} : join h l = v ↔ h = hi v ∧ l = lo v := by
  constructor
  · rintro rfl
    simp
  · rintro ⟨rfl, rfl⟩
    exact join_hi_lo v

end Dword

open Dword

structure WordStack where
  mem : BitVec 16 → BitVec 16
  sp : BitVec 16

namespace WordStack

/-- The cell `k` words above the top. -/
def slot (s : WordStack) (k : Nat) : BitVec 16 := s.sp + BitVec.ofNat 16 (2 * k)

def push (v : BitVec 16) (s : WordStack) : WordStack where
  mem := Function.update s.mem (s.sp - 2#16) v
  sp := s.sp - 2#16

def pop (s : WordStack) : BitVec 16 × WordStack := (s.mem s.sp, { s with sp := s.sp + 2#16 })

def push32 (v : BitVec 32) (s : WordStack) : WordStack :=
  (s.push (hi v)).push (lo v)

def pop32 (s : WordStack) : BitVec 32 × WordStack :=
  (join s.pop.2.pop.1 s.pop.1, s.pop.2.pop.2)

/-- The cells from the top on hold `vs`. -/
def Holds (s : WordStack) (vs : List (BitVec 16)) : Prop :=
  vs.length < 2 ^ 14 ∧ ∀ k (hk : k < vs.length), s.mem (s.slot k) = vs[k]

variable {s : WordStack} {v : BitVec 16} {vs : List (BitVec 16)}

theorem slot_zero (s : WordStack) : s.slot 0 = s.sp := by simp [slot]

theorem slot_injective (s : WordStack) {j k : Nat} (hj : j < 2 ^ 15) (hk : k < 2 ^ 15)
    (h : s.slot j = s.slot k) : j = k := by
  have hnat := congrArg BitVec.toNat ((BitVec.add_right_inj s.sp).mp h)
  rw [BitVec.toNat_ofNat, BitVec.toNat_ofNat, Nat.mod_eq_of_lt (by omega),
    Nat.mod_eq_of_lt (by omega)] at hnat
  omega

theorem slot_push (s : WordStack) (v : BitVec 16) (k : Nat) :
    (s.push v).slot (k + 1) = s.slot k := by
  unfold slot push
  dsimp only
  rw [Nat.mul_add, BitVec.ofNat_add]
  bv_omega

theorem holds_nil (s : WordStack) : s.Holds [] := by simp [Holds]

theorem Holds.push (h : s.Holds vs) (v : BitVec 16) (hlen : vs.length + 1 < 2 ^ 14) :
    (s.push v).Holds (v :: vs) := by
  refine ⟨hlen, fun k hk ↦ ?_⟩
  have htop : (s.push v).slot 0 = s.sp - 2#16 := slot_zero _
  cases k with
  | zero =>
    rw [htop]
    exact Function.update_self _ _ _
  | succ k =>
    have hne : (s.push v).slot (k + 1) ≠ s.sp - 2#16 := fun heq ↦ by
      have := slot_injective _ (by rw [List.length_cons] at hk; omega) (by decide) (heq.trans htop.symm)
      omega
    rw [List.getElem_cons_succ, ← h.2 k (by simpa using hk), ← slot_push s v k]
    exact Function.update_of_ne hne _ _

theorem Holds.push32 (h : s.Holds vs) (v : BitVec 32) (hlen : vs.length + 2 < 2 ^ 14) :
    (s.push32 v).Holds (lo v :: hi v :: vs) :=
  (h.push _ (by omega)).push _ hlen

/-- The stack from the cell `k` words above the top on. -/
theorem Holds.drop (h : s.Holds vs) (k : Nat) : Holds { s with sp := s.slot k } (vs.drop k) := by
  refine ⟨?_, fun j hj ↦ ?_⟩
  · rw [List.length_drop]
    exact (Nat.sub_le _ _).trans_lt h.1
  · rw [List.length_drop] at hj
    rw [List.getElem_drop, ← h.2 (k + j) (by omega)]
    have hslot : slot { s with sp := s.slot k } j = s.slot (k + j) := by
      simp only [slot, Nat.mul_add, BitVec.ofNat_add, BitVec.add_assoc]
    rw [hslot]

theorem Holds.pop (h : s.Holds (v :: vs)) : s.pop.1 = v ∧ s.pop.2.Holds vs := by
  constructor
  · have htop := h.2 0 (by simp)
    rwa [slot_zero] at htop
  · exact h.drop 1

theorem Holds.pop32 {w : BitVec 16} (h : s.Holds (v :: w :: vs)) :
    s.pop32.1 = join w v ∧ s.pop32.2.Holds vs := by
  obtain ⟨hv, hrest⟩ := h.pop
  obtain ⟨hw, hvs⟩ := hrest.pop
  refine ⟨?_, hvs⟩
  show join s.pop.2.pop.1 s.pop.1 = join w v
  rw [hv, hw]

@[simp] theorem sp_push (v : BitVec 16) (s : WordStack) : (s.push v).sp = s.sp - 2#16 := rfl

@[simp] theorem sp_pop (s : WordStack) : s.pop.2.sp = s.sp + 2#16 := rfl

@[simp] theorem sp_push32 (v : BitVec 32) (s : WordStack) :
    (s.push32 v).sp = s.sp - 2#16 - 2#16 := rfl

@[simp] theorem sp_pop32 (s : WordStack) : s.pop32.2.sp = s.sp + 2#16 + 2#16 := rfl

end WordStack
