import Mathlib

/-!
# Bytes of a segment

A segment of 64 KB, one function on offsets of 16 bits, which wrap.  Double words are little-endian.
-/

abbrev ByteSegment := BitVec 16 → BitVec 8

namespace ByteSegment

/-- The double word of four bytes, the low one first. -/
def ofBytes (b0 b1 b2 b3 : BitVec 8) : BitVec 32 :=
  b0.setWidth 32 ||| b1.setWidth 32 <<< 8 ||| b2.setWidth 32 <<< 16 ||| b3.setWidth 32 <<< 24

def load32 (m : ByteSegment) (a : BitVec 16) : BitVec 32 :=
  ofBytes (m a) (m (a + 1#16)) (m (a + 2#16)) (m (a + 3#16))

/-- The bytes `bs` stored from offset `a` on. -/
def store (m : ByteSegment) (a : BitVec 16) : List (BitVec 8) → ByteSegment
  | [] => m
  | b :: bs => store (Function.update m a b) (a + 1#16) bs

/-- The double word at place `i` of `bs`. -/
def dwordAt (bs : List (BitVec 8)) (i : Nat) : BitVec 32 :=
  ofBytes (bs.getD i 0#8) (bs.getD (i + 1) 0#8) (bs.getD (i + 2) 0#8) (bs.getD (i + 3) 0#8)

/-- The offsets of `n` bytes from `a` on. -/
def offsets (a : BitVec 16) (n : Nat) : List (BitVec 16) :=
  (List.range n).map fun i ↦ a + BitVec.ofNat 16 i

variable {m : ByteSegment} {a x : BitVec 16} {bs : List (BitVec 8)}

theorem setWidth_ofBytes (b0 b1 b2 b3 : BitVec 8) : (ofBytes b0 b1 b2 b3).setWidth 8 = b0 := by
  ext i hi
  interval_cases i <;> simp [ofBytes]

theorem toNat_add_ofNat_sub (a : BitVec 16) {i : Nat} (hi : i < 2 ^ 16) :
    (a + BitVec.ofNat 16 i - a).toNat = i := by
  rw [BitVec.add_comm, BitVec.add_sub_cancel, BitVec.toNat_ofNat, Nat.mod_eq_of_lt hi]

theorem add_ofNat_succ (a : BitVec 16) (n : Nat) :
    a + 1#16 + BitVec.ofNat 16 n = a + BitVec.ofNat 16 (n + 1) := by
  rw [BitVec.add_assoc, Nat.add_comm n, BitVec.ofNat_add]

theorem store_append (m : ByteSegment) (a : BitVec 16) (bs cs : List (BitVec 8)) :
    m.store a (bs ++ cs) = (m.store a bs).store (a + BitVec.ofNat 16 bs.length) cs := by
  induction bs generalizing m a with
  | nil => simp [store]
  | cons b bs ih => rw [List.cons_append, store, ih, add_ofNat_succ, store, List.length_cons]

/-- Stored bytes are looked up by the distance from the first. -/
theorem store_apply (h : bs.length ≤ 2 ^ 16) :
    m.store a bs x = if (x - a).toNat < bs.length then bs.getD (x - a).toNat 0#8 else m x := by
  induction bs generalizing m a with
  | nil => simp [store]
  | cons b bs ih =>
    rw [List.length_cons] at h ⊢
    rw [store, ih (by omega)]
    by_cases hx : x = a
    · have hfar : (x - (a + 1#16)).toNat = 2 ^ 16 - 1 := by bv_omega
      rw [if_neg (by omega), hx, Function.update_self, BitVec.sub_self]
      simp
    · have hnext : (x - a).toNat = (x - (a + 1#16)).toNat + 1 := by bv_omega
      rw [hnext, Function.update_of_ne hx, List.getD_cons_succ]
      simp

theorem store_add_ofNat (h : bs.length ≤ 2 ^ 16) {i : Nat} (hi : i < bs.length) :
    m.store a bs (a + BitVec.ofNat 16 i) = bs.getD i 0#8 := by
  rw [store_apply h, toNat_add_ofNat_sub a (hi.trans_le h), if_pos hi]

theorem load32_store (h : bs.length ≤ 2 ^ 16) {i : Nat} (hi : i + 4 ≤ bs.length) :
    (m.store a bs).load32 (a + BitVec.ofNat 16 i) = dwordAt bs i := by
  have hbyte (j : Nat) (hj : j < 4) :
      m.store a bs (a + BitVec.ofNat 16 i + BitVec.ofNat 16 j) = bs.getD (i + j) 0#8 := by
    rw [BitVec.add_assoc, ← BitVec.ofNat_add, store_add_ofNat h (by omega)]
  have hzero := hbyte 0 (by decide)
  rw [BitVec.add_zero, Nat.add_zero] at hzero
  rw [load32, hzero, hbyte 1 (by decide), hbyte 2 (by decide), hbyte 3 (by decide), dwordAt]

theorem offsets_add (a : BitVec 16) (j k : Nat) :
    offsets a (j + k) = offsets a j ++ offsets (a + BitVec.ofNat 16 j) k := by
  simp only [offsets, List.range_add, List.map_append, List.map_map]
  congr 2
  funext i
  simp [BitVec.ofNat_add, BitVec.add_assoc]

theorem mem_offsets {n : Nat} (h : n ≤ 2 ^ 16) : x ∈ offsets a n ↔ (x - a).toNat < n := by
  simp only [offsets, List.mem_map, List.mem_range]
  constructor
  · rintro ⟨i, hi, rfl⟩
    rwa [toNat_add_ofNat_sub a (hi.trans_le h)]
  · intro hx
    exact ⟨_, hx, by rw [BitVec.ofNat_toNat, BitVec.setWidth_eq, BitVec.add_comm, BitVec.sub_add_cancel]⟩
theorem le_of_offsets {n size : Nat} (hsize : size < 2 ^ 16)
    (h : ∀ x ∈ offsets a n, (x - a).toNat < size) : n ≤ size := by
  by_contra hmore
  have hmem : a + BitVec.ofNat 16 size ∈ offsets a n :=
    List.mem_map_of_mem (List.mem_range.mpr (by omega))
  have hlt := h _ hmem
  rw [toNat_add_ofNat_sub a hsize] at hlt
  omega

/-! ## Lists of bytes in a row -/

section

variable {α : Type*} {f : α → List (BitVec 8)} {xs : List α} {c i k : Nat}

/-- Place `c * k + i` of lists of `c` bytes, of which the last may have more. -/
theorem getD_flatMap (hlen : ∀ x ∈ xs.dropLast, (f x).length = c) (hi : i < c)
    (hk : k < xs.length) : (xs.flatMap f).getD (c * k + i) 0#8 = (f xs[k]).getD i 0#8 := by
  induction xs generalizing k with
  | nil => simp at hk
  | cons x xs ih =>
    cases xs with
    | nil =>
      have hzero : k = 0 := by simpa using hk
      simp [hzero]
    | cons y xs =>
      have hx : (f x).length = c := hlen x (by simp)
      rw [List.flatMap_cons]
      cases k with
      | zero =>
        rw [List.getD_append _ _ _ _ (by omega)]
        simp
      | succ k =>
        have hrest : c * (k + 1) + i - (f x).length = c * k + i := by
          rw [hx, Nat.mul_succ]
          omega
        rw [List.getD_append_right _ _ _ _ (by rw [hx, Nat.mul_succ]; omega), hrest,
          ih (fun z hz ↦ hlen z (List.mem_cons_of_mem _ hz)) (by simpa using hk)]
        simp

theorem dwordAt_flatMap (hlen : ∀ x ∈ xs.dropLast, (f x).length = c) (hi : i + 4 ≤ c)
    (hk : k < xs.length) : dwordAt (xs.flatMap f) (c * k + i) = dwordAt (f xs[k]) i := by
  simp only [dwordAt, Nat.add_assoc]
  rw [getD_flatMap hlen (by omega) hk, getD_flatMap hlen (by omega) hk,
    getD_flatMap hlen (by omega) hk, getD_flatMap hlen (by omega) hk]

end

end ByteSegment
