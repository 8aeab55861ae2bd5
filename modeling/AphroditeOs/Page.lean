import AphroditeOs.Lib.Align
import AphroditeOs.Lib.BitMemory

/-!
# Machine words and pages (`include/asm/page.h`, `include/asm/setup.h`)

The kernel is a 32-bit image: `unsigned long` and `int` are words of 32 bits.  The macros of
`asm/setup.h` are applied to 32-bit and to 64-bit operands, so they are stated at any width.
-/

namespace AphroditeOs

/-- `unsigned long`. -/
abbrev Word := BitVec 32

def pageShift : Nat := 12

def pageSize : Word := 1#32 <<< pageShift

def pageMask : Word := ~~~(pageSize - 1#32)

def pageOffset : Word := 0xC0000000#32

/-- `__VMALLOC_RESERVE` (`mm/init.c`). -/
def vmallocReserve : Word := 128#32 <<< 20

def maxmem : Word := -pageOffset - vmallocReserve

def pfnUp {w : Nat} (x : BitVec w) : BitVec w :=
  (x + BitVec.ofNat w 4096 - 1#w) >>> pageShift

def pfnDown {w : Nat} (x : BitVec w) : BitVec w := x >>> pageShift

def pfnPhys {w : Nat} (x : BitVec w) : BitVec w := x <<< pageShift

def maxmemPfn : Word := pfnDown maxmem

def pa (x : Word) : Word := x - pageOffset

def va (x : Word) : Word := x + pageOffset

theorem pa_va (x : Word) : pa (va x) = x := BitVec.add_sub_cancel x pageOffset

theorem va_add (x y : Word) : va x + y = va (x + y) := by
  rw [va, va, BitVec.add_assoc, BitVec.add_comm pageOffset, ← BitVec.add_assoc]

theorem toNat_pageSize : pageSize.toNat = 4096 := rfl

theorem toNat_maxmemPfn : maxmemPfn.toNat = 229376 := by decide

theorem toNat_ofNat_of_lt {n : Nat} (h : n < 2 ^ 32) : (BitVec.ofNat 32 n).toNat = n := by
  rw [BitVec.toNat_ofNat, Nat.mod_eq_of_lt h]

theorem toNat_add_ofNat {x : Word} {n : Nat} (h : x.toNat + n < 2 ^ 32) :
    (x + BitVec.ofNat 32 n).toNat = x.toNat + n := by
  have hn : (BitVec.ofNat 32 n).toNat = n := toNat_ofNat_of_lt (by omega)
  rw [BitVec.toNat_add_of_lt (by rwa [hn]), hn]

theorem toNat_add_one {x : Word} (h : x.toNat + 1 < 2 ^ 32) : (x + 1#32).toNat = x.toNat + 1 :=
  BitVec.toNat_add_of_lt h

theorem toNat_div_pageSize (x : Word) : (x / pageSize).toNat = x.toNat / 4096 :=
  BitVec.toNat_udiv

theorem toNat_shiftRight_pageShift {w : Nat} (x : BitVec w) :
    (x >>> pageShift).toNat = x.toNat / 4096 := by
  rw [BitVec.toNat_ushiftRight, Nat.shiftRight_eq_div_pow]
  rfl

theorem toNat_pfnDown {w : Nat} (x : BitVec w) : (pfnDown x).toNat = x.toNat / 4096 :=
  toNat_shiftRight_pageShift x

theorem toNat_shiftLeft_pageShift (x : Word) (hx : x.toNat < 2 ^ 20) :
    (x <<< pageShift).toNat = x.toNat * 4096 := by
  rw [BitVec.toNat_shiftLeft, Nat.shiftLeft_eq, show 2 ^ pageShift = 4096 from rfl,
    Nat.mod_eq_of_lt (by omega)]

-- The first page from the beginning of a page on is that page.
theorem toNat_pfnUp_shiftLeft_of_dvd {x : Word} (hx : 4096 ∣ x.toNat) :
    (pfnUp x <<< pageShift).toNat = x.toNat := by
  have hlt := x.isLt
  have hsum := Align.toNat_add_sub_one (a := pageSize) x (by decide) (by rw [toNat_pageSize]; omega)
  rw [toNat_pageSize] at hsum
  have hpfn : (pfnUp x).toNat = x.toNat / 4096 := by
    rw [pfnUp, toNat_shiftRight_pageShift]
    change (x + pageSize - 1#32).toNat / 4096 = _
    omega
  rw [toNat_shiftLeft_pageShift _ (by omega), hpfn]
  omega

theorem toNat_and_not_pageMask (x : Word) : (x &&& ~~~pageMask).toNat = x.toNat % 4096 := by
  rw [pageMask, BitVec.not_not, BitVec.toNat_and,
    show (pageSize - 1#32).toNat = 2 ^ 12 - 1 from rfl, Nat.and_two_pow_sub_one_eq_mod]

-- An alignment of a page at most divides the size of a page, and any other is a multiple of it.
theorem dvd_page_or_page_dvd {n : Nat} (hn : n.isPowerOfTwo) :
    (n ∣ 4096 ∧ n ≤ 4096) ∨ (4096 ∣ n ∧ 4096 < n) := by
  have ⟨k, hk⟩ := hn
  rw [hk]
  rcases Nat.lt_or_ge 12 k with hlt | hge
  · exact Or.inr ⟨Nat.pow_dvd_pow 2 hlt.le, Nat.pow_lt_pow_right (show 1 < 2 by decide) hlt⟩
  · exact Or.inl ⟨Nat.pow_dvd_pow 2 hge, Nat.pow_le_pow_right (show 0 < 2 by decide) hge⟩

theorem dvd_page_of_lt {n : Nat} (hn : n.isPowerOfTwo) (hlt : n < 4096) : n ∣ 4096 := by
  rcases dvd_page_or_page_dvd hn with hle | hgt
  · exact hle.1
  · omega

theorem page_dvd_of_le {n : Nat} (hn : n.isPowerOfTwo) (hle : 4096 ≤ n) : 4096 ∣ n := by
  rcases dvd_page_or_page_dvd hn with hsmall | hlarge
  · rw [Nat.le_antisymm hsmall.2 hle]
  · exact hlarge.1

-- A page that is a multiple of the stride begins at a multiple of the alignment.
theorem dvd_of_stride_dvd {n p : Nat} (hn : n.isPowerOfTwo) (hp : max (n / 4096) 1 ∣ p) :
    n ∣ p * 4096 := by
  rcases dvd_page_or_page_dvd hn with ⟨hdvd, -⟩ | ⟨⟨c, hc⟩, hlt⟩
  · exact Dvd.dvd.mul_left hdvd p
  · rw [hc, Nat.mul_div_cancel_left c (by decide), max_eq_left (by omega)] at hp
    rw [hc, Nat.mul_comm 4096 c]
    exact Nat.mul_dvd_mul_right hp 4096

-- `(x + PAGE_SIZE - 1) / PAGE_SIZE`, when the sum does not wrap.
theorem toNat_add_pageSize_sub_one_div (x : Word) (hx : x.toNat + 4096 ≤ 2 ^ 32) :
    ((x + pageSize - 1#32) / pageSize).toNat = (x.toNat + 4095) / 4096 := by
  have hsum := Align.toNat_add_sub_one (a := pageSize) x (by decide) hx
  rw [toNat_div_pageSize, hsum, toNat_pageSize]
  congr 1

end AphroditeOs
