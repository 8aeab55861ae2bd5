import AphroditeOs.Bootmem.Area
import AphroditeOs.Bootmem.Free

/-!
# Rounding of reservations and frees

A reservation rounds its region outwards to pages, a free rounds it inwards.
-/

namespace AphroditeOs

def BootState.reservedPages (s : BootState) : Set Nat := {p | s.busy p = true}

/-- The pages that share a byte with `addr .. addr + size`. -/
def touchedPages (addr size : Word) : Set Nat :=
  {p | addr.toNat < (p + 1) * 4096 ∧ p * 4096 < addr.toNat + size.toNat}

section

variable {addr size : Word} {s : BootState} {p : Nat}

theorem mem_touchedPages_iff (hsize : 1 ≤ size.toNat) :
    p ∈ touchedPages addr size ↔
      addr.toNat / 4096 ≤ p ∧ p < (addr.toNat + size.toNat + 4095) / 4096 := by
  unfold touchedPages
  rw [Set.mem_ofPred_eq]
  omega

theorem mem_touchedPages_of_wholePage (h : WholePage addr size p) : p ∈ touchedPages addr size := by
  unfold WholePage at h
  unfold touchedPages
  rw [Set.mem_ofPred_eq]
  omega

-- Both ends of the region are page indices of the same rounding, so one check decides the call.
theorem reserveBootmem_eq (hboot : s.bdata.nodeBootStart = 0#32) (hsize : 1 ≤ size.toNat)
    (hwrap : addr.toNat + size.toNat + 4096 < 2 ^ 32) :
    reserveBootmem addr size s =
      if s.bdata.nodeLowPfn.toNat < (addr.toNat + size.toNat + 4095) / 4096 then s
      else { s with
        mem := setRun s.mem s.bdata.map
          ((addr.toNat + size.toNat + 4095) / 4096 - addr.toNat / 4096) (addr.toNat / 4096) } := by
  have hsum : (addr + size).toNat = addr.toNat + size.toNat := BitVec.toNat_add_of_lt (by omega)
  have hend : ((addr + size + pageSize - 1#32) / pageSize).toNat =
      (addr.toNat + size.toNat + 4095) / 4096 := by
    rw [toNat_add_pageSize_sub_one_div _ (by omega), hsum]
  have hne : size ≠ 0#32 := by
    intro hz
    rw [hz] at hsize
    exact absurd hsize (by decide)
  unfold reserveBootmem reserveBootmemCore
  dsimp only
  rw [hboot, BitVec.sub_zero, BitVec.sub_zero, hend, toNat_div_pageSize]
  by_cases hout : s.bdata.nodeLowPfn.toNat < (addr.toNat + size.toNat + 4095) / 4096
  · rw [if_pos hout, if_pos]
    right; right; right
    rw [BitVec.lt_def, hend]
    exact hout
  · rw [if_neg hout, if_neg]
    -- a region that ends in the node begins there, and has a page
    rw [BitVec.le_def, BitVec.le_def, BitVec.lt_def, hend, toNat_div_pageSize,
      toNat_shiftRight_pageShift]
    simp only [hne, false_or]
    omega

theorem reservedPages_reserveBootmem (hboot : s.bdata.nodeBootStart = 0#32)
    (hsize : 1 ≤ size.toNat) (hwrap : addr.toNat + size.toNat + 4096 < 2 ^ 32)
    (hin : (addr.toNat + size.toNat + 4095) / 4096 ≤ s.bdata.nodeLowPfn.toNat) :
    (reserveBootmem addr size s).reservedPages = s.reservedPages ∪ touchedPages addr size := by
  ext p
  rw [Set.mem_union, mem_touchedPages_iff hsize, reserveBootmem_eq hboot hsize hwrap,
    if_neg (by omega)]
  unfold BootState.reservedPages BootState.busy
  dsimp only
  rw [Set.mem_ofPred_eq, Set.mem_ofPred_eq]
  have hset := testBit_setRun s.mem s.bdata.map
    ((addr.toNat + size.toNat + 4095) / 4096 - addr.toNat / 4096) (addr.toNat / 4096) p
  apply hset.trans
  apply or_congr_right
  omega

-- With the whole pages of the region reserved, a free takes all of them.
theorem reservedPages_freeBootmem (hboot : s.bdata.nodeBootStart = 0#32)
    (hwrap : addr.toNat + size.toNat + 4096 < 2 ^ 32)
    (hin : (addr.toNat + size.toNat) / 4096 ≤ s.bdata.nodeLowPfn.toNat)
    (hbusy : ∀ p, WholePage addr size p → p ∈ s.reservedPages) :
    (freeBootmem addr size s).reservedPages = s.reservedPages \ {p | WholePage addr size p} := by
  have hsweep : (freeBootmem addr size s).freePages =
      Sweep.sweepOne s.freePages (wholePages addr size) :=
    freePages_freeBootmem hboot (by omega) hin
  ext p
  have hfree : p ∈ (freeBootmem addr size s).freePages ↔
      p ∈ s.freePages ∨ WholePage addr size p := by
    rw [hsweep, Sweep.mem_sweepOne_iff, mem_wholePages_iff]
    apply or_congr_right
    apply and_iff_left_of_imp
    intro hp q hlo hhi
    -- the pages before `p` in the region are whole pages of it as well
    change (addr.toNat + 4095) / 4096 ≤ q at hlo
    have hq : WholePage addr size q := by
      have hbegin : addr.toNat ≤ q * 4096 := by omega
      exact ⟨hbegin, by unfold WholePage at hp; omega⟩
    have hset : s.busy q = true := hbusy q hq
    show ¬ s.busy q = false
    simp [hset]
  have hnot : ∀ t : BootState, p ∈ t.reservedPages ↔ p ∉ t.freePages := by
    intro t
    show t.busy p = true ↔ ¬ t.busy p = false
    simp
  rw [hnot, hfree, not_or, ← hnot]
  rfl

/-- **Rounding.**  A reservation leaves the bitmap alone when its last page is not in the node, and
otherwise reserves the pages that the region touches; the free of the same region behind it gives
back those that lie wholly inside. -/
theorem reserve_free_rounding (hboot : s.bdata.nodeBootStart = 0#32) (hsize : 1 ≤ size.toNat)
    (hwrap : addr.toNat + size.toNat + 4096 < 2 ^ 32) :
    (s.bdata.nodeLowPfn.toNat < (addr.toNat + size.toNat + 4095) / 4096 →
      reserveBootmem addr size s = s) ∧
    ((addr.toNat + size.toNat + 4095) / 4096 ≤ s.bdata.nodeLowPfn.toNat →
      (reserveBootmem addr size s).reservedPages = s.reservedPages ∪ touchedPages addr size ∧
      (freeBootmem addr size (reserveBootmem addr size s)).reservedPages =
        (s.reservedPages ∪ touchedPages addr size) \ {p | WholePage addr size p} ∧
      (∀ p ∈ touchedPages addr size, ¬ WholePage addr size p →
        p ∈ (freeBootmem addr size (reserveBootmem addr size s)).reservedPages) ∧
      (4096 ∣ addr.toNat → 4096 ∣ size.toNat →
        (∀ p ∈ touchedPages addr size, p ∉ s.reservedPages) →
        (freeBootmem addr size (reserveBootmem addr size s)).reservedPages = s.reservedPages)) := by
  constructor
  · intro hout
    rw [reserveBootmem_eq hboot hsize hwrap, if_pos hout]
  intro hin
  have hreserve := reservedPages_reserveBootmem hboot hsize hwrap hin
  have hbdata : (reserveBootmem addr size s).bdata = s.bdata := reserveBootmem_bdata addr size s
  have hfree : (freeBootmem addr size (reserveBootmem addr size s)).reservedPages =
      (s.reservedPages ∪ touchedPages addr size) \ {p | WholePage addr size p} := by
    rw [reservedPages_freeBootmem, hreserve]
    · rw [hbdata]
      exact hboot
    · exact hwrap
    · rw [hbdata]
      omega
    · intro p hp
      rw [hreserve]
      exact Or.inr (mem_touchedPages_of_wholePage hp)
  refine ⟨hreserve, hfree, ?_, ?_⟩
  · intro p hp hpart
    rw [hfree]
    exact ⟨Or.inr hp, hpart⟩
  · intro haddr hlen hnew
    -- a region of whole pages touches no other
    have hwhole : touchedPages addr size = {p | WholePage addr size p} := by
      ext p
      rw [mem_touchedPages_iff hsize]
      show _ ↔ addr.toNat ≤ p * 4096 ∧ (p + 1) * 4096 ≤ addr.toNat + size.toNat
      omega
    rw [hfree, ← hwhole, Set.union_sdiff_right]
    exact Set.disjoint_right.mpr hnew |>.sdiff_eq_left

end

-- One hundred bytes of page 2 keep the page reserved when they are given back.
theorem holedNode_rounding :
    2 ∈ (freeBootmem 9000#32 100#32 (reserveBootmem 9000#32 100#32 holedNode)).reservedPages := by
  have h := @reserve_free_rounding 9000#32 100#32 holedNode rfl (by decide) (by decide)
  apply (h.2 (by decide)).2.2.1
  · unfold touchedPages
    decide
  · unfold WholePage
    decide

end AphroditeOs
