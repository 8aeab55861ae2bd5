import AphroditeOs.Bootmem.Node

/-!
# Frees that stop half way (`free_bootmem_core`)

The loop returns at the first page that is free already, with the pages before it freed and
`last_success` moved.
-/

namespace AphroditeOs

/-- Page `p` lies wholly inside `addr .. addr + size`. -/
def WholePage (addr size : Word) (p : Nat) : Prop :=
  addr.toNat ≤ p * 4096 ∧ (p + 1) * 4096 ≤ addr.toNat + size.toNat

/-- The free leaves the bitmap and `last_success` alone, or it frees the whole pages of the region
and changes no other. -/
def AllOrNothing (addr size : Word) (s : BootState) : Prop :=
  ((∀ p, (freeBootmemCore addr size s).busy p = s.busy p) ∧
    (freeBootmemCore addr size s).bdata.lastSuccess = s.bdata.lastSuccess) ∨
  ((∀ p, WholePage addr size p → (freeBootmemCore addr size s).busy p = false) ∧
    ∀ p, ¬ WholePage addr size p → (freeBootmemCore addr size s).busy p = s.busy p)

/-- The whole pages of a region. -/
def wholePages (addr size : Word) : Range :=
  ⟨(addr.toNat + 4095) / 4096, (addr.toNat + size.toNat) / 4096⟩

theorem mem_wholePages_iff {addr size : Word} {p : Nat} :
    p ∈ wholePages addr size ↔ WholePage addr size p := by
  rw [Range.mem_iff]
  unfold wholePages WholePage
  dsimp only
  omega

section

variable {addr size : Word} {s : BootState}

theorem freeBootmemCore_of_lt (hend : s.bdata.nodeLowPfn < (addr + size) / pageSize) :
    freeBootmemCore addr size s = s := by
  unfold freeBootmemCore
  exact if_pos hend

theorem lastSuccess_freeBootmemCore (hend : ¬ s.bdata.nodeLowPfn < (addr + size) / pageSize) :
    (freeBootmemCore addr size s).bdata.lastSuccess =
      if addr < s.bdata.lastSuccess then addr else s.bdata.lastSuccess := by
  unfold freeBootmemCore
  dsimp only
  rw [if_neg hend]
  split <;> rfl

-- The bitmaps of two states agree when the same pages are free in both.
theorem busy_eq_iff {s t : BootState} {p : Nat} :
    t.busy p = s.busy p ↔ (p ∈ t.freePages ↔ p ∈ s.freePages) := by
  show t.busy p = s.busy p ↔ (t.busy p = false ↔ s.busy p = false)
  cases t.busy p <;> cases s.busy p <;> simp

theorem nodeLowPfn_lt_iff (hwrap : addr.toNat + size.toNat + 4096 < 2 ^ 32) :
    s.bdata.nodeLowPfn < (addr + size) / pageSize ↔
      s.bdata.nodeLowPfn.toNat < (addr.toNat + size.toNat) / 4096 := by
  rw [BitVec.lt_def, toNat_div_pageSize, BitVec.toNat_add, Nat.mod_eq_of_lt (by omega)]

-- The two ways to be all or nothing, for the bitmap.
theorem bitmap_same_iff (hsweep : (freeBootmemCore addr size s).freePages =
      Sweep.sweepOne s.freePages (wholePages addr size)) :
    (∀ p, (freeBootmemCore addr size s).busy p = s.busy p) ↔
      (addr.toNat + size.toNat) / 4096 ≤ (addr.toNat + 4095) / 4096 ∨
        s.busy ((addr.toNat + 4095) / 4096) = false := by
  rw [forall_congr' fun p ↦ busy_eq_iff, ← Set.ext_iff, hsweep]
  exact Sweep.sweepOne_eq_self_iff

theorem whole_freed_iff (hsweep : (freeBootmemCore addr size s).freePages =
      Sweep.sweepOne s.freePages (wholePages addr size)) :
    ((∀ p, WholePage addr size p → (freeBootmemCore addr size s).busy p = false) ∧
      ∀ p, ¬ WholePage addr size p → (freeBootmemCore addr size s).busy p = s.busy p) ↔
    ∀ p q, WholePage addr size p → WholePage addr size q → p < q →
      s.busy p = false → s.busy q = false := by
  have hother : ∀ p, ¬ WholePage addr size p →
      (freeBootmemCore addr size s).busy p = s.busy p := by
    intro p hp
    rw [busy_eq_iff, hsweep, Sweep.mem_sweepOne_iff, mem_wholePages_iff]
    exact or_iff_left fun h ↦ hp h.1
  have hiff := Sweep.subset_sweepOne_iff s.freePages (wholePages addr size)
  rw [← hsweep] at hiff
  simp only [mem_wholePages_iff] at hiff
  rw [and_iff_left hother]
  exact hiff.trans ⟨fun h p q hp hq ↦ h p hp q hq, fun h p hp q hq ↦ h p q hp hq⟩

/-- **Partial frees.**  A free is all or nothing exactly when it reaches beyond the node, or no page
of the region that is free already comes before a reserved one of the region, or the first whole
page is free already and `last_success` is not above the region's begin. -/
theorem allOrNothing_iff (hboot : s.bdata.nodeBootStart = 0#32)
    (hwrap : addr.toNat + size.toNat + 4096 < 2 ^ 32) :
    AllOrNothing addr size s ↔
      s.bdata.nodeLowPfn.toNat < (addr.toNat + size.toNat) / 4096 ∨
      (∀ p q, WholePage addr size p → WholePage addr size q → p < q →
        s.busy p = false → s.busy q = false) ∨
      (s.busy ((addr.toNat + 4095) / 4096) = false ∧ s.bdata.lastSuccess ≤ addr) := by
  by_cases hout : s.bdata.nodeLowPfn.toNat < (addr.toNat + size.toNat) / 4096
  · -- the check at the head of the call refuses the region
    unfold AllOrNothing
    rw [freeBootmemCore_of_lt ((nodeLowPfn_lt_iff hwrap).mpr hout)]
    exact iff_of_true (Or.inl ⟨fun _ ↦ rfl, rfl⟩) (Or.inl hout)
  have hsweep : (freeBootmemCore addr size s).freePages =
      Sweep.sweepOne s.freePages (wholePages addr size) :=
    freePages_freeBootmem hboot (by omega) (by omega)
  have hhint : (freeBootmemCore addr size s).bdata.lastSuccess = s.bdata.lastSuccess ↔
      s.bdata.lastSuccess ≤ addr := by
    rw [lastSuccess_freeBootmemCore ((nodeLowPfn_lt_iff hwrap).not.mpr hout)]
    split
    next hlt => exact ⟨fun h ↦ h ▸ BitVec.le_refl _, fun hle ↦ absurd hlt (BitVec.not_lt.mpr hle)⟩
    next hge => exact iff_of_true rfl (BitVec.not_lt.mp hge)
  unfold AllOrNothing
  rw [bitmap_same_iff hsweep, hhint, whole_freed_iff hsweep, or_iff_right hout]
  constructor
  · rintro (⟨hempty | hfirst, hle⟩ | hlast)
    · -- a region without a whole page has nothing to free
      left
      intro p q hp
      unfold WholePage at hp
      omega
    · exact Or.inr ⟨hfirst, hle⟩
    · exact Or.inl hlast
  · rintro (hlast | ⟨hfirst, hle⟩)
    · exact Or.inr hlast
    · exact Or.inl ⟨Or.inr hfirst, hle⟩

end

/-- A node of eight pages with page 2 free. -/
def holedNode : BootState :=
  freeBootmem (pfnPhys 2#32) pageSize (initBootmem 100#32 8#32 (bootImage fun _ ↦ false)).2

-- Freeing pages 3 to 6 runs into no free page.
theorem allOrNothing_holedNode : AllOrNothing (pfnPhys 3#32) (pfnPhys 4#32) holedNode := by
  apply (allOrNothing_iff rfl (by decide)).mpr
  right
  left
  intro p q hp hq hlt hfree
  have hbusy : ∀ p < 8, p ≠ 2 → holedNode.busy p = true := by decide +kernel
  have hlo : 3 * 4096 ≤ p * 4096 := hp.1
  have hhi : (p + 1) * 4096 ≤ 3 * 4096 + 4 * 4096 := hp.2
  rw [hbusy p (by omega) (by omega)] at hfree
  contradiction

/-- A free of pages 0 to 3 frees pages 0 and 1, comes to page 2 and leaves page 3 reserved. -/
theorem holedNode_half_freed : ¬ AllOrNothing 0#32 (pfnPhys 4#32) holedNode := by
  rintro (⟨hsame, -⟩ | ⟨hwhole, -⟩)
  · have hfirst := hsame 0
    revert hfirst
    decide +kernel
  · have hlast := hwhole 3 (by unfold WholePage; decide)
    revert hlast
    decide +kernel

end AphroditeOs
