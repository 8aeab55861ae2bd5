import AphroditeOs.Bootmem.Goal
import AphroditeOs.Setup.Arch

/-!
# The kernel's own pages

`setup_memory` frees all low RAM and reserves nothing: neither the kernel image and its page tables,
nor the pages that hold the bitmap.
-/

namespace AphroditeOs

/-- Pages from 1 MB to `min_low_pfn`, and the pages of the bitmap from there on. -/
def kernelPages (t : BootState) : Set Nat :=
  {p | (256 ≤ p ∧ p < t.minLowPfn.toNat) ∨ (t.minLowPfn.toNat ≤ p ∧
    p < t.minLowPfn.toNat + ((bootmemMapsize 0#32 t.maxLowPfn).toNat + 4095) / 4096)}

/-- The pages of the bitmap lie below `max_low_pfn`. -/
def BitmapFits (t : BootState) : Prop :=
  t.minLowPfn.toNat + ((bootmemMapsize 0#32 t.maxLowPfn).toNat + 4095) / 4096 ≤ t.maxLowPfn.toNat

/-- The kernel's pages are reserved, and no run of calls hands one of them out. -/
def KernelKept (ALIGN : Word → Word → Word) (t : BootState) : Prop :=
  (∀ p ∈ kernelPages t, t.busy p = true) ∧
    ∀ x, Transition.Reachable (allocRuns ALIGN t) x → ∀ r ∈ x.live, ∀ p ∈ kernelPages t, ¬ r.Touches p

section

variable {ALIGN : Word → Word → Word} {e820 : E820Map} {initPgTablesEnd : Word} {mem : BitMemory}

theorem lt_maxLowPfn_of_kernelPage {t : BootState} {p : Nat} (hfits : BitmapFits t)
    (hp : p ∈ kernelPages t) : p < t.maxLowPfn.toNat := by
  unfold BitmapFits at hfits
  rcases hp with hp | hp
  · omega
  · omega

-- A kernel page is reserved exactly when no RAM entry frees it.
theorem busy_kernelPage_iff {s : BootState} {p : Nat}
    (hfits : BitmapFits (setupArch e820 initPgTablesEnd s))
    (hp : p ∈ kernelPages (setupArch e820 initPgTablesEnd s)) :
    (setupArch e820 initPgTablesEnd s).busy p = true ↔ p ∉ Sweep.sweep (ramPages e820) := by
  have hsize := toNat_mapsize_setupArch e820 initPgTablesEnd s
  have hlt := lt_maxLowPfn_of_kernelPage hfits hp
  rw [← freeBelow_setupArch e820 initPgTablesEnd s _ le_rfl (by omega), ← Bool.not_eq_false,
    not_iff_not]
  exact ⟨fun h ↦ ⟨hlt, h⟩, fun h ↦ h.2⟩

theorem confined_setupArch (e820 : E820Map) (initPgTablesEnd : Word) {s : BootState}
    (hoff : s.bdata.lastOffset = 0#32) :
    Confined (nodeFree (setupArch e820 initPgTablesEnd s)) (setupArch e820 initPgTablesEnd s) :=
  confined_nodeFree (lowNode_setupArch e820 initPgTablesEnd s)
    ((lastOffset_setupArch e820 initPgTablesEnd s).1.trans hoff)

-- With the kernel's pages reserved, no page that can be handed out holds a part of the bitmap.
theorem bitmapClosed_of_reserved {s : BootState}
    (hres : ∀ p ∈ kernelPages (setupArch e820 initPgTablesEnd s),
      (setupArch e820 initPgTablesEnd s).busy p = true) :
    BitmapClosed (setupArch e820 initPgTablesEnd s).bdata
      (nodeFree (setupArch e820 initPgTablesEnd s)) := by
  intro q hq hfree
  have hsize := toNat_mapsize_setupArch e820 initPgTablesEnd s
  rw [nodeLowPfn_setupArch] at hq
  have hpage := hres (((setupArch e820 initPgTablesEnd s).bdata.map + q / 8) / 4096) (Or.inr (by
    rw [map_setupArch]
    omega))
  rw [hfree.2] at hpage
  contradiction

/-- **The kernel's memory.**  The boot allocator keeps off the kernel exactly when the RAM entries
of the map free none of its pages. -/
theorem kernelKept_iff (hA : AlignSpec ALIGN)
    (hfits : BitmapFits (setupArch e820 initPgTablesEnd (bootImage mem))) :
    KernelKept ALIGN (setupArch e820 initPgTablesEnd (bootImage mem)) ↔
      ∀ p ∈ kernelPages (setupArch e820 initPgTablesEnd (bootImage mem)),
        p ∉ Sweep.sweep (ramPages e820) := by
  constructor
  · intro h p hp
    exact (busy_kernelPage_iff hfits hp).mp (h.1 p hp)
  · intro h
    have hres := fun p hp ↦ (busy_kernelPage_iff hfits hp).mpr (h p hp)
    refine ⟨hres, fun x hx r hr p hp htouch ↦ ?_⟩
    have hfree := (runConfined hA (confined_setupArch _ _ rfl) (bitmapClosed_of_reserved hres)
      hx).touches r hr p htouch
    have hbusy := hres p hp
    rw [hfree.2] at hbusy
    contradiction

end

/-- RAM from 1 MB to 64 MB. -/
def highRamMap : E820Map := ⟨[⟨0x100000#64, 0x3F00000#64, e820Ram⟩], by decide⟩

/-- With the page tables ending at 3 MB, page 300 is part of the kernel and free. -/
theorem highRamMap_not_kept :
    BitmapFits (setupArch highRamMap 0x300000#32 (bootImage fun _ ↦ false)) ∧
      ¬ KernelKept alignMask (setupArch highRamMap 0x300000#32 (bootImage fun _ ↦ false)) := by
  have hmax := maxLowPfn_setupArch highRamMap 0x300000#32 (bootImage fun _ ↦ false)
  rw [show lowEnd highRamMap = 16384#32 by decide] at hmax
  have hmin := minLowPfn_setupArch highRamMap 0x300000#32 (bootImage fun _ ↦ false)
  rw [show pfnUp 0x300000#32 = 768#32 by decide] at hmin
  have hfits : BitmapFits (setupArch highRamMap 0x300000#32 (bootImage fun _ ↦ false)) := by
    rw [BitmapFits, hmax, hmin]
    decide
  have hp : 300 ∈ kernelPages (setupArch highRamMap 0x300000#32 (bootImage fun _ ↦ false)) := by
    refine Or.inl ⟨by decide, ?_⟩
    rw [hmin]
    decide
  refine ⟨hfits, fun h ↦ ?_⟩
  refine (busy_kernelPage_iff hfits hp).mp (h.1 300 hp) ?_
  exact Sweep.mem_sweep_cons_self [] (by decide)

/-- RAM from 4 MB to 8 MB. -/
def farRamMap : E820Map := ⟨[⟨0x400000#64, 0x400000#64, e820Ram⟩], by decide⟩

/-- RAM that lies above a kernel of 3 MB does not touch it. -/
theorem farRamMap_kept :
    KernelKept alignMask (setupArch farRamMap 0x300000#32 (bootImage fun _ ↦ false)) := by
  have hmax := maxLowPfn_setupArch farRamMap 0x300000#32 (bootImage fun _ ↦ false)
  rw [show lowEnd farRamMap = 2048#32 by decide] at hmax
  have hmin := minLowPfn_setupArch farRamMap 0x300000#32 (bootImage fun _ ↦ false)
  rw [show pfnUp 0x300000#32 = 768#32 by decide] at hmin
  refine (kernelKept_iff alignMask_spec ?_).mpr fun p hp hsweep ↦ ?_
  · rw [BitmapFits, hmax, hmin]
    decide
  · obtain ⟨r, hr, hpr⟩ := Sweep.sweep_subset_cover _ hsweep
    rw [show ramPages farRamMap = [⟨1024, 2048⟩] by decide, List.mem_singleton] at hr
    rw [kernelPages, hmax, hmin, show (bootmemMapsize 0#32 2048#32).toNat = 256 by decide,
      show (768#32 : Word).toNat = 768 from rfl] at hp
    rw [hr, Range.mem_iff] at hpr
    dsimp only at hpr
    rcases hp with hp | hp
    · omega
    · omega

end AphroditeOs
