import AphroditeOs.Bootmem.Completeness
import AphroditeOs.Bootmem.Settle

/-!
# The page a call settles on

What the two scans of a call answer, read off the bitmap and the preferred page alone.  With an
alignment of a page at most, a call without a goal takes the first run of free pages that is long
enough.
-/

namespace AphroditeOs

/-- The starts from page `base` on that a scan does not step over. -/
def openStarts (s : BootState) (size align : Word) (base : Nat) : Set Nat :=
  StrideScan.openStarts s.busy s.bdata.nodeLowPfn.toNat (max (align.toNat / 4096) 1)
    ((size.toNat + 4095) / 4096) base

/-- Page `p` is the first open start from the preferred page on or, when there is none, the first
one of the node. -/
def SettlesOn (s : BootState) (size align goal : Word) (p : Nat) : Prop :=
  IsLeast (openStarts s size align (preferredPage s.bdata align goal).toNat) p ∨
    openStarts s size align (preferredPage s.bdata align goal).toNat = ∅ ∧
      IsLeast (openStarts s size align 0) p

/-- The pages at which a run of free pages of the node begins that is long enough. -/
def freeRuns (s : BootState) (size : Word) : Set Nat :=
  {p | p + (size.toNat + 4095) / 4096 ≤ s.bdata.nodeLowPfn.toNat ∧
    ∀ q, p ≤ q → q < p + (size.toNat + 4095) / 4096 → s.busy q = false}

variable {ALIGN : Word → Word → Word} {s : BootState} {size align goal start : Word} {p : Nat}

theorem mem_openStarts_iff {base : Nat} :
    p ∈ openStarts s size align base ↔
      base ≤ p ∧ ViableStart s size align p ∧ Even (fragmentsBefore s align base p) := Iff.rfl

theorem SettlesOn.eq {q : Nat} (hp : SettlesOn s size align goal p)
    (hq : SettlesOn s size align goal q) : p = q := by
  rcases hp with hp | ⟨hnone, hp⟩ <;> rcases hq with hq | ⟨hnone', hq⟩
  · exact hp.unique hq
  · exact absurd hp.1 (hnone' ▸ Set.notMem_empty p)
  · exact absurd hq.1 (hnone ▸ Set.notMem_empty q)
  · exact hp.unique hq

theorem SettlesOn.viable (hp : SettlesOn s size align goal p) : ViableStart s size align p := by
  rcases hp with hp | ⟨-, hp⟩
  · exact (mem_openStarts_iff.mp hp.1).2.1
  · exact (mem_openStarts_iff.mp hp.1).2.1

/-! ## What the scans answer -/

-- On a node that begins with page 0 the indices are pages, and the first scan begins on the stride.
theorem settlesAt_iff (hnode : IndexedNode s.bdata) (halign : align.toNat.isPowerOfTwo) :
    SettlesAt s size align goal p ↔ SettlesOn s size align goal p := by
  have hstarts : ∀ base, nodeStarts s size align base = openStarts s size align base := by
    intro base
    rw [nodeStarts, hnode.nodePages_eq, openStarts]
  have hstride : ∀ i : Word, max (align.toNat / 4096) 1 ∣ i.toNat → strideUp align i = i.toNat :=
    fun i hi ↦ Align.roundUp_of_dvd (by omega) hi
  unfold SettlesAt SettlesOn
  rw [hnode.nodeOffset_eq, hstride _ (stride_dvd_preferredPage hnode goal halign),
    hstride 0#32 (dvd_zero _), hstarts, hstarts, BitVec.toNat_zero]

/-- A call settles on the page that the bitmap and the preferred page say. -/
theorem findStart_found_iff (hA : AlignSpec ALIGN) (hnode : IndexedNode s.bdata)
    (h : Admissible size align) :
    findStart ALIGN s size align goal = .found start ↔
      SettlesOn s size align goal start.toNat := by
  have hpages : (nodePages s.bdata).toNat < 2 ^ 31 := by
    rw [hnode.nodePages_eq]
    exact hnode.nodeLowPfn
  rw [← settlesAt_iff hnode h.align_pow]
  rcases findStart_settlesAt hA hpages h goal with ⟨hr, hnone⟩ | ⟨start', hr, hstart'⟩
  · rw [hr]
    exact ⟨fun hfound ↦ by contradiction, fun hstart ↦ absurd hstart (hnone _)⟩
  · rw [hr]
    constructor
    · intro hfound
      rwa [← Scan.found.inj hfound]
    · intro hstart
      rw [BitVec.eq_of_toNat_eq (hstart'.eq hstart)]

/-! ## Alignments of a page at most -/

theorem openStarts_of_align_le_page (halign : align.toNat ≤ 4096) (base : Nat) :
    openStarts s size align base = {p | base ≤ p ∧ p ∈ freeRuns s size} := by
  unfold openStarts freeRuns
  rw [show max (align.toNat / 4096) 1 = 1 by omega, StrideScan.openStarts_one]
  ext p
  simp [StrideScan.Viable]

theorem settlesOn_no_goal (hnode : IndexedNode s.bdata) (halign : align.toNat.isPowerOfTwo)
    (hpage : align.toNat ≤ 4096) :
    SettlesOn s size align 0#32 p ↔ IsLeast (freeRuns s size) p := by
  unfold SettlesOn
  rw [preferredPage_no_goal hnode halign, BitVec.toNat_zero,
    openStarts_of_align_le_page hpage]
  simp only [Nat.zero_le, true_and, Set.ofPred_mem_eq]
  refine or_iff_left fun ⟨hempty, hleast⟩ ↦ ?_
  exact Set.notMem_empty p (hempty ▸ hleast.1)

/-- **First fit.**  Without a goal and with an alignment of a page at most, the scan settles on the
first run of free pages that is long enough, and gives up when there is none. -/
theorem findStart_firstFit (hA : AlignSpec ALIGN) (hboot : s.bdata.nodeBootStart = 0#32)
    (hlow : s.bdata.nodeLowPfn.toNat < 2 ^ 31) (h : Admissible size align)
    (hpage : align.toNat ≤ 4096) :
    (∀ start, findStart ALIGN s size align 0#32 = .found start ↔
      IsLeast (freeRuns s size) start.toNat) ∧
    (findStart ALIGN s size align 0#32 = .exhausted ↔ freeRuns s size = ∅) := by
  have hnode : IndexedNode s.bdata := ⟨hboot, hlow⟩
  constructor
  · intro start
    rw [findStart_found_iff hA hnode h, settlesOn_no_goal hnode h.align_pow hpage]
  · rw [findStart_exhausted_iff hA hnode h, Set.eq_empty_iff_forall_notMem]
    rw [preferredPage_no_goal hnode h.align_pow, BitVec.toNat_zero]
    apply forall_congr'
    intro p
    have hmem : p ∈ openStarts s size align 0 ↔ p ∈ freeRuns s size := by
      rw [openStarts_of_align_le_page hpage]
      simp
    rw [← hmem, mem_openStarts_iff, ← Nat.not_even_iff_odd]
    have hle := Nat.zero_le p
    tauto

-- Pages 0 to 2 are free as well, but too few for four pages.
theorem fragmentedNode_firstFit : IsLeast (freeRuns fragmentedNode (pfnPhys 4#32)) 4 :=
  ((findStart_firstFit alignMask_spec rfl (by decide) ⟨by decide, by decide, ⟨6, rfl⟩⟩
    (by decide)).1 4#32).mp (show findStart alignMask fragmentedNode (pfnPhys 4#32) 64#32 0#32 =
      .found 4#32 by decide +kernel)

end AphroditeOs
