import AphroditeOs.Bootmem.Scan

/-!
# When `__alloc_bootmem_core` gives up

The two scans of a call step over an aligned start that comes right after a fragmented stride
block, unless the block before was stepped over itself.  A request larger than a page that is
aligned to more than a page can therefore fail although there is room for it.
-/

namespace AphroditeOs

variable {ALIGN : Word → Word → Word} {s : BootState} {size align goal : Word}

/-- How many fragmented stride blocks in a row end right before page `p`, counted back to page
`base`. -/
def fragmentsBefore (s : BootState) (align : Word) (base p : Nat) : Nat :=
  StrideScan.fragRun s.busy (max (align.toNat / 4096) 1) base
    ((p - base) / max (align.toNat / 4096) 1)

/-- The call returns `NULL` only when no aligned run of free pages would do. -/
def NullOnlyIfFull (ALIGN : Word → Word → Word) (s : BootState) (size align goal : Word) : Prop :=
  (∃ s', allocBootmemCore ALIGN size align goal s = .ok (none, s')) →
    ¬ ∃ p, ViableStart s size align p

theorem allocBootmemCore_null_iff (h : Admissible size align) :
    (∃ s', allocBootmemCore ALIGN size align goal s = .ok (none, s')) ↔
      findStart ALIGN s size align goal = .exhausted := by
  rw [allocBootmemCore_eq (by have := h.size_pos; omega) (Or.inl h.align_pow)]
  cases findStart ALIGN s size align goal with
  | hang => simp
  | exhausted => simp
  | found start =>
    dsimp only
    cases takeArea size align start s <;> simp [Except.map]

theorem restartScan_exhausted_iff (hA : AlignSpec ALIGN) (hnode : IndexedNode s.bdata)
    (h : Admissible size align) {i : Word} (hi : max (align.toNat / 4096) 1 ∣ i.toNat) :
    restartScan ALIGN s size align i = .exhausted ↔
      ∀ p, i.toNat ≤ p → ViableStart s size align p → Odd (fragmentsBefore s align i.toNat p) := by
  have hans := restartScan_answers hA hnode h.size_pos h.size_le (Or.inl h.align_pow) i
  rw [Align.roundUp_of_dvd (by omega) hi] at hans
  refine Iff.trans ?_ (hans.eq_exhausted_iff (by omega) hi)
  cases restartScan ALIGN s size align i <;> simp [Scan.toResult]

/-- Both scans give up exactly when they step over every viable start. -/
theorem findStart_exhausted_iff (hA : AlignSpec ALIGN) (hnode : IndexedNode s.bdata)
    (h : Admissible size align) :
    findStart ALIGN s size align goal = .exhausted ↔
      ∀ p, ViableStart s size align p → Odd (fragmentsBefore s align 0 p) ∧
        ((preferredPage s.bdata align goal).toNat ≤ p →
          Odd (fragmentsBefore s align (preferredPage s.bdata align goal).toNat p)) := by
  have hpref := restartScan_exhausted_iff hA hnode h
    (stride_dvd_preferredPage (s := s) hnode goal h.align_pow)
  have hzero := restartScan_exhausted_iff hA hnode h (i := 0#32) (dvd_zero _)
  rw [BitVec.toNat_zero] at hzero
  rw [findStart, hnode.nodeOffset_eq]
  by_cases hex : restartScan ALIGN s size align (preferredPage s.bdata align goal) = .exhausted
  · -- the second scan runs from page 0, and decides alone
    have hfirst := hpref.mp hex
    rw [hex]
    dsimp only
    split
    next hlt =>
      rw [hzero]
      exact ⟨fun hall p hp ↦ ⟨hall p (Nat.zero_le p) hp, fun hle ↦ hfirst p hle hp⟩,
        fun hall p _ hp ↦ (hall p hp).1⟩
    next hge =>
      -- the preferred page is page 0 already
      have hpz : (preferredPage s.bdata align goal).toNat = 0 := by
        rw [BitVec.lt_def, BitVec.toNat_zero] at hge
        omega
      rw [hpz] at hfirst ⊢
      exact ⟨fun _ p hp ↦ ⟨hfirst p (Nat.zero_le p) hp, fun _ ↦ hfirst p (Nat.zero_le p) hp⟩,
        fun _ ↦ rfl⟩
  · constructor
    · intro hfind
      cases hr : restartScan ALIGN s size align (preferredPage s.bdata align goal) with
      | exhausted => exact absurd hr hex
      | found start =>
        rw [hr] at hfind
        contradiction
      | hang =>
        rw [hr] at hfind
        contradiction
    · intro hall
      exact absurd (hpref.mpr fun p hle hp ↦ (hall p hp).2 hle) hex

/-- At page granularity the scan is complete. -/
theorem nullOnlyIfFull_of_align_le_page (hA : AlignSpec ALIGN) (hnode : ZeroNode s.bdata)
    (h : Admissible size align) (halign : align.toNat ≤ 4096) :
    NullOnlyIfFull ALIGN s size align goal := by
  rintro hnull ⟨p, hp⟩
  have hstride : max (align.toNat / 4096) 1 = 1 := by omega
  have hexhausted := (allocBootmemCore_null_iff h).mp hnull
  have hodd := ((findStart_exhausted_iff hA hnode.indexed h).mp hexhausted p hp).1
  rw [fragmentsBefore, hstride, StrideScan.fragRun_one] at hodd
  exact absurd hodd (by decide)

/-- **Completeness of the scan.**  `NULL` means that there is no room exactly when there is none,
or some viable start has an even number of fragmented stride blocks in a row right before it,
counted back to page 0 or, for a start at or above it, to the preferred page. -/
theorem nullOnlyIfFull_iff (hA : AlignSpec ALIGN) (hnode : ZeroNode s.bdata)
    (h : Admissible size align) :
    NullOnlyIfFull ALIGN s size align goal ↔
      (¬ ∃ p, ViableStart s size align p) ∨
        ∃ p, ViableStart s size align p ∧
          (Even (fragmentsBefore s align 0 p) ∨
            (preferredPage s.bdata align goal).toNat ≤ p ∧
              Even (fragmentsBefore s align (preferredPage s.bdata align goal).toNat p)) := by
  rw [NullOnlyIfFull, allocBootmemCore_null_iff h, findStart_exhausted_iff hA hnode.indexed h]
  constructor
  · intro hnull
    by_cases hroom : ∃ p, ViableStart s size align p
    · right
      by_contra hnone
      refine hnull (fun p hp ↦ ?_) hroom
      simp only [← Nat.not_even_iff_odd]
      exact ⟨fun he ↦ hnone ⟨p, hp, Or.inl he⟩, fun hle he ↦ hnone ⟨p, hp, Or.inr ⟨hle, he⟩⟩⟩
    · exact Or.inl hroom
  · rintro (hfull | ⟨p, hp, hparity⟩) hall
    · exact hfull
    · obtain ⟨hodd, hodd'⟩ := hall p hp
      rcases hparity with he | ⟨hle, he⟩
      · exact absurd he (Nat.not_even_iff_odd.mpr hodd)
      · exact absurd he (Nat.not_even_iff_odd.mpr (hodd' hle))

/-- Of twelve pages, 4, 6 and 8 to 11 are free. -/
def stripedNode : BootState :=
  freeBootmem (pfnPhys 8#32) (pfnPhys 4#32) (freeBootmem (pfnPhys 6#32) pageSize
    (freeBootmem (pfnPhys 4#32) pageSize (initBootmem 100#32 12#32 (bootImage fun _ ↦ false)).2))

-- Two fragmented blocks come before the viable start: the first is stepped onto, the second over.
theorem stripedNode_nullOnlyIfFull :
    NullOnlyIfFull alignMask stripedNode (pfnPhys 4#32) (pfnPhys 2#32) 0#32 ∧
      ViableStart stripedNode (pfnPhys 4#32) (pfnPhys 2#32) 8 := by
  have hviable : ViableStart stripedNode (pfnPhys 4#32) (pfnPhys 2#32) 8 := by
    refine ⟨by decide, by decide, fun p hlo hhi ↦ ?_⟩
    have hp : p < 12 := hhi
    interval_cases p <;> decide +kernel
  have htwo : fragmentsBefore stripedNode (pfnPhys 2#32) 0 8 = 2 := by decide +kernel
  refine ⟨?_, hviable⟩
  exact (nullOnlyIfFull_iff alignMask_spec ⟨rfl, by decide⟩ ⟨by decide, by decide, ⟨13, rfl⟩⟩).mpr
    (Or.inr ⟨8, hviable, Or.inl (htwo ▸ even_two)⟩)

/-- Pages 0 to 2 and 4 to 7 of a node of eight pages are free. -/
def fragmentedNode : BootState :=
  freeBootmem (pfnPhys 4#32) (pfnPhys 4#32)
    (freeBootmem 0#32 (pfnPhys 3#32) (initBootmem 100#32 8#32 (bootImage fun _ ↦ false)).2)

/-- Four pages aligned to two are refused although pages 4 to 7 are free: the run from page 0
fails at page 3, `ALIGN` moves that up to page 4, and the loop adds two more. -/
theorem fragmentedNode_refuses :
    ¬ NullOnlyIfFull alignMask fragmentedNode (pfnPhys 4#32) (pfnPhys 2#32) 0#32 := by
  intro h
  have hreq : Admissible (pfnPhys 4#32) (pfnPhys 2#32) := ⟨by decide, by decide, ⟨13, rfl⟩⟩
  refine h ((allocBootmemCore_null_iff hreq).mpr (by decide +kernel)) ⟨4, by decide, by decide, ?_⟩
  intro p hlo hhi
  have hp : p < 8 := hhi
  interval_cases p <;> decide +kernel

end AphroditeOs
