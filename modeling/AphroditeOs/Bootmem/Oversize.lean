import AphroditeOs.Bootmem.AlignZero
import AphroditeOs.Bootmem.AnyNode
import AphroditeOs.Bootmem.Tried

/-!
# Requests for more than the node

The page count of a request is computed in 32 bits.  For the sizes that wrap it is 0, so that the
scan has nothing to place, and settles on any page it tries that is not reserved.
-/

namespace AphroditeOs

open StrideScan (mapBits bitsBehind)

/-- A request that the node has no run for returns `NULL`, with the bitmap and the hints as they
were. -/
def FailsCleanly (ALIGN : Word → Word → Word) (s : BootState) (size align goal : Word) : Prop :=
  freeRuns s size = ∅ → ∃ r t, allocBootmemCore ALIGN size align goal s = .ok (r, t) ∧
    r.getD 0#32 = 0#32 ∧ (∀ p < mapBits s.bdata.nodeLowPfn.toNat, t.busy p = s.busy p) ∧
    t.bdata.lastPos = s.bdata.lastPos ∧ t.bdata.lastOffset = s.bdata.lastOffset ∧
    t.bdata.lastSuccess = s.bdata.lastSuccess

/-- Every page of the node that a scan may begin an area with is reserved, and so is every bit
behind the node that the two scans try. -/
structure NoOpenStart (s : BootState) (align goal : Word) : Prop where
  starts_busy : ∀ p < s.bdata.nodeLowPfn.toNat, max (align.toNat / 4096) 1 ∣ p → s.busy p = true
  behind_busy : ∀ i, i = preferredPage s.bdata align goal ∨ i = 0#32 →
    ∀ b ∈ triedPages s align 0 i, s.bdata.nodeLowPfn.toNat ≤ b → s.busy b = true

/-- The whole map is set and, unless its last word keeps a single page, so are the bits behind it
that the search may look at. -/
def MapFull (s : BootState) : Prop :=
  (∀ p < mapBits s.bdata.nodeLowPfn.toNat, s.busy p = true) ∧
    (s.bdata.nodeLowPfn.toNat % 32 = 1 ∨ ∀ p, mapBits s.bdata.nodeLowPfn.toNat ≤ p →
      p < mapBits s.bdata.nodeLowPfn.toNat + bitsBehind s.bdata.nodeLowPfn.toNat →
      s.busy p = true)

/-- Calls of a run: any, but of the requests whose page count wraps only those that find nothing. -/
def SafeCall (s : BootState) : BootCall → Prop
  | .alloc size align goal =>
    1 ≤ size.toNat ∧ AlignOk align ∧ (size.toNat ≤ 2 ^ 32 - 4096 ∨ NoOpenStart s align goal)
  | .free _ _ => True
  | .reserve _ _ => True

/-- The runs of such calls from state `s` on. -/
def safeRuns (ALIGN : Word → Word → Word) (s : BootState) : Transition.System BootState where
  Init t := t = s
  Step t u := ∃ c, SafeCall t c ∧ bootStep ALIGN t c = some u

section

variable {ALIGN : Word → Word → Word} {s : BootState} {size align goal start : Word}

/-! ## The scans -/

theorem areaPages_of_wrap (h : 2 ^ 32 - 4096 < size.toNat) : (areaPages size).toNat = 0 := by
  have hsize := size.isLt
  have hsum : (size + pageSize - 1#32).toNat = size.toNat + 4095 - 2 ^ 32 := by
    unfold pageSize pageShift
    bv_omega
  rw [areaPages, toNat_div_pageSize, hsum]
  omega

theorem restartScan_exhausted_iff_tried (hA : AlignSpec ALIGN) (hnode : IndexedNode s.bdata)
    (halign : AlignOk align) (hsize : 2 ^ 32 - 4096 < size.toNat) (i : Word) :
    restartScan ALIGN s size align i = .exhausted ↔ ∀ b ∈ triedPages s align 0 i, s.busy b = true := by
  have hpages : (nodePages s.bdata).toNat < 2 ^ 31 := by
    rw [hnode.nodePages_eq]
    exact hnode.nodeLowPfn
  have hscan := scanFrom_eq_scan (s := s) hA hpages (scanStride_isPowerOfTwo halign)
    (toNat_scanStride_lt align) (toNat_areaPages_lt size) ((nodePages s.bdata).toNat + 1) i
  rw [areaPages_of_wrap hsize, toNat_scanStride] at hscan
  have hzero := @StrideScan.scan_zero_eq_exhausted_iff s.busy _ _ _
    (show 0 < max (align.toNat / 4096) 1 by omega) (wordSearch_nextZero s hpages).le_next
    ((nodePages s.bdata).toNat + 1) i.toNat (by omega) (by omega)
  rw [← hscan] at hzero
  rw [triedPages, ← hzero]
  unfold restartScan
  dsimp only
  cases scanFrom ALIGN s (nodePages s.bdata) (areaPages size) (scanStride align)
    ((nodePages s.bdata).toNat + 1) i <;> simp [Scan.toResult]

-- Both scans give up, even where the first one is from page 0 and the code runs it only once.
theorem findStart_eq_exhausted_iff (hnode : IndexedNode s.bdata) :
    findStart ALIGN s size align goal = .exhausted ↔
      ∀ i, i = preferredPage s.bdata align goal ∨ i = 0#32 →
        restartScan ALIGN s size align i = .exhausted := by
  unfold findStart
  rw [hnode.nodeOffset_eq]
  dsimp only
  cases hfirst : restartScan ALIGN s size align (preferredPage s.bdata align goal) with
  | hang => simp [hfirst]
  | found start => simp [hfirst]
  | exhausted =>
    by_cases hlt : 0#32 < preferredPage s.bdata align goal
    · simp [hlt, hfirst]
    · have hz : preferredPage s.bdata align goal = 0#32 := by
        apply BitVec.eq_of_toNat_eq
        rw [BitVec.lt_def, BitVec.toNat_zero] at hlt
        rw [BitVec.toNat_zero]
        omega
      rw [hz] at hfirst
      simp [hz, hfirst]

theorem findStart_wrap_iff (goal : Word) (hA : AlignSpec ALIGN) (hnode : IndexedNode s.bdata)
    (halign : AlignOk align) (hsize : 2 ^ 32 - 4096 < size.toNat) :
    findStart ALIGN s size align goal = .exhausted ↔ NoOpenStart s align goal := by
  have hpages : (nodePages s.bdata).toNat < 2 ^ 31 := by
    rw [hnode.nodePages_eq]
    exact hnode.nodeLowPfn
  have hword := wordSearch_nextZero s hpages
  have htried : ∀ i : Word, (∀ b ∈ triedPages s align 0 i, s.busy b = true) ↔
      (∀ p, i.toNat ≤ p → p < s.bdata.nodeLowPfn.toNat → max (align.toNat / 4096) 1 ∣ p →
        s.busy p = true) ∧
      ∀ b ∈ triedPages s align 0 i, s.bdata.nodeLowPfn.toNat ≤ b → s.busy b = true := by
    intro i
    have hiff := StrideScan.tried_busy_iff_starts (w := max (align.toNat / 4096) 1) (by omega)
      hword.le_next hword.passed ((nodePages s.bdata).toNat + 1) i.toNat (by omega) (by omega)
    rw [hnode.nodePages_eq] at hiff
    rw [triedPages, hnode.nodePages_eq]
    exact hiff
  rw [findStart_eq_exhausted_iff hnode]
  simp only [restartScan_exhausted_iff_tried hA hnode halign hsize, htried]
  constructor
  · intro h
    constructor
    · exact fun p hp hdvd ↦ (h 0#32 (Or.inr rfl)).1 p (Nat.zero_le p) hp hdvd
    · exact fun i hi ↦ (h i hi).2
  · intro h i hi
    exact ⟨fun p _ hp hdvd ↦ h.starts_busy p hp hdvd, h.behind_busy i hi⟩

-- With an alignment of a page at most it is the whole map that counts.
theorem noOpenStart_iff_of_align_le_page (hnode : IndexedNode s.bdata) (hpage : align.toNat ≤ 4096) :
    NoOpenStart s align goal ↔ s.bdata.nodeLowPfn.toNat = 0 ∨ MapFull s := by
  have hpages := hnode.nodePages_eq
  have hn := hnode.nodeLowPfn
  have hword := wordSearch_nextZero s hn
  have hone : max (align.toNat / 4096) 1 = 1 := by omega
  have htried : ∀ i : Word, (∀ b ∈ triedPages s align 0 i, s.busy b = true) ↔
      s.bdata.nodeLowPfn.toNat ≤ i.toNat ∨
        (∀ p, i.toNat ≤ p → p < mapBits s.bdata.nodeLowPfn.toNat → s.busy p = true) ∧
        (s.bdata.nodeLowPfn.toNat % 32 = 1 ∨ ∀ p, mapBits s.bdata.nodeLowPfn.toNat ≤ p →
          p < mapBits s.bdata.nodeLowPfn.toNat + bitsBehind s.bdata.nodeLowPfn.toNat →
          s.busy p = true) := by
    intro i
    rw [triedPages, hpages, hone]
    exact StrideScan.tried_busy_iff hword _ _ (by omega) (by omega)
  have hstarts := StrideScan.tried_busy_iff_starts (w := 1) (by decide) hword.le_next hword.passed
    (s.bdata.nodeLowPfn.toNat + 1) 0 (by omega) (by omega)
  have hzero := htried 0#32
  rw [triedPages, hpages, hone, BitVec.toNat_zero, hstarts, Nat.le_zero] at hzero
  unfold MapFull
  constructor
  · intro h
    have hall := hzero.mp ⟨fun p _ hp hdvd ↦ h.starts_busy p hp (by rwa [hone]), fun b hb ↦ by
      have hbehind := h.behind_busy 0#32 (Or.inr rfl) b
      rw [triedPages, hpages, hone] at hbehind
      exact hbehind hb⟩
    exact hall.imp_right fun hall ↦ ⟨fun p ↦ hall.1 p (Nat.zero_le p), hall.2⟩
  · intro h
    constructor
    · rw [hone]
      exact fun p hp hdvd ↦ (hzero.mpr (h.imp_right fun hall ↦ ⟨fun p _ ↦ hall.1 p, hall.2⟩)).1 p
        (Nat.zero_le p) hp hdvd
    · intro i _ b hb _
      refine (htried i).mpr ?_ b hb
      exact h.imp (fun hz ↦ by omega) fun hall ↦ ⟨fun p _ ↦ hall.1 p, hall.2⟩

/-! ## The runs -/

/-- What such runs keep: the hints stay below the end of the node, and below the page whose kernel
address is `NULL`. -/
structure HintsLow (b : BootmemData) : Prop extends NodeOk b where
  lastSuccess_lt : b.lastSuccess.toNat < 2 ^ 30

theorem hintsLow_allocEffect (hs : HintsLow s.bdata) (halign : AlignOk align)
    (hsize : 1 ≤ size.toNat) (hv : ViableStart s size align start.toNat) :
    HintsLow (allocEffect s size align start).bdata := by
  refine ⟨nodeOk_allocEffect hs.toNodeOk halign hsize hv, ?_⟩
  have hlow := hs.nodeLowPfn
  have hfit := hv.2.1
  show (start <<< pageShift).toNat < 2 ^ 30
  rw [toNat_shiftLeft_pageShift _ (by omega)]
  omega

theorem HintsLow.step (hA : AlignSpec ALIGN) (hs : HintsLow s.bdata) {c : BootCall}
    (hc : SafeCall s c) {t : BootState} (hstep : bootStep ALIGN s c = some t) :
    HintsLow t.bdata := by
  cases c with
  | alloc size align goal =>
    have ⟨hsize, halign, hfits⟩ := hc
    simp only [bootStep] at hstep
    by_cases hfit : size.toNat ≤ 2 ^ 32 - 4096
    · rcases allocBootmemCore_cases goal hA hs.toZeroNode hs.toTailOk hsize hfit halign with
        hnull | ⟨start, -, hv, hfound⟩
      · rw [hnull] at hstep
        cases hstep
        exact hs
      · rw [hfound] at hstep
        cases hstep
        exact hintsLow_allocEffect hs halign hsize hv
    · have hnone := (findStart_wrap_iff goal hA hs.toZeroNode.indexed halign
        (Nat.lt_of_not_le hfit)).mpr (hfits.resolve_left hfit)
      rw [allocBootmemCore_eq hsize halign, hnone] at hstep
      cases hstep
      exact hs
  | free addr size =>
    cases hstep
    exact ⟨nodeOk_freeBootmem hs.toNodeOk addr size,
      (lastSuccess_freeBootmem_le addr size s).trans_lt hs.lastSuccess_lt⟩
  | reserve addr size =>
    cases hstep
    rw [reserveBootmem_bdata]
    exact hs

theorem hintsLow_of_reachable {page : Word} {s₀ : BootState} (hA : AlignSpec ALIGN)
    (hpage : page.toNat ≤ 2 ^ 18) (hs₀ : FreshHints s₀.bdata)
    (h : Transition.Reachable (safeRuns ALIGN (initBootmem start page s₀).2) s) :
    HintsLow s.bdata := by
  have hinv : Transition.Invariant (safeRuns ALIGN (initBootmem start page s₀).2)
      fun t ↦ HintsLow t.bdata := by
    constructor
    · intro t ht
      rw [show t = (initBootmem start page s₀).2 from ht]
      refine ⟨nodeOk_initBootmem hpage hs₀, ?_⟩
      rw [bdata_initBootmem, hs₀.lastSuccess]
      decide
    · intro t u ht ⟨c, hc, hstep⟩
      exact ht.step hA hc hstep
  exact hinv.of_reachable h

/-! ## One call -/

-- A size that does not wrap settles on a run of free pages or on nothing.
theorem failsCleanly_of_fits (goal : Word) (hA : AlignSpec ALIGN) (hs : NodeOk s.bdata)
    (h : Admissible size align) : FailsCleanly ALIGN s size align goal := by
  intro hnone
  rcases allocBootmemCore_settles goal hA hs.toZeroNode hs.toTailOk h with
    ⟨-, hnull⟩ | ⟨start, -, hv, -⟩
  · exact ⟨none, s, hnull, rfl, fun p _ ↦ rfl, rfl, rfl, rfl⟩
  · have hrun : start.toNat ∈ freeRuns s size := hv.2
    rw [hnone] at hrun
    exact absurd hrun (Set.notMem_empty _)

-- No page below the one at 1 GB leads to a `NULL` pointer.
theorem areaPtr_ne_zero {b : BootmemData} (hs : NodeOk b) (halign : AlignOk align)
    (h : (start <<< pageShift).toNat < 2 ^ 30) : areaPtr b align start ≠ 0#32 := by
  have hshift : (start <<< pageShift).toNat = start.toNat * 4096 % 2 ^ 32 := by
    rw [BitVec.toNat_shiftLeft, Nat.shiftLeft_eq]
    rfl
  unfold areaPtr
  split
  next hmerge =>
    have hlow := hs.nodeLowPfn
    have hpos := hs.lastPos_lt hmerge.2.1
    have hoff := toNat_mergeOffset hs.toTailOk halign hmerge.1
    have hle := mergeOffset_le hs.toTailOk halign hmerge.1
    have hstart : start.toNat = b.lastPos.toNat + 1 := by
      rw [← hmerge.2.2, toNat_add_one (by omega)]
    rw [hshift, hstart] at h
    rw [hs.nodeBootStart]
    generalize (b.lastOffset + align - 1#32) &&& ~~~(align - 1#32) = offset at hoff ⊢
    have hsum : (b.lastPos * pageSize + offset + 0#32).toNat =
        b.lastPos.toNat * 4096 + offset.toNat := by
      rw [BitVec.add_zero, BitVec.toNat_add, BitVec.toNat_mul, toNat_pageSize]
      omega
    generalize b.lastPos * pageSize + offset + 0#32 = x at hsum ⊢
    unfold va pageOffset
    bv_omega
  next =>
    rw [Ne, va_pageAddr_eq_zero_iff, hs.nodeBootStart, BitVec.toNat_zero, Nat.add_zero]
    omega

-- A scan that settles on a page moves `last_success`, or the pointer is not `NULL`.
theorem not_failsCleanly_of_findStart (hs : HintsLow s.bdata) (halign : AlignOk align)
    (hsize : 2 ^ 32 - 4096 < size.toNat)
    (h : findStart ALIGN s size align goal ≠ .exhausted) : ¬ FailsCleanly ALIGN s size align goal := by
  intro hclean
  have hnone : freeRuns s size = ∅ := by
    have hlow := hs.nodeLowPfn
    apply Set.eq_empty_iff_forall_notMem.mpr
    intro p hp
    have hfit := hp.1
    omega
  have ⟨r, t, hcall, hnull, _, _, _, hlast⟩ := hclean hnone
  have heq := @allocBootmemCore_eq ALIGN s size align goal (by omega) halign
  cases hfind : findStart ALIGN s size align goal with
  | exhausted => exact h hfind
  | hang =>
    rw [heq, hfind] at hcall
    cases hcall
  | found start =>
    rw [hfind] at heq
    cases r with
    | none =>
      rw [heq] at hcall
      dsimp only at hcall
      cases htake : takeArea size align start s <;> rw [htake] at hcall <;> cases hcall
    | some ret =>
      have ⟨count, hplace⟩ := placeArea_of_takeArea (takeArea_of_call heq hcall)
      have ⟨hptr, hsuccess, _⟩ := placeArea_ok hplace
      have hlt := hs.lastSuccess_lt
      rw [← hlast, hsuccess] at hlt
      rw [Option.getD_some, hptr] at hnull
      exact areaPtr_ne_zero hs.toNodeOk halign hlt hnull

end

/-- **Oversized requests.**  After any calls, of which those whose page count wraps have found
nothing, a request fails cleanly exactly when its page count does not wrap, or the scans find no
page or bit to settle on; with an alignment of a page at most, when the whole map is set. -/
theorem failsCleanly_iff {ALIGN : Word → Word → Word} {start page : Word} {s₀ s : BootState}
    {size align : Word} (goal : Word) (hA : AlignSpec ALIGN) (hpage : page.toNat ≤ 2 ^ 18)
    (hs₀ : FreshHints s₀.bdata)
    (hs : Transition.Reachable (safeRuns ALIGN (initBootmem start page s₀).2) s)
    (hsize : 1 ≤ size.toNat) (halign : align.toNat.isPowerOfTwo) :
    (FailsCleanly ALIGN s size align goal ↔
      size.toNat ≤ 2 ^ 32 - 4096 ∨ NoOpenStart s align goal) ∧
    (align.toNat ≤ 4096 → (FailsCleanly ALIGN s size align goal ↔
      size.toNat ≤ 2 ^ 32 - 4096 ∨ s.bdata.nodeLowPfn.toNat = 0 ∨ MapFull s)) := by
  have hlow := hintsLow_of_reachable hA hpage hs₀ hs
  have hindexed := hlow.toZeroNode.indexed
  have hiff : FailsCleanly ALIGN s size align goal ↔
      size.toNat ≤ 2 ^ 32 - 4096 ∨ NoOpenStart s align goal := by
    rcases Nat.lt_or_ge (2 ^ 32 - 4096) size.toNat with hwrap | hfit
    · have hfind := findStart_wrap_iff goal hA hindexed (Or.inl halign) hwrap
      rw [or_iff_right (by omega), ← hfind]
      constructor
      · intro hclean
        by_contra hne
        exact not_failsCleanly_of_findStart hlow (Or.inl halign) hwrap hne hclean
      · intro hnone _
        refine ⟨none, s, ?_, rfl, fun p _ ↦ rfl, rfl, rfl, rfl⟩
        rw [allocBootmemCore_eq hsize (Or.inl halign), hnone]
    · exact iff_of_true (failsCleanly_of_fits goal hA hlow.toNodeOk ⟨hsize, hfit, halign⟩)
        (Or.inl hfit)
  apply And.intro hiff
  intro hpage'
  rw [hiff, noOpenStart_iff_of_align_le_page hindexed hpage']

/-- In a node of eight reserved pages, with the word behind its map set as well, an oversized request
fails cleanly. -/
theorem fullNode_failsCleanly :
    FailsCleanly alignMask (initBootmem 100#32 8#32 (bootImage fun _ ↦ true)).2 (-1#32) 1#32 0#32 := by
  have hfull : MapFull (initBootmem 100#32 8#32 (bootImage fun _ ↦ true)).2 := by
    unfold MapFull
    decide +kernel
  exact ((failsCleanly_iff 0#32 alignMask_spec (by decide) (freshHints_bootImage _) (.init rfl)
    (by decide) isPowerOfTwo_toNat_one).2 (by decide)).mpr (Or.inr (Or.inr hfull))

/-- A request for all but the last byte of the address space is given page 0. -/
theorem openNode_not_failsCleanly :
    Transition.Reachable (safeRuns alignMask (initBootmem 100#32 8#32 (bootImage fun _ ↦ false)).2)
        (openNode 100#32 8#32) ∧
      ¬ FailsCleanly alignMask (openNode 100#32 8#32) (-1#32) 1#32 0#32 := by
  constructor
  · exact .step (.init rfl) ⟨.free 0#32 (pfnPhys 8#32), trivial, rfl⟩
  · have hfind : findStart alignMask (openNode 100#32 8#32) (-1#32) 1#32 0#32 ≠ .exhausted := by
      decide +kernel
    exact not_failsCleanly_of_findStart ⟨nodeOk_openNode (by decide), by decide⟩ alignOk_one (by decide) hfind

end AphroditeOs
