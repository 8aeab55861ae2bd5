import AphroditeOs.Bootmem.Alloc
import AphroditeOs.Lib.StrideScan

/-!
# The scan of `__alloc_bootmem_core`

The scan over machine words is the strided scan of the library, as long as the node lies below
the 1 GB that the kernel can address.
-/

namespace AphroditeOs

/-- A node that begins at page 0, as `init_bootmem` sets it up, and whose page indices are not
negative as an `int`. -/
structure IndexedNode (b : BootmemData) : Prop where
  nodeBootStart : b.nodeBootStart = 0#32
  nodeLowPfn : b.nodeLowPfn.toNat < 2 ^ 31

/-- A node whose pages all have a kernel address: `__va` of none of them wraps around to `NULL`. -/
structure ZeroNode (b : BootmemData) : Prop where
  nodeBootStart : b.nodeBootStart = 0#32
  nodeLowPfn : b.nodeLowPfn.toNat ≤ 2 ^ 18

/-- A node that `find_max_low_pfn` has bounded as well. -/
structure LowNode (b : BootmemData) : Prop where
  nodeBootStart : b.nodeBootStart = 0#32
  nodeLowPfn : b.nodeLowPfn ≤ maxmemPfn

/-- A request whose size does not wrap when it is rounded up to pages. -/
structure Admissible (size align : Word) : Prop where
  size_pos : 1 ≤ size.toNat
  size_le : size.toNat ≤ 2 ^ 32 - 4096
  align_pow : align.toNat.isPowerOfTwo

def Scan.toResult : Scan → StrideScan.Result
  | .found start => .found start.toNat
  | .exhausted => .exhausted
  | .hang => .hang

/-! ## The parameters of the scan -/

theorem LowNode.toNat_nodeLowPfn_le {b : BootmemData} (h : LowNode b) :
    b.nodeLowPfn.toNat ≤ 229376 := by
  have := h.nodeLowPfn
  rwa [BitVec.le_def, toNat_maxmemPfn] at this

theorem LowNode.zeroNode {b : BootmemData} (h : LowNode b) : ZeroNode b :=
  ⟨h.nodeBootStart, by have := h.toNat_nodeLowPfn_le; omega⟩

theorem ZeroNode.indexed {b : BootmemData} (h : ZeroNode b) : IndexedNode b :=
  ⟨h.nodeBootStart, by have := h.nodeLowPfn; omega⟩

theorem IndexedNode.nodePages_eq {b : BootmemData} (h : IndexedNode b) :
    nodePages b = b.nodeLowPfn := by
  rw [nodePages, h.nodeBootStart, BitVec.zero_ushiftRight]
  exact BitVec.sub_zero _

theorem IndexedNode.nodeOffset_eq {b : BootmemData} (h : IndexedNode b) (align : Word) :
    nodeOffset b align = 0#32 := by
  rw [nodeOffset, h.nodeBootStart, BitVec.zero_and, if_neg (by simp)]
  exact BitVec.zero_ushiftRight

theorem toNat_areaPages_lt (size : Word) : (areaPages size).toNat < 2 ^ 20 := by
  rw [areaPages, toNat_div_pageSize]
  have := (size + pageSize - 1#32).isLt
  omega

theorem toNat_areaPages {size : Word} (h : size.toNat ≤ 2 ^ 32 - 4096) :
    (areaPages size).toNat = (size.toNat + 4095) / 4096 :=
  toNat_add_pageSize_sub_one_div size (by omega)

theorem isPowerOfTwo_div_page {a : Nat} (ha : a.isPowerOfTwo) (h : a / 4096 ≠ 0) :
    (a / 4096).isPowerOfTwo := by
  obtain ⟨k, rfl⟩ := ha
  rcases Nat.lt_or_ge k 12 with hk | hk
  · exact absurd (Nat.div_eq_of_lt (Nat.pow_lt_pow_right (show 1 < 2 by decide) hk)) h
  · exact ⟨k - 12, Nat.pow_div hk (by decide)⟩

theorem toNat_scanStride (align : Word) :
    (scanStride align).toNat = max (align.toNat / 4096) 1 := by
  unfold scanStride
  have h := toNat_shiftRight_pageShift align
  split
  next hne =>
    have hne' : align.toNat / 4096 ≠ 0 := fun hz ↦ hne (BitVec.eq_of_toNat_eq (by rw [h, hz]; rfl))
    rw [h]
    omega
  next heq =>
    rw [not_not.mp heq, BitVec.toNat_zero] at h
    rw [show (1#32).toNat = 1 from rfl]
    omega

theorem scanStride_isPowerOfTwo {align : Word} (h : align.toNat.isPowerOfTwo ∨ align = 0#32) :
    (scanStride align).toNat.isPowerOfTwo := by
  rw [toNat_scanStride]
  by_cases hz : align.toNat / 4096 = 0
  · rw [hz]
    exact Nat.isPowerOfTwo_one
  · rw [max_eq_left (by omega)]
    rcases h with h | rfl
    · exact isPowerOfTwo_div_page h hz
    · exact absurd rfl hz

theorem toNat_scanStride_lt (align : Word) : (scanStride align).toNat < 2 ^ 20 := by
  rw [toNat_scanStride]
  have := align.isLt
  omega

/-! ## From words to natural numbers -/

theorem areaFailure_eq_firstBusy (s : BootState) (eidx : Word) (count : Nat) (j : Word)
    (h : j.toNat + count < 2 ^ 32) :
    (areaFailure s eidx count j).map BitVec.toNat =
      StrideScan.firstBusy s.busy eidx.toNat count j.toNat := by
  induction count generalizing j with
  | zero => rfl
  | succ count ih =>
    have hj : (j + 1#32).toNat = j.toNat + 1 := by
      rw [toNat_add_one (by omega)]
    rw [areaFailure, StrideScan.firstBusy]
    have hle : eidx ≤ j ↔ eidx.toNat ≤ j.toNat := BitVec.le_def
    by_cases hfail : eidx.toNat ≤ j.toNat ∨ s.busy j.toNat = true
    · rw [if_pos (by rwa [hle]), if_pos hfail]
      rfl
    · rw [if_neg (by rwa [hle]), if_neg hfail, ih _ (by omega), hj]

/-- The zero search of a node as a function on page indices. -/
def nextZero (s : BootState) (eidx : Word) (i : Nat) : Nat :=
  (findNextZeroBit s.mem s.bdata.map eidx (BitVec.ofNat 32 i)).toNat

theorem nextZero_spec (s : BootState) {eidx : Word} (hn : eidx.toNat < 2 ^ 31) (i : Nat)
    (hi : i < eidx.toNat) :
    i ≤ nextZero s eidx i ∧ ∀ p, i ≤ p → p < nextZero s eidx i → s.busy p = true := by
  have hval : (BitVec.ofNat 32 i).toNat = i := by
    rw [toNat_ofNat_of_lt (by omega)]
  have h := findNextZeroBit_spec s.mem s.bdata.map eidx (BitVec.ofNat 32 i) (by omega)
  rw [hval] at h
  exact ⟨h.1, h.2.2⟩

section

variable {ALIGN : Word → Word → Word} {s : BootState} {eidx areasize incr : Word}

/-- A pass of the scan that tries page `b`, read on page indices: no sum of it wraps. -/
structure PassOn (ALIGN : Word → Word → Word) (s : BootState) (eidx areasize incr : Word) (i : Nat)
    (b : Word) : Prop where
  tried : b.toNat = Align.roundUp (nextZero s eidx i) incr.toNat
  skip : (b + incr).toNat = b.toNat + incr.toNat
  area : (b + areasize).toNat - b.toNat = areasize.toNat
  failure : (areaFailure s eidx areasize.toNat b).map BitVec.toNat =
    StrideScan.firstBusy s.busy eidx.toNat areasize.toNat b.toNat
  fail : ∀ j, areaFailure s eidx areasize.toNat b = some j →
    (ALIGN j incr + incr).toNat = Align.roundUp j.toNat incr.toNat + incr.toNat

theorem nextZero_toNat (s : BootState) (eidx i : Word) :
    nextZero s eidx i.toNat = (findNextZeroBit s.mem s.bdata.map eidx i).toNat := by
  rw [nextZero, BitVec.ofNat_toNat, BitVec.setWidth_eq]

-- The search moves by less than 64, and stride and area are below `2 ^ 20`.
theorem passOn (hA : AlignSpec ALIGN) (hn : eidx.toNat < 2 ^ 31) (hincr : incr.toNat.isPowerOfTwo)
    (hincr' : incr.toNat < 2 ^ 20) (harea : areasize.toNat < 2 ^ 20) {i : Word}
    (hi : i.toNat < eidx.toNat) :
    PassOn ALIGN s eidx areasize incr i.toNat
      (ALIGN (findNextZeroBit s.mem s.bdata.map eidx i) incr) := by
  have hpos := Nat.pos_of_isPowerOfTwo hincr
  have hadd : ∀ x : Word, x.toNat < 2 ^ 31 + 2 ^ 22 → (x + incr).toNat = x.toNat + incr.toNat := by
    intro x hx
    rw [BitVec.toNat_add, Nat.mod_eq_of_lt (by omega)]
  have hnext := nextZero_toNat s eidx i
  have hr := (findNextZeroBit_spec s.mem s.bdata.map eidx i (by omega)).2.1
  have hb := hA (findNextZeroBit s.mem s.bdata.map eidx i) incr hincr (by omega)
  have hblt := Align.roundUp_lt (nextZero s eidx i.toNat) hpos
  rw [← hnext] at hr hb
  generalize ALIGN (findNextZeroBit s.mem s.bdata.map eidx i) incr = b at hb ⊢
  rw [← hb] at hblt
  have hfirst := areaFailure_eq_firstBusy s eidx areasize.toNat b (by omega)
  constructor
  · exact hb
  · exact hadd b (by omega)
  · rw [BitVec.toNat_add, Nat.mod_eq_of_lt (by omega), Nat.add_sub_cancel_left]
  · exact hfirst
  · intro j hfail
    rw [hfail] at hfirst
    have hj := (StrideScan.firstBusy_eq_some hfirst.symm).2.1
    have hjup := hA j incr hincr (by omega)
    have hjlt := Align.roundUp_lt j.toNat hpos
    rw [← hjup] at hjlt
    rw [hadd _ (by omega), hjup]

theorem scanFrom_eq_scan (hA : AlignSpec ALIGN) (hn : eidx.toNat < 2 ^ 31)
    (hincr : incr.toNat.isPowerOfTwo) (hincr' : incr.toNat < 2 ^ 20)
    (harea : areasize.toNat < 2 ^ 20) (fuel : Nat) (i : Word) :
    (scanFrom ALIGN s eidx areasize incr fuel i).toResult =
      StrideScan.scan s.busy eidx.toNat incr.toNat areasize.toNat (nextZero s eidx) fuel i.toNat := by
  -- pass by pass
  induction fuel generalizing i with
  | zero => rfl
  | succ fuel ih =>
    rw [scanFrom, StrideScan.scan]
    by_cases hi : i.toNat < eidx.toNat
    · rw [if_pos (BitVec.lt_def.mpr hi), if_pos hi]
      dsimp only
      have hpass := passOn (s := s) hA hn hincr hincr' harea hi
      rw [← hpass.tried]
      generalize ALIGN (findNextZeroBit s.mem s.bdata.map eidx i) incr = b at hpass ⊢
      split
      next hbusy => rw [ih, hpass.skip]
      next hfree =>
        rw [hpass.area, ← hpass.failure]
        cases hfail : areaFailure s eidx areasize.toNat b with
        | none => rfl
        | some j =>
          change _ = StrideScan.scan s.busy eidx.toNat incr.toNat areasize.toNat (nextZero s eidx)
            fuel (Align.roundUp j.toNat incr.toNat + incr.toNat)
          rw [ih, hpass.fail j hfail]
    · rw [if_neg (fun h ↦ hi (BitVec.lt_def.mp h)), if_neg hi]
      rfl

end

/-! ## What the scans of a call find -/

theorem ne_zero_of_toNat_pos {x : Word} (h : 0 < x.toNat) : x ≠ 0#32 := by
  intro hz
  rw [hz] at h
  exact absurd h (by decide)

theorem and_sub_one_eq_zero {align : Word} (h : align.toNat.isPowerOfTwo ∨ align = 0#32) :
    align &&& (align - 1#32) = 0#32 := by
  by_cases hz : align = 0#32
  · rw [hz]
    rfl
  · exact (Align.and_sub_one_eq_zero_iff hz).mpr (h.resolve_right hz)

-- A request that passes the checks at the head of the call.
theorem allocBootmemCore_eq {ALIGN : Word → Word → Word} {s : BootState} {size align goal : Word}
    (hsize : 0 < size.toNat) (halign : align.toNat.isPowerOfTwo ∨ align = 0#32) :
    allocBootmemCore ALIGN size align goal s =
      match findStart ALIGN s size align goal with
      | .hang => .error .hang
      | .exhausted => .ok (none, s)
      | .found start => (takeArea size align start s).map fun r ↦ (some r.1, r.2) := by
  rw [allocBootmemCore, if_neg (ne_zero_of_toNat_pos hsize)]
  exact if_neg (not_not.mpr (and_sub_one_eq_zero halign))

section

variable {ALIGN : Word → Word → Word} {s : BootState} {size align : Word}

/-- Page `p` can begin a run for the request. -/
def ViableStart (s : BootState) (size align : Word) (p : Nat) : Prop :=
  StrideScan.Viable s.busy s.bdata.nodeLowPfn.toNat (max (align.toNat / 4096) 1)
    ((size.toNat + 4095) / 4096) p

-- Wherever the node begins, the scan knows it by its page count alone.
theorem restartScan_answers_of_pages (hA : AlignSpec ALIGN)
    (hpages : (nodePages s.bdata).toNat < 2 ^ 31) (hsize : 1 ≤ size.toNat)
    (hsize' : size.toNat ≤ 2 ^ 32 - 4096) (halign : align.toNat.isPowerOfTwo ∨ align = 0#32)
    (i : Word) :
    StrideScan.Answers s.busy (nodePages s.bdata).toNat (max (align.toNat / 4096) 1)
      ((size.toNat + 4095) / 4096) (Align.roundUp i.toNat (max (align.toNat / 4096) 1))
      (restartScan ALIGN s size align i).toResult := by
  unfold restartScan
  dsimp only
  rw [scanFrom_eq_scan hA hpages (scanStride_isPowerOfTwo halign)
    (toNat_scanStride_lt align) (toNat_areaPages_lt size), toNat_areaPages hsize',
    toNat_scanStride]
  exact StrideScan.scan_answers (by omega) (by omega) (nextZero_spec s hpages) _ _ (by omega)
    (by omega)

theorem restartScan_answers (hA : AlignSpec ALIGN) (hnode : IndexedNode s.bdata)
    (hsize : 1 ≤ size.toNat) (hsize' : size.toNat ≤ 2 ^ 32 - 4096)
    (halign : align.toNat.isPowerOfTwo ∨ align = 0#32) (i : Word) :
    StrideScan.Answers s.busy s.bdata.nodeLowPfn.toNat (max (align.toNat / 4096) 1)
      ((size.toNat + 4095) / 4096) (Align.roundUp i.toNat (max (align.toNat / 4096) 1))
      (restartScan ALIGN s size align i).toResult := by
  have hpages := hnode.nodePages_eq
  rw [← hpages]
  apply restartScan_answers_of_pages hA _ hsize hsize' halign
  rw [hpages]
  exact hnode.nodeLowPfn

-- With a goal in the node the scan begins at it or at `last_success`, whichever is higher.
theorem toNat_preferredPage {b : BootmemData} (hnode : IndexedNode b)
    (halign : align.toNat.isPowerOfTwo) {goal : Word} (hne : goal ≠ 0#32)
    (hin : goal >>> pageShift < b.nodeLowPfn)
    (hfit : max goal.toNat b.lastSuccess.toNat + align.toNat ≤ 2 ^ 32) :
    (preferredPage b align goal).toNat =
      Align.roundUp (max goal.toNat b.lastSuccess.toNat) align.toNat / 4096 := by
  have hvalid : goal ≠ 0#32 ∧ b.nodeBootStart ≤ goal ∧ goal >>> pageShift < b.nodeLowPfn := by
    refine ⟨hne, ?_, hin⟩
    rw [hnode.nodeBootStart]
    exact BitVec.le_def.mpr (Nat.zero_le _)
  have hround : ∀ x : Word, x.toNat = max goal.toNat b.lastSuccess.toNat →
      (((x + align - 1#32) &&& ~~~(align - 1#32)) >>> pageShift + 0#32).toNat =
        Align.roundUp (max goal.toNat b.lastSuccess.toNat) align.toNat / 4096 := by
    intro x hx
    rw [BitVec.add_zero, toNat_shiftRight_pageShift, Align.toNat_align x halign (by omega), hx]
  rw [preferredPage, hnode.nodeOffset_eq, if_pos hvalid, hnode.nodeBootStart]
  dsimp only
  rw [BitVec.sub_zero]
  apply hround
  split
  next hle => exact (max_eq_right (BitVec.le_def.mp hle)).symm
  next hgt => exact (max_eq_left (BitVec.lt_def.mp (BitVec.not_le.mp hgt)).le).symm

-- Without a goal the scan begins at page 0.
theorem preferredPage_no_goal {b : BootmemData} (hnode : IndexedNode b)
    (halign : align.toNat.isPowerOfTwo) : preferredPage b align 0#32 = 0#32 := by
  have hround := Align.toNat_align 0#32 halign (by
    have := align.isLt
    rw [BitVec.toNat_zero]
    omega)
  rw [BitVec.toNat_zero, Align.roundUp_of_dvd (Nat.pos_of_isPowerOfTwo halign)
    (dvd_zero _)] at hround
  rw [preferredPage, hnode.nodeOffset_eq, if_neg (fun h ↦ h.1 rfl),
    BitVec.eq_of_toNat_eq (y := 0#32) hround]
  rfl

-- The preferred page is a multiple of the stride.
theorem stride_dvd_preferredPage (hnode : IndexedNode s.bdata) (goal : Word)
    (halign : align.toNat.isPowerOfTwo) :
    max (align.toNat / 4096) 1 ∣ (preferredPage s.bdata align goal).toNat := by
  rcases Nat.eq_zero_or_pos (align.toNat / 4096) with hz | hpos
  · rw [hz]
    exact one_dvd _
  -- an alignment of a page or more is a whole number of pages
  have ⟨c, hc⟩ := page_dvd_of_le halign (by omega)
  have hpage : ∀ x : Word, align.toNat / 4096 ∣
      ((((x + align - 1#32) &&& ~~~(align - 1#32)) >>> pageShift) + 0#32).toNat := by
    intro x
    rw [BitVec.add_zero, toNat_shiftRight_pageShift, Align.toNat_and_not_sub_one _ halign, hc,
      Nat.mul_div_cancel_left c (by decide), Nat.mul_left_comm,
      Nat.mul_div_cancel_left _ (by decide)]
    exact Nat.dvd_mul_left c _
  rw [max_eq_left hpos, preferredPage, hnode.nodeOffset_eq]
  exact hpage _

end

end AphroditeOs
