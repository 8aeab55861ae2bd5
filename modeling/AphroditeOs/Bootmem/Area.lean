import AphroditeOs.Bootmem.Scan

/-!
# The area a call takes

From `found` on the call does one of three things: it fits the request into the tail of the page
the last allocation ends in, it spills over from that tail, or it takes fresh pages.  In all three
the end of the region alone says which pages are reserved and what the new hints are.
-/

namespace AphroditeOs

/-- Physical address of the region for a scan that settled on page `start`. -/
def regionAddr (b : BootmemData) (align start : Word) : Nat :=
  if align < pageSize ∧ b.lastOffset ≠ 0#32 ∧ b.lastPos + 1#32 = start then
    b.lastPos.toNat * 4096 + Align.roundUp b.lastOffset.toNat align.toNat
  else start.toNat * 4096

def regionEnd (b : BootmemData) (size align start : Word) : Nat :=
  regionAddr b align start + size.toNat

/-- Pages from 0 on that hold a byte below `addr`. -/
def pagesBelow (addr : Nat) : Nat := (addr + 4095) / 4096

def nextHints (b : BootmemData) (size align start : Word) : BootmemData :=
  { b with
    lastSuccess := start <<< pageShift
    lastPos := BitVec.ofNat 32 (pagesBelow (regionEnd b size align start)) - 1#32
    lastOffset := BitVec.ofNat 32 (regionEnd b size align start % 4096) }

/-- The state after a call that settled on page `start`. -/
def allocEffect (s : BootState) (size align start : Word) : BootState :=
  { s with
    bdata := nextHints s.bdata size align start
    mem := (setRun s.mem s.bdata.map
      (pagesBelow (regionEnd s.bdata size align start) - start.toNat) start.toNat).fill
      (regionAddr s.bdata align start) 0x00#8 size.toNat }

/-- The hints name a page of the node, and an offset inside it. -/
structure TailOk (b : BootmemData) : Prop where
  lastOffset_lt : b.lastOffset.toNat < 4096
  lastPos_lt : b.lastOffset ≠ 0#32 → b.lastPos.toNat < b.nodeLowPfn.toNat

/-- An area for page `start` begins in the tail of page `last_pos`. -/
def UsesLastPage (b : BootmemData) (align start : Word) : Prop :=
  align < pageSize ∧ b.lastOffset ≠ 0#32 ∧ b.lastPos + 1#32 = start ∧
    Align.roundUp b.lastOffset.toNat align.toNat < 4096

/-- Alignments that pass the `BUG_ON` at the head of the call. -/
def AlignOk (align : Word) : Prop := align.toNat.isPowerOfTwo ∨ align = 0#32

/-! ## Reserving the pages -/

theorem testBit_setRun (mem : BitMemory) (addr count i p : Nat) :
    testBit (setRun mem addr count i) addr p = true ↔
      testBit mem addr p = true ∨ i ≤ p ∧ p < i + count := by
  induction count generalizing mem i with
  | zero =>
    rw [setRun]
    exact ⟨Or.inl, fun h ↦ h.resolve_right (by omega)⟩
  | succ count ih =>
    rw [setRun, ih, testBit_testAndSetBit]
    by_cases hp : p = i
    · subst hp
      simp
    · rw [if_neg hp]
      exact or_congr_right (by omega)

theorem reserveRun_eq (mem : BitMemory) (addr count i : Nat)
    (hfree : ∀ p, i ≤ p → p < i + count → testBit mem addr p = false) :
    reserveRun mem addr count i = .ok (setRun mem addr count i) := by
  induction count generalizing mem i with
  | zero => rfl
  | succ count ih =>
    have hi : (testAndSetBit mem addr i).1 = false := hfree i le_rfl (by omega)
    rw [reserveRun, setRun, hi, if_neg (by decide)]
    apply ih
    intro p hlo hhi
    rw [testBit_testAndSetBit, if_neg (by omega)]
    exact hfree p (by omega) (by omega)

/-! ## Placing the region -/

section

variable {b : BootmemData} {size align start : Word}

theorem toNat_mergeOffset (htail : TailOk b) (halign : AlignOk align) (hlt : align < pageSize) :
    ((b.lastOffset + align - 1#32) &&& ~~~(align - 1#32)).toNat =
      Align.roundUp b.lastOffset.toNat align.toNat := by
  have hoff := htail.lastOffset_lt
  rcases halign with hpow | rfl
  · rw [BitVec.lt_def, toNat_pageSize] at hlt
    exact Align.toNat_align _ hpow (by omega)
  · -- with no alignment the mask is empty, and the region begins with its page
    rw [show ~~~(0#32 - 1#32) = 0#32 from rfl, BitVec.and_zero]
    simp [Align.roundUp]

theorem mergeOffset_le (htail : TailOk b) (halign : AlignOk align) (hlt : align < pageSize) :
    Align.roundUp b.lastOffset.toNat align.toNat ≤ 4096 := by
  have hoff := htail.lastOffset_lt
  rw [BitVec.lt_def, toNat_pageSize] at hlt
  rcases halign with hpow | rfl
  · refine Align.roundUp_le (Nat.pos_of_isPowerOfTwo hpow) ?_ hoff.le
    exact dvd_page_of_lt hpow hlt
  · simp [Align.roundUp]

-- The region begins in page `start` or in the page before it, never above `start`.
theorem regionAddr_bounds (start : Word) (hnode : ZeroNode b) (htail : TailOk b)
    (halign : AlignOk align) :
    regionAddr b align start ≤ start.toNat * 4096 ∧
      start.toNat * 4096 ≤ regionAddr b align start + 4096 := by
  unfold regionAddr
  split
  next hmerge =>
    have hlow := hnode.nodeLowPfn
    have hpos := htail.lastPos_lt hmerge.2.1
    have hle := mergeOffset_le htail halign hmerge.1
    rw [← hmerge.2.2, toNat_add_one (by omega)]
    omega
  next => omega

theorem UsesLastPage.start_eq (hnode : ZeroNode b) (htail : TailOk b)
    (h : UsesLastPage b align start) : start.toNat = b.lastPos.toNat + 1 := by
  have hlow := hnode.nodeLowPfn
  have hpos := htail.lastPos_lt h.2.1
  rw [← h.2.2.1, toNat_add_one (by omega)]

theorem UsesLastPage.regionAddr_eq (h : UsesLastPage b align start) :
    regionAddr b align start =
      b.lastPos.toNat * 4096 + Align.roundUp b.lastOffset.toNat align.toNat :=
  if_pos ⟨h.1, h.2.1, h.2.2.1⟩

-- Every other area begins with page `start`.
theorem regionAddr_of_not_usesLastPage (hnode : ZeroNode b) (htail : TailOk b)
    (halign : AlignOk align) (h : ¬ UsesLastPage b align start) :
    regionAddr b align start = start.toNat * 4096 := by
  unfold regionAddr
  split
  next hmerge =>
    -- the tail of the last page has no room left, so the area begins where it ends
    have hlow := hnode.nodeLowPfn
    have hpos := htail.lastPos_lt hmerge.2.1
    have hle := mergeOffset_le htail halign hmerge.1
    have hfull : ¬ Align.roundUp b.lastOffset.toNat align.toNat < 4096 :=
      fun hlt ↦ h ⟨hmerge.1, hmerge.2.1, hmerge.2.2, hlt⟩
    rw [← hmerge.2.2, toNat_add_one (by omega)]
    omega
  next => rfl

theorem usesLastPage_iff (hnode : ZeroNode b) (htail : TailOk b) (halign : AlignOk align) :
    UsesLastPage b align start ↔ regionAddr b align start < start.toNat * 4096 := by
  constructor
  · intro h
    have hlt := h.2.2.2
    rw [h.regionAddr_eq, h.start_eq hnode htail]
    omega
  · intro hlt
    by_contra h
    rw [regionAddr_of_not_usesLastPage hnode htail halign h] at hlt
    exact lt_irrefl _ hlt

-- The physical address of the returned pointer.
theorem toNat_pa_regionAddr (hnode : ZeroNode b) (htail : TailOk b) (halign : AlignOk align)
    (hfit : start.toNat + (size.toNat + 4095) / 4096 ≤ b.nodeLowPfn.toNat) :
    (pa (va (BitVec.ofNat 32 (regionAddr b align start)))).toNat = regionAddr b align start := by
  have hlow := hnode.nodeLowPfn
  have haddr := (regionAddr_bounds start hnode htail halign).1
  rw [pa_va, toNat_ofNat_of_lt (by omega)]

theorem eq_ofNat_of_toNat {x : Word} {n : Nat} (h : x.toNat = n) : x = BitVec.ofNat 32 n := by
  rw [← h, BitVec.ofNat_toNat, BitVec.setWidth_eq]

theorem placeArea_fresh (hnode : ZeroNode b) (hsize : size.toNat ≤ 2 ^ 32 - 4096)
    (hfit : start.toNat + (size.toNat + 4095) / 4096 ≤ b.nodeLowPfn.toNat)
    (hmerge : ¬ (align < pageSize ∧ b.lastOffset ≠ 0#32 ∧ b.lastPos + 1#32 = start)) :
    placeArea b size align start =
      .ok (va (BitVec.ofNat 32 (regionAddr b align start)),
        BitVec.ofNat 32 (pagesBelow (regionEnd b size align start) - start.toNat),
        nextHints b size align start) := by
  have hlow := hnode.nodeLowPfn
  have harea := toNat_areaPages hsize
  have hpages : pagesBelow (start.toNat * 4096 + size.toNat) =
      start.toNat + (size.toNat + 4095) / 4096 := by
    unfold pagesBelow
    omega
  rw [placeArea, if_neg hmerge, nextHints, regionEnd, regionAddr, if_neg hmerge, hpages,
    hnode.nodeBootStart, BitVec.add_zero, Nat.add_sub_cancel_left]
  -- below 1 GB no product and no sum wraps
  have hret : start * pageSize = BitVec.ofNat 32 (start.toNat * 4096) := by
    apply eq_ofNat_of_toNat
    rw [BitVec.toNat_mul, toNat_pageSize, Nat.mod_eq_of_lt (by omega)]
  have hcount : areaPages size = BitVec.ofNat 32 ((size.toNat + 4095) / 4096) :=
    eq_ofNat_of_toNat harea
  have hnext : start + areaPages size =
      BitVec.ofNat 32 (start.toNat + (size.toNat + 4095) / 4096) := by
    apply eq_ofNat_of_toNat
    rw [BitVec.toNat_add, harea, Nat.mod_eq_of_lt (by omega)]
  have hoff : size &&& ~~~pageMask =
      BitVec.ofNat 32 ((start.toNat * 4096 + size.toNat) % 4096) := by
    apply eq_ofNat_of_toNat
    rw [toNat_and_not_pageMask, Nat.mul_add_mod_self_right]
  dsimp only
  rw [hret, hnext, hoff, ← hcount]

-- A region that ends in the tail page reserves no page more.
theorem tailFits {pos offset : Word} (hstart : start.toNat = pos.toNat + 1)
    (hsize : 1 ≤ size.toNat) (hlt : size.toNat < 4096 - offset.toNat) :
    pagesBelow (pos.toNat * 4096 + offset.toNat + size.toNat) = start.toNat ∧
      (offset + size) &&& ~~~pageMask =
        BitVec.ofNat 32 ((pos.toNat * 4096 + offset.toNat + size.toNat) % 4096) := by
  constructor
  · unfold pagesBelow
    omega
  · apply eq_ofNat_of_toNat
    rw [toNat_and_not_pageMask, BitVec.toNat_add, Nat.mod_eq_of_lt (b := 2 ^ 32) (by omega)]
    omega

theorem toNat_pageSize_sub {offset : Word} (hle : offset.toNat ≤ 4096) :
    (pageSize - offset).toNat = 4096 - offset.toNat := by
  rw [BitVec.toNat_sub_of_le (by rw [BitVec.le_def, toNat_pageSize]; exact hle), toNat_pageSize]

-- A region that leaves the tail page reserves the pages for what does not fit there.
theorem tailSpills {pos offset : Word} (hstart : start.toNat = pos.toNat + 1)
    (hle : offset.toNat ≤ 4096) (hge : ¬ size.toNat < 4096 - offset.toNat)
    (hsize : size.toNat ≤ 2 ^ 32 - 4096) :
    ((size - (pageSize - offset) + pageSize - 1#32) / pageSize).toNat =
        pagesBelow (pos.toNat * 4096 + offset.toNat + size.toNat) - start.toNat ∧
      start.toNat ≤ pagesBelow (pos.toNat * 4096 + offset.toNat + size.toNat) ∧
      (size - (pageSize - offset)) &&& ~~~pageMask =
        BitVec.ofNat 32 ((pos.toNat * 4096 + offset.toNat + size.toNat) % 4096) := by
  have hrem := toNat_pageSize_sub hle
  have hsub : (size - (pageSize - offset)).toNat = size.toNat - (4096 - offset.toNat) := by
    rw [BitVec.toNat_sub_of_le (by rw [BitVec.le_def, hrem]; omega), hrem]
  refine ⟨?_, ?_, ?_⟩
  · rw [toNat_add_pageSize_sub_one_div _ (by omega), hsub]
    unfold pagesBelow
    omega
  · unfold pagesBelow
    omega
  · apply eq_ofNat_of_toNat
    rw [toNat_and_not_pageMask, hsub]
    omega

theorem placeArea_merge (hnode : ZeroNode b) (htail : TailOk b) (halign : AlignOk align)
    (hsize : 1 ≤ size.toNat) (hfit : start.toNat + (size.toNat + 4095) / 4096 ≤ b.nodeLowPfn.toNat)
    (hmerge : align < pageSize ∧ b.lastOffset ≠ 0#32 ∧ b.lastPos + 1#32 = start) :
    placeArea b size align start =
      .ok (va (BitVec.ofNat 32 (regionAddr b align start)),
        BitVec.ofNat 32 (pagesBelow (regionEnd b size align start) - start.toNat),
        nextHints b size align start) := by
  have hlow := hnode.nodeLowPfn
  have hpos := htail.lastPos_lt hmerge.2.1
  have hoff := toNat_mergeOffset htail halign hmerge.1
  have hle := mergeOffset_le htail halign hmerge.1
  have hstart : start.toNat = b.lastPos.toNat + 1 := by
    rw [← hmerge.2.2, toNat_add_one (by omega)]
  rw [placeArea, if_pos hmerge, nextHints, regionEnd, regionAddr, if_pos hmerge,
    hnode.nodeBootStart]
  dsimp only
  rw [BitVec.add_zero]
  rw [← hoff] at hle ⊢
  generalize (b.lastOffset + align - 1#32) &&& ~~~(align - 1#32) = offset at hle ⊢
  have hret : b.lastPos * pageSize + offset =
      BitVec.ofNat 32 (b.lastPos.toNat * 4096 + offset.toNat) := by
    apply eq_ofNat_of_toNat
    rw [BitVec.toNat_add, BitVec.toNat_mul, toNat_pageSize,
      Nat.mod_eq_of_lt (a := b.lastPos.toNat * 4096) (by omega), Nat.mod_eq_of_lt (by omega)]
  have hrem := toNat_pageSize_sub hle
  rw [if_neg (by rw [BitVec.lt_def, toNat_pageSize]; omega), hret]
  by_cases hlt : size.toNat < 4096 - offset.toNat
  · -- fits into the tail: no page is reserved and `last_pos` stays
    obtain ⟨hpages, hnew⟩ := tailFits hstart hsize hlt
    have hlast : b.lastPos = BitVec.ofNat 32 start.toNat - 1#32 := by
      rw [BitVec.ofNat_toNat, BitVec.setWidth_eq, ← hmerge.2.2, BitVec.add_sub_cancel]
    rw [if_pos (by rw [BitVec.lt_def, hrem]; exact hlt), hpages, Nat.sub_self, ← hlast, hnew]
  · -- spills over into page `start` and the pages after it
    obtain ⟨harea, hbelow, hnew⟩ := @tailSpills size start _ offset hstart hle hlt (by omega)
    have hnext : start + (size - (pageSize - offset) + pageSize - 1#32) / pageSize =
        BitVec.ofNat 32 (pagesBelow (b.lastPos.toNat * 4096 + offset.toNat + size.toNat)) := by
      apply eq_ofNat_of_toNat
      rw [BitVec.toNat_add, harea, Nat.add_sub_cancel' hbelow, Nat.mod_eq_of_lt]
      unfold pagesBelow
      omega
    rw [if_neg (by rw [BitVec.lt_def, hrem]; exact hlt), hnext, hnew, ← eq_ofNat_of_toNat harea]

theorem placeArea_eq (hnode : ZeroNode b) (htail : TailOk b) (halign : AlignOk align)
    (hsize : 1 ≤ size.toNat) (hsize' : size.toNat ≤ 2 ^ 32 - 4096)
    (hfit : start.toNat + (size.toNat + 4095) / 4096 ≤ b.nodeLowPfn.toNat) :
    placeArea b size align start =
      .ok (va (BitVec.ofNat 32 (regionAddr b align start)),
        BitVec.ofNat 32 (pagesBelow (regionEnd b size align start) - start.toNat),
        nextHints b size align start) := by
  by_cases hmerge : align < pageSize ∧ b.lastOffset ≠ 0#32 ∧ b.lastPos + 1#32 = start
  · exact placeArea_merge hnode htail halign hsize hfit hmerge
  · exact placeArea_fresh hnode hsize' hfit hmerge

-- The region ends inside the pages the scan found.
theorem pagesBelow_regionEnd_le (size start : Word) (hnode : ZeroNode b) (htail : TailOk b)
    (halign : AlignOk align) :
    pagesBelow (regionEnd b size align start) ≤ start.toNat + (size.toNat + 4095) / 4096 := by
  have := (regionAddr_bounds start hnode htail halign).1
  unfold pagesBelow regionEnd
  omega

theorem lowNode_nextHints (hnode : LowNode b) : LowNode (nextHints b size align start) :=
  ⟨hnode.nodeBootStart, hnode.nodeLowPfn⟩

theorem zeroNode_nextHints (hnode : ZeroNode b) : ZeroNode (nextHints b size align start) :=
  ⟨hnode.nodeBootStart, hnode.nodeLowPfn⟩

theorem toNat_lastOffset_nextHints :
    (nextHints b size align start).lastOffset.toNat = regionEnd b size align start % 4096 := by
  rw [nextHints, toNat_ofNat_of_lt (by omega)]

theorem toNat_lastPos_nextHints (hnode : ZeroNode b) (htail : TailOk b) (halign : AlignOk align)
    (hsize : 1 ≤ size.toNat)
    (hfit : start.toNat + (size.toNat + 4095) / 4096 ≤ b.nodeLowPfn.toNat) :
    (nextHints b size align start).lastPos.toNat =
      pagesBelow (regionEnd b size align start) - 1 := by
  have hlow := hnode.nodeLowPfn
  have hle := pagesBelow_regionEnd_le size start hnode htail halign
  have hpos : 1 ≤ pagesBelow (regionEnd b size align start) := by
    unfold pagesBelow regionEnd
    omega
  have hval : (BitVec.ofNat 32 (pagesBelow (regionEnd b size align start))).toNat =
      pagesBelow (regionEnd b size align start) := by
    rw [toNat_ofNat_of_lt (by omega)]
  rw [nextHints, BitVec.toNat_sub_of_le (by rw [BitVec.le_def, hval]; exact hpos), hval]
  rfl

theorem tailOk_nextHints (hnode : ZeroNode b) (htail : TailOk b) (halign : AlignOk align)
    (hsize : 1 ≤ size.toNat)
    (hfit : start.toNat + (size.toNat + 4095) / 4096 ≤ b.nodeLowPfn.toNat) :
    TailOk (nextHints b size align start) := by
  constructor
  · rw [toNat_lastOffset_nextHints]
    exact Nat.mod_lt _ (by decide)
  · intro _
    rw [toNat_lastPos_nextHints hnode htail halign hsize hfit]
    have hle := pagesBelow_regionEnd_le size start hnode htail halign
    change _ < b.nodeLowPfn.toNat
    omega

end

/-! ## The call as a whole -/

section

variable {ALIGN : Word → Word → Word} {s : BootState} {size align goal start : Word}

theorem takeArea_eq (hnode : ZeroNode s.bdata) (htail : TailOk s.bdata) (halign : AlignOk align)
    (hsize : 1 ≤ size.toNat) (hsize' : size.toNat ≤ 2 ^ 32 - 4096)
    (hstart : ViableStart s size align start.toNat) :
    takeArea size align start s =
      .ok (va (BitVec.ofNat 32 (regionAddr s.bdata align start)),
        allocEffect s size align start) := by
  have hlow := hnode.nodeLowPfn
  obtain ⟨-, hfit, hfree⟩ := hstart
  have hle := pagesBelow_regionEnd_le size start hnode htail halign
  have hcount : (start + BitVec.ofNat 32
      (pagesBelow (regionEnd s.bdata size align start) - start.toNat)).toNat - start.toNat =
      pagesBelow (regionEnd s.bdata size align start) - start.toNat := by
    rw [BitVec.toNat_add, BitVec.toNat_ofNat,
      Nat.mod_eq_of_lt (a := pagesBelow _ - _) (by omega), Nat.mod_eq_of_lt (by omega),
      Nat.add_sub_cancel_left]
  have hreserve := reserveRun_eq s.mem s.bdata.map
    (pagesBelow (regionEnd s.bdata size align start) - start.toNat) start.toNat
    (fun p hlo hhi ↦ hfree p hlo (by omega))
  have hmap : (nextHints s.bdata size align start).map = s.bdata.map := rfl
  -- the loop finds every page free, so it does not run into `BUG()`
  rw [takeArea, placeArea_eq hnode htail halign hsize hsize' hfit]
  change (reserveRun s.mem (nextHints s.bdata size align start).map _ _ >>= _) = _
  rw [hmap, hcount, hreserve]
  change Except.ok _ = _
  rw [toNat_pa_regionAddr hnode htail halign hfit]
  rfl

theorem findStart_cases (goal : Word) (hA : AlignSpec ALIGN) (hnode : ZeroNode s.bdata)
    (hsize : 1 ≤ size.toNat) (hsize' : size.toNat ≤ 2 ^ 32 - 4096) (halign : AlignOk align) :
    findStart ALIGN s size align goal = .exhausted ∨
      ∃ start, findStart ALIGN s size align goal = .found start ∧
        ViableStart s size align start.toNat := by
  have hcases : ∀ i, restartScan ALIGN s size align i = .exhausted ∨
      ∃ start, restartScan ALIGN s size align i = .found start ∧
        ViableStart s size align start.toNat := by
    intro i
    have hans := restartScan_answers hA hnode.indexed hsize hsize' halign i
    cases hr : restartScan ALIGN s size align i with
    | exhausted => exact Or.inl rfl
    | found start =>
      rw [hr] at hans
      exact Or.inr ⟨start, rfl, hans.1⟩
    | hang =>
      rw [hr] at hans
      exact hans.elim
  unfold findStart
  dsimp only
  rcases hcases (preferredPage s.bdata align goal) with hr | ⟨start, hr, hv⟩
  · rw [hr]
    dsimp only
    split
    · exact hcases _
    · exact Or.inl rfl
  · rw [hr]
    exact Or.inr ⟨start, rfl, hv⟩

-- A scan that settles on a page decides the call.
theorem allocBootmemCore_of_found (hA : AlignSpec ALIGN) (hnode : ZeroNode s.bdata)
    (htail : TailOk s.bdata) (hsize : 1 ≤ size.toNat) (hsize' : size.toNat ≤ 2 ^ 32 - 4096)
    (halign : AlignOk align) (h : findStart ALIGN s size align goal = .found start) :
    allocBootmemCore ALIGN size align goal s =
      .ok (some (va (BitVec.ofNat 32 (regionAddr s.bdata align start))),
        allocEffect s size align start) := by
  rcases findStart_cases goal hA hnode hsize hsize' halign with hr | ⟨start', hr, hv⟩
  · rw [h] at hr
    contradiction
  rw [h] at hr
  obtain rfl := Scan.found.inj hr
  rw [allocBootmemCore_eq (by omega) halign, h]
  dsimp only
  rw [takeArea_eq hnode htail halign hsize hsize' hv]
  rfl

/-- Everything a call can do: return `NULL` and change nothing, or take an area. -/
theorem allocBootmemCore_cases (goal : Word) (hA : AlignSpec ALIGN) (hnode : ZeroNode s.bdata)
    (htail : TailOk s.bdata) (hsize : 1 ≤ size.toNat) (hsize' : size.toNat ≤ 2 ^ 32 - 4096)
    (halign : AlignOk align) :
    allocBootmemCore ALIGN size align goal s = .ok (none, s) ∨
      ∃ start, findStart ALIGN s size align goal = .found start ∧
        ViableStart s size align start.toNat ∧
        allocBootmemCore ALIGN size align goal s =
          .ok (some (va (BitVec.ofNat 32 (regionAddr s.bdata align start))),
            allocEffect s size align start) := by
  rcases findStart_cases goal hA hnode hsize hsize' halign with hr | ⟨start, hr, hv⟩
  · left
    rw [allocBootmemCore_eq (by omega) halign, hr]
  · exact Or.inr ⟨start, hr, hv, allocBootmemCore_of_found hA hnode htail hsize hsize' halign hr⟩

theorem map_allocEffect (s : BootState) (size align start : Word) :
    (allocEffect s size align start).bdata.map = s.bdata.map := rfl

theorem nodeLowPfn_allocEffect (s : BootState) (size align start : Word) :
    (allocEffect s size align start).bdata.nodeLowPfn = s.bdata.nodeLowPfn := rfl

/-- After the call a page is reserved if it was, or if it is one of the new ones, unless the
`memset` has hit its bit. -/
theorem busy_allocEffect (s : BootState) (size align start : Word) (p : Nat) :
    (allocEffect s size align start).busy p = true ↔
      (s.busy p = true ∨
        start.toNat ≤ p ∧ p < pagesBelow (regionEnd s.bdata size align start)) ∧
      ¬ (8 * regionAddr s.bdata align start ≤ 8 * s.bdata.map + p ∧
        8 * s.bdata.map + p < 8 * regionEnd s.bdata size align start) := by
  have hmap : (allocEffect s size align start).bdata.map = s.bdata.map := rfl
  unfold BootState.busy
  rw [hmap]
  unfold allocEffect testBit
  dsimp only
  by_cases hin : 8 * regionAddr s.bdata align start ≤ 8 * s.bdata.map + p ∧
      8 * s.bdata.map + p < 8 * regionEnd s.bdata size align start
  · rw [BitMemory.fill_zero_inside hin.1 hin.2]
    simp [hin]
  · rw [BitMemory.fill_outside (by unfold regionEnd at hin; omega)]
    have hset := testBit_setRun s.mem s.bdata.map
      (pagesBelow (regionEnd s.bdata size align start) - start.toNat) start.toNat p
    unfold testBit at hset
    rw [hset]
    constructor
    · rintro (h | h)
      · exact ⟨Or.inl h, hin⟩
      · exact ⟨Or.inr ⟨h.1, by omega⟩, hin⟩
    · rintro ⟨h | h, -⟩
      · exact Or.inl h
      · exact Or.inr ⟨h.1, by omega⟩

end

end AphroditeOs
